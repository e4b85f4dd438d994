import CS162.Threads.Donation
import CS162.Threads.Members

/-!
# The running thread has the highest priority

`schedule` picks a thread of the highest priority.  The property can be lost when a thread
becomes ready or the running one is lowered; every operation that does so still has
`thread_yield` to execute (`yieldPending`), except the interrupts inside a time slice and the
taking of a lock, which `KeepsHighest` excludes.
-/

namespace CS162.Threads

open List Option Kernel Function

/-- The lock that the section takes when it finds it free, without having entered
the priority of the taker into it. -/
def Frame.lateTake : Frame → Option LockId
  | .lockAcquire l => some l
  | .call (.lockTryAcquire l) => some l
  | _ => none

namespace Kernel

/-- No thread in `ready_list` has a higher priority than the running thread. -/
def HighestRuns (σ : Kernel) : Prop :=
  ∀ t ∈ σ.readyList, σ.priority t ≤ σ.priority σ.current

/-- The operation the running thread is in ends with a `thread_yield` that it
executes next. -/
def yieldPending (σ : Kernel) : Bool :=
  (σ.code σ.current).head? = some .threadYield

/-- The running thread executes with interrupts on, and not inside an operation
that has still to yield. -/
def executing (σ : Kernel) : Bool :=
  σ.intrOn && !σ.yieldPending

/-- If the locks of the running thread and `l` remember more than its own
priority, they remember no less than the priority of any ready thread. -/
def TakesHigh (σ : Kernel) (l : LockId) : Prop :=
  ∀ k ∈ σ.lockList σ.current ++ [l],
    (∀ j ∈ σ.lockList σ.current ++ [l], σ.maxPriority j ≤ σ.maxPriority k) →
    σ.instrinsicPriority σ.current < σ.maxPriority k →
    ∀ t ∈ σ.readyList, σ.priority t ≤ σ.maxPriority k

/-- The step does not leave a ready thread above the running one: an interrupt
that does not end the time slice wakes no thread of a higher priority, and
taking a lock does not lower the taker below a ready thread. -/
def KeepsHighest (σ : Kernel) : Act → Prop
  | .exec _ =>
    ∀ l ∈ (σ.code σ.current).head?.bind Frame.lateTake,
      σ.value (.lock l) ≠ 0 → TakesHigh σ l
  | .timer =>
    timeSlice ≤ σ.threadTicks + 1 ∨ σ.yieldPending = true ∨
      ∀ t ∈ σ.sleepList.takeWhile fun t => σ.wakeupTime t ≤ σ.ticks + 1,
        σ.priority t ≤ σ.priority σ.current
  | .intrSemaUp s =>
    σ.yieldPending = true ∨
      ∀ t ∈ σ.waiters (.sema s), σ.priority t ≤ σ.priority σ.current
  | _ => True

instance (σ : Kernel) (l : LockId) : Decidable (TakesHigh σ l) :=
  inferInstanceAs (Decidable (∀ k ∈ σ.lockList σ.current ++ [l],
    (∀ j ∈ σ.lockList σ.current ++ [l], σ.maxPriority j ≤ σ.maxPriority k) →
    σ.instrinsicPriority σ.current < σ.maxPriority k →
    ∀ t ∈ σ.readyList, σ.priority t ≤ σ.maxPriority k))

instance (σ : Kernel) : ∀ a, Decidable (KeepsHighest σ a)
  | .exec _ => inferInstanceAs (Decidable (∀ l ∈ (σ.code σ.current).head?.bind
      Frame.lateTake, σ.value (.lock l) ≠ 0 → TakesHigh σ l))
  | .timer => inferInstanceAs (Decidable (_ ∨ _ ∨ ∀ t ∈ _, _))
  | .intrSemaUp _ => inferInstanceAs (Decidable (_ ∨ ∀ t ∈ _, _))
  | .call _ => isTrue trivial
  | .intrSemaTryDown _ => isTrue trivial
  | .switchYield => isTrue trivial

variable {σ σ' : Kernel} {l : LockId} {n : ℕ}

theorem schedule_highestRuns (σ : Kernel) : HighestRuns σ.schedule := by
  cases h : listMax σ.priority σ.readyList with
  | none =>
    rw [schedule_of_none h]
    intro t ht
    have hnil : σ.readyList = [] := listMax_eq_none.mp h
    have ht' : t ∈ σ.readyList := ht
    rw [hnil] at ht'
    cases ht'
  | some u =>
    rw [schedule_of_some h]
    intro t ht
    exact le_of_listMax (mem_of_mem_erase ht) h

theorem threadYield_highestRuns (h : σ.enableYield = true) : HighestRuns σ.threadYield := by
  rw [threadYield, if_pos h]
  exact schedule_highestRuns _

/-- The running thread will yield, or it has the highest priority. -/
def YieldsOrHighest (σ : Kernel) : Prop :=
  σ.yieldPending = true ∨ HighestRuns σ

theorem yieldPending_pushCode (gs : List Frame) :
    (σ.pushCode (.threadYield :: gs)).yieldPending = true := by
  simp [yieldPending, pushCode, setCode]

theorem takeLock_highestRuns (h : HighestRuns σ) (hk : TakesHigh σ l) :
    HighestRuns (σ.takeLock l) := by
  rcases adjustPriority_cases { σ with
    holder := update σ.holder l (some σ.current)
    lockList := update σ.lockList σ.current (σ.lockList σ.current ++ [l]) }
    σ.current with ⟨hnil, -⟩ | ⟨k, hmem, hmax, e⟩
  · simp at hnil
  simp only [update_self] at hmem hmax
  unfold takeLock
  rw [e]
  intro t ht
  have hself : ∀ x, update σ.priority σ.current x t ≤ x ∨
      update σ.priority σ.current x t = σ.priority t := by
    intro x
    by_cases e : t = σ.current
    · exact .inl (by simp [e])
    · exact .inr (by simp [e])
  simp only [setPriority, update_self]
  split
  · next hlt =>
      rcases hself (σ.maxPriority k) with h' | h'
      · exact h'
      · rw [h']
        exact hk k hmem hmax hlt t ht
  · rcases hself (σ.priority σ.current) with h' | h'
    · exact h'
    · rw [h']
      exact h t ht

theorem HighestRuns.of_eq (h : HighestRuns σ) (hr : σ'.readyList = σ.readyList)
    (hp : σ'.priority = σ.priority) (hc : σ'.current = σ.current) : HighestRuns σ' := by
  unfold HighestRuns
  rw [hr, hp, hc]
  exact h

theorem threadBlock_highestRuns (σ : Kernel) : HighestRuns σ.threadBlock :=
  schedule_highestRuns _

theorem semaDownLoop_highestRuns {r : SemaRef} (h : HighestRuns σ) :
    HighestRuns (σ.semaDownLoop r) := by
  unfold semaDownLoop
  split
  · exact threadBlock_highestRuns _
  · exact h.of_eq rfl rfl rfl

theorem lockAcquireLoop_highestRuns (h : HighestRuns σ)
    (hk : σ.value (.lock l) ≠ 0 → TakesHigh σ l) : HighestRuns (σ.lockAcquireLoop l) := by
  unfold lockAcquireLoop
  split
  · exact threadBlock_highestRuns _
  · next hv =>
      have htake : HighestRuns ((σ.setValue (.lock l) (σ.value (.lock l) - 1)).takeLock l) :=
        takeLock_highestRuns (h.of_eq rfl rfl rfl) (hk hv)
      exact htake.of_eq rfl rfl rfl

theorem lockAcquire_highestRuns (hv : LockValue σ) (h : HighestRuns σ)
    (ha : lockAcquire n σ l = some σ') : HighestRuns σ' := by
  unfold lockAcquire at ha
  split at ha
  · cases ha
  obtain ⟨σ₁, h1, rfl⟩ := map_eq_some_iff.mp ha
  by_cases h0 : σ.value (.lock l) = 0
  · have hval : σ₁.value = σ.value := by
      obtain ⟨p, m, -, rfl⟩ := flushPriority_eq h1
      rfl
    rw [lockAcquireLoop, if_pos (hval ▸ h0)]
    exact threadBlock_highestRuns _
  · have hst := flushPriority_free (σ := σ.setWaitingLock σ.current (some l))
      (by simp [setWaitingLock]) (hv.holder_of_value h0) h1
    have hm : σ₁.maxPriority l = max (σ.priority σ.current) (σ.maxPriority l) := by
      rw [hst]
      simp [setMaxPriority, setWaitingLock]
    have h1' : HighestRuns σ₁ := by
      rw [hst]
      exact h.of_eq rfl rfl rfl
    have hp : σ₁.priority σ₁.current ≤ σ₁.maxPriority l := by
      rw [hm, hst]
      exact le_max_left _ _
    refine lockAcquireLoop_highestRuns h1' ?_
    intro _ k _ hmax _ t ht
    calc σ₁.priority t ≤ σ₁.priority σ₁.current := h1' t ht
      _ ≤ σ₁.maxPriority l := hp
      _ ≤ σ₁.maxPriority k := hmax l (by simp)

theorem lockTryAcquire_highestRuns (h : HighestRuns σ) (hk : σ.value (.lock l) ≠ 0 → TakesHigh σ l)
    (ha : σ.lockTryAcquire l = some σ') : HighestRuns σ' := by
  unfold lockTryAcquire at ha
  split at ha
  · cases ha
  by_cases h0 : 0 < σ.value (.lock l)
  · simp only [semaTryDown, h0, if_true] at ha
    cases ha
    exact takeLock_highestRuns (h.of_eq rfl rfl rfl) (hk (by omega))
  · simp only [semaTryDown, h0, if_false] at ha
    cases ha
    exact h

theorem enter_yieldsOrHighest {op : Op} (hw : ∀ t ∈ σ.readyList, t ∈ σ.allList)
    (hc : σ.current ∈ σ.allList) (hv : LockValue σ) (hy : σ.enableYield = true) (h : HighestRuns σ)
    (hk : ∀ l, op = .lockTryAcquire l → σ.value (.lock l) ≠ 0 → TakesHigh σ l)
    (he : enter n σ op = some σ') : YieldsOrHighest σ' := by
  cases op with
  | semaDown r =>
    cases he
    exact .inr (semaDownLoop_highestRuns h)
  | semaTryDown r =>
    cases he
    rcases semaTryDown_eq r with ⟨-, e⟩ | ⟨-, e⟩
    · rw [e]
      exact .inr h
    · rw [e]
      exact .inr (h.of_eq rfl rfl rfl)
  | semaUp r =>
    obtain ⟨σ₁, h1, rfl⟩ := map_eq_some_iff.mp he
    exact .inl (yieldPending_pushCode [])
  | lockAcquire l => exact .inr (lockAcquire_highestRuns hv h he)
  | lockTryAcquire l => exact .inr (lockTryAcquire_highestRuns h (hk l rfl) he)
  | lockRelease l =>
    obtain ⟨-, he⟩ := ite_none_right_eq_some.mp he
    obtain ⟨σ₁, h1, rfl⟩ := map_eq_some_iff.mp he
    refine .inr (threadYield_highestRuns ?_)
    obtain ⟨p, -, hp⟩ := dropLock_eq σ l
    rw [hp] at h1
    obtain ⟨st, ws, rl, -, rfl⟩ := semaUpWake_eq h1
    exact hy
  | condWait c l =>
    obtain ⟨-, he⟩ := ite_none_right_eq_some.mp he
    cases he
    exact .inr (h.of_eq rfl rfl rfl)
  | condSignal c l =>
    obtain ⟨-, he⟩ := ite_none_right_eq_some.mp he
    split at he
    · cases he
      exact .inr h
    · cases he
      exact .inr (h.of_eq rfl rfl rfl)
  | condBroadcast c l =>
    cases he
    unfold condBroadcast
    split
    · exact .inr h
    · exact .inr (h.of_eq rfl rfl rfl)
  | threadCreate t p =>
    obtain ⟨ht, -, -, rfl⟩ := threadCreate_eq he
    refine .inr fun u hu => ?_
    have hne : u ≠ t := fun e => ht (e ▸ hw u hu)
    have hnc : σ.current ≠ t := fun e => ht (e ▸ hc)
    simpa [pushCode, setCode, initThread, hne, hnc] using h u hu
  | threadSetPriority p =>
    cases he
    exact .inl (yieldPending_pushCode [])
  | threadYield =>
    cases he
    exact .inr (threadYield_highestRuns hy)
  | timerSleep k =>
    cases he
    exact .inr (h.of_eq rfl rfl rfl)
  | threadSleep w =>
    cases he
    exact .inr (threadBlock_highestRuns _)
  | threadExit =>
    cases he
    exact .inr (schedule_highestRuns _)

theorem execFrame_yieldsOrHighest {f : Frame} {fs : List Frame} (hi : LockInv σ)
    (hy : σ.enableYield = true) (h : YieldsOrHighest σ) (hc : σ.code σ.current = f :: fs)
    (hk : KeepsHighest σ (.exec n)) (he : execFrame n (σ.setCode σ.current fs) f = some σ') :
    YieldsOrHighest σ' := by
  have hready : ∀ t ∈ σ.readyList, t ∈ σ.allList := by
    intro t ht
    rw [hi.placed.mem_all_iff, ((hi.placed.mem_ready_iff t).mp ht).1]
    simp
  have hv := hi.lockValue.of_same (setCode_sameLocks σ.current fs)
  have hhigh : f ≠ .threadYield → HighestRuns (σ.setCode σ.current fs) := by
    intro hf
    rcases h with h | h
    · simp [yieldPending, hc, hf] at h
    · exact h.of_eq rfl rfl rfl
  simp only [KeepsHighest, hc, head?_cons, bind_some] at hk
  cases f with
  | call op =>
    have hmem : σ.current ∈ σ.allList := current_mem_all hi.placed
    refine enter_yieldsOrHighest (σ := σ.setCode σ.current fs) hready hmem hv hy
      (hhigh (by simp)) ?_ he
    rintro l rfl
    exact hk l rfl
  | semaDown r =>
    cases he
    exact .inr (semaDownLoop_highestRuns (hhigh (by simp)))
  | lockAcquire l =>
    cases he
    exact .inr (lockAcquireLoop_highestRuns (hhigh (by simp)) (hk l rfl))
  | lockRelease l =>
    cases he
    exact .inl (yieldPending_pushCode [])
  | threadSleep =>
    cases he
    exact .inr (hhigh (by simp))
  | threadYield =>
    cases he
    exact .inr (threadYield_highestRuns hy)
  | allocateTid t =>
    cases he
    exact .inr ((hhigh (by simp)).of_eq rfl rfl rfl)
  | startThread t v =>
    obtain ⟨σ₁, h1, rfl⟩ := map_eq_some_iff.mp he
    exact .inl (yieldPending_pushCode [])
  | idle =>
    cases he
    exact .inr (threadBlock_highestRuns _)

theorem threadAlarmLoop_readyList {now : ℤ} {ts : List Tid}
    (ha : threadAlarmLoop now ts σ = some σ') :
    σ'.readyList = σ.readyList ++ ts.takeWhile fun t => σ.wakeupTime t ≤ now := by
  induction ts generalizing σ with
  | nil =>
    cases ha
    simp
  | cons t ts ih =>
    unfold threadAlarmLoop at ha
    split at ha
    · next hle =>
        obtain ⟨σ₁, h1, h2⟩ := bind_eq_some_iff.mp ha
        obtain ⟨-, rfl⟩ := threadUnblock_eq h1
        rw [ih h2, takeWhile_cons_of_pos (by simpa using hle)]
        exact append_assoc σ.readyList [t] _
    · next hlt =>
        cases ha
        rw [takeWhile_cons_of_neg (by simpa using hlt), append_nil]

theorem timerInterrupt_yieldsOrHighest (hy : σ.enableYield = true) (h : YieldsOrHighest σ)
    (hk : KeepsHighest σ .timer) (ht : σ.timerInterrupt = some σ') : YieldsOrHighest σ' := by
  obtain ⟨σ₁, h1, rfl⟩ := map_eq_some_iff.mp ht
  have hready := threadAlarmLoop_readyList h1
  obtain ⟨st, rl, sl, -, rfl⟩ := threadAlarmLoop_eq h1
  unfold tickReturn
  split
  · exact .inr (threadYield_highestRuns hy)
  · next hslice =>
      have hnot : ¬ timeSlice ≤ σ.threadTicks + 1 := by simpa [threadTick] using hslice
      rcases h with h | h
      · exact .inl h
      rcases hk with hk | hk | hk
      · exact absurd hk hnot
      · exact .inl hk
      · refine .inr fun t ht => ?_
        have ht' : t ∈ rl := ht
        rw [show rl = _ from hready] at ht'
        rcases mem_append.mp ht' with ht' | ht'
        · exact h t ht'
        · exact hk t ht'

theorem intrSemaUp_yieldsOrHighest {s : ℕ} (h : YieldsOrHighest σ)
    (hk : KeepsHighest σ (.intrSemaUp s)) (hs : σ.semaUpWake (.sema s) = some σ') :
    YieldsOrHighest σ' := by
  obtain ⟨σ₁, h1, rfl⟩ := map_eq_some_iff.mp hs
  unfold wakeMaxWaiter at h1
  split at h1
  · cases h1
    rcases h with h | h
    · exact .inl h
    · exact .inr (h.of_eq rfl rfl rfl)
  · next u hu =>
      obtain ⟨-, rfl⟩ := threadUnblock_eq h1
      rcases h with h | h
      · exact .inl h
      rcases hk with hk | hk
      · exact .inl hk
      · refine .inr fun t ht => ?_
        rcases mem_append.mp ht with ht | ht
        · exact h t ht
        · rw [mem_singleton.mp ht]
          exact hk u (listMax_mem hu)

theorem step_enableYield {a : Act} (hy : σ.enableYield = true)
    (hs : σ.step a = some σ') : σ'.enableYield = true := by
  cases a with
  | exec n =>
    obtain ⟨f, fs, -, he⟩ := exec_cases hs
    rw [(Leaves.execFrame he).enableYield]
    exact hy
  | call op =>
    obtain ⟨-, hs⟩ := ite_none_right_eq_some.mp hs
    cases hs
    exact hy
  | _ =>
    cases step_interrupted (by simp) (by simp) hs <;> first | exact hy | rfl

theorem step_yieldsOrHighest {a : Act} (hi : LockInv σ) (hy : σ.enableYield = true)
    (h : YieldsOrHighest σ) (hk : KeepsHighest σ a) (hs : σ.step a = some σ') :
    YieldsOrHighest σ' := by
  cases a with
  | exec n =>
    obtain ⟨f, fs, hc, he⟩ := exec_cases hs
    exact execFrame_yieldsOrHighest hi hy h hc hk he
  | call op =>
    obtain ⟨⟨hnil, -⟩, hs⟩ := ite_none_right_eq_some.mp hs
    cases hs
    rcases h with h | h
    · simp [yieldPending, hnil] at h
    · exact .inr (h.of_eq rfl rfl rfl)
  | timer =>
    obtain ⟨-, hs⟩ := ite_none_right_eq_some.mp hs
    exact timerInterrupt_yieldsOrHighest hy h hk hs
  | intrSemaUp s =>
    obtain ⟨-, hs⟩ := ite_none_right_eq_some.mp hs
    exact intrSemaUp_yieldsOrHighest h hk hs
  | intrSemaTryDown s =>
    obtain ⟨-, hs⟩ := ite_none_right_eq_some.mp hs
    cases hs
    rcases semaTryDown_eq (.sema s) with ⟨-, e⟩ | ⟨-, e⟩
    · rw [e]
      exact h
    · rw [e]
      exact h
  | switchYield =>
    obtain ⟨-, hs⟩ := ite_none_right_eq_some.mp hs
    cases hs
    exact h

end Kernel

/-- In every run after the boot whose interrupts wake no thread above the running
one without ending its time slice, and in which taking a lock does not lower the
taker below a ready thread, the running thread has the highest priority whenever
it executes with interrupts on. -/
theorem run_highestRuns {v : ℕ → ℕ} {acts : List Act} {σ : Kernel}
    (hk : Run.Meets step Kernel.KeepsHighest (boot true v) acts)
    (hr : Run.run step (boot true v) acts = some σ)
    (he : σ.executing = true) :
    ∀ t ∈ σ.readyList, σ.priority t ≤ σ.priority σ.current := by
  have h : LockInv σ ∧ σ.enableYield = true ∧ Kernel.YieldsOrHighest σ := by
    refine Run.run_invariant (I := fun σ => LockInv σ ∧ σ.enableYield = true ∧
      Kernel.YieldsOrHighest σ) ?_ ⟨boot_lockInv true v, rfl, .inr nofun⟩ hk hr
    rintro σ a σ' ⟨hi, hy, h⟩ hk hs
    exact ⟨step_lockInv hi hs, step_enableYield hy hs, step_yieldsOrHighest hi hy h hk hs⟩
  rcases h.2.2 with hp | hp
  · simp [executing, hp] at he
  · exact hp

def create (p : ℤ) : List Act :=
  [.call (.threadCreate 2 p), .exec 1, .exec 1, .exec 1, .exec 1, .exec 1, .exec 1,
    .exec 1, .exec 1]

/-- A thread of a lower priority is created, and a timer tick passes. -/
def createLower : List Act :=
  create 20 ++ [.timer]

theorem run_highestRuns_createLower :
    ∃ σ, Run.run step (boot true fun _ => 0) createLower = some σ ∧
      σ.current = 0 ∧ σ.readyList = [2] ∧
      ∀ t ∈ σ.readyList, σ.priority t ≤ σ.priority σ.current := by
  have hobs : (Run.run step (boot true fun _ => 0) createLower).map
      (fun σ => (σ.current, σ.readyList, σ.executing)) = some (0, [2], true) := rfl
  obtain ⟨σ, hr, ho⟩ := map_eq_some_iff.mp hobs
  simp only [Prod.mk.injEq] at ho
  obtain ⟨hc, hl, he⟩ := ho
  exact ⟨σ, hr, hc, hl, run_highestRuns (by decide) hr he⟩

/-- A thread of priority 40 is created and sleeps for one tick. -/
def sleepOneTick : List Act :=
  create 40 ++ [.call (.timerSleep 1), .exec 1, .exec 1, .timer]

/-- The timer interrupt that wakes the thread of priority 40 returns to the
initial thread, of priority 31. -/
theorem timer_wakes_higher :
    ∃ σ, Run.run step (boot true fun _ => 0) sleepOneTick = some σ ∧
      σ.executing = true ∧
      ¬ ∀ t ∈ σ.readyList, σ.priority t ≤ σ.priority σ.current := by
  have hobs : (Run.run step (boot true fun _ => 0) sleepOneTick).map
      (fun σ => (σ.current, σ.readyList, σ.executing, σ.priority 0, σ.priority 2)) =
        some (0, [2], true, 31, 40) := by decide +kernel
  obtain ⟨σ, hr, ho⟩ := map_eq_some_iff.mp hobs
  simp only [Prod.mk.injEq] at ho
  obtain ⟨hc, hl, he, h0, h2⟩ := ho
  refine ⟨σ, hr, he, fun h => ?_⟩
  have := h 2 (by simp [hl])
  rw [hc, h0, h2] at this
  omega

end CS162.Threads
