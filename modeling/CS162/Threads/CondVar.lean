import CS162.Threads.Members

/-!
# Which waiter a signal wakes

`cond_wait` enters its `struct semaphore_elem` with `lock->max_priority` as the rank, and
`cond_signal` takes the element of the highest rank.  The rank is the priority of the waiting
thread if, at the call, the thread holds no other lock and `max_priority` is its own
priority.
-/

namespace CS162.Threads

open Option List Function

def Frame.slot : Frame → Option ℕ
  | .call (.semaDown (.waiter w)) => some w
  | .semaDown (.waiter w) => some w
  | _ => none

/-- `t` is inside `cond_wait`, with its `struct semaphore_elem` in the slot
`w`. -/
def WaitsAt (σ : Kernel) (t : Tid) (w : ℕ) : Prop :=
  ∃ f ∈ σ.code t, f.slot = some w

/-- A thread inside `cond_signal` is going to wake the slot `w`. -/
def Signalled (σ : Kernel) (w : ℕ) : Prop :=
  ∃ t, .call (.semaUp (.waiter w)) ∈ σ.code t

/-- The slots of the waiters of the conditions: each is used by one element and
by one thread, and nobody has woken it. -/
structure SlotsOk (σ : Kernel) : Prop where
  waits_lt : ∀ t w, WaitsAt σ t w → w < σ.nextWaiter
  signalled_lt : ∀ w, Signalled σ w → w < σ.nextWaiter
  cond_lt : ∀ c, ∀ e ∈ σ.condWaiters c, e.semaphore < σ.nextWaiter
  waits_unique : ∀ t u w, WaitsAt σ t w → WaitsAt σ u w → t = u
  nodup : ∀ c, ((σ.condWaiters c).map SemaphoreElem.semaphore).Nodup
  apart : ∀ c c' e e', e ∈ σ.condWaiters c → e' ∈ σ.condWaiters c' →
    e.semaphore = e'.semaphore → c = c'
  zero : ∀ c, ∀ e ∈ σ.condWaiters c, σ.value (.waiter e.semaphore) = 0
  unsignalled : ∀ c, ∀ e ∈ σ.condWaiters c, ¬ Signalled σ e.semaphore

/-- A step in which no thread enters or leaves the waiters of a condition. -/
structure QuietStep (σ σ' : Kernel) : Prop where
  condWaiters : σ'.condWaiters = σ.condWaiters
  nextWaiter : σ'.nextWaiter = σ.nextWaiter
  waits : ∀ t w, WaitsAt σ' t w → WaitsAt σ t w
  signalled : ∀ w, Signalled σ' w → Signalled σ w
  zero : ∀ w, σ.value (.waiter w) = 0 → ¬ Signalled σ w → σ'.value (.waiter w) = 0

variable {σ : Kernel}

theorem SlotsOk.quiet {σ' : Kernel} (h : SlotsOk σ) (hq : QuietStep σ σ') : SlotsOk σ' := by
  refine ⟨?_, ?_, ?_, ?_, ?_, ?_, ?_, ?_⟩
  · intro t w ht
    rw [hq.nextWaiter]
    exact h.waits_lt t w (hq.waits t w ht)
  · intro w hw
    rw [hq.nextWaiter]
    exact h.signalled_lt w (hq.signalled w hw)
  · rw [hq.condWaiters, hq.nextWaiter]
    exact h.cond_lt
  · intro t u w ht hu
    exact h.waits_unique t u w (hq.waits t w ht) (hq.waits u w hu)
  · rw [hq.condWaiters]
    exact h.nodup
  · rw [hq.condWaiters]
    exact h.apart
  · rw [hq.condWaiters]
    exact fun c e he => hq.zero _ (h.zero c e he) (h.unsignalled c e he)
  · rw [hq.condWaiters]
    exact fun c e he hs => h.unsignalled c e he (hq.signalled _ hs)

namespace Kernel

variable {σ σ' : Kernel} {f : Frame} {w : ℕ} {fs : List Frame}

/-- What a section that is not the first one of `cond_wait` or `cond_signal`
does to the slots. -/
structure SameConds (f : Frame) (σ σ' : Kernel) : Prop where
  condWaiters : σ'.condWaiters = σ.condWaiters
  nextWaiter : σ'.nextWaiter = σ.nextWaiter
  zero : ∀ w, σ.value (.waiter w) = 0 → f ≠ .call (.semaUp (.waiter w)) →
    σ'.value (.waiter w) = 0

theorem execFrame_sameConds {n : ℕ} (hw : ∀ c l, f ≠ .call (.condWait c l))
    (hs : ∀ c l, f ≠ .call (.condSignal c l)) (he : execFrame n σ f = some σ') :
    SameConds f σ σ' := by
  have hl := Leaves.execFrame he
  exact ⟨hl.condWaiters hw hs, hl.nextWaiter hw, fun w hz hf => hl.waiter w hf hw hz⟩

theorem slot_of_spawns {g : Frame} (hs : Spawns f g) (hg : g.slot = some w)
    (hf : ∀ c l, f ≠ .call (.condWait c l)) : f.slot = some w := by
  cases hs with
  | semaDown r =>
    cases r with
    | waiter w' => exact hg
    | _ => cases hg
  | semaDownAgain r => exact hg
  | waitDown c l w' => exact absurd rfl (hf c l)
  | _ => cases hg

theorem not_spawns_semaUp (hf : ∀ c l, f ≠ .call (.condSignal c l)) :
    ¬ Spawns f (.call (.semaUp (.waiter w))) := by
  intro hs
  cases hs with
  | signalUp c l => exact hf c l rfl

theorem waitsAt_of_exec {gs : List Frame} (hc : σ.code σ.current = f :: fs)
    (hcode : σ'.code = update σ.code σ.current (gs ++ fs)) {t : Tid}
    (h : WaitsAt σ' t w) : WaitsAt σ t w ∨ t = σ.current ∧ ∃ g ∈ gs, g.slot = some w := by
  obtain ⟨g, hg, hslot⟩ := h
  rw [hcode, update_apply] at hg
  split at hg
  · next e =>
      subst e
      rcases mem_append.mp hg with hg | hg
      · exact .inr ⟨rfl, g, hg, hslot⟩
      · exact .inl ⟨g, by rw [hc]; exact mem_cons_of_mem f hg, hslot⟩
  · exact .inl ⟨g, hg, hslot⟩

theorem signalled_of_exec {gs : List Frame} (hc : σ.code σ.current = f :: fs)
    (hcode : σ'.code = update σ.code σ.current (gs ++ fs)) (h : Signalled σ' w) :
    Signalled σ w ∨ .call (.semaUp (.waiter w)) ∈ gs := by
  obtain ⟨t, ht⟩ := h
  rw [hcode, update_apply] at ht
  split at ht
  · rcases mem_append.mp ht with ht | ht
    · exact .inr ht
    · exact .inl ⟨σ.current, by rw [hc]; exact mem_cons_of_mem f ht⟩
  · exact .inl ⟨t, ht⟩

theorem exec_quiet {n : ℕ} (hp : WellPlaced σ) (hc : σ.code σ.current = f :: fs)
    (hw : ∀ c l, f ≠ .call (.condWait c l)) (hs : ∀ c l, f ≠ .call (.condSignal c l))
    (he : execFrame n (σ.setCode σ.current fs) f = some σ') : QuietStep σ σ' := by
  have hsame := execFrame_sameConds hw hs he
  obtain ⟨gs, hgs, hcode⟩ := step_exec_code hp he
  refine ⟨hsame.condWaiters, hsame.nextWaiter, fun t w ht => ?_, fun w hsig => ?_,
    fun w hz hsig => hsame.zero w hz ?_⟩
  · rcases waitsAt_of_exec hc hcode ht with ht | ⟨rfl, g, hg, hslot⟩
    · exact ht
    · exact ⟨f, by rw [hc]; exact mem_cons_self, slot_of_spawns (hgs g hg) hslot hw⟩
  · rcases signalled_of_exec hc hcode hsig with hsig | hg
    · exact hsig
    · exact absurd (hgs _ hg) (not_spawns_semaUp hs)
  · rintro rfl
    exact hsig ⟨σ.current, by rw [hc]; exact mem_cons_self⟩

theorem isPublic_slot {op : Op} (h : op.isPublic = true) :
    (Frame.call op).slot = none ∧ ∀ w, op ≠ .semaUp (.waiter w) := by
  cases op with
  | semaDown r =>
    cases r with
    | sema i => exact ⟨rfl, nofun⟩
    | _ => cases h
  | semaUp r =>
    refine ⟨rfl, fun w e => ?_⟩
    rw [Op.semaUp.inj e] at h
    cases h
  | _ => exact ⟨rfl, nofun⟩

theorem step_quiet {a : Act} (ha : ∀ n, a ≠ .exec n) (hs : σ.step a = some σ') :
    QuietStep σ σ' := by
  have hquiet : ∀ {τ : Kernel}, Leaves .idle σ τ → τ.code = σ.code → QuietStep σ τ := by
    intro τ hl hcode
    refine ⟨hl.condWaiters (by simp) (by simp), hl.nextWaiter (by simp), fun t w hs => ?_,
      fun w hs => ?_, fun w hz _ => hl.waiter w (by simp) (by simp) hz⟩
    · obtain ⟨g, hg, hslot⟩ := hs
      exact ⟨g, hcode ▸ hg, hslot⟩
    · obtain ⟨t, ht⟩ := hs
      exact ⟨t, hcode ▸ ht⟩
  by_cases hop : ∃ op, a = .call op
  · obtain ⟨op, rfl⟩ := hop
    obtain ⟨⟨hnil, hpub⟩, hs⟩ := ite_none_right_eq_some.mp hs
    cases hs
    obtain ⟨hslot, hup⟩ := isPublic_slot hpub
    have hmem : ∀ t, ∀ g ∈ (σ.setCode σ.current [.call op]).code t,
        g = .call op ∨ g ∈ σ.code t := by
      intro t g hg
      simp only [setCode, update_apply] at hg
      split at hg
      · exact .inl (mem_singleton.mp hg)
      · exact .inr hg
    refine ⟨rfl, rfl, fun t w hw => ?_, fun w hw => ?_, fun w hz _ => hz⟩
    · obtain ⟨g, hg, hgs⟩ := hw
      rcases hmem t g hg with rfl | hg
      · rw [hslot] at hgs
        cases hgs
      · exact ⟨g, hg, hgs⟩
    · obtain ⟨t, ht⟩ := hw
      rcases hmem t _ ht with e | ht
      · exact absurd (Frame.call.inj e).symm (hup w)
      · exact ⟨t, ht⟩
  have hcode := interrupt_code ha (not_exists.mp hop) hs
  cases step_interrupted ha (not_exists.mp hop) hs with
  | semaUp i => exact hquiet (.semaUp (by simp)) hcode
  | tryDown i hv => exact hquiet (.setValue hv _) hcode
  | _ => exact ⟨rfl, rfl, fun _ _ h => h, fun _ h => h, fun _ hz _ => hz⟩

/-- What others can do to a thread that does not run: its locks and its own
priority stay, and without locks its priority is its own one. -/
structure Rests (t : Tid) (σ σ' : Kernel) : Prop where
  instrinsicPriority : σ'.instrinsicPriority t = σ.instrinsicPriority t
  lockList : σ'.lockList t = σ.lockList t
  holder : ∀ l, σ.holder l = some t → σ'.holder l = some t
  priority : σ.lockList t = [] → σ.priority t = σ.instrinsicPriority t →
    σ'.priority t = σ.instrinsicPriority t

namespace Rests

variable {t : Tid}

theorem of_eq (hi : σ'.instrinsicPriority = σ.instrinsicPriority) (hl : σ'.lockList = σ.lockList)
    (hh : σ'.holder = σ.holder) (hp : σ'.priority = σ.priority) : Rests t σ σ' :=
  ⟨congrFun hi t, congrFun hl t, fun _ h => hh ▸ h, fun _ h => (congrFun hp t).trans h⟩

theorem of_same (s : SameLocks σ σ') : Rests t σ σ' :=
  of_eq s.instrinsicPriority s.lockList s.holder s.priority

theorem executes (hv : LockValue σ) (ht : t ≠ σ.current) (hmem : t ∈ σ.allList)
    (h : σ.Executes f σ') : Rests t σ σ' := by
  cases h with
  | lockWait l _ _ _ _ hp => exact ⟨rfl, rfl, fun _ h => h, fun hl h => (hp t ht hl h).trans h⟩
  | lockTake l _ hne hp =>
    refine ⟨rfl, update_of_ne ht _ _, fun k hk => ?_, fun hl h => (hp t ht hl h).trans h⟩
    have hkl : k ≠ l := by
      rintro rfl
      rw [hv.holder_of_value hne] at hk
      cases hk
    exact (update_of_ne hkl _ _).trans hk
  | lockDrop l hl _ hp =>
    refine ⟨rfl, update_of_ne ht _ _, fun k hk => ?_, fun hl h => (hp t ht hl h).trans h⟩
    have hkl : k ≠ l := by
      rintro rfl
      rw [hl] at hk
      exact ht (some.inj hk).symm
    exact (update_of_ne hkl _ _).trans hk
  | threadSetPriority q hp =>
    exact ⟨update_of_ne ht _ _, rfl, fun _ h => h, fun hl h => (hp t ht hl h).trans h⟩
  | threadCreate u q hu =>
    have hne : t ≠ u := fun e => hu (e ▸ hmem)
    exact ⟨update_of_ne hne _ _, update_of_ne hne _ _, fun _ h => h,
      fun _ hp => (update_of_ne hne _ _).trans hp⟩
  | _ => exact of_eq rfl rfl rfl rfl

end Rests

end Kernel

theorem Kernel.dropLock_only {l : LockId} (h : σ.lockList σ.current = [l]) :
    σ.dropLock l = { σ with
      holder := update σ.holder l none
      lockList := update σ.lockList σ.current []
      priority := update σ.priority σ.current
        (σ.instrinsicPriority σ.current) } := by
  have hnil : (σ.lockList σ.current).erase l = [] := by
    rw [h, erase_cons_head]
  unfold dropLock adjustPriority
  dsimp only
  rw [hnil, update_self]
  rfl

/-- The code of a thread inside `cond_wait` that has released the lock: it is
still inside `lock_release`, about to wait at its slot, or waiting there. -/
inductive Parked (l : LockId) (w : ℕ) : List Frame → Prop where
  | releasing (fs : List Frame) :
      Parked l w (.lockRelease l :: .call (.semaDown (.waiter w)) :: fs)
  | yielding (fs : List Frame) :
      Parked l w (.threadYield :: .call (.semaDown (.waiter w)) :: fs)
  | calling (fs : List Frame) : Parked l w (.call (.semaDown (.waiter w)) :: fs)
  | waiting (fs : List Frame) : Parked l w (.semaDown (.waiter w) :: fs)

/-- `t` waits with the element `e`, whose rank is its own priority: it still has
to release the lock, which is the only one it holds, or it holds no lock. -/
structure Ranked (l : LockId) (e : SemaphoreElem) (σ : Kernel) (t : Tid) : Prop where
  rank : e.priority = σ.instrinsicPriority t
  phase : ((∃ fs, σ.code t =
      .call (.lockRelease l) :: .call (.semaDown (.waiter e.semaphore)) :: fs) ∧
        σ.holder l = some t ∧ σ.lockList t = [l]) ∨
    (Parked l e.semaphore (σ.code t) ∧ σ.lockList t = [] ∧
      σ.priority t = σ.instrinsicPriority t)

namespace Ranked

variable {l : LockId} {e : SemaphoreElem} {σ σ' : Kernel} {t : Tid} {fs : List Frame}

theorem waitsAt (h : Ranked l e σ t) : WaitsAt σ t e.semaphore := by
  rcases h.phase with ⟨⟨fs, hc⟩, -⟩ | ⟨hp, -⟩
  · exact ⟨.call (.semaDown (.waiter e.semaphore)), by simp [hc], rfl⟩
  · generalize hc : σ.code t = code at hp
    cases hp with
    | waiting fs => exact ⟨.semaDown (.waiter e.semaphore), by simp [hc], rfl⟩
    | _ => exact ⟨.call (.semaDown (.waiter e.semaphore)), by simp [hc], rfl⟩

theorem other (h : Ranked l e σ t) (hc : σ'.code t = σ.code t) (hr : Kernel.Rests t σ σ') :
    Ranked l e σ' t := by
  refine ⟨h.rank.trans hr.instrinsicPriority.symm, ?_⟩
  rw [hc, hr.lockList, hr.instrinsicPriority]
  rcases h.phase with ⟨hcode, hh, hl⟩ | ⟨hp, hnil, hpri⟩
  · exact .inl ⟨hcode, hr.holder l hh, hl⟩
  · exact .inr ⟨hp, hnil, hr.priority hnil hpri⟩

theorem of_eq (hrank : e.priority = σ.instrinsicPriority t) (hnil : σ.lockList t = [])
    (hp : σ.priority t = σ.instrinsicPriority t) (hi : σ'.instrinsicPriority = σ.instrinsicPriority)
    (hl : σ'.lockList = σ.lockList) (hpri : σ'.priority = σ.priority)
    (hc : Parked l e.semaphore (σ'.code t)) : Ranked l e σ' t := by
  refine ⟨?_, .inr ⟨hc, ?_, ?_⟩⟩
  · rw [hi]
    exact hrank
  · rw [hl]
    exact hnil
  · rw [hi, hpri]
    exact hp

theorem release (hrank : e.priority = σ.instrinsicPriority σ.current)
    (hc : σ.code σ.current = .call (.semaDown (.waiter e.semaphore)) :: fs)
    (hl : σ.lockList σ.current = [l]) (hs : σ.lockRelease l = some σ') :
    Ranked l e σ' σ.current := by
  unfold Kernel.lockRelease at hs
  split at hs
  · obtain ⟨σ₁, h1, rfl⟩ := map_eq_some_iff.mp hs
    rw [Kernel.dropLock_only hl] at h1
    obtain ⟨st, ws, rl, -, rfl⟩ := Kernel.semaUpWake_eq h1
    obtain ⟨st', rl', c, k, -, hy⟩ := Kernel.threadYield_eq (Kernel.pushCode _ [.lockRelease l])
    rw [hy]
    refine ⟨hrank, .inr ⟨?_, update_self _ _ _, update_self _ _ _⟩⟩
    simp only [Kernel.pushCode, Kernel.setCode, update_self, hc]
    exact .releasing fs
  · cases hs

theorem semaDownLoop (hrank : e.priority = σ.instrinsicPriority σ.current)
    (hnil : σ.lockList σ.current = []) (hp : σ.priority σ.current = σ.instrinsicPriority σ.current)
    (hc : σ.code σ.current = fs) (hz : σ.value (.waiter e.semaphore) = 0) :
    Ranked l e (σ.semaDownLoop (.waiter e.semaphore)) σ.current := by
  rw [Kernel.semaDownLoop, if_pos hz, Kernel.waitOn]
  obtain ⟨st, rl, c, -, h⟩ := Kernel.threadBlock_eq ((σ.setWaiters (.waiter e.semaphore)
    (σ.waiters (.waiter e.semaphore) ++ [σ.current])).pushCode [.semaDown (.waiter e.semaphore)])
  rw [h]
  refine of_eq hrank hnil hp rfl rfl rfl ?_
  simp only [Kernel.pushCode, Kernel.setCode, Kernel.setWaiters, update_self, hc]
  exact .waiting fs

theorem exec_self {n : ℕ} {f : Frame} (h : Ranked l e σ σ.current)
    (hz : σ.value (.waiter e.semaphore) = 0) (hc : σ.code σ.current = f :: fs)
    (he : Kernel.execFrame n (σ.setCode σ.current fs) f = some σ') : Ranked l e σ' σ.current := by
  have hrest : (σ.setCode σ.current fs).code σ.current = fs := update_self _ _ _
  rcases h.phase with ⟨⟨gs, hcode⟩, -, hl⟩ | ⟨hp, hnil, hpri⟩
  · rw [hc] at hcode
    obtain ⟨rfl, rfl⟩ := List.cons.inj hcode
    have hrel : (σ.setCode σ.current (.call (.semaDown (.waiter e.semaphore)) :: gs)).lockRelease
        l = some σ' := he
    exact release
      (σ := σ.setCode σ.current (.call (.semaDown (.waiter e.semaphore)) :: gs)) h.rank hrest hl
      hrel
  · rw [hc] at hp
    cases hp with
    | releasing gs =>
      cases he
      refine of_eq h.rank hnil hpri rfl rfl rfl ?_
      simp only [Kernel.pushCode, Kernel.flushLockPriority, Kernel.setMaxPriority,
        Kernel.setCode, update_self]
      exact .yielding gs
    | yielding gs =>
      cases he
      obtain ⟨st, rl, c, k, -, hy⟩ := Kernel.threadYield_eq
        (σ.setCode σ.current (.call (.semaDown (.waiter e.semaphore)) :: gs))
      rw [hy]
      refine of_eq h.rank hnil hpri rfl rfl rfl ?_
      rw [hrest]
      exact .calling gs
    | calling fs =>
      cases he
      exact semaDownLoop h.rank hnil hpri hrest hz
    | waiting fs =>
      cases he
      exact semaDownLoop h.rank hnil hpri hrest hz

theorem head_ne {f : Frame} (h : Ranked l e σ t) (hc : σ.code t = f :: fs) :
    (∀ c k, f ≠ .call (.condWait c k)) ∧ ∀ c k, f ≠ .call (.condSignal c k) := by
  rcases h.phase with ⟨⟨gs, hcode⟩, -⟩ | ⟨hp, -⟩
  · rw [hc] at hcode
    obtain ⟨rfl, -⟩ := List.cons.inj hcode
    exact ⟨nofun, nofun⟩
  · rw [hc] at hp
    cases hp with
    | _ => exact ⟨nofun, nofun⟩

theorem code_ne_nil (h : Ranked l e σ t) : σ.code t ≠ [] := by
  obtain ⟨f, hf, -⟩ := h.waitsAt
  exact ne_nil_of_mem hf

end Ranked

/-- Every waiter of a condition is entered with the priority of its thread. The
condition `c` is used with the lock `lockOf c`. -/
def RanksOk (lockOf : CondId → LockId) (σ : Kernel) : Prop :=
  ∀ c, ∀ e ∈ σ.condWaiters c, ∃ t, Ranked (lockOf c) e σ t

/-- What a step has to keep to: a condition is used with one lock only, and a
thread waits only when it holds no other lock and `max_priority` is its own
priority. -/
def RanksRight (lockOf : CondId → LockId) (σ : Kernel) : Act → Prop
  | .exec _ =>
    match (σ.code σ.current).head? with
    | some (.call (.condWait c l)) =>
      l = lockOf c ∧ σ.lockList σ.current = [l] ∧
        σ.maxPriority l = σ.instrinsicPriority σ.current
    | some (.call (.condSignal c l)) => l = lockOf c
    | _ => True
  | _ => True

instance (lockOf : CondId → LockId) (σ : Kernel) : ∀ a, Decidable (RanksRight lockOf σ a)
  | .exec _ => by
    unfold RanksRight
    dsimp only
    split
    · infer_instance
    · infer_instance
    · infer_instance
  | .call _ => isTrue trivial
  | .timer => isTrue trivial
  | .intrSemaUp _ => isTrue trivial
  | .intrSemaTryDown _ => isTrue trivial
  | .switchYield => isTrue trivial

namespace Kernel

variable {σ σ' : Kernel} {lockOf : CondId → LockId} {n : ℕ} {c : CondId} {l : LockId}
  {fs : List Frame}

theorem condWait_spec
    (he : execFrame n (σ.setCode σ.current fs) (.call (.condWait c l)) = some σ') :
    σ.holder l = some σ.current ∧ σ'.condWaiters = update σ.condWaiters c
      (σ.condWaiters c ++ [⟨σ.nextWaiter, σ.maxPriority l⟩]) ∧ σ'.nextWaiter = σ.nextWaiter + 1 ∧
      σ'.value = update σ.value (.waiter σ.nextWaiter) 0 ∧ σ'.code = update σ.code σ.current
      ([.call (.lockRelease l), .call (.semaDown (.waiter σ.nextWaiter)),
      .call (.lockAcquire l)] ++ fs) := by
  simp only [execFrame, enter, condWait] at he
  split at he
  · next hh =>
      cases he
      refine ⟨hh, rfl, rfl, rfl, ?_⟩
      simp [pushCode, setCode, setWaiters, setValue]
  · cases he

theorem condSignal_spec
    (he : execFrame n (σ.setCode σ.current fs) (.call (.condSignal c l)) = some σ') :
    σ.holder l = some σ.current ∧
      ((σ.condWaiters c = [] ∧ σ' = σ.setCode σ.current fs) ∨
        ∃ e, listMax SemaphoreElem.priority (σ.condWaiters c) = some e ∧
          σ' = { σ with
            condWaiters := update σ.condWaiters c ((σ.condWaiters c).erase e)
            code := update σ.code σ.current
              (.call (.semaUp (.waiter e.semaphore)) :: fs) }) := by
  simp only [execFrame, enter, condSignal] at he
  split at he
  · next hh =>
      refine ⟨hh, ?_⟩
      split at he
      · next hm =>
          cases he
          exact .inl ⟨listMax_eq_none.mp hm, rfl⟩
      · next e hm =>
          cases he
          refine .inr ⟨e, hm, ?_⟩
          simp [pushCode, setCode]
  · cases he

theorem condWait_slotsOk (h : SlotsOk σ) (hc : σ.code σ.current = .call (.condWait c l) :: fs)
    (he : execFrame n (σ.setCode σ.current fs) (.call (.condWait c l)) = some σ') : SlotsOk σ' := by
  obtain ⟨-, hcond, hnext, hvalue, hcode⟩ := condWait_spec he
  have hmem : ∀ c', ∀ e ∈ σ'.condWaiters c', e ∈ σ.condWaiters c' ∨
      c' = c ∧ e.semaphore = σ.nextWaiter := by
    intro c' e he
    rw [hcond, update_apply] at he
    split at he
    · next hcc =>
        subst hcc
        rcases mem_append.mp he with he | he
        · exact .inl he
        · rw [mem_singleton.mp he]
          exact .inr ⟨rfl, rfl⟩
    · exact .inl he
  have hwaits : ∀ t w, WaitsAt σ' t w → WaitsAt σ t w ∨ t = σ.current ∧ w = σ.nextWaiter := by
    intro t w ht
    rcases waitsAt_of_exec hc hcode ht with ht | ⟨rfl, g, hg, hslot⟩
    · exact .inl ht
    · refine .inr ⟨rfl, ?_⟩
      simp only [mem_cons, not_mem_nil, or_false] at hg
      rcases hg with rfl | rfl | rfl
      · cases hslot
      · exact (some.inj hslot).symm
      · cases hslot
  have hsignalled : ∀ w, Signalled σ' w → Signalled σ w := by
    intro w hw
    rcases signalled_of_exec hc hcode hw with hw | hw
    · exact hw
    · simp at hw
  refine ⟨?_, ?_, ?_, ?_, ?_, ?_, ?_, ?_⟩
  · intro t w ht
    rw [hnext]
    rcases hwaits t w ht with ht | ⟨-, rfl⟩
    · exact (h.waits_lt t w ht).trans (Nat.lt_succ_self _)
    · exact Nat.lt_succ_self _
  · intro w hw
    rw [hnext]
    exact (h.signalled_lt w (hsignalled w hw)).trans (Nat.lt_succ_self _)
  · intro c' e he
    rw [hnext]
    rcases hmem c' e he with he | ⟨-, he⟩
    · exact (h.cond_lt c' e he).trans (Nat.lt_succ_self _)
    · rw [he]
      exact Nat.lt_succ_self _
  · intro t u w ht hu
    rcases hwaits t w ht with ht | ⟨rfl, rfl⟩
    · rcases hwaits u w hu with hu | ⟨-, rfl⟩
      · exact h.waits_unique t u w ht hu
      · exact absurd (h.waits_lt t _ ht) (Nat.lt_irrefl _)
    · rcases hwaits u _ hu with hu | ⟨rfl, -⟩
      · exact absurd (h.waits_lt u _ hu) (Nat.lt_irrefl _)
      · rfl
  · intro c'
    rw [hcond, update_apply]
    split
    · rw [map_append, map_singleton, nodup_append]
      refine ⟨h.nodup c, nodup_singleton _, fun w hw w' hw' => ?_⟩
      obtain ⟨e, he, rfl⟩ := List.mem_map.mp hw
      rw [mem_singleton.mp hw']
      exact (h.cond_lt c e he).ne
    · exact h.nodup c'
  · intro c1 c2 e1 e2 h1 h2 heq
    rcases hmem c1 e1 h1 with h1 | ⟨rfl, h1⟩
    · rcases hmem c2 e2 h2 with h2 | ⟨rfl, h2⟩
      · exact h.apart c1 c2 e1 e2 h1 h2 heq
      · exact absurd (h.cond_lt c1 e1 h1) (by omega)
    · rcases hmem c2 e2 h2 with h2 | ⟨rfl, h2⟩
      · exact absurd (h.cond_lt c2 e2 h2) (by omega)
      · rfl
  · intro c' e he
    rw [hvalue, update_apply]
    split
    · rfl
    · next hne =>
        rcases hmem c' e he with he | ⟨-, he⟩
        · exact h.zero c' e he
        · exact absurd (congrArg SemaRef.waiter he) hne
  · intro c' e he hs
    rcases hmem c' e he with he | ⟨-, he⟩
    · exact h.unsignalled c' e he (hsignalled _ hs)
    · exact absurd (h.signalled_lt _ (hsignalled _ hs)) (by omega)

theorem condSignal_slotsOk {e : SemaphoreElem} {f : Frame} (h : SlotsOk σ)
    (hc : σ.code σ.current = f :: fs) (he : e ∈ σ.condWaiters c)
    (hcond : σ'.condWaiters = update σ.condWaiters c ((σ.condWaiters c).erase e))
    (hcode : σ'.code = update σ.code σ.current ([.call (.semaUp (.waiter e.semaphore))] ++ fs))
    (hnext : σ'.nextWaiter = σ.nextWaiter) (hvalue : σ'.value = σ.value) : SlotsOk σ' := by
  have hmem : ∀ c', ∀ e' ∈ σ'.condWaiters c',
      e' ∈ σ.condWaiters c' ∧ (c' = c → e' ∈ (σ.condWaiters c).erase e) := by
    intro c' e' he'
    rw [hcond, update_apply] at he'
    split at he'
    · next hcc =>
        subst hcc
        exact ⟨mem_of_mem_erase he', fun _ => he'⟩
    · next hne => exact ⟨he', fun hcc => absurd hcc hne⟩
  have hwaits : ∀ t w, WaitsAt σ' t w → WaitsAt σ t w := by
    intro t w ht
    rcases waitsAt_of_exec hc hcode ht with ht | ⟨-, g, hg, hslot⟩
    · exact ht
    · rw [mem_singleton.mp hg] at hslot
      cases hslot
  have hsignalled : ∀ w, Signalled σ' w → Signalled σ w ∨ w = e.semaphore := by
    intro w hw
    rcases signalled_of_exec hc hcode hw with hw | hw
    · exact .inl hw
    · exact .inr (by simpa using hw)
  have hnd : (σ.condWaiters c).Nodup := (h.nodup c).of_map _
  refine ⟨fun t w ht => ?_, fun w hw => ?_, fun c' e' he' => ?_, fun t u w ht hu => ?_,
    fun c' => ?_, fun c1 c2 e1 e2 h1 h2 heq => ?_, fun c' e' he' => ?_, fun c' e' he' hs => ?_⟩
  · rw [hnext]
    exact h.waits_lt t w (hwaits t w ht)
  · rw [hnext]
    rcases hsignalled w hw with hw | rfl
    · exact h.signalled_lt w hw
    · exact h.cond_lt c e he
  · rw [hnext]
    exact h.cond_lt c' e' (hmem c' e' he').1
  · exact h.waits_unique t u w (hwaits t w ht) (hwaits u w hu)
  · rw [hcond, update_apply]
    split
    · exact (h.nodup c).sublist ((erase_sublist).map _)
    · exact h.nodup c'
  · exact h.apart c1 c2 e1 e2 (hmem c1 e1 h1).1 (hmem c2 e2 h2).1 heq
  · rw [hvalue]
    exact h.zero c' e' (hmem c' e' he').1
  · obtain ⟨he', hin⟩ := hmem c' e' he'
    rcases hsignalled _ hs with hs | heq
    · exact h.unsignalled c' e' he' hs
    · -- an element with the same slot is the element taken out
      obtain rfl := h.apart c' c e' e he' he heq
      obtain rfl := inj_on_of_nodup_map (h.nodup c') he' he heq
      exact hnd.not_mem_erase (hin rfl)

end Kernel

/-- What holds in every state of a run that keeps to `RanksRight`. -/
structure CondInv (lockOf : CondId → LockId) (σ : Kernel) : Prop where
  locks : LockInv σ
  slots : SlotsOk σ
  ranks : RanksOk lockOf σ

theorem boot_condInv (lockOf : CondId → LockId) (b : Bool) (v : ℕ → ℕ) :
    CondInv lockOf (boot b v) := by
  have hcode : ∀ t, ∀ f ∈ (boot b v).code t, f = .idle := by
    intro t f hf
    simp only [boot] at hf
    split at hf
    · exact mem_singleton.mp hf
    · cases hf
  refine ⟨boot_lockInv b v, ⟨fun t w h => ?_, fun w h => ?_, by simp [boot], fun t u w h => ?_,
    fun _ => nodup_nil, by simp [boot], by simp [boot], by simp [boot]⟩, by simp [RanksOk, boot]⟩
  · obtain ⟨f, hf, hs⟩ := h
    rw [hcode t f hf] at hs
    cases hs
  · obtain ⟨t, ht⟩ := h
    cases hcode t _ ht
  · obtain ⟨f, hf, hs⟩ := h
    rw [hcode t f hf] at hs
    cases hs

namespace CondInv

variable {lockOf : CondId → LockId} {σ σ' : Kernel} {n : ℕ} {f : Frame} {fs : List Frame}
  {l : LockId} {e : SemaphoreElem} {c : CondId}

theorem ranked_other {t : Tid} (h : CondInv lockOf σ) (hr : Ranked l e σ t) (ht : t ≠ σ.current)
    (he : Kernel.execFrame n (σ.setCode σ.current fs) f = some σ') : Ranked l e σ' t := by
  have hcode : σ'.code t = σ.code t := by
    obtain ⟨gs, -, hcode⟩ := Kernel.step_exec_code h.locks.placed he
    rw [hcode, update_of_ne ht]
  have hmem : t ∈ σ.allList := by
    by_contra hn
    exact hr.code_ne_nil (Kernel.code_of_not_mem h.locks.placed hn)
  have hrest : Kernel.Rests t (σ.setCode σ.current fs) σ' :=
    .executes (h.locks.lockValue.of_same (Kernel.setCode_sameLocks _ fs)) ht hmem (.execFrame he)
  exact hr.other hcode { hrest with }

theorem ranked_of_not_exec {a : Act} {t : Tid} (hr : Ranked l e σ t) (ha : ∀ n, a ≠ .exec n)
    (hs : σ.step a = some σ') : Ranked l e σ' t := by
  refine hr.other ?_ (.of_same (Kernel.step_sameLocks ha hs))
  cases a with
  | exec n => exact absurd rfl (ha n)
  | call op =>
    obtain ⟨⟨hnil, -⟩, hs⟩ := ite_none_right_eq_some.mp hs
    cases hs
    have hne : t ≠ σ.current := by
      rintro rfl
      exact hr.code_ne_nil hnil
    exact update_of_ne hne _ _
  | _ => rw [Kernel.interrupt_code (by simp) (by simp) hs]

variable (h : CondInv lockOf σ)

include h

theorem ranks_quiet (hc : σ.code σ.current = f :: fs)
    (he : Kernel.execFrame n (σ.setCode σ.current fs) f = some σ')
    (hq : σ'.condWaiters = σ.condWaiters) : RanksOk lockOf σ' := by
  intro c e hmem
  rw [hq] at hmem
  obtain ⟨t, hr⟩ := h.ranks c e hmem
  refine ⟨t, ?_⟩
  by_cases ht : t = σ.current
  · subst ht
    exact hr.exec_self (h.slots.zero c e hmem) hc he
  · exact h.ranked_other hr ht he

theorem ranks_condWait (hc : σ.code σ.current = .call (.condWait c l) :: fs) (hl : l = lockOf c)
    (hlist : σ.lockList σ.current = [l]) (hmax : σ.maxPriority l = σ.instrinsicPriority σ.current)
    (he : Kernel.execFrame n (σ.setCode σ.current fs) (.call (.condWait c l)) = some σ') :
    RanksOk lockOf σ' := by
  obtain ⟨hh, hcond, -, -, hcode⟩ := Kernel.condWait_spec he
  have hsame : SameLocks σ σ' := (Kernel.setCode_sameLocks σ.current fs).trans
    ((Kernel.Executes.execFrame he).sameLocks rfl rfl)
  have hold : ∀ c', ∀ e ∈ σ.condWaiters c', ∃ t, Ranked (lockOf c') e σ' t := by
    intro c' e hmem
    obtain ⟨t, hr⟩ := h.ranks c' e hmem
    refine ⟨t, h.ranked_other hr ?_ he⟩
    rintro rfl
    exact (hr.head_ne hc).1 c l rfl
  intro c' e hmem
  rw [hcond, update_apply] at hmem
  split at hmem
  · next hcc =>
      subst hcc
      rcases mem_append.mp hmem with hmem | hmem
      · exact hold c' e hmem
      · rw [mem_singleton.mp hmem]
        refine ⟨σ.current, ?_, .inl ⟨⟨.call (.lockAcquire l) :: fs, ?_⟩, ?_, ?_⟩⟩
        · rw [hsame.instrinsicPriority]
          exact hmax
        · rw [hcode, update_self, ← hl]
          rfl
        · rw [hsame.holder, ← hl]
          exact hh
        · rw [hsame.lockList, ← hl]
          exact hlist
  · exact hold c' e hmem

theorem ranks_condSignal (hc : σ.code σ.current = .call (.condSignal c l) :: fs)
    (hsub : ∀ c', ∀ e ∈ σ'.condWaiters c', e ∈ σ.condWaiters c')
    (he : Kernel.execFrame n (σ.setCode σ.current fs) (.call (.condSignal c l)) = some σ') :
    RanksOk lockOf σ' := by
  intro c' e hmem
  obtain ⟨t, hr⟩ := h.ranks c' e (hsub c' e hmem)
  refine ⟨t, h.ranked_other hr ?_ he⟩
  rintro rfl
  exact (hr.head_ne hc).2 c l rfl

theorem step {a : Act} (hk : RanksRight lockOf σ a) (hs : σ.step a = some σ') :
    CondInv lockOf σ' := by
  have hlocks := step_lockInv h.locks hs
  by_cases ha : ∀ n, a ≠ .exec n
  · have hq := Kernel.step_quiet ha hs
    refine ⟨hlocks, h.slots.quiet hq, fun c e hmem => ?_⟩
    rw [hq.condWaiters] at hmem
    obtain ⟨t, hr⟩ := h.ranks c e hmem
    exact ⟨t, ranked_of_not_exec hr ha hs⟩
  · push Not at ha
    obtain ⟨n, rfl⟩ := ha
    obtain ⟨f, fs, hc, he⟩ := Kernel.exec_cases hs
    by_cases hw : ∃ c l, f = .call (.condWait c l)
    · obtain ⟨c, l, rfl⟩ := hw
      simp only [RanksRight, hc, head?_cons] at hk
      obtain ⟨hl, hlist, hmax⟩ := hk
      exact ⟨hlocks, Kernel.condWait_slotsOk h.slots hc he, h.ranks_condWait hc hl hlist hmax he⟩
    by_cases hsig : ∃ c l, f = .call (.condSignal c l)
    · obtain ⟨c, l, rfl⟩ := hsig
      have hranks := fun hsub => h.ranks_condSignal hc hsub he
      rcases Kernel.condSignal_spec he with ⟨-, ⟨-, rfl⟩ | ⟨e, hm, rfl⟩⟩
      · refine ⟨hlocks, h.slots.quiet ⟨rfl, rfl, fun t w ht => ?_, fun w hw => ?_,
          fun w hz _ => hz⟩, hranks fun c e he => he⟩
        · have hcode : update σ.code σ.current fs = update σ.code σ.current ([] ++ fs) := rfl
          rcases Kernel.waitsAt_of_exec hc hcode ht with ht | ⟨-, g, hg, -⟩
          · exact ht
          · cases hg
        · have hcode : update σ.code σ.current fs = update σ.code σ.current ([] ++ fs) := rfl
          rcases Kernel.signalled_of_exec hc hcode hw with hw | hg
          · exact hw
          · cases hg
      · refine ⟨hlocks, Kernel.condSignal_slotsOk h.slots hc (listMax_mem hm) rfl rfl rfl rfl,
          hranks fun c' e' he' => ?_⟩
        dsimp only at he'
        rw [update_apply] at he'
        split at he'
        · next hcc =>
            subst hcc
            exact mem_of_mem_erase he'
        · exact he'
    · push Not at hw hsig
      have hq := Kernel.exec_quiet h.locks.placed hc hw hsig he
      exact ⟨hlocks, h.slots.quiet hq, h.ranks_quiet hc he hq.condWaiters⟩

theorem rank_eq_priority (hh : σ.holder (lockOf c) = some σ.current)
    (hc : σ.code σ.current = f :: fs) (hf : ∀ l, f ≠ .call (.lockRelease l))
    (he : e ∈ σ.condWaiters c) : ∃ t, WaitsAt σ t e.semaphore ∧ e.priority = σ.priority t := by
  obtain ⟨t, hr⟩ := h.ranks c e he
  refine ⟨t, hr.waitsAt, ?_⟩
  rcases hr.phase with ⟨⟨gs, hcode⟩, ht, -⟩ | ⟨-, -, hp⟩
  · -- a waiter that has not released the lock yet would be the running thread
    obtain rfl : σ.current = t := some.inj (hh.symm.trans ht)
    rw [hc] at hcode
    exact absurd (List.cons.inj hcode).1 (hf _)
  · rw [hp]
    exact hr.rank

end CondInv

/-- When the running thread enters `cond_signal` and threads wait on the
condition, the one whose slot it goes on to wake has the highest priority of
all of them. -/
def SignalsHighest (σ : Kernel) : Prop :=
  ∀ n c l fs σ', σ.code σ.current = .call (.condSignal c l) :: fs →
    σ.step (.exec n) = some σ' → σ.condWaiters c ≠ [] →
    ∃ e t, e ∈ σ.condWaiters c ∧ WaitsAt σ t e.semaphore ∧
      σ'.condWaiters c = (σ.condWaiters c).erase e ∧
      σ'.code σ.current = .call (.semaUp (.waiter e.semaphore)) :: fs ∧
      (∀ u ∈ σ.waiters (.waiter e.semaphore), u = t) ∧
      ∀ e' ∈ σ.condWaiters c, ∀ u, WaitsAt σ u e'.semaphore → σ.priority u ≤ σ.priority t

theorem waitsAt_of_mem_waiters (h : WellPlaced σ) {t : Tid} {w : ℕ}
    (ht : t ∈ σ.waiters (.waiter w)) : WaitsAt σ t w := by
  have hw := (h.waiting _ t ht).2
  unfold waitsOn at hw
  split at hw
  · next hc =>
      rw [some.inj hw] at hc
      exact ⟨.semaDown (.waiter w), by rw [hc]; exact mem_cons_self, rfl⟩
  · cases hw
  · cases hw

/-- In every run in which a condition is used with one lock only, and in which a thread
calls `cond_wait` only while it holds no other lock and `max_priority` of the lock is its
own priority, `cond_signal` wakes a waiting thread of the highest priority. -/
theorem run_signalsHighest {lockOf : CondId → LockId} {b : Bool} {v : ℕ → ℕ}
    {acts : List Act} {σ : Kernel}
    (hm : Run.Meets Kernel.step (RanksRight lockOf) (boot b v) acts)
    (hr : Run.run Kernel.step (boot b v) acts = some σ)
    (hk : ∀ n, RanksRight lockOf σ (.exec n)) : SignalsHighest σ := by
  have h : CondInv lockOf σ := Run.run_invariant (fun _ _ _ hi hk hs => CondInv.step hi hk hs)
    (boot_condInv lockOf b v) hm hr
  intro n c l fs σ' hc hs hne
  have hl := hk n
  simp only [RanksRight, hc, head?_cons] at hl
  subst hl
  obtain ⟨f, gs, hc', he⟩ := Kernel.exec_cases hs
  rw [hc] at hc'
  obtain ⟨rfl, rfl⟩ := List.cons.inj hc'
  rcases Kernel.condSignal_spec he with ⟨hh, ⟨hnil, -⟩ | ⟨e, hmax, rfl⟩⟩
  · exact absurd hnil hne
  · have hrank := fun e' he' => h.rank_eq_priority (e := e') hh hc nofun he'
    have hmem := listMax_mem hmax
    obtain ⟨t, ht, hp⟩ := hrank e hmem
    refine ⟨e, t, hmem, ht, update_self _ _ _, update_self _ _ _,
      fun u hu => ?_, fun e' he' u hu => ?_⟩
    · exact h.slots.waits_unique u t _ (waitsAt_of_mem_waiters h.locks.placed hu) ht
    · obtain ⟨u', hu', hp'⟩ := hrank e' he'
      rw [h.slots.waits_unique u u' _ hu hu', ← hp, ← hp']
      exact le_of_listMax he' hmax

/-- The sections of `thread_create`, for a thread that starts at once if its
priority is higher. -/
def createThread (t : Tid) (p : ℤ) : List Act :=
  .call (.threadCreate t p) :: List.replicate 8 (.exec 2)

/-- A thread takes lock `5` with `take` and waits on the condition `0`. -/
def takeAndWait (take : Op) : List Act :=
  [.call take, .exec 2, .call (.condWait 0 5), .exec 2, .exec 2, .exec 2, .exec 2, .exec 2]

/-- Two threads wait, and the initial thread is about to signal. -/
def signalTwo : List Act :=
  createThread 2 33 ++ takeAndWait (.lockAcquire 5) ++ createThread 3 32 ++
    takeAndWait (.lockAcquire 5) ++ [.call (.lockAcquire 5), .exec 2, .call (.condSignal 0 5)]

theorem run_signalsHighest_signalTwo :
    ∃ σ, Run.run Kernel.step (boot true fun _ => 0) signalTwo = some σ ∧
      σ.code σ.current = [.call (.condSignal 0 5)] ∧
      σ.condWaiters 0 = [⟨0, 33⟩, ⟨1, 32⟩] ∧ SignalsHighest σ := by
  have h : (Run.run Kernel.step (boot true fun _ => 0) signalTwo).map (fun σ =>
      decide (σ.code σ.current = [.call (.condSignal 0 5)] ∧
        σ.condWaiters 0 = [⟨0, 33⟩, ⟨1, 32⟩])) = some true := by
    decide +kernel
  have hm : Run.Meets Kernel.step (RanksRight fun _ => 5) (boot true fun _ => 0) signalTwo := by
    decide +kernel
  obtain ⟨σ, hr, h⟩ := map_eq_some_iff.mp h
  obtain ⟨hc, hw⟩ := of_decide_eq_true h
  refine ⟨σ, hr, hc, hw, run_signalsHighest hm hr fun n => ?_⟩
  simp only [RanksRight, hc, head?_cons]

/-- A thread of priority 40 takes the lock with `lock_try_acquire`, which leaves
`max_priority` at 0, and waits; the initial thread, of priority 31, takes it with
`lock_acquire` and waits; a thread of priority 10 is about to signal. -/
def signalTryAcquire : List Act :=
  createThread 3 10 ++ createThread 2 40 ++ takeAndWait (.lockTryAcquire 5) ++
    takeAndWait (.lockAcquire 5) ++ [.call (.lockAcquire 5), .exec 2, .call (.condSignal 0 5)]

/-- The signal wakes the initial thread. -/
theorem signal_not_highest :
    ∃ σ, Run.run Kernel.step (boot true fun _ => 0) signalTryAcquire = some σ ∧
      ¬ SignalsHighest σ := by
  have h : ((Run.run Kernel.step (boot true fun _ => 0) signalTryAcquire).bind fun σ =>
      (σ.step (.exec 0)).map fun σ' =>
        decide (σ.code σ.current = [.call (.condSignal 0 5)] ∧
          σ.condWaiters 0 = [⟨0, 0⟩, ⟨1, 31⟩] ∧
          σ.code 2 = [.semaDown (.waiter 0), .call (.lockAcquire 5)] ∧
          σ.waiters (.waiter 1) = [0] ∧ σ.priority 2 = 40 ∧ σ.priority 0 = 31 ∧
          σ'.code σ.current = [.call (.semaUp (.waiter 1))])) = some true := by
    decide +kernel
  obtain ⟨σ, hr, h⟩ := bind_eq_some_iff.mp h
  obtain ⟨σ', hs, h⟩ := map_eq_some_iff.mp h
  obtain ⟨hc, hw, hc2, hws, hp2, hp0, hc'⟩ := of_decide_eq_true h
  refine ⟨σ, hr, fun hsig => ?_⟩
  obtain ⟨e, t, -, -, -, hup, hone, hmax⟩ := hsig 0 0 5 [] σ' hc hs (by simp [hw])
  have hslot : SemaRef.waiter 1 = .waiter e.semaphore := by
    rw [hc'] at hup
    exact Op.semaUp.inj (Frame.call.inj (List.cons.inj hup).1)
  have ht : 0 = t := hone 0 (by simp [← hslot, hws])
  have hwaits : WaitsAt σ 2 0 := ⟨.semaDown (.waiter 0), by simp [hc2], rfl⟩
  have hle := hmax ⟨0, 0⟩ (by simp [hw]) 2 hwaits
  rw [← ht, hp2, hp0] at hle
  omega

end CS162.Threads
