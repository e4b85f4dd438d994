import CS162.Threads.Code

/-!
# Locks exclude

The holder of a lock is the thread that has it in its `lock_list`, the value of its semaphore
is one exactly when it is free, and `waiting_lock` is set exactly while the thread is inside
`lock_acquire`.  A section that has nothing to do with locks leaves all of these members
alone (`SameLocks`).
-/

namespace CS162.Threads

open Kernel Function


/-- The lock that a thread with this code is acquiring. -/
def acquiring : List Frame → Option LockId
  | .lockAcquire l :: _ => some l
  | _ => none

/-- The section handles the semaphore of a lock as a plain semaphore, which no
program does. -/
def Frame.rawLock : Frame → Bool
  | .call (.semaDown (.lock _)) => true
  | .call (.semaTryDown (.lock _)) => true
  | .call (.semaUp (.lock _)) => true
  | .semaDown (.lock _) => true
  | _ => false

/-- The section belongs to an operation that changes locks, priorities or the
set of threads. -/
def Frame.lockOp : Frame → Bool
  | .call (.lockAcquire _) => true
  | .call (.lockTryAcquire _) => true
  | .call (.lockRelease _) => true
  | .call (.threadSetPriority _) => true
  | .call (.threadCreate _ _) => true
  | .call .threadExit => true
  | .lockAcquire _ => true
  | .lockRelease _ => true
  | _ => false

/-- The two states agree on locks and priorities. -/
structure SameLocks (σ τ : Kernel) : Prop where
  priority : τ.priority = σ.priority
  instrinsicPriority : τ.instrinsicPriority = σ.instrinsicPriority
  lockList : τ.lockList = σ.lockList
  waitingLock : τ.waitingLock = σ.waitingLock
  holder : τ.holder = σ.holder
  maxPriority : τ.maxPriority = σ.maxPriority
  value : ∀ l, τ.value (.lock l) = σ.value (.lock l)
  waiters : ∀ l, τ.waiters (.lock l) = σ.waiters (.lock l)
  allList : τ.allList = σ.allList

namespace SameLocks

theorem refl (σ : Kernel) : SameLocks σ σ :=
  ⟨rfl, rfl, rfl, rfl, rfl, rfl, fun _ => rfl, fun _ => rfl, rfl⟩

theorem trans {σ τ υ : Kernel} (h : SameLocks σ τ) (h' : SameLocks τ υ) :
    SameLocks σ υ where
  priority := h'.priority.trans h.priority
  instrinsicPriority := h'.instrinsicPriority.trans h.instrinsicPriority
  lockList := h'.lockList.trans h.lockList
  waitingLock := h'.waitingLock.trans h.waitingLock
  holder := h'.holder.trans h.holder
  maxPriority := h'.maxPriority.trans h.maxPriority
  value l := (h'.value l).trans (h.value l)
  waiters l := (h'.waiters l).trans (h.waiters l)
  allList := h'.allList.trans h.allList

end SameLocks

namespace Kernel

variable {σ σ' : Kernel} {f : Frame}

theorem Executes.sameLocks (hl : f.lockOp = false) (hr : f.rawLock = false)
    (h : σ.Executes f σ') : SameLocks σ σ' := by
  cases h with
  | plain | tryDownFails | condSignal | threadSleep => exact { SameLocks.refl σ with }
  | wait r hf =>
    have hne : ∀ l, .lock l ≠ r := by
      rintro l rfl
      cases hf <;> cases hr
    exact { SameLocks.refl σ with waiters := fun l => update_of_ne (hne l) _ _ }
  | down r hf =>
    have hne : ∀ l, .lock l ≠ r := by
      rintro l rfl
      rcases hf with rfl | rfl | rfl <;> cases hr
    exact { SameLocks.refl σ with value := fun l => update_of_ne (hne l) _ _ }
  | up r hw =>
    have hne : ∀ l, .lock l ≠ r := by
      rintro l rfl
      cases hr
    exact { SameLocks.refl σ with
      value := fun l => update_of_ne (hne l) _ _
      waiters := fun l => hw.other _ (hne l) }
  | condWait c l =>
    exact { SameLocks.refl σ with value := fun l => by simp, waiters := fun l => by simp }
  | lockWait l hf => cases hf <;> cases hl
  | lockTake l hf =>
    rcases hf with ⟨rfl, -⟩ | ⟨hf, -⟩
    · cases hl
    · cases hf <;> cases hl
  | _ => cases hl

theorem step_sameLocks {a : Act} (ha : ∀ n, a ≠ .exec n) (hs : σ.step a = some σ') :
    SameLocks σ σ' := by
  by_cases hop : ∃ op, a = .call op
  · obtain ⟨op, rfl⟩ := hop
    obtain ⟨-, hs⟩ := Option.ite_none_right_eq_some.mp hs
    cases hs
    exact { SameLocks.refl σ with }
  cases step_interrupted ha (not_exists.mp hop) hs with
  | semaUp s hw =>
    exact { SameLocks.refl σ with
      value := fun l => by simp, waiters := fun l => hw.other _ (by simp) }
  | tryDown s => exact { SameLocks.refl σ with value := fun l => by simp [setValue] }
  | _ => exact { SameLocks.refl σ with }

end Kernel

/-- No section handles the semaphore of a lock as a plain semaphore. -/
def RawFree (σ : Kernel) : Prop :=
  ∀ t, ∀ f ∈ σ.code t, f.rawLock = false

/-- The semaphore of a lock is one while the lock is free and zero while it is
held. -/
structure LockValue (σ : Kernel) : Prop where
  value_le : ∀ l, σ.value (.lock l) ≤ 1
  value_one_iff : ∀ l, σ.value (.lock l) = 1 ↔ σ.holder l = none

/-- `waiting_lock` is the lock the thread is acquiring. -/
def WaitingOk (σ : Kernel) : Prop :=
  ∀ t, σ.waitingLock t = acquiring (σ.code t)

/-- The holder of a lock is the thread that lists it. A dead thread lists no
lock. -/
structure LockHeld (σ : Kernel) : Prop where
  holder_iff : ∀ l t, σ.holder l = some t ↔ l ∈ σ.lockList t
  nodup : ∀ t, (σ.lockList t).Nodup
  dead_free : ∀ t, t ∉ σ.allList → σ.lockList t = []

/-- In this step no thread exits while it holds a lock. -/
def ExitsFree (σ : Kernel) : Act → Prop
  | .exec _ => (σ.code σ.current).head? = some (.call .threadExit) →
      σ.lockList σ.current = []
  | _ => True

instance (σ : Kernel) : DecidablePred (ExitsFree σ)
  | .exec _ => inferInstanceAs (Decidable (_ → _))
  | .call _ | .timer | .intrSemaUp _ | .intrSemaTryDown _ | .switchYield => .isTrue trivial

namespace LockValue

variable {σ τ : Kernel} {l : LockId}

theorem of_same (h : LockValue σ) (s : SameLocks σ τ) : LockValue τ where
  value_le l := by
    rw [s.value]
    exact h.value_le l
  value_one_iff l := by
    rw [s.value, s.holder]
    exact h.value_one_iff l

theorem holder_of_value (h : LockValue σ) (hv : σ.value (.lock l) ≠ 0) : σ.holder l = none := by
  have := h.value_le l
  exact (h.value_one_iff l).mp (by omega)

theorem take (h : LockValue σ) (hv : σ.value (.lock l) ≠ 0) (t : Tid)
    (hval : τ.value = update σ.value (.lock l) (σ.value (.lock l) - 1))
    (hold : τ.holder = update σ.holder l (some t)) : LockValue τ := by
  have hle := h.value_le l
  constructor
  · intro k
    have hk := h.value_le k
    rw [hval, update_apply]
    split <;> omega
  · intro k
    have hk := h.value_one_iff k
    rw [hval, hold, update_apply, update_apply]
    by_cases e : k = l
    · simp [e, show σ.value (.lock l) = 1 by omega]
    · simpa [e] using hk

theorem drop (h : LockValue σ) {t : Tid} (hl : σ.holder l = some t)
    (hval : τ.value = update σ.value (.lock l) ((σ.value (.lock l) + 1) % 2 ^ 32))
    (hold : τ.holder = update σ.holder l none) : LockValue τ := by
  have hzero : σ.value (.lock l) = 0 := by
    by_contra hv
    rw [h.holder_of_value hv] at hl
    cases hl
  constructor
  · intro k
    have hk := h.value_le k
    rw [hval, hzero, update_apply]
    split <;> omega
  · intro k
    have hk := h.value_one_iff k
    rw [hval, hold, hzero, update_apply, update_apply]
    by_cases e : k = l
    · simp [e]
    · simpa [e] using hk

end LockValue

namespace LockHeld

variable {σ τ : Kernel}

theorem of_same (h : LockHeld σ) (s : SameLocks σ τ) : LockHeld τ where
  holder_iff l t := by
    rw [s.holder, s.lockList]
    exact h.holder_iff l t
  nodup t := by
    rw [s.lockList]
    exact h.nodup t
  dead_free t ht := by
    rw [s.allList] at ht
    rw [s.lockList]
    exact h.dead_free t ht

theorem take (h : LockHeld σ) {l : LockId} {t : Tid} (hl : σ.holder l = none) (ht : t ∈ σ.allList)
    (hold : τ.holder = update σ.holder l (some t))
    (hlist : τ.lockList = update σ.lockList t (σ.lockList t ++ [l]))
    (hall : τ.allList = σ.allList) : LockHeld τ := by
  have hnot : ∀ u, l ∉ σ.lockList u := by
    intro u hu
    rw [← h.holder_iff, hl] at hu
    cases hu
  constructor
  · intro k u
    have hk := h.holder_iff k u
    have hn := hnot u
    rw [hold, hlist]
    grind
  · intro u
    rw [hlist, update_apply]
    split
    · exact List.nodup_append.mpr ⟨h.nodup t, by simp, by have := hnot t; grind⟩
    · exact h.nodup u
  · intro u hu
    rw [hall] at hu
    have hne : u ≠ t := fun e => hu (e ▸ ht)
    rw [hlist, update_of_ne hne]
    exact h.dead_free u hu

theorem drop (h : LockHeld σ) {l : LockId} {t : Tid} (hl : σ.holder l = some t)
    (hold : τ.holder = update σ.holder l none)
    (hlist : τ.lockList = update σ.lockList t ((σ.lockList t).erase l))
    (hall : τ.allList = σ.allList) : LockHeld τ := by
  constructor
  · intro k u
    have hk := h.holder_iff k u
    have hmem : k ∈ (σ.lockList t).erase l ↔ k ≠ l ∧ k ∈ σ.lockList t := (h.nodup t).mem_erase_iff
    rw [hold, hlist, update_apply, update_apply]
    grind
  · intro u
    rw [hlist, update_apply]
    split
    · exact (h.nodup t).erase l
    · exact h.nodup u
  · intro u hu
    rw [hall] at hu
    have hd := h.dead_free u hu
    have hne : u ≠ t := by
      rintro rfl
      have := (h.holder_iff l u).mp hl
      simp [hd] at this
    rw [hlist, update_of_ne hne]
    exact hd

end LockHeld

theorem acquiring_eq_none {fs : List Frame} (h : ∀ f ∈ fs, f.intrOn = true) :
    acquiring fs = none := by
  unfold acquiring
  split
  · next l _ => simpa [Frame.intrOn] using h (.lockAcquire l) (by simp)
  · rfl

namespace Kernel

variable {σ σ' : Kernel} {a : Act} {f : Frame} {fs : List Frame} {n : ℕ} {l : LockId}

theorem step_rawFree (hw : WellPlaced σ) (h : RawFree σ) (hs : σ.step a = some σ') :
    RawFree σ' := by
  refine step_code_forall hw ?_ ?_ h hs
  · intro f g hf hg
    cases hg with
    | semaDown r => cases r <;> first | rfl | cases hf
    | semaDownAgain r => exact hf
    | _ => rfl
  · intro op hop
    cases op with
    | semaDown r => cases r <;> first | rfl | cases hop
    | semaTryDown r => cases r <;> first | rfl | cases hop
    | semaUp r => cases r <;> first | rfl | cases hop
    | _ => rfl

theorem acquiring_rest (hw : WellPlaced σ) (hc : σ.code σ.current = f :: fs) :
    acquiring fs = none := by
  have := hw.code_ok.tail_intrOn σ.current
  rw [hc] at this
  exact acquiring_eq_none this

theorem exec_cases (hs : σ.step (.exec n) = some σ') :
    ∃ f fs, σ.code σ.current = f :: fs ∧ execFrame n (σ.setCode σ.current fs) f = some σ' := by
  cases hc : σ.code σ.current with
  | nil => simp [step, hc] at hs
  | cons f fs => exact ⟨f, fs, rfl, by simpa only [step, hc] using hs⟩

theorem setCode_sameLocks (t : Tid) (fs : List Frame) : SameLocks σ (σ.setCode t fs) :=
  { SameLocks.refl σ with }

theorem step_cases (hr : RawFree σ) (hs : σ.step a = some σ') :
    ((∀ n, a ≠ .exec n) ∧ SameLocks σ σ') ∨ ∃ n f fs, a = .exec n ∧ σ.code σ.current = f :: fs ∧
      execFrame n (σ.setCode σ.current fs) f = some σ' ∧
      (f.lockOp = false ∧ SameLocks σ σ' ∨ f.lockOp = true) := by
  by_cases ha : ∀ n, a ≠ .exec n
  · exact .inl ⟨ha, step_sameLocks ha hs⟩
  push Not at ha
  obtain ⟨n, rfl⟩ := ha
  obtain ⟨f, fs, hc, he⟩ := exec_cases hs
  have hraw : f.rawLock = false := hr σ.current f (by simp [hc])
  refine .inr ⟨n, f, fs, rfl, hc, he, ?_⟩
  cases hf : f.lockOp with
  | false =>
    have hsame := (Executes.execFrame he).sameLocks hf hraw
    exact .inl ⟨rfl, (setCode_sameLocks σ.current fs).trans hsame⟩
  | true => exact .inr rfl

theorem Executes.lockValue (hf : f.lockOp = true) (hv : LockValue σ) (h : σ.Executes f σ') :
    LockValue σ' := by
  cases h with
  | lockTake l _ hne => exact hv.take hne σ.current rfl rfl
  | lockDrop l hl => exact hv.drop hl rfl rfl
  | wait r hr => cases hr <;> cases hf
  | down r hr => rcases hr with rfl | rfl | rfl <;> cases hf
  | up | condWait => cases hf
  | _ => exact ⟨hv.value_le, hv.value_one_iff⟩

theorem step_lockValue (hr : RawFree σ) (h : LockValue σ) (hs : σ.step a = some σ') :
    LockValue σ' := by
  rcases step_cases hr hs with ⟨-, hsame⟩ | ⟨n, f, fs, -, -, he, ⟨-, hsame⟩ | hf⟩
  · exact h.of_same hsame
  · exact h.of_same hsame
  · exact (Executes.execFrame he).lockValue hf (h.of_same (setCode_sameLocks _ fs))

theorem Executes.lockHeld (hw : σ.current ∈ σ.allList) (hnd : σ.allList.Nodup)
    (hx : f = .call .threadExit → σ.lockList σ.current = []) (hv : LockValue σ) (hh : LockHeld σ)
    (h : σ.Executes f σ') : LockHeld σ' := by
  cases h with
  | lockTake l _ hne => exact hh.take (hv.holder_of_value hne) hw rfl rfl rfl
  | lockDrop l hl => exact hh.drop hl rfl rfl rfl
  | threadCreate t q ht =>
    -- the fresh thread listed no lock before its `lock_list` is initialised
    have hlist : update σ.lockList t [] = σ.lockList := by
      rw [← hh.dead_free t ht, update_eq_self]
    refine ⟨?_, ?_, ?_⟩
    all_goals simp only [pushCode, setCode, initThread, hlist]
    · exact hh.holder_iff
    · exact hh.nodup
    · intro u hu
      exact hh.dead_free u fun hm => hu (List.mem_append_left _ hm)
  | threadExit =>
    refine ⟨hh.holder_iff, hh.nodup, ?_⟩
    intro u hu
    by_cases hu' : u ∈ σ.allList
    · have hcur : u = σ.current := by
        by_contra hne
        exact hu (hnd.mem_erase_iff.mpr ⟨hne, hu'⟩)
      rw [hcur]
      exact hx rfl
    · exact hh.dead_free u hu'
  | _ => exact ⟨hh.holder_iff, hh.nodup, hh.dead_free⟩

theorem step_lockHeld (hw : WellPlaced σ) (hr : RawFree σ) (hv : LockValue σ) (h : LockHeld σ)
    (hx : ExitsFree σ a) (hs : σ.step a = some σ') : LockHeld σ' := by
  rcases step_cases hr hs with ⟨-, hsame⟩ | ⟨n, f, fs, rfl, hc, he, -⟩
  · exact h.of_same hsame
  · have hsame := setCode_sameLocks (σ := σ) σ.current fs
    have hmem : σ.current ∈ σ.allList := current_mem_all hw
    refine Executes.lockHeld (σ := σ.setCode σ.current fs) hmem hw.all_nodup ?_
      (hv.of_same hsame) (h.of_same hsame) (.execFrame he)
    rintro rfl
    exact hx (by rw [hc]; rfl)

theorem acquiring_append {gs : List Frame} (hgs : ∀ g ∈ gs, Spawns f g)
    (hf : ∀ l, ¬ Spawns f (.lockAcquire l)) (hfs : acquiring fs = none) :
    acquiring (gs ++ fs) = none := by
  cases gs with
  | nil => exact hfs
  | cons g gs =>
    cases g with
    | lockAcquire l => exact absurd (hgs _ (by simp)) (hf l)
    | _ => rfl

theorem exec_waitingOk (hw : WellPlaced σ) (h : WaitingOk σ) (hc : σ.code σ.current = f :: fs)
    (he : execFrame n (σ.setCode σ.current fs) f = some σ') : WaitingOk σ' := by
  obtain ⟨gs, hgs, hcode⟩ := step_exec_code hw he
  have hrest := acquiring_rest hw hc
  have hcur := h σ.current
  rw [hc] at hcur
  -- a section that is not part of `lock_acquire` leaves `waiting_lock` and no `lockAcquire`
  have hkeep : σ'.waitingLock = σ.waitingLock → (∀ l, ¬ Spawns f (.lockAcquire l)) →
      WaitingOk σ' := by
    intro hwl hf t
    rw [hwl, hcode, update_apply]
    split
    · next e =>
        rw [e, hcur, acquiring_append hgs hf hrest]
        cases f with
        | lockAcquire l => exact absurd (.lockAcquireAgain l) (hf l)
        | _ => rfl
    · exact h t
  cases Executes.execFrame he with
  | plain hf => exact hkeep rfl (by rintro l ⟨⟩ <;> cases hf)
  | wait r hf => exact hkeep rfl (by rintro l ⟨⟩ <;> cases hf)
  | down r hf => exact hkeep rfl (by rcases hf with rfl | rfl | rfl <;> rintro l ⟨⟩)
  | lockWait l hf hwl =>
    intro t
    by_cases e : t = σ.current
    · rcases hwl with ⟨rfl, rfl⟩ | rfl
      · simp [e, setCode, acquiring, hcur]
      · simp [e, setCode, acquiring]
    · rcases hwl with ⟨rfl, rfl⟩ | rfl
      · simpa [e, setCode] using h t
      · simpa [e, setCode] using h t
  | lockTake l hf =>
    rcases hf with ⟨rfl, rfl⟩ | ⟨hf, rfl⟩
    · exact hkeep rfl (by rintro l ⟨⟩)
    · intro t
      by_cases e : t = σ.current
      · simp [e, setCode, hrest]
      · simpa [e, setCode] using h t
  | threadCreate t q ht =>
    refine hkeep ?_ (by rintro l ⟨⟩)
    have hnone : σ.waitingLock t = none := by
      rw [h t, code_of_not_mem hw ht]
      rfl
    simp only [pushCode, setCode, initThread]
    rw [← hnone, update_eq_self]
  | _ => exact hkeep rfl (by rintro l ⟨⟩)

theorem step_waitingOk (hw : WellPlaced σ) (hr : RawFree σ) (h : WaitingOk σ)
    (hs : σ.step a = some σ') : WaitingOk σ' := by
  rcases step_cases hr hs with ⟨ha, hsame⟩ | ⟨n, f, fs, rfl, hc, he, -⟩
  · cases a with
    | exec n => exact absurd rfl (ha n)
    | call op =>
      obtain ⟨⟨hnil, -⟩, hs⟩ := Option.ite_none_right_eq_some.mp hs
      cases hs
      intro t
      have ht := h t
      simp only [setCode, update_apply]
      split
      · next e =>
          rw [ht, e, hnil]
          rfl
      · exact ht
    | _ =>
      intro t
      rw [hsame.waitingLock, interrupt_code (by simp) (by simp) hs]
      exact h t
  · exact exec_waitingOk hw h hc he

end Kernel

/-- What the lock members say about each other in every state. -/
structure LockInv (σ : Kernel) : Prop where
  placed : WellPlaced σ
  rawFree : RawFree σ
  lockValue : LockValue σ
  waitingOk : WaitingOk σ

theorem boot_lockInv (b : Bool) (v : ℕ → ℕ) : LockInv (boot b v) where
  placed := boot_wellPlaced b v
  rawFree t f hf := by
    simp only [boot] at hf
    split at hf
    · rw [List.mem_singleton.mp hf]
      rfl
    · cases hf
  lockValue := ⟨fun _ => le_rfl, fun _ => ⟨fun _ => rfl, fun _ => rfl⟩⟩
  waitingOk t := by
    simp only [boot]
    split <;> rfl

theorem boot_lockHeld (b : Bool) (v : ℕ → ℕ) : LockHeld (boot b v) where
  holder_iff l t := by simp [boot]
  nodup _ := List.nodup_nil
  dead_free _ _ := rfl

variable {σ : Kernel}

theorem step_lockInv {σ' : Kernel} {a : Act} (h : LockInv σ) (hs : σ.step a = some σ') :
    LockInv σ' where
  placed := step_wellPlaced h.placed hs
  rawFree := step_rawFree h.placed h.rawFree hs
  lockValue := step_lockValue h.rawFree h.lockValue hs
  waitingOk := step_waitingOk h.placed h.rawFree h.waitingOk hs

/-- Locks exclude: holders and `lock_list`s agree, a lock is in at most one
`lock_list` and there once, its semaphore is one exactly when it is free, and
`waiting_lock` is set exactly while the thread is inside `lock_acquire`. -/
structure LocksExclude (σ : Kernel) : Prop where
  holder_iff : ∀ l t, σ.holder l = some t ↔ l ∈ σ.lockList t
  unique : ∀ l t u, l ∈ σ.lockList t → l ∈ σ.lockList u → t = u
  nodup : ∀ t, (σ.lockList t).Nodup
  value_le : ∀ l, σ.value (.lock l) ≤ 1
  value_one_iff : ∀ l, σ.value (.lock l) = 1 ↔ σ.holder l = none
  waiting_iff : ∀ t l, σ.waitingLock t = some l ↔ .lockAcquire l ∈ σ.code t

theorem acquiring_eq_some_iff (h : WellPlaced σ) (t : Tid) (l : LockId) :
    acquiring (σ.code t) = some l ↔ .lockAcquire l ∈ σ.code t := by
  have htail := h.code_ok.tail_intrOn t
  cases hc : σ.code t with
  | nil => simp [acquiring]
  | cons f fs =>
    have hnot : .lockAcquire l ∉ fs := by
      intro hm
      have := htail (.lockAcquire l) (by simpa [hc] using hm)
      cases this
    cases f with
    | lockAcquire k => simp [acquiring, hnot, eq_comm]
    | _ => simp [acquiring, hnot]

/-- In every run of the thread system in which no thread exits while it holds a
lock, locks exclude in every state. -/
theorem run_locksExclude {b : Bool} {v : ℕ → ℕ} {acts : List Act} {σ : Kernel}
    (hx : Run.Meets step ExitsFree (boot b v) acts)
    (hr : Run.run step (boot b v) acts = some σ) : LocksExclude σ := by
  have h : LockInv σ ∧ LockHeld σ := by
    refine Run.run_invariant (I := fun σ => LockInv σ ∧ LockHeld σ) ?_
      ⟨boot_lockInv b v, boot_lockHeld b v⟩ hx hr
    rintro σ a σ' ⟨hi, hh⟩ hx hs
    exact ⟨step_lockInv hi hs, step_lockHeld hi.placed hi.rawFree hi.lockValue hh hx hs⟩
  obtain ⟨hi, hh⟩ := h
  refine ⟨hh.holder_iff, ?_, hh.nodup, hi.lockValue.value_le, hi.lockValue.value_one_iff, ?_⟩
  · intro l t u ht hu
    rw [← hh.holder_iff] at ht hu
    rw [ht] at hu
    exact Option.some.inj hu
  · intro t l
    rw [hi.waitingOk t]
    exact acquiring_eq_some_iff hi.placed t l

/-- The initial thread takes a lock and creates a thread of priority 40 that
waits for it. -/
def donateOnce : List Act :=
  [.call (.lockAcquire 5), .exec 1, .call (.threadCreate 2 40), .exec 1, .exec 1,
    .exec 1, .exec 1, .exec 1, .exec 1, .exec 1, .exec 1, .call (.lockAcquire 5), .exec 2]

theorem run_locksExclude_donateOnce :
    ∃ σ, Run.run step (boot true fun _ => 0) donateOnce = some σ ∧
      σ.holder 5 = some 0 ∧ σ.waiters (.lock 5) = [2] ∧ LocksExclude σ := by
  have hobs : (Run.run step (boot true fun _ => 0) donateOnce).map (fun σ =>
      (σ.holder 5, σ.waiters (.lock 5))) = some (some 0, [2]) := rfl
  obtain ⟨σ, hr, ho⟩ := Option.map_eq_some_iff.mp hobs
  obtain ⟨hholder, hwaiters⟩ := Prod.mk.inj ho
  exact ⟨σ, hr, hholder, hwaiters, run_locksExclude (by decide +kernel) hr⟩

end CS162.Threads
