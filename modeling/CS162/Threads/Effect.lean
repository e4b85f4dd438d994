import CS162.Threads.Step

/-!
# What each function can change

For every function that moves threads or propagates priorities, the members it can change: its
result is the old state with new values for exactly these.
-/

namespace CS162.Threads.Kernel

open Option Function

variable {σ σ' : Kernel} {t : Tid} {l : LockId}

theorem schedule_of_none (h : listMax σ.priority σ.readyList = none) :
    σ.schedule =
      { σ.setStatus σ.idleThread .running with
        current := σ.idleThread, threadTicks := 0 } := by
  simp only [schedule, threadScheduleTail, nextThreadToRun, h]
  rfl

theorem schedule_of_some (h : listMax σ.priority σ.readyList = some t) :
    σ.schedule =
      { σ.setStatus t .running with
        readyList := σ.readyList.erase t, current := t, threadTicks := 0 } := by
  simp only [schedule, threadScheduleTail, nextThreadToRun, h]
  rfl

/-- The change of the statuses to `st` blocks nobody. -/
def Unblocks (σ : Kernel) (st : Tid → ThreadStatus) : Prop :=
  ∀ t, σ.status t ≠ .blocked → st t ≠ .blocked

/-- The change of the statuses to `st` blocks nobody but the running thread. -/
def UnblocksOthers (σ : Kernel) (st : Tid → ThreadStatus) : Prop :=
  ∀ t, t ≠ σ.current → σ.status t ≠ .blocked → st t ≠ .blocked

theorem unblocks_update {s : ThreadStatus} (hs : s ≠ .blocked) (t : Tid) :
    σ.Unblocks (update σ.status t s) := by
  intro u hu
  rw [update_apply]
  split
  · exact hs
  · exact hu

theorem schedule_eq (σ : Kernel) :
    ∃ st rl c, σ.Unblocks st ∧ σ.schedule =
      { σ with status := st, readyList := rl, current := c, threadTicks := 0 } := by
  cases h : listMax σ.priority σ.readyList with
  | none => exact ⟨_, _, _, unblocks_update (by simp) _, schedule_of_none h⟩
  | some t => exact ⟨_, _, _, unblocks_update (by simp) _, schedule_of_some h⟩

theorem threadBlock_eq (σ : Kernel) :
    ∃ st rl c, σ.UnblocksOthers st ∧ σ.threadBlock =
      { σ with status := st, readyList := rl, current := c, threadTicks := 0 } := by
  obtain ⟨st, rl, c, hst, h⟩ := schedule_eq (σ.setStatus σ.current .blocked)
  refine ⟨st, rl, c, fun t ht hb => hst t ?_, h⟩
  simpa [setStatus, ht] using hb

theorem threadYield_eq (σ : Kernel) :
    ∃ st rl c k, σ.Unblocks st ∧ σ.threadYield =
      { σ with status := st, readyList := rl, current := c, threadTicks := k } := by
  unfold threadYield
  split
  · obtain ⟨st, rl, c, hst, h⟩ := schedule_eq σ.yieldReady
    exact ⟨st, rl, c, 0, fun t ht => hst t (unblocks_update (by simp) _ t ht), h⟩
  · exact ⟨_, _, _, _, fun _ h => h, rfl⟩

theorem threadUnblock_eq (h : σ.threadUnblock t = some σ') :
    σ.status t = .blocked ∧
      σ' = { σ.setStatus t .ready with readyList := σ.readyList ++ [t] } := by
  unfold threadUnblock at h
  split at h
  · exact ⟨‹_›, (some.inj h).symm⟩
  · cases h

/-- `sema_up` on `r` changes the statuses to `st` and the waiters to `ws`: it wakes
a thread if one waits for `r`. -/
structure Wakes (σ : Kernel) (r : SemaRef) (st : Tid → ThreadStatus)
    (ws : SemaRef → List Tid) : Prop where
  unblocks : σ.Unblocks st
  other : ∀ r', r' ≠ r → ws r' = σ.waiters r'
  self : ws r = [] ∨ ∃ t ∈ σ.waiters r, st t ≠ .blocked

theorem Wakes.trans {r : SemaRef} {st st' : Tid → ThreadStatus} {ws : SemaRef → List Tid}
    (h : σ.Wakes r st ws) (hst : ∀ t, st t ≠ .blocked → st' t ≠ .blocked) : σ.Wakes r st' ws :=
  ⟨fun t ht => hst t (h.unblocks t ht), h.other,
    h.self.imp_right fun ⟨t, ht, hb⟩ => ⟨t, ht, hst t hb⟩⟩

theorem wakeMaxWaiter_eq {r : SemaRef} (h : σ.wakeMaxWaiter r = some σ') :
    ∃ st ws rl, σ.Wakes r st ws ∧ σ' =
      { σ with status := st, waiters := ws, readyList := rl } := by
  unfold wakeMaxWaiter at h
  cases hm : listMax σ.priority (σ.waiters r) with
  | none =>
    rw [hm] at h
    cases h
    exact ⟨_, _, _, ⟨fun _ h => h, fun _ _ => rfl, .inl (listMax_eq_none.mp hm)⟩, rfl⟩
  | some t =>
    simp only [hm] at h
    obtain ⟨-, rfl⟩ := threadUnblock_eq h
    exact ⟨_, _, _, ⟨unblocks_update (by simp) t, fun _ hr => update_of_ne hr _ _,
      .inr ⟨t, listMax_mem hm, by simp⟩⟩, rfl⟩

theorem semaUpWake_eq {r : SemaRef} (h : σ.semaUpWake r = some σ') :
    ∃ st ws rl, σ.Wakes r st ws ∧ σ' =
      { σ with
        status := st, waiters := ws, readyList := rl
        value := update σ.value r ((σ.value r + 1) % 2 ^ 32) } := by
  obtain ⟨σ₁, h1, rfl⟩ := map_eq_some_iff.mp h
  obtain ⟨st, ws, rl, hw, rfl⟩ := wakeMaxWaiter_eq h1
  exact ⟨st, ws, rl, hw, rfl⟩

theorem semaTryDown_eq (r : SemaRef) :
    (σ.value r = 0 ∧ (σ.semaTryDown r).1 = σ) ∨
    (σ.value r ≠ 0 ∧ (σ.semaTryDown r).1 = σ.setValue r (σ.value r - 1)) := by
  unfold semaTryDown
  split
  · exact .inr ⟨by omega, rfl⟩
  · exact .inl ⟨by omega, rfl⟩

theorem threadAlarmLoop_eq {now : ℤ} {ts : List Tid} (h : threadAlarmLoop now ts σ = some σ') :
    ∃ st rl sl, σ.Unblocks st ∧ σ' =
      { σ with status := st, readyList := rl, sleepList := sl } := by
  induction ts generalizing σ with
  | nil =>
    cases h
    exact ⟨_, _, _, fun _ h => h, rfl⟩
  | cons t ts ih =>
    unfold threadAlarmLoop at h
    split at h
    · obtain ⟨σ₁, h1, h2⟩ := bind_eq_some_iff.mp h
      obtain ⟨-, rfl⟩ := threadUnblock_eq h1
      obtain ⟨st, rl, sl, hst, rfl⟩ := ih h2
      exact ⟨st, rl, sl, fun u hu => hst u (unblocks_update (by simp) t u hu), rfl⟩
    · cases h
      exact ⟨_, _, _, fun _ h => h, rfl⟩

theorem tickReturn_eq (σ : Kernel) :
    ∃ st rl c k, σ.Unblocks st ∧ σ.tickReturn =
      { σ with status := st, readyList := rl, current := c, threadTicks := k } := by
  unfold tickReturn
  split
  · obtain ⟨st, rl, c, k, hst, h⟩ := threadYield_eq σ.threadTick.1
    exact ⟨st, rl, c, k, hst, h⟩
  · exact ⟨_, _, _, _, fun _ h => h, rfl⟩

theorem timerInterrupt_eq (h : σ.timerInterrupt = some σ') :
    ∃ st rl sl c n k, σ.Unblocks st ∧ σ' =
      { σ with
        status := st, readyList := rl, sleepList := sl, current := c,
        ticks := n, threadTicks := k } := by
  obtain ⟨σ₁, h1, rfl⟩ := map_eq_some_iff.mp h
  obtain ⟨st, rl, sl, hst, rfl⟩ := threadAlarmLoop_eq h1
  obtain ⟨st', rl', c, k, hst', h2⟩ := tickReturn_eq
    { σ with ticks := σ.ticks + 1, status := st, readyList := rl, sleepList := sl }
  exact ⟨st', rl', sl, c, σ.ticks + 1, k, fun t ht => hst' t (hst t ht), h2⟩

/-- The change of the priorities to `p` leaves the thread `t` alone if it holds no lock
and has its own priority. -/
def Spares (σ : Kernel) (p : Tid → ℤ) (t : Tid) : Prop :=
  σ.lockList t = [] → σ.priority t = σ.instrinsicPriority t → p t = σ.priority t

theorem adjustPriority_eq (σ : Kernel) (t : Tid) :
    ∃ p, (∀ u, σ.Spares p u) ∧ σ.adjustPriority t = { σ with priority := p } := by
  unfold adjustPriority
  cases hm : listMax σ.maxPriority (σ.lockList t) with
  | none =>
    refine ⟨_, fun u _ hu => ?_, rfl⟩
    rw [update_apply]
    split
    · next e => rw [e] at hu ⊢; exact hu.symm
    · rfl
  | some l =>
    dsimp only
    split
    · refine ⟨_, fun u hl _ => update_of_ne ?_ _ _, rfl⟩
      rintro rfl
      have := listMax_mem hm
      rw [hl] at this
      cases this
    · exact ⟨_, fun _ _ _ => rfl, rfl⟩

theorem flushPriority_eq {n : ℕ} (h : flushPriority n σ t = some σ') :
    ∃ p m, (∀ u, σ.Spares p u) ∧ σ' = { σ with priority := p, maxPriority := m } := by
  induction n generalizing σ t with
  | zero => cases h
  | succ n ih =>
    unfold flushPriority at h
    cases hw : σ.waitingLock t with
    | none =>
      rw [hw] at h
      cases h
      exact ⟨_, _, fun _ _ _ => rfl, rfl⟩
    | some l =>
      simp only [hw] at h
      split at h
      · cases hl : σ.holder l with
        | none =>
          rw [hl] at h
          cases h
          exact ⟨_, _, fun _ _ _ => rfl, rfl⟩
        | some u =>
          simp only [hl] at h
          obtain ⟨p, m, hp, rfl⟩ := ih h
          obtain ⟨q, hq, e⟩ := adjustPriority_eq (σ.setMaxPriority l (σ.priority t)) u
          rw [e] at hp ⊢
          exact ⟨p, m, fun v hv he => (hp v hv ((hq v hv he).trans he)).trans (hq v hv he), rfl⟩
      · cases h
        exact ⟨_, _, fun _ _ _ => rfl, rfl⟩

theorem adjustCurrent_eq (σ : Kernel) (ls : List LockId) (hold : LockId → Option Tid) :
    ∃ p, (∀ t, t ≠ σ.current → σ.Spares p t) ∧
      { σ with
        holder := hold
        lockList := update σ.lockList σ.current ls : Kernel }.adjustPriority σ.current =
      { σ with
        holder := hold
        lockList := update σ.lockList σ.current ls
        priority := p } := by
  obtain ⟨p, hp, e⟩ := adjustPriority_eq { σ with
    holder := hold
    lockList := update σ.lockList σ.current ls } σ.current
  exact ⟨p, fun t ht hl => hp t ((update_of_ne ht _ _).trans hl), e⟩

theorem takeLock_eq (σ : Kernel) (l : LockId) :
    ∃ p, (∀ t, t ≠ σ.current → σ.Spares p t) ∧ σ.takeLock l = { σ with
      holder := update σ.holder l (some σ.current)
      lockList := update σ.lockList σ.current
        (σ.lockList σ.current ++ [l])
      priority := p } :=
  adjustCurrent_eq _ _ _

theorem dropLock_eq (σ : Kernel) (l : LockId) :
    ∃ p, (∀ t, t ≠ σ.current → σ.Spares p t) ∧ σ.dropLock l = { σ with
      holder := update σ.holder l none
      lockList := update σ.lockList σ.current
        ((σ.lockList σ.current).erase l)
      priority := p } :=
  adjustCurrent_eq _ _ _

theorem lockAcquireLoop_eq (l : LockId) :
    (σ.value (.lock l) = 0 ∧ ∃ st rl c, σ.UnblocksOthers st ∧ σ.lockAcquireLoop l =
      { σ with
        status := st, readyList := rl, current := c, threadTicks := 0
        waiters := update σ.waiters (.lock l)
          (σ.waiters (.lock l) ++ [σ.current])
        code := update σ.code σ.current
          (.lockAcquire l :: σ.code σ.current) }) ∨
    (σ.value (.lock l) ≠ 0 ∧ ∃ p, (∀ t, t ≠ σ.current → σ.Spares p t) ∧ σ.lockAcquireLoop l =
      { σ with
        value := update σ.value (.lock l) (σ.value (.lock l) - 1)
        holder := update σ.holder l (some σ.current)
        lockList := update σ.lockList σ.current
          (σ.lockList σ.current ++ [l])
        waitingLock := update σ.waitingLock σ.current none
        priority := p }) := by
  unfold lockAcquireLoop
  split
  · next hv =>
      obtain ⟨st, rl, c, hst, h⟩ := threadBlock_eq
        ((σ.setWaiters (.lock l) (σ.waiters (.lock l) ++ [σ.current])).pushCode [.lockAcquire l])
      exact .inl ⟨hv, st, rl, c, hst, h⟩
  · next hv =>
      obtain ⟨p, hp, h⟩ := takeLock_eq (σ.setValue (.lock l) (σ.value (.lock l) - 1)) l
      exact .inr ⟨hv, p, hp, by rw [h]; rfl⟩

theorem lockTryAcquire_eq (h : σ.lockTryAcquire l = some σ') :
    σ.holder l ≠ some σ.current ∧
      ((σ.value (.lock l) = 0 ∧ σ' = σ) ∨
       (σ.value (.lock l) ≠ 0 ∧ ∃ p, (∀ t, t ≠ σ.current → σ.Spares p t) ∧ σ' =
        { σ with
          value := update σ.value (.lock l) (σ.value (.lock l) - 1)
          holder := update σ.holder l (some σ.current)
          lockList := update σ.lockList σ.current
            (σ.lockList σ.current ++ [l])
          priority := p })) := by
  unfold lockTryAcquire at h
  split at h
  · cases h
  next hne =>
    refine ⟨hne, ?_⟩
    by_cases hv : 0 < σ.value (.lock l)
    · simp only [semaTryDown, hv, if_true] at h
      obtain ⟨p, hp, e⟩ := takeLock_eq (σ.setValue (.lock l) (σ.value (.lock l) - 1)) l
      rw [e] at h
      cases h
      exact .inr ⟨by omega, p, hp, rfl⟩
    · simp only [semaTryDown, hv, if_false] at h
      cases h
      exact .inl ⟨by omega, rfl⟩

theorem lockRelease_eq (h : σ.lockRelease l = some σ') :
    σ.holder l = some σ.current ∧ ∃ st rl c k p ws, σ.Wakes (.lock l) st ws ∧
      (∀ t, t ≠ σ.current → σ.Spares p t) ∧ σ' =
      { σ with
        status := st, readyList := rl, current := c, threadTicks := k
        priority := p, waiters := ws
        holder := update σ.holder l none
        lockList := update σ.lockList σ.current
          ((σ.lockList σ.current).erase l)
        value := update σ.value (.lock l) ((σ.value (.lock l) + 1) % 2 ^ 32)
        code := update σ.code σ.current
          (.lockRelease l :: σ.code σ.current) } := by
  unfold lockRelease at h
  split at h
  · next hh =>
      obtain ⟨σ₁, h1, rfl⟩ := map_eq_some_iff.mp h
      obtain ⟨p, hp, e⟩ := dropLock_eq σ l
      rw [e] at h1
      obtain ⟨st, ws, rl, hw, rfl⟩ := semaUpWake_eq h1
      obtain ⟨st', rl', c, k, hst, hy⟩ := threadYield_eq (pushCode _ [.lockRelease l])
      refine ⟨hh, st', rl', c, k, p, ws, ?_, hp, hy⟩
      exact { hw.trans hst with }
  · cases h

theorem threadCreate_eq {t : Tid} {p : ℤ} (h : σ.threadCreate t p = some σ') :
    t ∉ σ.allList ∧ priMin ≤ p ∧ p ≤ priMax ∧ σ' = (σ.initThread t p).pushCode
      [.call (.lockAcquire σ.tidLock), .allocateTid t] := by
  unfold threadCreate at h
  split at h
  · cases h
  next hfresh =>
    simp only [not_or, not_lt] at hfresh
    cases h
    exact ⟨hfresh.1, hfresh.2.1, hfresh.2.2, rfl⟩

theorem threadExit_eq (σ : Kernel) :
    ∃ st rl c, σ.UnblocksOthers st ∧ σ.threadExit =
      { σ with
        status := st, readyList := rl, current := c, threadTicks := 0
        allList := σ.allList.erase σ.current } := by
  obtain ⟨st, rl, c, hst, h⟩ := schedule_eq { σ.setStatus σ.current .dying with
    allList := σ.allList.erase σ.current }
  exact ⟨st, rl, c, fun t _ hb => hst t (unblocks_update (by simp) _ t hb), h⟩

end CS162.Threads.Kernel
