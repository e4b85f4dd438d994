import CS162.Threads.Placed

/-!
# What a section leaves to be done

A step takes the next section off the code of the running thread and may put
new ones in its place; the code of every other thread stays as it is. `Spawns f g`
lists the sections `g` that executing `f` can leave behind.
-/

namespace CS162.Threads

open Option Function

/-- Executing the section `f` can leave the section `g` to be done. -/
inductive Spawns : Frame → Frame → Prop where
  | semaDown (r : SemaRef) : Spawns (.call (.semaDown r)) (.semaDown r)
  | semaDownAgain (r : SemaRef) : Spawns (.semaDown r) (.semaDown r)
  | semaUp (r : SemaRef) : Spawns (.call (.semaUp r)) .threadYield
  | lockAcquire (l : LockId) : Spawns (.call (.lockAcquire l)) (.lockAcquire l)
  | lockAcquireAgain (l : LockId) : Spawns (.lockAcquire l) (.lockAcquire l)
  | lockRelease (l : LockId) : Spawns (.call (.lockRelease l)) (.lockRelease l)
  | lockReleaseYield (l : LockId) : Spawns (.lockRelease l) .threadYield
  | waitRelease (c : CondId) (l : LockId) :
      Spawns (.call (.condWait c l)) (.call (.lockRelease l))
  | waitDown (c : CondId) (l : LockId) (w : ℕ) :
      Spawns (.call (.condWait c l)) (.call (.semaDown (.waiter w)))
  | waitAcquire (c : CondId) (l : LockId) :
      Spawns (.call (.condWait c l)) (.call (.lockAcquire l))
  | signalUp (c : CondId) (l : LockId) (w : ℕ) :
      Spawns (.call (.condSignal c l)) (.call (.semaUp (.waiter w)))
  | broadcastSignal (c : CondId) (l : LockId) :
      Spawns (.call (.condBroadcast c l)) (.call (.condSignal c l))
  | broadcastAgain (c : CondId) (l : LockId) :
      Spawns (.call (.condBroadcast c l)) (.call (.condBroadcast c l))
  | createAcquire (t : Tid) (p : ℤ) (l : LockId) :
      Spawns (.call (.threadCreate t p)) (.call (.lockAcquire l))
  | createTid (t : Tid) (p : ℤ) : Spawns (.call (.threadCreate t p)) (.allocateTid t)
  | tidRelease (t : Tid) (l : LockId) : Spawns (.allocateTid t) (.call (.lockRelease l))
  | tidStart (t : Tid) (v : ℕ) : Spawns (.allocateTid t) (.startThread t v)
  | startYield (t : Tid) (v : ℕ) : Spawns (.startThread t v) .threadYield
  | setPriority (p : ℤ) : Spawns (.call (.threadSetPriority p)) .threadYield
  | timerSleep (k w : ℤ) : Spawns (.call (.timerSleep k)) (.call (.threadSleep w))
  | threadSleep (w : ℤ) : Spawns (.call (.threadSleep w)) .threadSleep
  | idle : Spawns .idle .idle

/-- The section belongs to an operation on a semaphore, or to `lock_acquire`. -/
def Frame.onSema : Frame → Bool
  | .call (.semaDown _) => true
  | .call (.semaTryDown _) => true
  | .call (.semaUp _) => true
  | .call (.lockAcquire _) => true
  | .semaDown _ => true
  | .lockAcquire _ => true
  | _ => false

/-- The code after a section: the running thread has the sections `gs`, all left
by `f`, before the ones it had. -/
def LeavesCode (f : Frame) (σ σ' : Kernel) : Prop :=
  ∃ gs : List Frame, (∀ g ∈ gs, Spawns f g) ∧
    σ'.code = update σ.code σ.current (gs ++ σ.code σ.current)

namespace Kernel

/-- Executing the section `f` can change `σ` into the given state. -/
inductive Executes (σ : Kernel) : Frame → Kernel → Prop where
  /-- Only the scheduler, the tids and the code of the running thread change. -/
  | plain {f : Frame} {gs : List Frame} {st rl c k tid n} (hf : f.onSema = false)
      (hgs : ∀ g ∈ gs, Spawns f g) (hst : σ.UnblocksOthers st) : Executes σ f { σ with
        status := st, readyList := rl, current := c, threadTicks := k
        tid := tid, nextTid := n
        code := update σ.code σ.current (gs ++ σ.code σ.current) }
  | wait {f : Frame} {st rl c} (r : SemaRef) (hf : Spawns f (.semaDown r)) (hv : σ.value r = 0)
      (hst : σ.UnblocksOthers st) : Executes σ f { σ with
        status := st, readyList := rl, current := c, threadTicks := 0
        waiters := update σ.waiters r (σ.waiters r ++ [σ.current])
        code := update σ.code σ.current (.semaDown r :: σ.code σ.current) }
  | down {f : Frame} (r : SemaRef)
      (hf : f = .call (.semaDown r) ∨ f = .call (.semaTryDown r) ∨ f = .semaDown r)
      (hv : σ.value r ≠ 0) : Executes σ f (σ.setValue r (σ.value r - 1))
  | tryDownFails (r : SemaRef) (hv : σ.value r = 0) : Executes σ (.call (.semaTryDown r)) σ
  | up {st ws rl} (r : SemaRef) (hw : σ.Wakes r st ws) : Executes σ (.call (.semaUp r)) { σ with
        status := st, waiters := ws, readyList := rl
        value := update σ.value r ((σ.value r + 1) % 2 ^ 32)
        code := update σ.code σ.current (.threadYield :: σ.code σ.current) }
  | lockWait {f : Frame} {st rl c wl p m} (l : LockId) (hf : Spawns f (.lockAcquire l))
      (hwl : f = .lockAcquire l ∧ wl = σ.waitingLock ∨
        wl = update σ.waitingLock σ.current (some l))
      (hv : σ.value (.lock l) = 0) (hst : σ.UnblocksOthers st)
      (hp : ∀ t, t ≠ σ.current → σ.Spares p t) : Executes σ f { σ with
        status := st, readyList := rl, current := c, threadTicks := 0
        waiters := update σ.waiters (.lock l) (σ.waiters (.lock l) ++ [σ.current])
        waitingLock := wl, priority := p, maxPriority := m
        code := update σ.code σ.current (.lockAcquire l :: σ.code σ.current) }
  | lockTake {f : Frame} {wl p m} (l : LockId)
      (hf : f = .call (.lockTryAcquire l) ∧ wl = σ.waitingLock ∨
        Spawns f (.lockAcquire l) ∧ wl = update σ.waitingLock σ.current none)
      (hv : σ.value (.lock l) ≠ 0) (hp : ∀ t, t ≠ σ.current → σ.Spares p t) :
      Executes σ f { σ with
        value := update σ.value (.lock l) (σ.value (.lock l) - 1)
        holder := update σ.holder l (some σ.current)
        lockList := update σ.lockList σ.current (σ.lockList σ.current ++ [l])
        waitingLock := wl, priority := p, maxPriority := m }
  | lockDrop {st rl c k p ws} (l : LockId) (hl : σ.holder l = some σ.current)
      (hw : σ.Wakes (.lock l) st ws) (hp : ∀ t, t ≠ σ.current → σ.Spares p t) :
      Executes σ (.call (.lockRelease l)) { σ with
        status := st, readyList := rl, current := c, threadTicks := k
        priority := p, waiters := ws
        holder := update σ.holder l none
        lockList := update σ.lockList σ.current ((σ.lockList σ.current).erase l)
        value := update σ.value (.lock l) ((σ.value (.lock l) + 1) % 2 ^ 32)
        code := update σ.code σ.current (.lockRelease l :: σ.code σ.current) }
  | lockFlush {m} (l : LockId) : Executes σ (.lockRelease l) { σ with
        maxPriority := m
        code := update σ.code σ.current (.threadYield :: σ.code σ.current) }
  | condWait {cw} (c : CondId) (l : LockId) : Executes σ (.call (.condWait c l)) { σ with
        value := update σ.value (.waiter σ.nextWaiter) 0
        waiters := update σ.waiters (.waiter σ.nextWaiter) []
        condWaiters := cw, nextWaiter := σ.nextWaiter + 1
        code := update σ.code σ.current (.call (.lockRelease l) ::
          .call (.semaDown (.waiter σ.nextWaiter)) :: .call (.lockAcquire l) ::
          σ.code σ.current) }
  | condSignal {cw} (c : CondId) (l : LockId) (w : ℕ) :
      Executes σ (.call (.condSignal c l)) { σ with
        condWaiters := cw
        code := update σ.code σ.current
          (.call (.semaUp (.waiter w)) :: σ.code σ.current) }
  | threadCreate (t : Tid) (p : ℤ) (ht : t ∉ σ.allList) : Executes σ (.call (.threadCreate t p))
      ((σ.initThread t p).pushCode [.call (.lockAcquire σ.tidLock), .allocateTid t])
  | threadSetPriority {p} (q : ℤ) (hp : ∀ t, t ≠ σ.current → σ.Spares p t) :
      Executes σ (.call (.threadSetPriority q)) { σ with
        instrinsicPriority := update σ.instrinsicPriority σ.current q
        priority := p
        code := update σ.code σ.current (.threadYield :: σ.code σ.current) }
  | threadSleep {st rl c sl wt} (w : ℤ) (hst : σ.UnblocksOthers st) :
      Executes σ (.call (.threadSleep w)) { σ with
        status := st, readyList := rl, current := c, threadTicks := 0
        sleepList := sl, wakeupTime := wt
        code := update σ.code σ.current (.threadSleep :: σ.code σ.current) }
  | threadExit {st rl c} (hst : σ.UnblocksOthers st) : Executes σ (.call .threadExit) { σ with
        status := st, readyList := rl, current := c, threadTicks := 0
        allList := σ.allList.erase σ.current }

variable {σ σ' : Kernel} {f : Frame} {n : ℕ}

namespace Executes

section

variable (hf : f.onSema = false)

include hf

theorem scheduled {st rl c k} (hst : σ.UnblocksOthers st) : σ.Executes f { σ with
    status := st, readyList := rl, current := c, threadTicks := k } := by
  have h : σ.Executes f { σ with
      status := st, readyList := rl, current := c, threadTicks := k
      code := update σ.code σ.current ([] ++ σ.code σ.current) } :=
    .plain hf nofun hst
  rwa [List.nil_append, update_eq_self] at h

theorem same : σ.Executes f σ :=
  scheduled hf fun _ _ h => h

theorem threadYield : σ.Executes f σ.threadYield := by
  obtain ⟨st, rl, c, k, hst, e⟩ := threadYield_eq σ
  rw [e]
  exact scheduled hf fun t _ => hst t

end

theorem semaDownLoop (r : SemaRef) (hf : f = .call (.semaDown r) ∨ f = .semaDown r) :
    σ.Executes f (σ.semaDownLoop r) := by
  unfold Kernel.semaDownLoop
  split
  · next hv =>
      obtain ⟨st, rl, c, hst, e⟩ := threadBlock_eq
        ((σ.setWaiters r (σ.waiters r ++ [σ.current])).pushCode [.semaDown r])
      rw [waitOn, e]
      rcases hf with rfl | rfl
      · exact .wait r (.semaDown r) hv hst
      · exact .wait r (.semaDownAgain r) hv hst
  · next hv => exact .down r (hf.imp_right .inr) hv

theorem lockAcquireLoop {wl p m} (l : LockId) (hf : Spawns f (.lockAcquire l))
    (hwl : f = .lockAcquire l ∧ wl = σ.waitingLock ∨
      wl = update σ.waitingLock σ.current (some l)) (hp : ∀ t, σ.Spares p t) :
    σ.Executes f ({ σ with waitingLock := wl, priority := p, maxPriority := m : Kernel
      }.lockAcquireLoop l) := by
  rcases lockAcquireLoop_eq l with ⟨hv, st, rl, c, hst, e⟩ | ⟨hv, q, hq, e⟩
  · rw [e]
    exact .lockWait l hf hwl hv hst fun t _ => hp t
  · rw [e]
    refine .lockTake l (.inr ⟨hf, ?_⟩) hv
      fun t ht hl he => (hq t ht hl ((hp t hl he).trans he)).trans (hp t hl he)
    rcases hwl with ⟨-, rfl⟩ | rfl
    · rfl
    · exact update_idem _ _ _

theorem enter {op : Op} (he : enter n σ op = some σ') : σ.Executes (.call op) σ' := by
  cases op with
  | semaDown r =>
    cases he
    exact semaDownLoop r (.inl rfl)
  | semaTryDown r =>
    cases he
    rcases semaTryDown_eq r with ⟨hv, e⟩ | ⟨hv, e⟩
    · rw [e]
      exact .tryDownFails r hv
    · rw [e]
      exact .down r (.inr (.inl rfl)) hv
  | semaUp r =>
    obtain ⟨σ₁, h1, rfl⟩ := map_eq_some_iff.mp he
    obtain ⟨st, ws, rl, hw, rfl⟩ := semaUpWake_eq h1
    exact .up r hw
  | lockAcquire l =>
    simp only [Kernel.enter, lockAcquire] at he
    split at he
    · cases he
    · obtain ⟨σ₁, h1, rfl⟩ := map_eq_some_iff.mp he
      obtain ⟨p, m, hp, rfl⟩ := flushPriority_eq h1
      exact lockAcquireLoop l (.lockAcquire l) (.inr rfl) hp
  | lockTryAcquire l =>
    rcases lockTryAcquire_eq he with ⟨-, ⟨-, rfl⟩ | ⟨hv, p, hp, rfl⟩⟩
    · exact same rfl
    · exact .lockTake l (.inl ⟨rfl, rfl⟩) hv hp
  | lockRelease l =>
    obtain ⟨hl, st, rl, c, k, p, ws, hw, hp, rfl⟩ := lockRelease_eq he
    exact .lockDrop l hl hw hp
  | condWait c l =>
    obtain ⟨-, he⟩ := ite_none_right_eq_some.mp he
    cases he
    exact .condWait c l
  | condSignal c l =>
    obtain ⟨-, he⟩ := ite_none_right_eq_some.mp he
    split at he
    · cases he
      exact same rfl
    · cases he
      exact .condSignal c l _
  | condBroadcast c l =>
    cases he
    unfold condBroadcast
    split
    · exact same rfl
    · exact .plain rfl (by simpa using ⟨.broadcastSignal c l, .broadcastAgain c l⟩) fun _ _ h => h
  | threadCreate t p =>
    obtain ⟨ht, -, -, rfl⟩ := threadCreate_eq he
    exact .threadCreate t p ht
  | threadSetPriority q =>
    cases he
    obtain ⟨p, hp, e⟩ := adjustPriority_eq { σ with
      instrinsicPriority := update σ.instrinsicPriority σ.current q } σ.current
    rw [Kernel.threadSetPriority, e]
    exact .threadSetPriority q fun t ht hl he =>
      hp t hl (he.trans (update_of_ne ht _ _).symm)
  | threadYield =>
    cases he
    exact threadYield rfl
  | timerSleep k =>
    cases he
    exact .plain rfl (by simpa using .timerSleep k _) fun _ _ h => h
  | threadSleep w =>
    cases he
    obtain ⟨st, rl, c, hst, e⟩ := threadBlock_eq ((σ.sleepInsert w).pushCode [.threadSleep])
    rw [Kernel.threadSleep, e]
    exact .threadSleep w hst
  | threadExit =>
    cases he
    obtain ⟨st, rl, c, hst, e⟩ := threadExit_eq σ
    rw [e]
    exact .threadExit hst

theorem execFrame (he : execFrame n σ f = some σ') : σ.Executes f σ' := by
  cases f with
  | call op => exact enter he
  | semaDown r =>
    cases he
    exact semaDownLoop r (.inr rfl)
  | lockAcquire l =>
    cases he
    exact lockAcquireLoop l (.lockAcquireAgain l) (.inl ⟨rfl, rfl⟩) fun _ _ _ => rfl
  | lockRelease l =>
    cases he
    exact .lockFlush l
  | threadSleep =>
    cases he
    exact same rfl
  | threadYield =>
    cases he
    exact threadYield rfl
  | allocateTid t =>
    cases he
    exact .plain rfl (by simpa using ⟨.tidRelease t _, .tidStart t _⟩) fun _ _ h => h
  | startThread t v =>
    obtain ⟨σ₁, h1, rfl⟩ := map_eq_some_iff.mp he
    obtain ⟨-, rfl⟩ := threadUnblock_eq h1
    exact .plain rfl (by simpa using .startYield t v) fun u _ hu => unblocks_update (by simp) t u hu
  | idle =>
    cases he
    obtain ⟨st, rl, c, hst, e⟩ := threadBlock_eq (σ.pushCode [.idle])
    rw [e]
    exact .plain rfl (by simpa using .idle) hst

theorem leavesCode (hd : ∀ t, t ∉ σ.allList → σ.code t = []) (h : σ.Executes f σ') :
    LeavesCode f σ σ' := by
  cases h with
  | plain _ hgs => exact ⟨_, hgs, rfl⟩
  | wait r hf => exact ⟨[.semaDown r], by simpa using hf, rfl⟩
  | up r => exact ⟨[.threadYield], by simpa using .semaUp r, rfl⟩
  | lockWait l hf => exact ⟨[.lockAcquire l], by simpa using hf, rfl⟩
  | lockDrop l => exact ⟨[.lockRelease l], by simpa using .lockRelease l, rfl⟩
  | lockFlush l => exact ⟨[.threadYield], by simpa using .lockReleaseYield l, rfl⟩
  | condWait c l =>
    refine ⟨[.call (.lockRelease l), .call (.semaDown (.waiter σ.nextWaiter)),
      .call (.lockAcquire l)], ?_, rfl⟩
    simpa using ⟨.waitRelease c l, .waitDown c l _, .waitAcquire c l⟩
  | condSignal c l w =>
    exact ⟨[.call (.semaUp (.waiter w))], by simpa using .signalUp c l w, rfl⟩
  | threadCreate t p ht =>
    have hcode : update σ.code t [] = σ.code := by
      rw [← hd t ht, update_eq_self]
    refine ⟨[.call (.lockAcquire σ.tidLock), .allocateTid t],
      by simpa using ⟨.createAcquire t p _, .createTid t p⟩, ?_⟩
    simp only [Kernel.pushCode, setCode, initThread, hcode]
  | threadSetPriority q => exact ⟨[.threadYield], by simpa using .setPriority q, rfl⟩
  | threadSleep w => exact ⟨[.threadSleep], by simpa using .threadSleep w, rfl⟩
  | _ => exact ⟨[], by simp, (update_eq_self _ _).symm⟩

end Executes

/-- The act `a`, which is not one of the running thread, can change `σ` into the given
state. -/
inductive Interrupted (σ : Kernel) : Act → Kernel → Prop where
  | timer {st rl sl c n k} (hst : σ.Unblocks st) : Interrupted σ .timer { σ with
      status := st, readyList := rl, sleepList := sl, current := c, ticks := n, threadTicks := k }
  | semaUp {st ws rl} (s : ℕ) (hw : σ.Wakes (.sema s) st ws) :
      Interrupted σ (.intrSemaUp s) { σ with
        status := st, waiters := ws, readyList := rl
        value := update σ.value (.sema s) ((σ.value (.sema s) + 1) % 2 ^ 32) }
  | tryDown (s : ℕ) (hv : σ.value (.sema s) ≠ 0) :
      Interrupted σ (.intrSemaTryDown s) (σ.setValue (.sema s) (σ.value (.sema s) - 1))
  | tryDownFails (s : ℕ) (hv : σ.value (.sema s) = 0) : Interrupted σ (.intrSemaTryDown s) σ
  | switchYield : Interrupted σ .switchYield { σ with enableYield := true }

theorem step_interrupted {a : Act} (ha : ∀ n, a ≠ .exec n) (hop : ∀ op, a ≠ .call op)
    (hs : σ.step a = some σ') : σ.Interrupted a σ' := by
  cases a with
  | exec n => exact absurd rfl (ha n)
  | call op => exact absurd rfl (hop op)
  | timer =>
    obtain ⟨-, hs⟩ := ite_none_right_eq_some.mp hs
    obtain ⟨st, rl, sl, c, n, k, hst, rfl⟩ := timerInterrupt_eq hs
    exact .timer hst
  | intrSemaUp s =>
    obtain ⟨-, hs⟩ := ite_none_right_eq_some.mp hs
    obtain ⟨st, ws, rl, hw, rfl⟩ := semaUpWake_eq hs
    exact .semaUp s hw
  | intrSemaTryDown s =>
    obtain ⟨-, hs⟩ := ite_none_right_eq_some.mp hs
    cases hs
    rcases semaTryDown_eq (.sema s) with ⟨hv, e⟩ | ⟨hv, e⟩
    · rw [e]
      exact .tryDownFails s hv
    · rw [e]
      exact .tryDown s hv
  | switchYield =>
    obtain ⟨-, hs⟩ := ite_none_right_eq_some.mp hs
    cases hs
    exact .switchYield

theorem interrupt_code {a : Act} (ha : ∀ n, a ≠ .exec n) (hop : ∀ op, a ≠ .call op)
    (hs : σ.step a = some σ') : σ'.code = σ.code := by
  cases step_interrupted ha hop hs <;> rfl

theorem code_of_not_mem (h : WellPlaced σ) {t : Tid} (ht : t ∉ σ.allList) : σ.code t = [] := by
  apply h.code_dead
  by_contra hne
  exact ht ((h.mem_all_iff t).mpr hne)

theorem current_mem_all (h : WellPlaced σ) : σ.current ∈ σ.allList := by
  rw [h.mem_all_iff, h.current_running]
  simp

theorem step_exec_code {fs : List Frame} (h : WellPlaced σ)
    (he : execFrame n (σ.setCode σ.current fs) f = some σ') :
    ∃ gs : List Frame, (∀ g ∈ gs, Spawns f g) ∧ σ'.code = update σ.code σ.current (gs ++ fs) := by
  have hd : ∀ t, t ∉ σ.allList → (σ.setCode σ.current fs).code t = [] := by
    intro t ht
    have hne : t ≠ σ.current := fun e => ht (e ▸ current_mem_all h)
    simpa [setCode, hne] using code_of_not_mem h ht
  obtain ⟨gs, hgs, hcode⟩ := (Executes.execFrame he).leavesCode hd
  refine ⟨gs, hgs, ?_⟩
  simpa [setCode] using hcode

theorem step_code_forall {P : Frame → Prop} {a : Act} (hw : WellPlaced σ)
    (hspawn : ∀ f g, P f → Spawns f g → P g) (hcall : ∀ op : Op, op.isPublic = true → P (.call op))
    (h : ∀ t, ∀ f ∈ σ.code t, P f) (hs : σ.step a = some σ') : ∀ t, ∀ f ∈ σ'.code t, P f := by
  cases a with
  | exec n =>
    cases hc : σ.code σ.current with
    | nil => simp [step, hc] at hs
    | cons f fs =>
      simp only [step, hc] at hs
      obtain ⟨gs, hgs, hcode⟩ := step_exec_code hw hs
      have hcur := h σ.current
      rw [hc] at hcur
      intro t g hg
      rw [hcode, update_apply] at hg
      split at hg
      · rcases List.mem_append.mp hg with hg | hg
        · exact hspawn f g (hcur f (by simp)) (hgs g hg)
        · exact hcur g (by simp [hg])
      · exact h t g hg
  | call op =>
    obtain ⟨⟨-, hpub⟩, hs⟩ := ite_none_right_eq_some.mp hs
    cases hs
    intro t g hg
    simp only [setCode, update_apply] at hg
    split at hg
    · rw [List.mem_singleton.mp hg]
      exact hcall op hpub
    · exact h t g hg
  | _ =>
    rw [interrupt_code (by simp) (by simp) hs]
    exact h

end Kernel

end CS162.Threads
