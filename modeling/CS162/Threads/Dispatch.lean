import CS162.Threads.Placed

/-!
# The order in which threads are dispatched

`σ.schedules a` is the state in which the step `a` calls `schedule`, if it does.  Every thread
enters `ready_list` at its end, and `schedule` takes the first thread of the highest priority
off it.  `Queued` numbers the entries, so that the order of the list can be compared with
theirs.
-/

namespace CS162.Threads

open List Option

namespace Kernel

def blocking (σ : Kernel) : Kernel :=
  σ.setStatus σ.current .blocked

def yielding (σ : Kernel) : Option Kernel :=
  if σ.enableYield then some σ.yieldReady else none

def waiting (σ : Kernel) (r : SemaRef) (f : Frame) : Kernel :=
  ((σ.setWaiters r (σ.waiters r ++ [σ.current])).pushCode [f]).blocking

def semaWaits (σ : Kernel) (r : SemaRef) : Option Kernel :=
  if σ.value r = 0 then some (σ.waiting r (.semaDown r)) else none

def lockWaits (σ : Kernel) (l : LockId) : Option Kernel :=
  if σ.value (.lock l) = 0 then some (σ.waiting (.lock l) (.lockAcquire l)) else none

/-- The first section of an operation, at its call of `schedule`. -/
def enterSchedules (n : ℕ) (σ : Kernel) : Op → Option Kernel
  | .semaDown r => σ.semaWaits r
  | .lockAcquire l =>
    if σ.holder l = some σ.current then none
    else
      (flushPriority n (σ.setWaitingLock σ.current (some l)) σ.current).bind
        fun σ' => σ'.lockWaits l
  | .lockRelease l =>
    if σ.holder l = some σ.current then
      ((σ.dropLock l).semaUpWake (.lock l)).bind fun σ' =>
        (σ'.pushCode [.lockRelease l]).yielding
    else none
  | .threadYield => σ.yielding
  | .threadSleep w => some ((σ.sleepInsert w).pushCode [.threadSleep]).blocking
  | .threadExit =>
    some { σ.setStatus σ.current .dying with allList := σ.allList.erase σ.current }
  | _ => none

/-- A section, at its call of `schedule`. -/
def execSchedules (n : ℕ) (σ : Kernel) : Frame → Option Kernel
  | .call op => enterSchedules n σ op
  | .semaDown r => σ.semaWaits r
  | .lockAcquire l => σ.lockWaits l
  | .threadYield => σ.yielding
  | .idle => some (σ.pushCode [.idle]).blocking
  | _ => none

/-- The state in which the step calls `schedule`, if it does. -/
def schedules (σ : Kernel) : Act → Option Kernel
  | .exec n =>
    match σ.code σ.current with
    | [] => none
    | f :: fs => execSchedules n (σ.setCode σ.current fs) f
  | .timer =>
    if σ.intrOn then
      ({ σ with ticks := σ.ticks + 1 }.threadAlarm (σ.ticks + 1)).bind fun σ' =>
        if σ'.threadTick.2 then σ'.threadTick.1.yielding else none
    else none
  | _ => none

def dispatches (σ : Kernel) (a : Act) : Option Tid :=
  (σ.schedules a).map fun π => π.schedule.current

/-- How a step that started in `σ` ends: it fails, the running thread goes on,
or `schedule` is called. Threads have entered `ready_list` at its end only. -/
inductive Passes (σ : Kernel) : Option Kernel → Option Kernel → Prop where
  | fails : Passes σ none none
  | goesOn {σ' : Kernel} (hc : σ'.current = σ.current) (hr : σ.readyList <+: σ'.readyList) :
      Passes σ (some σ') none
  | switches {π : Kernel} (hr : σ.readyList <+: π.readyList) :
      Passes σ (some π.schedule) (some π)

namespace Passes

variable {σ σ' : Kernel} {x y : Option Kernel}

theorem after (h : Passes σ' x y) (hc : σ'.current = σ.current)
    (hr : σ.readyList <+: σ'.readyList) : Passes σ x y := by
  cases h with
  | fails => exact .fails
  | goesOn hc' hr' => exact .goesOn (hc'.trans hc) (hr.trans hr')
  | switches hr' => exact .switches (hr.trans hr')

theorem threadYield (σ : Kernel) : Passes σ (some σ.threadYield) σ.yielding := by
  unfold Kernel.threadYield yielding
  split
  · refine .switches ?_
    unfold yieldReady
    split
    · exact prefix_rfl
    · exact prefix_append _ _
  · exact .goesOn rfl prefix_rfl

theorem semaDownLoop (σ : Kernel) (r : SemaRef) :
    Passes σ (some (σ.semaDownLoop r)) (σ.semaWaits r) := by
  unfold Kernel.semaDownLoop semaWaits
  split
  · exact .switches prefix_rfl
  · exact .goesOn rfl prefix_rfl

theorem lockAcquireLoop (σ : Kernel) (l : LockId) :
    Passes σ (some (σ.lockAcquireLoop l)) (σ.lockWaits l) := by
  unfold Kernel.lockAcquireLoop lockWaits
  split
  · exact .switches prefix_rfl
  · obtain ⟨p, -, h⟩ := takeLock_eq (σ.setValue (.lock l) (σ.value (.lock l) - 1)) l
    rw [h]
    exact .goesOn rfl prefix_rfl

theorem semaTryDown (σ : Kernel) (r : SemaRef) :
    (σ.semaTryDown r).1.current = σ.current ∧ σ.readyList <+: (σ.semaTryDown r).1.readyList := by
  unfold Kernel.semaTryDown
  split
  · exact ⟨rfl, prefix_rfl⟩
  · exact ⟨rfl, prefix_rfl⟩

theorem semaUpWake {r : SemaRef} (h : σ.semaUpWake r = some σ') :
    σ'.current = σ.current ∧ σ.readyList <+: σ'.readyList := by
  obtain ⟨σ₁, h1, rfl⟩ := map_eq_some_iff.mp h
  unfold wakeMaxWaiter at h1
  split at h1
  · cases h1
    exact ⟨rfl, prefix_rfl⟩
  · obtain ⟨-, rfl⟩ := threadUnblock_eq h1
    exact ⟨rfl, prefix_append _ _⟩

theorem threadAlarmLoop {now : ℤ} {ts : List Tid} (h : threadAlarmLoop now ts σ = some σ') :
    σ'.current = σ.current ∧ σ.readyList <+: σ'.readyList := by
  induction ts generalizing σ with
  | nil =>
    cases h
    exact ⟨rfl, prefix_rfl⟩
  | cons t ts ih =>
    unfold Kernel.threadAlarmLoop at h
    split at h
    · obtain ⟨σ₁, h1, h2⟩ := bind_eq_some_iff.mp h
      obtain ⟨-, rfl⟩ := threadUnblock_eq h1
      obtain ⟨hc, hr⟩ := ih h2
      exact ⟨hc, (prefix_append _ _).trans hr⟩
    · cases h
      exact ⟨rfl, prefix_rfl⟩

theorem lockAcquire (n : ℕ) (σ : Kernel) (l : LockId) :
    Passes σ (lockAcquire n σ l) (enterSchedules n σ (.lockAcquire l)) := by
  unfold Kernel.lockAcquire enterSchedules
  dsimp only
  split
  · exact .fails
  · cases h : flushPriority n (σ.setWaitingLock σ.current (some l)) σ.current with
    | none => exact .fails
    | some σ₁ =>
      obtain ⟨p, m, -, rfl⟩ := flushPriority_eq h
      rw [map_some, bind_some]
      exact (lockAcquireLoop _ l).after rfl prefix_rfl

theorem lockRelease (σ : Kernel) (n : ℕ) (l : LockId) :
    Passes σ (σ.lockRelease l) (enterSchedules n σ (.lockRelease l)) := by
  unfold Kernel.lockRelease enterSchedules
  dsimp only
  split
  · cases h : (σ.dropLock l).semaUpWake (.lock l) with
    | none => exact .fails
    | some σ₁ =>
      obtain ⟨p, -, hp⟩ := dropLock_eq σ l
      obtain ⟨hc, hr⟩ := semaUpWake h
      rw [hp] at hc hr
      rw [map_some, bind_some]
      exact (threadYield (σ₁.pushCode [.lockRelease l])).after hc hr
  · exact .fails

theorem lockTryAcquire (σ : Kernel) (l : LockId) : Passes σ (σ.lockTryAcquire l) none := by
  unfold Kernel.lockTryAcquire
  split
  · exact .fails
  split
  · obtain ⟨p, -, h⟩ := takeLock_eq (σ.semaTryDown (.lock l)).1 l
    obtain ⟨hc, hr⟩ := semaTryDown σ (.lock l)
    rw [h]
    exact .goesOn hc hr
  · exact .goesOn rfl prefix_rfl

theorem enter (n : ℕ) (σ : Kernel) (op : Op) : Passes σ (enter n σ op) (enterSchedules n σ op) := by
  cases op with
  | semaDown r => exact semaDownLoop σ r
  | semaTryDown r =>
    obtain ⟨hc, hr⟩ := semaTryDown σ r
    exact .goesOn hc hr
  | semaUp r =>
    unfold Kernel.enter
    dsimp only
    cases h : σ.semaUpWake r with
    | none => exact .fails
    | some σ₁ =>
      obtain ⟨hc, hr⟩ := semaUpWake h
      exact .goesOn hc hr
  | lockAcquire l => exact lockAcquire n σ l
  | lockTryAcquire l => exact lockTryAcquire σ l
  | lockRelease l => exact lockRelease σ n l
  | condWait c l =>
    unfold Kernel.enter condWait
    dsimp only
    split
    · exact .goesOn rfl prefix_rfl
    · exact .fails
  | condSignal c l =>
    unfold Kernel.enter condSignal
    dsimp only
    split
    · split
      · exact .goesOn rfl prefix_rfl
      · exact .goesOn rfl prefix_rfl
    · exact .fails
  | condBroadcast c l =>
    unfold Kernel.enter condBroadcast
    dsimp only
    split
    · exact .goesOn rfl prefix_rfl
    · exact .goesOn rfl prefix_rfl
  | threadCreate t p =>
    unfold Kernel.enter threadCreate
    dsimp only
    split
    · exact .fails
    · exact .goesOn rfl prefix_rfl
  | threadSetPriority p =>
    obtain ⟨q, -, h⟩ := adjustPriority_eq ({ σ with
      instrinsicPriority := Function.update σ.instrinsicPriority σ.current p }) σ.current
    unfold Kernel.enter threadSetPriority
    dsimp only
    rw [h]
    exact .goesOn rfl prefix_rfl
  | threadYield => exact threadYield σ
  | timerSleep k => exact .goesOn rfl prefix_rfl
  | threadSleep w => exact .switches prefix_rfl
  | threadExit => exact .switches prefix_rfl

theorem execFrame (n : ℕ) (σ : Kernel) (f : Frame) :
    Passes σ (execFrame n σ f) (execSchedules n σ f) := by
  cases f with
  | call op => exact enter n σ op
  | semaDown r => exact semaDownLoop σ r
  | lockAcquire l => exact lockAcquireLoop σ l
  | lockRelease l => exact .goesOn rfl prefix_rfl
  | threadSleep => exact .goesOn rfl prefix_rfl
  | threadYield => exact threadYield σ
  | allocateTid t => exact .goesOn rfl prefix_rfl
  | startThread t v =>
    unfold Kernel.execFrame startThread
    dsimp only
    cases h : ({ σ with tid := Function.update σ.tid t v } : Kernel).threadUnblock t with
    | none => exact .fails
    | some σ₁ =>
      obtain ⟨-, rfl⟩ := threadUnblock_eq h
      exact .goesOn rfl (prefix_append _ _)
  | idle => exact .switches prefix_rfl

theorem step (σ : Kernel) (a : Act) : Passes σ (σ.step a) (σ.schedules a) := by
  cases a with
  | exec n =>
    unfold Kernel.step schedules
    cases hcode : σ.code σ.current with
    | nil => exact .fails
    | cons f fs => exact (execFrame n (σ.setCode σ.current fs) f).after rfl prefix_rfl
  | call op =>
    unfold Kernel.step schedules
    dsimp only
    split
    · exact .goesOn rfl prefix_rfl
    · exact .fails
  | timer =>
    unfold Kernel.step schedules timerInterrupt
    dsimp only
    split
    · cases h : { σ with ticks := σ.ticks + 1 }.threadAlarm (σ.ticks + 1) with
      | none => exact .fails
      | some σ₁ =>
        obtain ⟨hc, hr⟩ := threadAlarmLoop h
        rw [map_some, bind_some, tickReturn]
        split
        · exact (threadYield σ₁.threadTick.1).after hc hr
        · exact .goesOn hc hr
    · exact .fails
  | intrSemaUp i =>
    unfold Kernel.step schedules
    dsimp only
    split
    · cases h : σ.semaUpWake (.sema i) with
      | none => exact .fails
      | some σ₁ =>
        obtain ⟨hc, hr⟩ := semaUpWake h
        exact .goesOn hc hr
    · exact .fails
  | intrSemaTryDown i =>
    unfold Kernel.step schedules
    dsimp only
    split
    · obtain ⟨hc, hr⟩ := semaTryDown σ (.sema i)
      exact .goesOn hc hr
    · exact .fails
  | switchYield =>
    unfold Kernel.step schedules
    dsimp only
    split
    · exact .goesOn rfl prefix_rfl
    · exact .fails

end Passes

variable {σ π σ' : Kernel} {a : Act} {y x : Tid}

theorem step_of_schedules (h : σ.schedules a = some π) :
    σ.step a = some π.schedule ∧ σ.readyList <+: π.readyList := by
  have hp := Passes.step σ a
  rw [h] at hp
  generalize σ.step a = x at hp ⊢
  cases hp with
  | switches hr => exact ⟨rfl, hr⟩

theorem step_of_not_schedules (h : σ.schedules a = none) (hs : σ.step a = some σ') :
    σ'.current = σ.current ∧ σ.readyList <+: σ'.readyList := by
  have hp := Passes.step σ a
  rw [h, hs] at hp
  cases hp with
  | goesOn hc hr => exact ⟨hc, hr⟩

theorem schedule_first (h : π.readyList ≠ []) :
    ∃ A B, π.readyList = A ++ π.schedule.current :: B ∧ π.schedule.readyList = A ++ B ∧
      (∀ u ∈ A, π.priority u < π.priority π.schedule.current) ∧ ∀ u ∈ B,
      π.priority u ≤ π.priority π.schedule.current := by
  cases hm : listMax π.priority π.readyList with
  | none => exact absurd (listMax_eq_none.mp hm) h
  | some t =>
    obtain ⟨A, B, hsplit, hA⟩ := listMax_split hm
    have ht : t ∉ A := fun hmem => lt_irrefl _ (hA t hmem)
    rw [schedule_of_some hm]
    refine ⟨A, B, hsplit, ?_, hA, fun u hu => ?_⟩
    · rw [hsplit, erase_append_right _ ht, erase_cons_head]
    · refine le_of_listMax ?_ hm
      rw [hsplit]
      exact mem_append_right _ (mem_cons_of_mem _ hu)

theorem schedule_of_nil (h : π.readyList = []) :
    π.schedule.readyList = [] ∧ π.schedule.current = π.idleThread := by
  rw [schedule_of_none (listMax_eq_none.mpr h)]
  exact ⟨h, rfl⟩

theorem current_not_mem_ready (h : WellPlaced σ) : σ.current ∉ σ.readyList := by
  rw [h.mem_ready_iff, h.current_running]
  rintro ⟨hr, -⟩
  cases hr

theorem nodup_of_schedule (h : WellPlaced π.schedule) : π.readyList.Nodup := by
  by_cases hnil : π.readyList = []
  · rw [hnil]
    exact nodup_nil
  · obtain ⟨A, B, hsplit, hrest, -, -⟩ := schedule_first hnil
    have hcur := current_not_mem_ready h
    have hnd := h.ready_nodup
    rw [hrest] at hcur hnd
    rw [hsplit]
    exact nodup_middle.mpr (nodup_cons.mpr ⟨hcur, hnd⟩)

/-- `y` is in the list, and no `x` is in front of it. -/
def Ahead (y x : Tid) (l : List Tid) : Prop :=
  ∃ A B, l = A ++ y :: B ∧ x ∉ A

theorem Ahead.mono {l l' : List Tid} (h : Ahead y x l) (hp : l <+: l') : Ahead y x l' := by
  obtain ⟨A, B, rfl, hx⟩ := h
  obtain ⟨C, rfl⟩ := hp
  exact ⟨A, B ++ C, by simp, hx⟩

theorem Ahead.remove {t : Tid} {A B : List Tid} (h : Ahead y x (A ++ t :: B)) (ht : t ≠ y) :
    Ahead y x (A ++ B) := by
  obtain ⟨C, D, hl, hx⟩ := h
  rcases append_eq_append_iff.mp hl with ⟨E, rfl, hE⟩ | ⟨E, rfl, hE⟩
  · -- `t` stands in front of `y`
    cases E with
    | nil => exact absurd (List.cons.inj hE).1 ht
    | cons e E =>
      obtain ⟨rfl, rfl⟩ := List.cons.inj hE
      refine ⟨A ++ E, D, by simp, fun hm => hx ?_⟩
      rcases mem_append.mp hm with hm | hm
      · exact mem_append_left _ hm
      · exact mem_append_right _ (mem_cons_of_mem _ hm)
  · cases E with
    | nil => exact absurd (List.cons.inj hE).1.symm ht
    | cons e E =>
      obtain ⟨rfl, rfl⟩ := List.cons.inj hE
      exact ⟨C, E ++ B, by simp, hx⟩

theorem schedule_ne_of_ahead (h : Ahead y x π.readyList) (hxy : x ≠ y)
    (hp : π.priority x = π.priority y) : π.schedule.current ≠ x := by
  rintro rfl
  obtain ⟨C, D, hl, hx⟩ := h
  have hne : π.readyList ≠ [] := by
    rw [hl]
    simp
  obtain ⟨A, B, hsplit, -, hA, -⟩ := schedule_first hne
  rw [hl] at hsplit
  rcases append_eq_append_iff.mp hsplit with ⟨E, rfl, hE⟩ | ⟨E, rfl, hE⟩
  · cases E with
    | nil => exact hxy (List.cons.inj hE).1.symm
    | cons e E =>
      obtain ⟨rfl, -⟩ := List.cons.inj hE
      exact (hA y (by simp)).ne hp.symm
  · cases E with
    | nil => exact hxy (List.cons.inj hE).1
    | cons e E =>
      obtain ⟨rfl, -⟩ := List.cons.inj hE
      exact hx (by simp)

theorem step_ahead (h : Ahead y x σ.readyList) (hs : σ.step a = some σ')
    (hd : σ.dispatches a ≠ some y) : Ahead y x σ'.readyList := by
  cases hπ : σ.schedules a with
  | none => exact h.mono (step_of_not_schedules hπ hs).2
  | some π =>
    obtain ⟨hs', hr⟩ := step_of_schedules hπ
    obtain rfl : π.schedule = σ' := some.inj (hs'.symm.trans hs)
    have hcur : π.schedule.current ≠ y := by
      intro e
      rw [dispatches, hπ, map_some, e] at hd
      exact hd rfl
    have hπa := h.mono hr
    have hne : π.readyList ≠ [] := by
      obtain ⟨C, D, hl, -⟩ := hπa
      rw [hl]
      simp
    obtain ⟨A, B, hsplit, hrest, -, -⟩ := schedule_first hne
    rw [hsplit] at hπa
    rw [hrest]
    exact hπa.remove hcur

def DispatchedIn (y : Tid) (σ : Kernel) (acts : List Act) : Prop :=
  ∃ before a after τ, acts = before ++ a :: after ∧
    Run.run step σ before = some τ ∧ τ.dispatches a = some y

theorem not_dispatchedIn_nil (y : Tid) (σ : Kernel) : ¬ DispatchedIn y σ [] := by
  rintro ⟨before, a, after, τ, h, -⟩
  simp at h

theorem dispatchedIn_cons {acts : List Act} :
    DispatchedIn y σ (a :: acts) ↔
      σ.dispatches a = some y ∨ ∃ σ', σ.step a = some σ' ∧ DispatchedIn y σ' acts := by
  constructor
  · rintro ⟨before, b, after, τ, h, hτ, hd⟩
    cases before with
    | nil =>
      obtain ⟨rfl, rfl⟩ := List.cons.inj h
      cases hτ
      exact .inl hd
    | cons c before =>
      obtain ⟨rfl, rfl⟩ := List.cons.inj h
      obtain ⟨σ', hs, hτ⟩ := Run.run_cons_eq_some.mp hτ
      exact .inr ⟨σ', hs, before, b, after, τ, rfl, hτ, hd⟩
  · rintro (hd | ⟨σ', hs, before, b, after, τ, rfl, hτ, hd⟩)
    · exact ⟨[], a, acts, σ, rfl, rfl, hd⟩
    · exact ⟨a :: before, b, after, τ, rfl, Run.run_cons_eq_some.mpr ⟨σ', hs, hτ⟩, hd⟩

theorem dispatchedIn_of_ahead {acts : List Act} (hxy : x ≠ y) (h : Ahead y x σ.readyList)
    (hr : Run.run step σ acts = some σ') (hπ : σ'.schedules a = some π)
    (hx : π.schedule.current = x) (hp : π.priority x = π.priority y) : DispatchedIn y σ acts := by
  induction acts generalizing σ with
  | nil =>
    cases hr
    exact absurd hx (schedule_ne_of_ahead (h.mono (step_of_schedules hπ).2) hxy hp)
  | cons b acts ih =>
    obtain ⟨σ₁, hs, hr⟩ := Run.run_cons_eq_some.mp hr
    rw [dispatchedIn_cons]
    by_cases hd : σ.dispatches b = some y
    · exact .inl hd
    · exact .inr ⟨σ₁, hs, ih (step_ahead h hs hd) hr⟩

end Kernel

/-- The thread system, the number of entries into `ready_list` so far, and for
every thread the number of its last entry. -/
structure Queued where
  kernel : Kernel
  clock : ℕ
  since : Tid → ℕ

namespace Queued

/-- The threads that the step puts into `ready_list`, in this order. -/
def entering (σ : Kernel) (a : Act) : List Tid :=
  match (σ.schedules a).or (σ.step a) with
  | some π => π.readyList.drop σ.readyList.length
  | none => []

/-- The numbers of the last entries once the step has put its threads into
`ready_list`. -/
def stamp (q : Queued) (a : Act) (t : Tid) : ℕ :=
  if t ∈ entering q.kernel a then q.clock + (entering q.kernel a).idxOf t else q.since t

def step (q : Queued) (a : Act) : Option Queued :=
  (q.kernel.step a).map fun σ => ⟨σ, q.clock + (entering q.kernel a).length, q.stamp a⟩

variable {q : Queued} {σ : Kernel} {a : Act}

theorem run_eq_some {acts : List Act} (h : Run.run Kernel.step q.kernel acts = some σ) :
    ∃ q', Run.run step q acts = some q' ∧ q'.kernel = σ := by
  induction acts generalizing q with
  | nil =>
    cases h
    exact ⟨q, rfl, rfl⟩
  | cons a acts ih =>
    obtain ⟨σ₁, h1, h2⟩ := Run.run_cons_eq_some.mp h
    have hs : q.step a =
        some ⟨σ₁, q.clock + (entering q.kernel a).length, q.stamp a⟩ := by
      rw [step, h1, map_some]
    obtain ⟨q', hr, hq⟩ := ih (q := ⟨σ₁, q.clock + (entering q.kernel a).length, q.stamp a⟩) h2
    exact ⟨q', Run.run_cons_eq_some.mpr ⟨_, hs, hr⟩, hq⟩

/-- `ready_list` is in the order of the entries. -/
structure Ok (q : Queued) : Prop where
  placed : WellPlaced q.kernel
  ordered : q.kernel.readyList.Pairwise fun t u => q.since t < q.since u
  before : ∀ t ∈ q.kernel.readyList, q.since t < q.clock

theorem boot_ok (b : Bool) (v : ℕ → ℕ) : Ok ⟨boot b v, 0, fun _ => 0⟩ where
  placed := boot_wellPlaced b v
  ordered := List.Pairwise.nil
  before t ht := by cases ht

theorem Ok.stamp {l : List Tid} (h : Ok q) (hl : l = q.kernel.readyList ++ entering q.kernel a)
    (hnd : l.Nodup) :
    (l.Pairwise fun t u => q.stamp a t < q.stamp a u) ∧
      ∀ t ∈ l, q.stamp a t < q.clock + (entering q.kernel a).length := by
  subst hl
  obtain ⟨-, hnew, hdisj⟩ := nodup_append.mp hnd
  have hold : ∀ t ∈ q.kernel.readyList, q.stamp a t = q.since t := by
    intro t ht
    exact if_neg fun hm => hdisj t ht t hm rfl
  have hin : ∀ t ∈ entering q.kernel a,
      q.stamp a t = q.clock + (entering q.kernel a).idxOf t := fun t ht => if_pos ht
  refine ⟨pairwise_append.mpr ⟨?_, ?_, ?_⟩, ?_⟩
  · refine List.Pairwise.imp_of_mem ?_ h.ordered
    intro t u ht hu hlt
    rw [hold t ht, hold u hu]
    exact hlt
  · refine pairwise_iff_getElem.mpr fun i j hi hj hij => ?_
    rw [hin _ (getElem_mem hi), hin _ (getElem_mem hj), hnew.idxOf_getElem, hnew.idxOf_getElem]
    exact Nat.add_lt_add_left hij _
  · intro t ht u hu
    rw [hold t ht, hin u hu]
    exact (h.before t ht).trans_le (Nat.le_add_right _ _)
  · intro t ht
    rcases mem_append.mp ht with ht | ht
    · rw [hold t ht]
      exact (h.before t ht).trans_le (Nat.le_add_right _ _)
    · rw [hin t ht]
      exact Nat.add_lt_add_left (idxOf_lt_length_of_mem ht) _

theorem entering_of_schedules {π : Kernel} (h : σ.schedules a = some π) :
    π.readyList = σ.readyList ++ entering σ a := by
  obtain ⟨l, hl⟩ := (Kernel.step_of_schedules h).2
  rw [entering, h, some_or]
  dsimp only
  rw [← hl, drop_left]

theorem entering_of_not_schedules {σ' : Kernel} (h : σ.schedules a = none)
    (hs : σ.step a = some σ') : σ'.readyList = σ.readyList ++ entering σ a := by
  obtain ⟨l, hl⟩ := (Kernel.step_of_not_schedules h hs).2
  rw [entering, h, hs, none_or]
  dsimp only
  rw [← hl, drop_left]

theorem Ok.step {q' : Queued} (h : Ok q) (hs : q.step a = some q') : Ok q' := by
  obtain ⟨σ', hσ, rfl⟩ := map_eq_some_iff.mp hs
  have hp := Kernel.step_wellPlaced h.placed hσ
  cases hπ : q.kernel.schedules a with
  | none =>
    obtain ⟨hord, hbef⟩ := h.stamp (entering_of_not_schedules hπ hσ) hp.ready_nodup
    exact ⟨hp, hord, hbef⟩
  | some π =>
    obtain ⟨hσ', -⟩ := Kernel.step_of_schedules hπ
    obtain rfl : π.schedule = σ' := some.inj (hσ'.symm.trans hσ)
    obtain ⟨hord, hbef⟩ := h.stamp (entering_of_schedules hπ) (Kernel.nodup_of_schedule hp)
    have hsub : π.schedule.readyList.Sublist π.readyList := by
      by_cases hnil : π.readyList = []
      · rw [(Kernel.schedule_of_nil hnil).1]
        exact nil_sublist _
      · obtain ⟨A, B, hsplit, hrest, -, -⟩ := Kernel.schedule_first hnil
        rw [hsplit, hrest]
        exact (List.Sublist.refl A).append (sublist_cons_self _ B)
    exact ⟨hp, hord.sublist hsub, fun t ht => hbef t (hsub.subset ht)⟩

/-- `schedule` dispatches a thread of `ready_list`; every other one in the list
has a lower priority, or the same priority and has entered later. -/
def PicksFirst (q : Queued) (a : Act) (π : Kernel) : Prop :=
  π.schedule.current ∈ π.readyList ∧
    ∀ u ∈ π.readyList, u ≠ π.schedule.current →
      π.priority u < π.priority π.schedule.current ∨
        π.priority u = π.priority π.schedule.current ∧
          q.stamp a π.schedule.current < q.stamp a u

theorem Ok.picksFirst {π : Kernel} (h : Ok q) (hπ : q.kernel.schedules a = some π)
    (hne : π.readyList ≠ []) : PicksFirst q a π := by
  have hp := Kernel.step_wellPlaced h.placed (Kernel.step_of_schedules hπ).1
  obtain ⟨hord, -⟩ := h.stamp (entering_of_schedules hπ) (Kernel.nodup_of_schedule hp)
  obtain ⟨A, B, hsplit, -, hA, hB⟩ := Kernel.schedule_first hne
  rw [hsplit] at hord
  obtain ⟨-, hord, -⟩ := pairwise_append.mp hord
  unfold PicksFirst
  rw [hsplit]
  refine ⟨mem_append_right _ mem_cons_self, fun u hu hne => ?_⟩
  rcases mem_append.mp hu with hu | hu
  · exact .inl (hA u hu)
  · have hu := (mem_cons.mp hu).resolve_left hne
    rcases (hB u hu).lt_or_eq with hlt | heq
    · exact .inl hlt
    · exact .inr ⟨heq, (pairwise_cons.mp hord).1 u hu⟩

end Queued

open Kernel in
/-- Dispatching in the states of every run. Whenever `schedule` is called with threads in
`ready_list`, it dispatches the first to enter of those of the highest priority. When `x`
is dispatched, `y` is ready, and `x` is dispatched again while it has the priority of `y`,
then `y` has been dispatched in between; the idle thread, which is ready without being in
`ready_list`, is excepted. -/
theorem run_roundRobin {b : Bool} {v : ℕ → ℕ} {acts : List Act} {σ : Kernel}
    (hr : Run.run Kernel.step (boot b v) acts = some σ) :
    (∃ q, Run.run Queued.step ⟨boot b v, 0, fun _ => 0⟩ acts = some q ∧ q.kernel = σ ∧
      ∀ a π, σ.schedules a = some π → π.readyList ≠ [] → q.PicksFirst a π) ∧
    ∀ x y a₁ σ₁ mid σ₂ a₂ π, σ.dispatches a₁ = some x → σ.step a₁ = some σ₁ →
      σ₁.status y = .ready → y ≠ σ₁.idleThread → Run.run Kernel.step σ₁ mid = some σ₂ →
      σ₂.schedules a₂ = some π → σ₂.dispatches a₂ = some x → π.priority x = π.priority y →
      DispatchedIn y σ₁ mid := by
  constructor
  · obtain ⟨q, hq, rfl⟩ := Queued.run_eq_some (q := ⟨boot b v, 0, fun _ => 0⟩) hr
    have hok : q.Ok :=
      Run.run_invariant' (fun _ _ _ h hs => Queued.Ok.step h hs) (Queued.boot_ok b v) hq
    exact ⟨q, hq, rfl, fun a π hπ hne => hok.picksFirst hπ hne⟩
  · intro x y a₁ σ₁ mid σ₂ a₂ π hd1 hs1 hy hi hmid hπ hd2 hp
    have hσ : WellPlaced σ :=
      Run.run_invariant' (fun _ _ _ => step_wellPlaced) (boot_wellPlaced b v) hr
    have hσ1 := step_wellPlaced hσ hs1
    have hx : σ₁.current = x := by
      obtain ⟨π1, hπ1, hx⟩ := map_eq_some_iff.mp hd1
      rw [← some.inj ((step_of_schedules hπ1).1.symm.trans hs1)]
      exact hx
    have hxy : x ≠ y := by
      rintro rfl
      rw [← hx, hσ1.current_running] at hy
      cases hy
    have hahead : Ahead y x σ₁.readyList := by
      obtain ⟨A, B, hl⟩ := append_of_mem ((hσ1.mem_ready_iff y).mpr ⟨hy, hi⟩)
      refine ⟨A, B, hl, fun hm => current_not_mem_ready hσ1 ?_⟩
      rw [hl, hx]
      exact mem_append_left _ hm
    rw [dispatches, hπ, map_some] at hd2
    exact dispatchedIn_of_ahead hxy hahead hmid hπ (some.inj hd2) hp

/-- Thread `2` is created with the priority of the initial thread, which yields to it;
then thread `2` is about to yield. -/
def twoThreads : List Act :=
  [.call (.threadCreate 2 31), .exec 0, .exec 2, .exec 0, .exec 0, .exec 0, .exec 0, .exec 0,
    .exec 0, .call .threadYield]

theorem run_roundRobin_twoThreads :
    ∃ σ σ₁ σ₂, Run.run Kernel.step (boot true fun _ => 0) twoThreads = some σ ∧
      σ.step (.exec 0) = some σ₁ ∧ σ.dispatches (.exec 0) = some 0 ∧
      Run.run Kernel.step σ₁ [.call .threadYield, .exec 0, .call .threadYield] = some σ₂ ∧
      σ₂.dispatches (.exec 0) = some 0 ∧
      Kernel.DispatchedIn 2 σ₁ [.call .threadYield, .exec 0, .call .threadYield] := by
  have h : ((Run.run Kernel.step (boot true fun _ => 0) twoThreads).bind fun σ =>
      (σ.step (.exec 0)).bind fun σ₁ =>
        (Run.run Kernel.step σ₁ [.call .threadYield, .exec 0, .call .threadYield]).bind fun σ₂ =>
          (σ₂.schedules (.exec 0)).map fun π => decide (σ.dispatches (.exec 0) = some 0 ∧
            σ₁.status 2 = .ready ∧ 2 ≠ σ₁.idleThread ∧ σ₂.dispatches (.exec 0) = some 0 ∧
            π.priority 0 = π.priority 2)) = some true := by
    decide +kernel
  obtain ⟨σ, hr, h⟩ := bind_eq_some_iff.mp h
  obtain ⟨σ₁, hs, h⟩ := bind_eq_some_iff.mp h
  obtain ⟨σ₂, hmid, h⟩ := bind_eq_some_iff.mp h
  obtain ⟨π, hπ, h⟩ := map_eq_some_iff.mp h
  obtain ⟨hd1, hy, hi, hd2, hp⟩ := of_decide_eq_true h
  exact ⟨σ, σ₁, σ₂, hr, hs, hd1, hmid, hd2,
    (run_roundRobin hr).2 0 2 _ σ₁ _ σ₂ _ π hd1 hs hy hi hmid hπ hd2 hp⟩

/-- The initial thread lowers itself to the priority of the idle thread and sleeps; when it
is awake again, the time slice of the idle thread ends with the next tick. -/
def lowestPriority : List Act :=
  [.call (.threadSetPriority 0), .exec 0, .exec 0, .call (.timerSleep 1), .exec 0, .exec 0,
    .timer, .timer, .timer]

/-- The idle thread is ready and has the priority of the initial thread, which is dispatched
twice before the idle thread is dispatched again. -/
theorem idleThread_passed_over :
    ∃ σ σ₁ σ₂ π, Run.run Kernel.step (boot true fun _ => 0) lowestPriority = some σ ∧
      σ.dispatches .timer = some 0 ∧ σ.step .timer = some σ₁ ∧ σ₁.status 1 = .ready ∧
      Run.run Kernel.step σ₁ [.exec 0, .call .threadYield] = some σ₂ ∧
      σ₂.schedules (.exec 0) = some π ∧ σ₂.dispatches (.exec 0) = some 0 ∧
      σ₁.priority 0 = σ₁.priority 1 ∧ π.priority 0 = π.priority 1 ∧ π.status 1 = .ready ∧
      ¬ Kernel.DispatchedIn 1 σ₁ [.exec 0, .call .threadYield] := by
  have hr : Run.run Kernel.step (boot true fun _ => 0) lowestPriority = some _ := rfl
  refine ⟨_, _, _, _, hr, rfl, rfl, rfl, rfl, rfl, rfl, rfl, rfl, rfl, ?_⟩
  rw [Kernel.dispatchedIn_cons, not_or]
  refine ⟨nofun, ?_⟩
  rintro ⟨τ, hτ, hin⟩
  cases hτ
  rcases Kernel.dispatchedIn_cons.mp hin with hd | ⟨τ', -, hin⟩
  · cases hd
  · exact Kernel.not_dispatchedIn_nil 1 τ' hin

end CS162.Threads
