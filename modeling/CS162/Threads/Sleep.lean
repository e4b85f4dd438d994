import CS162.Threads.Members

/-!
# Sleeping threads

`thread_sleep` keeps `sleep_list` in the order of the wake-up times, and the
timer takes threads off its front for as long as they are due. `Sleepers` runs
the thread system and counts, for every thread that has called `thread_sleep`,
how often `thread_alarm` has made it ready since then.
-/

namespace CS162.Threads

open Option List Function

/-- The threads are in the order of their wake-up times. -/
def ByWakeup (wakeupTime : Tid → ℤ) (ts : List Tid) : Prop :=
  ts.Pairwise fun t u => wakeupTime t ≤ wakeupTime u

theorem pairwise_orderedInsert {α : Type*} {f : α → ℤ} {l : List α}
    (h : l.Pairwise fun a b => f a ≤ f b) (x : α) :
    (l.orderedInsert (fun a b => f a < f b) x).Pairwise fun a b => f a ≤ f b := by
  induction l with
  | nil => exact pairwise_singleton _ x
  | cons y l ih =>
    obtain ⟨hy, hl⟩ := pairwise_cons.mp h
    rw [orderedInsert_cons]
    split
    · next hlt =>
        refine pairwise_cons.mpr ⟨fun z hz => ?_, h⟩
        rcases mem_cons.mp hz with rfl | hz
        · exact hlt.le
        · exact hlt.le.trans (hy z hz)
    · next hge =>
        refine pairwise_cons.mpr ⟨fun z hz => ?_, ih hl⟩
        rcases (mem_orderedInsert _).mp hz with rfl | hz
        · exact not_lt.mp hge
        · exact hy z hz

namespace Kernel

variable {σ σ' : Kernel}

/-- `t` is asleep and its wake-up time has come at the tick `now`. -/
def due (σ : Kernel) (now : ℤ) (t : Tid) : Bool :=
  decide (t ∈ σ.sleepList) && decide (σ.wakeupTime t ≤ now)

theorem due_iff {now : ℤ} {t : Tid} :
    σ.due now t = true ↔ t ∈ σ.sleepList ∧ σ.wakeupTime t ≤ now := by
  rw [due, Bool.and_eq_true, decide_eq_true_eq, decide_eq_true_eq]

/-- What `thread_alarm` has to do at the tick `now`: the sleeping threads that
are due leave `sleep_list` and become ready, each of them once, and no other
thread changes its place. -/
structure Alarmed (now : ℤ) (σ σ' : Kernel) : Prop where
  sleepList : σ'.sleepList = σ.sleepList.filter fun t => !σ.due now t
  readyList : σ'.readyList = σ.readyList ++ σ.sleepList.filter fun t => σ.due now t
  once : σ'.readyList.Nodup
  woken : ∀ t, σ.due now t = true → σ.status t = .blocked ∧ σ'.status t = .ready
  other : ∀ t, σ.due now t = false → σ'.status t = σ.status t

theorem threadAlarmLoop_of_sorted (now : ℤ) {ts : List Tid} (hts : σ.sleepList = ts)
    (hnd : ts.Nodup) (hb : ∀ t ∈ ts, σ.status t = .blocked)
    (hs : ByWakeup σ.wakeupTime ts) :
    threadAlarmLoop now ts σ = some { σ with
      status := fun t =>
        if t ∈ ts ∧ σ.wakeupTime t ≤ now then .ready else σ.status t
      readyList := σ.readyList ++ ts.filter fun t => σ.wakeupTime t ≤ now
      sleepList := ts.filter fun t => !decide (σ.wakeupTime t ≤ now) } := by
  induction ts generalizing σ with
  | nil =>
    simp only [threadAlarmLoop, not_mem_nil, false_and, if_false, filter_nil, append_nil]
    rw [← hts]
  | cons t ts ih =>
    obtain ⟨ht, hnd⟩ := nodup_cons.mp hnd
    obtain ⟨hle, hs⟩ := pairwise_cons.mp hs
    unfold threadAlarmLoop
    split
    · next hdue =>
        have hun : ({ σ with sleepList := ts } : Kernel).threadUnblock t =
            some { σ with
              status := update σ.status t .ready
              readyList := σ.readyList ++ [t], sleepList := ts } :=
          if_pos (hb t mem_cons_self)
        have hrest : ∀ u ∈ ts, update σ.status t .ready u = .blocked := by
          intro u hu
          have hne : u ≠ t := fun e => ht (e ▸ hu)
          rw [update_of_ne hne]
          exact hb u (mem_cons_of_mem t hu)
        have hloop := ih (σ := { σ with
          status := update σ.status t .ready
          readyList := σ.readyList ++ [t], sleepList := ts }) rfl hnd hrest hs
        rw [hun, bind_some, hloop]
        simp only [filter_cons, hdue, decide_true, if_true, Bool.not_true,
          Bool.false_eq_true, if_false, append_assoc, singleton_append]
        congr 2
        funext u
        rw [update_apply]
        grind
    · next hnot =>
        -- the front is not due, so by the order nobody is
        have hall : ∀ u ∈ t :: ts, ¬ σ.wakeupTime u ≤ now := by
          intro u hu
          rcases mem_cons.mp hu with rfl | hu
          · exact hnot
          · have := hle u hu
            omega
        have hnone : (t :: ts).filter (fun u => decide (σ.wakeupTime u ≤ now)) = [] :=
          filter_eq_nil_iff.mpr fun u hu => by simpa using hall u hu
        have hrest : (t :: ts).filter (fun u => !decide (σ.wakeupTime u ≤ now)) = t :: ts :=
          filter_eq_self.mpr fun u hu => by simpa using hall u hu
        have hstatus : (fun u => if u ∈ t :: ts ∧ σ.wakeupTime u ≤ now then .ready
            else σ.status u) = σ.status :=
          funext fun u => if_neg fun hu => hall u hu.1 hu.2
        rw [hnone, hrest, hstatus, append_nil, ← hts]

theorem threadAlarm_spec {run : Option Tid} (h : Placed run σ)
    (hs : ByWakeup σ.wakeupTime σ.sleepList) (now : ℤ) :
    ∃ σ₁, σ.threadAlarm now = some σ₁ ∧ Alarmed now σ σ₁ := by
  have hloop := threadAlarmLoop_of_sorted now rfl h.sleep_nodup (fun t ht => (h.sleeping t ht).1) hs
  have hfilter : ∀ p : Tid → Bool, σ.sleepList.filter (fun t => p t) =
      σ.sleepList.filter fun t => decide (t ∈ σ.sleepList) && p t := by
    intro p
    refine filter_congr fun t ht => ?_
    simp [ht]
  refine ⟨_, hloop, ?_, ?_, ?_, ?_, ?_⟩
  · refine filter_congr fun t ht => ?_
    simp [due, ht]
  · exact congrArg (σ.readyList ++ ·) (hfilter _)
  · exact (threadAlarmLoop_placed h rfl hloop).ready_nodup
  · intro t ht
    have hd := due_iff.mp ht
    exact ⟨(h.sleeping t hd.1).1, if_pos hd⟩
  · intro t ht
    refine if_neg fun hd => ?_
    rw [due_iff.mpr hd] at ht
    cases ht

/-- The step touches neither `sleep_list` nor a wake-up time nor the ticks. -/
structure SameSleep (σ σ' : Kernel) : Prop where
  sleepList : σ'.sleepList = σ.sleepList
  wakeupTime : σ'.wakeupTime = σ.wakeupTime
  ticks : σ'.ticks = σ.ticks

/-- What a section does to the sleeping threads: it puts the running thread to
sleep, sets up a new thread, or leaves them alone. -/
inductive SleepEffect (σ σ' : Kernel) : Frame → Prop where
  | sleep (w : ℤ) (h : SameSleep (σ.sleepInsert w) σ') : SleepEffect σ σ' (.call (.threadSleep w))
  | create (t : Tid) (p : ℤ) (ht : t ∉ σ.allList) (hs : σ'.sleepList = σ.sleepList)
      (hw : σ'.wakeupTime = update σ.wakeupTime t 0) (hn : σ'.ticks = σ.ticks) :
      SleepEffect σ σ' (.call (.threadCreate t p))
  | same {f : Frame} (hf : ∀ w, f ≠ .call (.threadSleep w))
      (hf' : ∀ t p, f ≠ .call (.threadCreate t p)) (h : SameSleep σ σ') : SleepEffect σ σ' f

theorem execFrame_sleepEffect {n : ℕ} {f : Frame} (h : execFrame n σ f = some σ') :
    SleepEffect σ σ' f := by
  have hl := Leaves.execFrame h
  by_cases hsleep : ∃ w, f = .call (.threadSleep w)
  · obtain ⟨w, rfl⟩ := hsleep
    cases h
    obtain ⟨st, rl, c, -, e⟩ := threadBlock_eq ((σ.sleepInsert w).pushCode [.threadSleep])
    rw [threadSleep, e]
    exact .sleep w ⟨rfl, rfl, rfl⟩
  have hs : ∀ w, f ≠ .call (.threadSleep w) := fun w e => hsleep ⟨w, e⟩
  by_cases hcreate : ∃ t p, f = .call (.threadCreate t p)
  · obtain ⟨t, p, rfl⟩ := hcreate
    obtain ⟨ht, -, -, rfl⟩ := threadCreate_eq h
    exact .create t p ht rfl rfl rfl
  have hc : ∀ t p, f ≠ .call (.threadCreate t p) := fun t p e => hcreate ⟨t, p, e⟩
  exact .same hs hc ⟨hl.sleepList hs, hl.wakeupTime hs hc, hl.ticks⟩

theorem step_sleepEffect {a : Act} (h : σ.step a = some σ') :
    (a = .timer ∧ σ.timerInterrupt = some σ') ∨
      (∃ n f fs, a = .exec n ∧ σ.code σ.current = f :: fs ∧ SleepEffect σ σ' f) ∨
      ((∀ n, a ≠ .exec n) ∧ a ≠ .timer ∧ SameSleep σ σ') := by
  cases a with
  | exec n =>
    cases hc : σ.code σ.current with
    | nil => simp [step, hc] at h
    | cons f fs =>
      simp only [step, hc] at h
      refine .inr (.inl ⟨n, f, fs, rfl, rfl, ?_⟩)
      cases execFrame_sleepEffect h with
      | sleep w hs => exact .sleep w ⟨hs.sleepList, hs.wakeupTime, hs.ticks⟩
      | create t p ht hsl hwt hn => exact .create t p ht hsl hwt hn
      | same hf hf' hs => exact .same hf hf' ⟨hs.sleepList, hs.wakeupTime, hs.ticks⟩
  | timer => exact .inl ⟨rfl, (ite_none_right_eq_some.mp h).2⟩
  | call op =>
    obtain ⟨-, h⟩ := ite_none_right_eq_some.mp h
    cases h
    exact .inr (.inr ⟨by simp, by simp, rfl, rfl, rfl⟩)
  | _ =>
    refine .inr (.inr ⟨by simp, by simp, ?_⟩)
    cases step_interrupted (by simp) (by simp) h <;> exact ⟨rfl, rfl, rfl⟩

theorem timerInterrupt_sleep (h : σ.timerInterrupt = some σ') :
    ∃ σ₁, { σ with ticks := σ.ticks + 1 }.threadAlarm (σ.ticks + 1) = some σ₁ ∧
      σ' = σ₁.tickReturn ∧ σ'.sleepList = σ₁.sleepList ∧
      σ'.wakeupTime = σ.wakeupTime ∧ σ'.ticks = σ.ticks + 1 := by
  obtain ⟨σ₁, h1, rfl⟩ := map_eq_some_iff.mp h
  refine ⟨σ₁, h1, rfl, ?_⟩
  obtain ⟨st', rl', c, k, -, h2⟩ := tickReturn_eq σ₁
  obtain ⟨st, rl, sl, -, rfl⟩ := threadAlarmLoop_eq h1
  rw [h2]
  exact ⟨rfl, rfl, rfl⟩

end Kernel

/-- The thread system, and for every thread how often `thread_alarm` has made
it ready since it last called `thread_sleep`; `none` before its first call. -/
structure Sleepers where
  kernel : Kernel
  woken : Tid → Option ℕ

namespace Sleepers

/-- The threads that `thread_alarm` makes ready when the timer interrupts. -/
def alarmed (σ : Kernel) : List Tid :=
  match { σ with ticks := σ.ticks + 1 }.threadAlarm (σ.ticks + 1) with
  | some σ₁ => σ₁.readyList.drop σ.readyList.length
  | none => []

def count (s : Sleepers) : Act → Tid → Option ℕ
  | .exec _ =>
    match (s.kernel.code s.kernel.current).head? with
    | some (.call (.threadSleep _)) => update s.woken s.kernel.current (some 0)
    | some (.call (.threadCreate t _)) => update s.woken t none
    | _ => s.woken
  | .timer => fun t => (s.woken t).map (· + (alarmed s.kernel).count t)
  | _ => s.woken

def step (s : Sleepers) (a : Act) : Option Sleepers :=
  (s.kernel.step a).map fun σ => ⟨σ, s.count a⟩

theorem run_eq_some {s : Sleepers} {acts : List Act} {σ : Kernel}
    (h : Run.run Kernel.step s.kernel acts = some σ) :
    ∃ woken, Run.run step s acts = some ⟨σ, woken⟩ := by
  induction acts generalizing s with
  | nil =>
    cases h
    exact ⟨s.woken, rfl⟩
  | cons a acts ih =>
    obtain ⟨σ₁, h1, h2⟩ := Run.run_cons_eq_some.mp h
    obtain ⟨woken, hr⟩ := ih (s := ⟨σ₁, s.count a⟩) h2
    have hs : s.step a = some ⟨σ₁, s.count a⟩ := by
      rw [step, h1, map_some]
    exact ⟨woken, Run.run_cons_eq_some.mpr ⟨_, hs, hr⟩⟩

/-- The threads in `sleep_list` have not been woken since they went there, the
others once and not before their time. -/
structure Ok (s : Sleepers) : Prop where
  placed : WellPlaced s.kernel
  sorted : ByWakeup s.kernel.wakeupTime s.kernel.sleepList
  asleep : ∀ t ∈ s.kernel.sleepList, s.woken t = some 0
  awake : ∀ t n, t ∉ s.kernel.sleepList → s.woken t = some n →
    n = 1 ∧ s.kernel.wakeupTime t ≤ s.kernel.ticks

variable {s s' : Sleepers} {a : Act} {n : ℕ} {fs : List Frame}

theorem step_eq_some : s.step a = some s' ↔
    s.kernel.step a = some s'.kernel ∧ s'.woken = s.count a := by
  constructor
  · intro h
    obtain ⟨σ, hσ, rfl⟩ := map_eq_some_iff.mp h
    exact ⟨hσ, rfl⟩
  · rintro ⟨hσ, hw⟩
    rw [step, hσ, map_some, ← hw]

theorem count_sleep {w : ℤ} (hc : s.kernel.code s.kernel.current = .call (.threadSleep w) :: fs) :
    s.count (.exec n) = update s.woken s.kernel.current (some 0) := by
  simp only [count, hc, head?_cons]

theorem count_create {t : Tid} {p : ℤ}
    (hc : s.kernel.code s.kernel.current = .call (.threadCreate t p) :: fs) :
    s.count (.exec n) = update s.woken t none := by
  simp only [count, hc, head?_cons]

theorem count_other (hx : ∀ n, a ≠ .exec n) (ht : a ≠ .timer) : s.count a = s.woken := by
  cases a with
  | exec n => exact absurd rfl (hx n)
  | timer => exact absurd rfl ht
  | _ => rfl

theorem count_same {f : Frame} (hc : s.kernel.code s.kernel.current = f :: fs)
    (hs : ∀ w, f ≠ .call (.threadSleep w)) (ht : ∀ t p, f ≠ .call (.threadCreate t p)) :
    s.count (.exec n) = s.woken := by
  simp only [count, hc, head?_cons]
  split
  · next e => exact absurd (some.inj e) (hs _)
  · next e => exact absurd (some.inj e) (ht _ _)
  · rfl

theorem count_timer {σ₁ : Kernel}
    (h1 : { s.kernel with ticks := s.kernel.ticks + 1 }.threadAlarm (s.kernel.ticks + 1) =
      some σ₁)
    (hal : Kernel.Alarmed (s.kernel.ticks + 1) s.kernel σ₁)
    (hnd : s.kernel.sleepList.Nodup) (t : Tid) :
    s.count .timer t =
      (s.woken t).map (· + if s.kernel.due (s.kernel.ticks + 1) t then 1 else 0) := by
  have hal' : alarmed s.kernel =
      s.kernel.sleepList.filter fun t => s.kernel.due (s.kernel.ticks + 1) t := by
    simp only [alarmed, h1, hal.readyList, drop_left]
  simp only [count, hal']
  rw [List.Nodup.count (hnd.filter _)]
  have hmem : t ∈ s.kernel.sleepList.filter (fun t => s.kernel.due (s.kernel.ticks + 1) t) ↔
      s.kernel.due (s.kernel.ticks + 1) t = true := by
    rw [mem_filter]
    exact and_iff_right_of_imp fun hd => (Kernel.due_iff.mp hd).1
  rw [if_congr hmem rfl rfl]

namespace Ok

theorem of_sameSleep (h : Ok s) (hp : WellPlaced s'.kernel)
    (hs : Kernel.SameSleep s.kernel s'.kernel) (hw : s'.woken = s.woken) : Ok s' := by
  refine ⟨hp, ?_, ?_, ?_⟩
  · rw [hs.sleepList, hs.wakeupTime]
    exact h.sorted
  · rw [hs.sleepList, hw]
    exact h.asleep
  · rw [hs.sleepList, hs.wakeupTime, hs.ticks, hw]
    exact h.awake

theorem sleep {w : ℤ} (h : Ok s) (hp : WellPlaced s'.kernel)
    (hs : Kernel.SameSleep (s.kernel.sleepInsert w) s'.kernel)
    (hw : s'.woken = update s.woken s.kernel.current (some 0)) : Ok s' := by
  have hb : s.kernel.status s.kernel.current ≠ .blocked := by
    simp [h.placed.current_running]
  have hcur := h.placed.not_mem_sleep hb
  have hwake : ∀ t, t ≠ s.kernel.current →
      s'.kernel.wakeupTime t = s.kernel.wakeupTime t := by
    intro t ht
    rw [hs.wakeupTime]
    exact update_of_ne ht _ _
  have hmem : ∀ t, t ∈ s'.kernel.sleepList ↔
      t = s.kernel.current ∨ t ∈ s.kernel.sleepList := by
    intro t
    rw [hs.sleepList]
    exact mem_orderedInsert _
  refine ⟨hp, ?_, ?_, ?_⟩
  · rw [hs.sleepList, hs.wakeupTime]
    refine pairwise_orderedInsert (List.Pairwise.imp_of_mem ?_ h.sorted) _
    intro t u ht hu hle
    rw [← hs.wakeupTime, hwake t fun e => hcur (e ▸ ht), hwake u fun e => hcur (e ▸ hu)]
    exact hle
  · intro t ht
    rw [hw, update_apply]
    split
    · rfl
    · next hne => exact h.asleep t (((hmem t).mp ht).resolve_left hne)
  · intro t n ht hn
    obtain ⟨hne, ht⟩ := not_or.mp (mt (hmem t).mpr ht)
    rw [hw, update_of_ne hne] at hn
    rw [hwake t hne, hs.ticks]
    exact h.awake t n ht hn

theorem create {t : Tid} (h : Ok s) (hp : WellPlaced s'.kernel) (ht : t ∉ s.kernel.allList)
    (hs : s'.kernel.sleepList = s.kernel.sleepList)
    (hwt : s'.kernel.wakeupTime = update s.kernel.wakeupTime t 0)
    (hn : s'.kernel.ticks = s.kernel.ticks) (hw : s'.woken = update s.woken t none) : Ok s' := by
  have hdead : s.kernel.status t = .dying := by
    by_contra hne
    exact ht ((h.placed.mem_all_iff t).mpr hne)
  have htm : t ∉ s.kernel.sleepList := h.placed.not_mem_sleep (by simp [hdead])
  have hwake : ∀ u, u ≠ t → s'.kernel.wakeupTime u = s.kernel.wakeupTime u := by
    intro u hu
    rw [hwt, update_of_ne hu]
  refine ⟨hp, ?_, ?_, ?_⟩
  · rw [hs]
    refine List.Pairwise.imp_of_mem ?_ h.sorted
    intro u v hu hv hle
    rw [hwake u fun e => htm (e ▸ hu), hwake v fun e => htm (e ▸ hv)]
    exact hle
  · intro u hu
    rw [hs] at hu
    have hne : u ≠ t := fun e => htm (e ▸ hu)
    rw [hw, update_of_ne hne]
    exact h.asleep u hu
  · intro u n hu hun
    have hne : u ≠ t := by
      rintro rfl
      rw [hw, update_self] at hun
      cases hun
    rw [hw, update_of_ne hne] at hun
    rw [hwake u hne, hn]
    exact h.awake u n (hs ▸ hu) hun

theorem alarm (h : Ok s) :
    ∃ σ₁, { s.kernel with ticks := s.kernel.ticks + 1 }.threadAlarm (s.kernel.ticks + 1) =
      some σ₁ ∧ Kernel.Alarmed (s.kernel.ticks + 1) s.kernel σ₁ := by
  have hp : Placed (some s.kernel.current)
      { s.kernel with ticks := s.kernel.ticks + 1 } := { h.placed with }
  obtain ⟨σ₁, h1, hal⟩ := Kernel.threadAlarm_spec hp h.sorted (s.kernel.ticks + 1)
  exact ⟨σ₁, h1, ⟨hal.sleepList, hal.readyList, hal.once, hal.woken, hal.other⟩⟩

theorem timer (h : Ok s) (hp : WellPlaced s'.kernel) (ht : s.kernel.timerInterrupt = some s'.kernel)
    (hw : s'.woken = s.count .timer) : Ok s' := by
  obtain ⟨σ₁, h1, -, hsl, hwt, hn⟩ := Kernel.timerInterrupt_sleep ht
  obtain ⟨σ2, h2, hal⟩ := h.alarm
  obtain rfl : σ₁ = σ2 := some.inj (h1.symm.trans h2)
  have hcount := count_timer h1 hal h.placed.sleep_nodup
  have hsl' : s'.kernel.sleepList = s.kernel.sleepList.filter fun t =>
      !s.kernel.due (s.kernel.ticks + 1) t := hsl.trans hal.sleepList
  refine ⟨hp, ?_, ?_, ?_⟩
  · rw [hsl', hwt]
    exact h.sorted.filter _
  · intro t ht
    rw [hsl', mem_filter, Bool.not_eq_true'] at ht
    rw [hw, hcount, h.asleep t ht.1, ht.2]
    rfl
  · intro t n ht htn
    rw [hw, hcount] at htn
    rw [hwt, hn]
    cases hd : s.kernel.due (s.kernel.ticks + 1) t with
    | true =>
      obtain ⟨hmem, hle⟩ := Kernel.due_iff.mp hd
      rw [h.asleep t hmem, hd] at htn
      cases htn
      exact ⟨rfl, hle⟩
    | false =>
      have hmem : t ∉ s.kernel.sleepList := by
        intro hm
        exact ht (by rw [hsl', mem_filter, hd]; exact ⟨hm, rfl⟩)
      rw [hd] at htn
      obtain ⟨k, hk, rfl⟩ := map_eq_some_iff.mp htn
      obtain ⟨rfl, hle⟩ := h.awake t k hmem hk
      exact ⟨rfl, by omega⟩

theorem step (h : Ok s) (hs : s.step a = some s') : Ok s' := by
  obtain ⟨hk, hw⟩ := step_eq_some.mp hs
  have hp := Kernel.step_wellPlaced h.placed hk
  rcases Kernel.step_sleepEffect hk with ⟨rfl, ht⟩ | ⟨n, f, fs, rfl, hc, he⟩ | ⟨hx, ht, hsame⟩
  · exact h.timer hp ht hw
  · cases he with
    | sleep w hsame =>
      rw [count_sleep hc] at hw
      exact h.sleep hp hsame hw
    | create t p ht hsl hwt hn =>
      rw [count_create hc] at hw
      exact h.create hp ht hsl hwt hn hw
    | same hf hf' hsame =>
      rw [count_same hc hf hf'] at hw
      exact h.of_sameSleep hp hsame hw
  · rw [count_other hx ht] at hw
    exact h.of_sameSleep hp hsame hw

theorem leaves (h : Ok s) (hs : s.step a = some s') {t : Tid} (ht : t ∈ s.kernel.sleepList)
    (ht' : t ∉ s'.kernel.sleepList) : a = .timer ∧ s.kernel.wakeupTime t ≤ s'.kernel.ticks := by
  obtain ⟨hk, -⟩ := step_eq_some.mp hs
  rcases Kernel.step_sleepEffect hk with ⟨rfl, hti⟩ | ⟨n, f, fs, rfl, hc, he⟩ | ⟨-, -, hsame⟩
  · obtain ⟨σ₁, h1, -, hsl, -, hn⟩ := Kernel.timerInterrupt_sleep hti
    obtain ⟨σ2, h2, hal⟩ := h.alarm
    obtain rfl : σ₁ = σ2 := some.inj (h1.symm.trans h2)
    rw [hsl, hal.sleepList, mem_filter, not_and, Bool.not_eq_true', Bool.not_eq_false] at ht'
    refine ⟨rfl, ?_⟩
    rw [hn]
    exact (Kernel.due_iff.mp (ht' ht)).2
  · cases he with
    | sleep w hsame =>
      rw [hsame.sleepList] at ht'
      exact absurd ((mem_orderedInsert _).mpr (.inr ht)) ht'
    | create u p hu hsl hwt hn => exact absurd ht (hsl ▸ ht')
    | same hf hf' hsame => exact absurd ht (hsame.sleepList ▸ ht')
  · exact absurd ht (hsame.sleepList ▸ ht')

theorem wakes (h : Ok s) (hi : s.kernel.intrOn = true) : ∃ σ₁ s',
    { s.kernel with ticks := s.kernel.ticks + 1 }.threadAlarm (s.kernel.ticks + 1) = some σ₁ ∧
    Kernel.Alarmed (s.kernel.ticks + 1) s.kernel σ₁ ∧
    s.step .timer = some s' ∧ s'.kernel = σ₁.tickReturn ∧
    ∀ t n, s'.woken t = some n →
      n = if s'.kernel.wakeupTime t ≤ s'.kernel.ticks then 1 else 0 := by
  obtain ⟨σ₁, h1, hal⟩ := h.alarm
  have hti : s.kernel.timerInterrupt = some σ₁.tickReturn := by
    rw [Kernel.timerInterrupt, h1, map_some]
  have hs : s.step .timer = some ⟨σ₁.tickReturn, s.count .timer⟩ :=
    step_eq_some.mpr ⟨(if_pos hi).trans hti, rfl⟩
  refine ⟨σ₁, _, h1, hal, hs, rfl, fun t n hn => ?_⟩
  have h' := h.step hs
  obtain ⟨σ2, h2, -, hsl, hwt, htk⟩ := Kernel.timerInterrupt_sleep hti
  by_cases ht : t ∈ σ₁.tickReturn.sleepList
  · -- a thread left asleep is not due
    have hn0 := (h'.asleep t ht).symm.trans hn
    obtain rfl : σ₁ = σ2 := some.inj (h1.symm.trans h2)
    rw [hsl, hal.sleepList, mem_filter, Bool.not_eq_true'] at ht
    have hlt : ¬ s.kernel.wakeupTime t ≤ s.kernel.ticks + 1 := fun hle => by
      rw [Kernel.due_iff.mpr ⟨ht.1, hle⟩] at ht
      cases ht.2
    rw [hwt, htk, if_neg hlt]
    exact (some.inj hn0).symm
  · obtain ⟨rfl, hle⟩ := h'.awake t n ht hn
    rw [if_pos hle]

end Ok

theorem boot_ok (b : Bool) (v : ℕ → ℕ) : Ok ⟨boot b v, fun _ => none⟩ where
  placed := boot_wellPlaced b v
  sorted := List.Pairwise.nil
  asleep t ht := by cases ht
  awake t n _ hn := by cases hn

/-- Sleeping threads wake on time, and once. -/
structure OnTime (s : Sleepers) : Prop where
  sorted : ByWakeup s.kernel.wakeupTime s.kernel.sleepList
  /-- Only the timer takes a thread off `sleep_list`, and only one that is due. -/
  leaves : ∀ a s', s.step a = some s' → ∀ t ∈ s.kernel.sleepList,
    t ∉ s'.kernel.sleepList → a = .timer ∧ s.kernel.wakeupTime t ≤ s'.kernel.ticks
  /-- A timer interrupt wakes the threads that are due and nobody else; after it the
  threads that have slept have been woken once if their time has come, and else not. -/
  wakes : s.kernel.intrOn = true → ∃ σ₁ s',
    { s.kernel with ticks := s.kernel.ticks + 1 }.threadAlarm (s.kernel.ticks + 1) = some σ₁ ∧
    Kernel.Alarmed (s.kernel.ticks + 1) s.kernel σ₁ ∧
    s.step .timer = some s' ∧ s'.kernel = σ₁.tickReturn ∧
    ∀ t n, s'.woken t = some n →
      n = if s'.kernel.wakeupTime t ≤ s'.kernel.ticks then 1 else 0

/-- In every run, with any number of threads that go to sleep at any time. -/
theorem run_onTime {b : Bool} {v : ℕ → ℕ} {acts : List Act} {σ : Kernel}
    (hr : Run.run Kernel.step (boot b v) acts = some σ) :
    ∃ s, Run.run step ⟨boot b v, fun _ => none⟩ acts = some s ∧ s.kernel = σ ∧ OnTime s := by
  obtain ⟨woken, hs⟩ := run_eq_some (s := ⟨boot b v, fun _ => none⟩) hr
  have h : Ok ⟨σ, woken⟩ :=
    Run.run_invariant' (fun _ _ _ hok hstep => Ok.step hok hstep) (boot_ok b v) hs
  exact ⟨_, hs, rfl, h.sorted, fun a s' hstep t ht ht' => h.leaves hstep ht ht', h.wakes⟩

theorem run_onTime_sleepTick : ∃ σ s, Run.run Kernel.step (boot true fun _ => 0) sleepTick =
      some σ ∧ σ.sleepList = [0] ∧ s.kernel = σ ∧ OnTime s := by
  have hr : Run.run Kernel.step (boot true fun _ => 0) sleepTick = some _ := rfl
  obtain ⟨s, -, hs, hok⟩ := run_onTime hr
  exact ⟨_, s, hr, rfl, hs, hok⟩

end Sleepers

end CS162.Threads
