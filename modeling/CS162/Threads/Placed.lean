import CS162.Threads.Effect

/-!
# Every thread is in one place

`Placed run σ` says where the threads are: which one is running (`run`), that the lists hold
the threads whose status says so, each once, and that the sections a thread has still to
execute fit the list it is in.  `run` is `none` while the processor changes hands.  `CodeOk`
is the part of this that looks at the code only.
-/

namespace CS162.Threads

open Option List Function

/-- The semaphore a thread with this code waits for, or has been woken from
without having tested the value again. -/
def waitsOn : List Frame → Option SemaRef
  | .semaDown r :: _ => some r
  | .lockAcquire l :: _ => some (.lock l)
  | _ => none

/-- A thread with this code is inside `thread_sleep`. -/
def sleeps : List Frame → Bool
  | .threadSleep :: _ => true
  | _ => false

/-- The thread that `thread_create` is setting up in this section. -/
def Frame.newborn : Frame → Option Tid
  | .allocateTid t => some t
  | .startThread t _ => some t
  | _ => none

/-- The threads that a thread with this code is setting up. -/
def newborns (fs : List Frame) : List Tid :=
  fs.filterMap Frame.newborn

/-- The call of an operation that no other operation calls. -/
def Frame.outer : Frame → Bool
  | .call .threadExit => true
  | .call (.threadCreate _ _) => true
  | _ => false

/-- The shape of the code of the threads: a section that follows a return from
`schedule` stands first, an outer call stands alone, and no thread is set up
twice. -/
structure CodeOk (code : Tid → List Frame) : Prop where
  tail_intrOn : ∀ t, ∀ f ∈ (code t).tail, f.intrOn = true
  outer_alone : ∀ t, ∀ f ∈ code t, f.outer = true → (code t).tail = []
  newborn_one : ∀ t, (newborns (code t)).length ≤ 1
  newborn_unique : ∀ t u v, v ∈ newborns (code t) → v ∈ newborns (code u) → t = u

/-- Where the threads are, and what they have still to do there. -/
structure Placed (run : Option Tid) (σ : Kernel) : Prop where
  all_nodup : σ.allList.Nodup
  mem_all_iff : ∀ t, t ∈ σ.allList ↔ σ.status t ≠ .dying
  running_iff : ∀ t, σ.status t = .running ↔ run = some t
  ready_nodup : σ.readyList.Nodup
  mem_ready_iff : ∀ t, t ∈ σ.readyList ↔ σ.status t = .ready ∧ t ≠ σ.idleThread
  waiters_nodup : ∀ r, (σ.waiters r).Nodup
  waiting : ∀ r t, t ∈ σ.waiters r →
    σ.status t = .blocked ∧ waitsOn (σ.code t) = some r
  sleep_nodup : σ.sleepList.Nodup
  sleeping : ∀ t, t ∈ σ.sleepList →
    σ.status t = .blocked ∧ sleeps (σ.code t) = true
  idle_alive : σ.status σ.idleThread ≠ .dying
  idle_code : σ.code σ.idleThread = [.idle]
  code_dead : ∀ t, σ.status t = .dying → σ.code t = []
  newborn_blocked : ∀ t v, v ∈ newborns (σ.code t) →
    σ.status v = .blocked ∧ σ.code v = []
  code_ok : CodeOk σ.code

theorem waitsOn_of_sleeps {fs : List Frame} (h : sleeps fs = true) : waitsOn fs = none := by
  unfold sleeps at h
  split at h
  · rfl
  · cases h

/-- Where the threads are in a state between two steps. -/
abbrev WellPlaced (σ : Kernel) : Prop :=
  Placed (some σ.current) σ

namespace Placed

variable {σ : Kernel} {run : Option Tid} {t : Tid}

section

variable (h : Placed run σ) (ht : σ.status t ≠ .blocked)

include h ht

theorem not_mem_waiters (r : SemaRef) : t ∉ σ.waiters r :=
  fun hm => ht (h.waiting r t hm).1

theorem not_mem_sleep : t ∉ σ.sleepList :=
  fun hm => ht (h.sleeping t hm).1

theorem not_newborn (u : Tid) : t ∉ newborns (σ.code u) :=
  fun hm => ht (h.newborn_blocked u t hm).1

end

variable (h : Placed run σ)

include h

theorem not_newborn_of_code (ht : σ.code t ≠ []) (u : Tid) : t ∉ newborns (σ.code u) :=
  fun hm => ht (h.newborn_blocked u t hm).2

theorem ne_idle_of_waits {r : SemaRef} (ht : waitsOn (σ.code t) = some r) : t ≠ σ.idleThread := by
  rintro rfl
  rw [h.idle_code] at ht
  cases ht

theorem ne_idle_of_sleeps (ht : sleeps (σ.code t) = true) : t ≠ σ.idleThread := by
  rintro rfl
  rw [h.idle_code] at ht
  cases ht

/-- Another status of a thread that is in no list of threads that wait, with the lists that
go with it. -/
theorem relist {run' : Option Tid} {s : ThreadStatus} {rl al : List Tid}
    (hw : ∀ r, t ∉ σ.waiters r) (hs : t ∉ σ.sleepList) (hn : ∀ u, t ∉ newborns (σ.code u))
    (hd : s = .dying → t ≠ σ.idleThread ∧ σ.code t = []) (hnda : al.Nodup)
    (hal : ∀ u, u ∈ al ↔ update σ.status t s u ≠ .dying)
    (hrun : ∀ u, update σ.status t s u = .running ↔ run' = some u) (hnd : rl.Nodup)
    (hrl : ∀ u, u ∈ rl ↔ update σ.status t s u = .ready ∧ u ≠ σ.idleThread) :
    Placed run' { σ.setStatus t s with readyList := rl, allList := al } := by
  refine { h with
    all_nodup := hnda, mem_all_iff := hal, running_iff := hrun, ready_nodup := hnd,
    mem_ready_iff := hrl, waiting := ?_, sleeping := ?_, idle_alive := ?_,
    code_dead := ?_, newborn_blocked := ?_ }
  all_goals simp only [Kernel.setStatus, update_apply]
  · intro r u hu
    have hne : u ≠ t := fun e => hw r (e ▸ hu)
    simpa [hne] using h.waiting r u hu
  · intro u hu
    have hne : u ≠ t := fun e => hs (e ▸ hu)
    simpa [hne] using h.sleeping u hu
  · split
    · next e => exact fun hdying => (hd hdying).1 e.symm
    · exact h.idle_alive
  · intro u hu
    split at hu
    · next e => exact e ▸ (hd hu).2
    · exact h.code_dead u hu
  · intro u v hv
    have hne : v ≠ t := fun e => hn u (e ▸ hv)
    simpa [hne] using h.newborn_blocked u v hv

theorem setStatus {run' : Option Tid} {s : ThreadStatus} {rl : List Tid}
    (hw : ∀ r, t ∉ σ.waiters r) (hs : t ∉ σ.sleepList) (hn : ∀ u, t ∉ newborns (σ.code u))
    (ht : σ.status t ≠ .dying) (hd : s ≠ .dying)
    (hrun : ∀ u, update σ.status t s u = .running ↔ run' = some u) (hnd : rl.Nodup)
    (hrl : ∀ u, u ∈ rl ↔ update σ.status t s u = .ready ∧ u ≠ σ.idleThread) :
    Placed run' { σ.setStatus t s with readyList := rl } := by
  refine h.relist hw hs hn (fun e => absurd e hd) h.all_nodup (fun u => ?_) hrun hnd hrl
  have hu := h.mem_all_iff u
  change u ∈ σ.allList ↔ _
  grind

theorem setCode {fs : List Frame} (ht : σ.status t = .running) (hi : t ≠ σ.idleThread)
    (htail : ∀ f ∈ fs.tail, f.intrOn = true) (houter : ∀ f ∈ fs, f.outer = true → fs.tail = [])
    (hone : (newborns fs).length ≤ 1) (hnew : ∀ v ∈ newborns fs, v ∈ newborns (σ.code t)) :
    Placed run (σ.setCode t fs) := by
  have hb : σ.status t ≠ .blocked := by simp [ht]
  have hmem : ∀ u v, v ∈ newborns (update σ.code t fs u) →
      v ∈ newborns (σ.code u) := by
    intro u v hv
    rw [update_apply] at hv
    split at hv
    · next hu => exact hu ▸ hnew v hv
    · exact hv
  refine { h with
    waiting := ?_, sleeping := ?_, idle_code := ?_, code_dead := ?_,
    newborn_blocked := ?_, code_ok := ⟨?_, ?_, ?_, ?_⟩ }
  · intro r u hu
    have hne : u ≠ t := fun e => h.not_mem_waiters hb r (e ▸ hu)
    simpa [Kernel.setCode, hne] using h.waiting r u hu
  · intro u hu
    have hne : u ≠ t := fun e => h.not_mem_sleep hb (e ▸ hu)
    simpa [Kernel.setCode, hne] using h.sleeping u hu
  · simpa [Kernel.setCode, hi.symm] using h.idle_code
  · intro u hu
    have hne : u ≠ t := by rintro rfl; simp_all [Kernel.setCode]
    simpa [Kernel.setCode, hne] using h.code_dead u hu
  · intro u v hv
    have hv' := hmem u v hv
    have hne : v ≠ t := fun e => h.not_newborn hb u (e ▸ hv')
    simpa [Kernel.setCode, hne] using h.newborn_blocked u v hv'
  · intro u
    have hu := h.code_ok.tail_intrOn u
    simp only [Kernel.setCode, update_apply]
    split <;> assumption
  · intro u
    have hu := h.code_ok.outer_alone u
    simp only [Kernel.setCode, update_apply]
    split <;> assumption
  · intro u
    have hu := h.code_ok.newborn_one u
    simp only [Kernel.setCode, update_apply]
    split <;> assumption
  · intro u u' v hv hv'
    exact h.code_ok.newborn_unique u u' v (hmem u v hv) (hmem u' v hv')

theorem unblock (ht : σ.status t = .blocked) (hw : ∀ r, t ∉ σ.waiters r) (hs : t ∉ σ.sleepList)
    (hn : ∀ u, t ∉ newborns (σ.code u)) (hi : t ≠ σ.idleThread) :
    Placed run { σ.setStatus t .ready with readyList := σ.readyList ++ [t] } := by
  have hr : t ∉ σ.readyList := by
    rw [h.mem_ready_iff, ht]
    simp
  refine h.setStatus hw hs hn (by simp [ht]) (by simp) ?_ ?_ ?_
  · intro u
    have hu := h.running_iff u
    grind
  · exact nodup_append.mpr ⟨h.ready_nodup, by simp, by grind⟩
  · intro u
    have hu := h.mem_ready_iff u
    grind

theorem idle_not_mem :
    (∀ r, σ.idleThread ∉ σ.waiters r) ∧ σ.idleThread ∉ σ.sleepList ∧
      ∀ u, σ.idleThread ∉ newborns (σ.code u) :=
  ⟨fun r hm => h.ne_idle_of_waits (h.waiting r _ hm).2 rfl,
    fun hm => h.ne_idle_of_sleeps (h.sleeping _ hm).2 rfl,
    h.not_newborn_of_code (by rw [h.idle_code]; simp)⟩

end Placed

theorem Placed.current_running {σ : Kernel} (h : WellPlaced σ) : σ.status σ.current = .running :=
  (h.running_iff _).mpr rfl

theorem Placed.block {σ : Kernel} (h : WellPlaced σ) :
    Placed none (σ.setStatus σ.current .blocked) := by
  have hr := h.current_running
  have hb : σ.status σ.current ≠ .blocked := by simp [hr]
  refine h.setStatus (h.not_mem_waiters hb) (h.not_mem_sleep hb)
    (h.not_newborn hb) (by simp [hr]) (by simp) ?_ h.ready_nodup ?_
  · intro u
    have hu := h.running_iff u
    grind
  · intro u
    have hu := h.mem_ready_iff u
    grind

namespace Kernel

variable {σ : Kernel}

theorem schedule_wellPlaced (h : Placed none σ) : WellPlaced σ.schedule := by
  have hnot : ∀ t, σ.status t ≠ .running := fun t ht => by
    simpa using (h.running_iff t).mp ht
  cases hm : listMax σ.priority σ.readyList with
  | none =>
    obtain ⟨hw, hs, hn⟩ := h.idle_not_mem
    have hidle : Placed (some σ.idleThread)
        { σ.setStatus σ.idleThread .running with readyList := σ.readyList } := by
      refine h.setStatus hw hs hn h.idle_alive (by simp) ?_ h.ready_nodup ?_
      · intro u
        grind
      · intro u
        have hu := h.mem_ready_iff u
        grind
    rw [schedule_of_none hm]
    exact { hidle with }
  | some t =>
    have ht := (h.mem_ready_iff t).mp (listMax_mem hm)
    have hb : σ.status t ≠ .blocked := by simp [ht.1]
    have hnext : Placed (some t)
        { σ.setStatus t .running with readyList := σ.readyList.erase t } := by
      refine h.setStatus (h.not_mem_waiters hb) (h.not_mem_sleep hb)
        (h.not_newborn hb) (by simp [ht.1]) (by simp) ?_ (h.ready_nodup.erase t) ?_
      · intro u
        grind
      · intro u
        have hu := h.mem_ready_iff u
        rw [h.ready_nodup.mem_erase_iff]
        grind
    rw [schedule_of_some hm]
    exact { hnext with }

theorem threadBlock_wellPlaced (h : Placed none (σ.setStatus σ.current .blocked)) :
    WellPlaced σ.threadBlock :=
  schedule_wellPlaced h

theorem threadYield_wellPlaced (h : WellPlaced σ) : WellPlaced σ.threadYield := by
  unfold threadYield
  split
  · have hc : σ.status σ.current = .running := (h.running_iff _).mpr rfl
    have hb : σ.status σ.current ≠ .blocked := by simp [hc]
    have hr : σ.current ∉ σ.readyList := by
      rw [h.mem_ready_iff, hc]
      simp
    apply schedule_wellPlaced
    refine h.setStatus (h.not_mem_waiters hb) (h.not_mem_sleep hb)
      (h.not_newborn hb) (by simp [hc]) (by simp) ?_ ?_ ?_
    · intro u
      have hu := h.running_iff u
      grind
    · split
      · exact h.ready_nodup
      · exact nodup_append.mpr ⟨h.ready_nodup, by simp, by grind⟩
    · intro u
      have hu := h.mem_ready_iff u
      split <;> grind
  · exact h

theorem wakeMaxWaiter_placed {run : Option Tid} {σ' : Kernel} {r : SemaRef}
    (h : Placed run σ) (hw : σ.wakeMaxWaiter r = some σ') : Placed run σ' := by
  unfold wakeMaxWaiter at hw
  cases hm : listMax σ.priority (σ.waiters r) with
  | none =>
    rw [hm] at hw
    cases hw
    exact h
  | some t =>
    simp only [hm] at hw
    obtain ⟨hb, rfl⟩ := threadUnblock_eq hw
    have ht := h.waiting r t (listMax_mem hm)
    have herase : Placed run (σ.setWaiters r ((σ.waiters r).erase t)) := by
      refine { h with waiters_nodup := ?_, waiting := ?_ }
      · intro r'
        simp only [setWaiters, update_apply]
        split
        · exact (h.waiters_nodup r).erase t
        · exact h.waiters_nodup r'
      · intro r' u hu
        simp only [setWaiters, update_apply] at hu
        split at hu
        · next e => exact e ▸ h.waiting r u (mem_of_mem_erase hu)
        · exact h.waiting r' u hu
    refine herase.unblock hb ?_ ?_ ?_ (h.ne_idle_of_waits ht.2)
    · intro r' hu
      simp only [setWaiters, update_apply] at hu
      split at hu
      · exact (h.waiters_nodup r).not_mem_erase hu
      · next hne =>
          have := (h.waiting r' t hu).2
          rw [ht.2] at this
          exact hne (some.inj this).symm
    · intro hs
      rw [waitsOn_of_sleeps (h.sleeping t hs).2] at ht
      cases ht.2
    · apply h.not_newborn_of_code
      intro hc
      rw [hc] at ht
      simp [waitsOn] at ht

end Kernel

/-- The running thread has taken a section off its code and is executing it:
what is left starts with interrupts on and calls no outer operation. -/
structure InSection (σ : Kernel) : Prop where
  placed : WellPlaced σ
  ne_idle : σ.current ≠ σ.idleThread
  rest : ∀ f ∈ σ.code σ.current, f.intrOn = true ∧ f.outer = false

variable {σ : Kernel}

theorem newborns_cons_sublist (f : Frame) (fs : List Frame) :
    (newborns fs).Sublist (newborns (f :: fs)) :=
  (sublist_cons_self f fs).filterMap _

theorem InSection.of_code {f : Frame} {fs : List Frame} (h : WellPlaced σ)
    (hc : σ.code σ.current = f :: fs) (hf : f ≠ .idle) : InSection (σ.setCode σ.current fs) := by
  have hi : σ.current ≠ σ.idleThread := by
    intro e
    have := h.idle_code
    rw [← e, hc] at this
    exact hf (List.cons.inj this).1
  have htail : ∀ g ∈ fs, g.intrOn = true := by
    have := h.code_ok.tail_intrOn σ.current
    rwa [hc] at this
  have houter : ∀ g ∈ fs, g.outer = false := by
    intro g hg
    by_contra hne
    have := h.code_ok.outer_alone σ.current g (by rw [hc]; simp [hg]) (by simpa using hne)
    rw [hc] at this
    simp only [tail_cons] at this
    simp [this] at hg
  have hsub := newborns_cons_sublist f fs
  have hone := h.code_ok.newborn_one σ.current
  rw [hc] at hone
  refine ⟨?_, hi, ?_⟩
  · refine h.setCode h.current_running hi (fun g hg => htail g (mem_of_mem_tail hg))
      ?_ (hsub.length_le.trans hone) (fun v hv => hc ▸ hsub.subset hv)
    intro g hg ho
    simp [houter g hg] at ho
  · intro g hg
    simp only [Kernel.setCode, update_self] at hg
    exact ⟨htail g hg, houter g hg⟩

namespace Kernel

variable {σ σ' : Kernel} {f : Frame} {r : SemaRef} {t : Tid} {fs : List Frame} {l : LockId}
  {n : ℕ} {c : CondId}

theorem pushCode_wellPlaced {gs : List Frame} (h : InSection σ)
    (hi : ∀ f ∈ gs.tail, f.intrOn = true) (ho : ∀ f ∈ gs, f.outer = false)
    (hn : newborns gs = []) : WellPlaced (σ.pushCode gs) := by
  have hnew : newborns (gs ++ σ.code σ.current) = newborns (σ.code σ.current) := by
    unfold newborns at hn ⊢
    rw [filterMap_append, hn, nil_append]
  refine h.placed.setCode h.placed.current_running h.ne_idle ?_ ?_ ?_ ?_
  · intro f hf
    cases gs with
    | nil => exact (h.rest f (mem_of_mem_tail hf)).1
    | cons g gs =>
      rcases mem_append.mp hf with hf | hf
      · exact hi f hf
      · exact (h.rest f hf).1
  · intro f hf hout
    rcases mem_append.mp hf with hf | hf
    · simp [ho f hf] at hout
    · simp [(h.rest f hf).2] at hout
  · rw [hnew]
    exact h.placed.code_ok.newborn_one σ.current
  · rw [hnew]
    exact fun v hv => hv

theorem blocked_placed (h : InSection σ) (ho : f.outer = false) (hn : f.newborn = none) :
    Placed none ((σ.pushCode [f]).setStatus σ.current .blocked) := by
  have hp : WellPlaced (σ.pushCode [f]) :=
    pushCode_wellPlaced h (by simp) (by simpa using ho) (by simp [newborns, hn])
  exact hp.block

theorem waitOn_wellPlaced (h : InSection σ) (hf : ∀ fs, waitsOn (f :: fs) = some r)
    (ho : f.outer = false) (hn : f.newborn = none) : WellPlaced (σ.waitOn r f) := by
  have hb : σ.status σ.current ≠ .blocked := by simp [h.placed.current_running]
  have hbl := blocked_placed h ho hn
  apply threadBlock_wellPlaced
  refine { hbl with waiters_nodup := ?_, waiting := ?_ }
  · intro r'
    simp only [setStatus, pushCode, setCode, setWaiters, update_apply]
    split
    · exact nodup_append.mpr ⟨h.placed.waiters_nodup r, by simp,
        by have := h.placed.not_mem_waiters hb r; grind⟩
    · exact h.placed.waiters_nodup r'
  · intro r' u hu
    have hu' : u ∈ σ.waiters r' ∨ (r' = r ∧ u = σ.current) := by
      simp only [setStatus, pushCode, setCode, setWaiters, update_apply] at hu
      split at hu
      · next e =>
          subst e
          simpa using hu
      · exact .inl hu
    rcases hu' with hu' | ⟨rfl, rfl⟩
    · exact hbl.waiting r' u hu'
    · simp [setStatus, pushCode, setCode, setWaiters, hf]

theorem threadSleep_wellPlaced {w : ℤ} (h : InSection σ) : WellPlaced (σ.threadSleep w) := by
  have hb : σ.status σ.current ≠ .blocked := by simp [h.placed.current_running]
  have hbl := blocked_placed (f := .threadSleep) h rfl rfl
  apply threadBlock_wellPlaced
  refine { hbl with sleep_nodup := ?_, sleeping := ?_ }
  · exact (perm_orderedInsert _ σ.current σ.sleepList).nodup_iff.mpr
      (nodup_cons.mpr ⟨h.placed.not_mem_sleep hb, h.placed.sleep_nodup⟩)
  · intro u hu
    have hu' : u = σ.current ∨ u ∈ σ.sleepList := (mem_orderedInsert _).mp hu
    rcases hu' with rfl | hu'
    · simp [setStatus, pushCode, setCode, sleepInsert, sleeps]
    · exact hbl.sleeping u hu'

theorem threadAlarmLoop_placed {run : Option Tid} {now : ℤ} {ts : List Tid} (h : Placed run σ)
    (hts : σ.sleepList = ts) (ha : threadAlarmLoop now ts σ = some σ') : Placed run σ' := by
  induction ts generalizing σ with
  | nil =>
    cases ha
    exact h
  | cons t ts ih =>
    unfold threadAlarmLoop at ha
    split at ha
    · obtain ⟨σ₁, h1, h2⟩ := bind_eq_some_iff.mp ha
      obtain ⟨hb, rfl⟩ := threadUnblock_eq h1
      have hnd := h.sleep_nodup
      rw [hts, nodup_cons] at hnd
      have ht := h.sleeping t (by simp [hts])
      have hpop : Placed run { σ with sleepList := ts } :=
        { h with
          sleep_nodup := hnd.2
          sleeping := fun u hu => h.sleeping u (by rw [hts]; simp [show u ∈ ts from hu]) }
      refine ih (hpop.unblock hb ?_ hnd.1 ?_ (h.ne_idle_of_sleeps ht.2)) rfl h2
      · intro r hr
        have hw := (h.waiting r t hr).2
        rw [waitsOn_of_sleeps ht.2] at hw
        cases hw
      · apply h.not_newborn_of_code
        intro hc
        rw [hc] at ht
        simp [sleeps] at ht
    · cases ha
      exact h

theorem threadExit_wellPlaced (h : InSection σ) (hc : σ.code σ.current = []) :
    WellPlaced σ.threadExit := by
  have hr := h.placed.current_running
  have hb : σ.status σ.current ≠ .blocked := by simp [hr]
  apply schedule_wellPlaced
  refine h.placed.relist (h.placed.not_mem_waiters hb) (h.placed.not_mem_sleep hb)
    (h.placed.not_newborn hb) (fun _ => ⟨h.ne_idle, hc⟩) (h.placed.all_nodup.erase _) ?_ ?_
    h.placed.ready_nodup ?_
  · intro u
    have hu := h.placed.mem_all_iff u
    rw [h.placed.all_nodup.mem_erase_iff]
    grind
  · intro u
    have hu := h.placed.running_iff u
    grind
  · intro u
    have hu := h.placed.mem_ready_iff u
    change u ∈ σ.readyList ↔ _
    grind

theorem threadCreate_wellPlaced {p : ℤ} (h : InSection σ) (hc : σ.code σ.current = [])
    (ht : σ.threadCreate t p = some σ') : WellPlaced σ' := by
  unfold threadCreate at ht
  split at ht
  · cases ht
  next hfresh =>
    have hmem : t ∉ σ.allList := fun hm => hfresh (.inl hm)
    have hd : σ.status t = .dying := by
      by_contra hne
      exact hmem ((h.placed.mem_all_iff t).mpr hne)
    have hb : σ.status t ≠ .blocked := by simp [hd]
    have hne : σ.current ≠ t := by
      rintro rfl
      simp [h.placed.current_running] at hd
    have hi : σ.idleThread ≠ t := by
      rintro rfl
      exact h.placed.idle_alive hd
    have hcode : ∀ u, ((σ.initThread t p).pushCode
        [.call (.lockAcquire σ.tidLock), .allocateTid t]).code u =
          if u = σ.current then [.call (.lockAcquire σ.tidLock), .allocateTid t]
          else σ.code u := by
      intro u
      simp only [pushCode, setCode, initThread, update_apply, hne, if_false, hc, append_nil]
      have := h.placed.code_dead t hd
      grind
    have hst : ∀ u, ((σ.initThread t p).pushCode
        [.call (.lockAcquire σ.tidLock), .allocateTid t]).status u =
          if u = t then .blocked else σ.status u := by
      intro u
      simp [pushCode, setCode, initThread, update_apply]
    -- the only thread set up anew is `t`, by the running thread
    have hnew : ∀ u v, v ∈ newborns (if u = σ.current then
        [.call (.lockAcquire σ.tidLock), .allocateTid t] else σ.code u) →
          (u = σ.current ∧ v = t) ∨ (v ≠ t ∧ v ∈ newborns (σ.code u)) := by
      intro u v hv
      split at hv
      · next e => exact .inl ⟨e, mem_singleton.mp hv⟩
      · exact .inr ⟨fun e => h.placed.not_newborn hb u (e ▸ hv), hv⟩
    cases ht
    refine { h.placed with
      all_nodup := nodup_append.mpr ⟨h.placed.all_nodup, by simp, by grind⟩
      mem_all_iff := ?_, running_iff := ?_, mem_ready_iff := ?_, waiting := ?_,
      sleeping := ?_, idle_alive := ?_, idle_code := ?_, code_dead := ?_,
      newborn_blocked := ?_, code_ok := ⟨?_, ?_, ?_, ?_⟩ }
    all_goals simp only [hst, hcode]
    · intro u
      have hu := h.placed.mem_all_iff u
      simp only [pushCode, setCode, initThread, mem_append, mem_singleton]
      grind
    · intro u
      have hu := h.placed.running_iff u
      simp only [pushCode, setCode, initThread]
      grind
    · intro u
      have hu := h.placed.mem_ready_iff u
      simp only [pushCode, setCode, initThread]
      grind
    · intro r u hu
      have hw := h.placed.waiting r u hu
      have hu1 : u ≠ t := by rintro rfl; exact hb hw.1
      have hu2 : u ≠ σ.current := by rintro rfl; simp [hc, waitsOn] at hw
      simpa [hu1, hu2] using hw
    · intro u hu
      have hw := h.placed.sleeping u hu
      have hu1 : u ≠ t := by rintro rfl; exact hb hw.1
      have hu2 : u ≠ σ.current := by rintro rfl; simp [hc, sleeps] at hw
      simpa [hu1, hu2] using hw
    · have := h.placed.idle_alive
      simpa [pushCode, setCode, initThread, hi] using this
    · have := h.placed.idle_code
      simpa [pushCode, setCode, initThread, h.ne_idle.symm] using this
    · intro u hu
      have hr := h.placed.current_running
      have hu' := h.placed.code_dead u
      grind
    · intro u v hv
      rcases hnew u v hv with ⟨-, rfl⟩ | ⟨hv1, hv2⟩
      · simp [hne.symm, h.placed.code_dead v hd]
      · have hw := h.placed.newborn_blocked u v hv2
        have hv3 : v ≠ σ.current := by
          rintro rfl
          simp [h.placed.current_running] at hw
        simpa [hv1, hv3] using hw
    · intro u
      have hu := h.placed.code_ok.tail_intrOn u
      split
      · simp [Frame.intrOn]
      · exact hu
    · intro u
      have hu := h.placed.code_ok.outer_alone u
      split
      · simp [Frame.outer]
      · exact hu
    · intro u
      have hu := h.placed.code_ok.newborn_one u
      split
      · exact le_rfl
      · exact hu
    · intro u u' v hv hv'
      have huniq := h.placed.code_ok.newborn_unique u u' v
      grind

theorem setCode_pushCode (fs gs : List Frame) :
    (σ.setCode σ.current fs).pushCode gs = σ.setCode σ.current (gs ++ fs) := by
  simp [pushCode, setCode]

theorem allocateTid_wellPlaced (h : WellPlaced σ) (hc : σ.code σ.current = .allocateTid t :: fs) :
    WellPlaced ((σ.setCode σ.current fs).allocateTid t) := by
  have hin := InSection.of_code h hc (by simp)
  have hrest : ∀ f ∈ fs, f.intrOn = true ∧ f.outer = false := by
    simpa [setCode] using hin.rest
  have hone := h.code_ok.newborn_one σ.current
  rw [hc] at hone
  have hset : WellPlaced (σ.setCode σ.current
      (.call (.lockRelease σ.tidLock) :: .startThread t σ.nextTid :: fs)) := by
    refine h.setCode h.current_running hin.ne_idle ?_ ?_ hone ?_
    · intro f hf
      rcases mem_cons.mp hf with rfl | hf
      · rfl
      · exact (hrest f hf).1
    · intro f hf ho
      rcases mem_cons.mp hf with rfl | hf
      · cases ho
      rcases mem_cons.mp hf with rfl | hf
      · cases ho
      · simp [(hrest f hf).2] at ho
    · rw [hc]
      exact fun v hv => hv
  have heq := setCode_pushCode (σ := { σ with nextTid := σ.nextTid + 1 }) fs
    [.call (.lockRelease σ.tidLock), .startThread t σ.nextTid]
  unfold allocateTid
  exact heq ▸ { hset with }

theorem startThread_wellPlaced {v : ℕ} (h : WellPlaced σ)
    (hc : σ.code σ.current = .startThread t v :: fs)
    (hs : (σ.setCode σ.current fs).startThread t v = some σ') : WellPlaced σ' := by
  have hin := InSection.of_code h hc (by simp)
  have hmem : t ∈ newborns (σ.code σ.current) := by
    rw [hc]
    exact mem_cons_self
  have ht := h.newborn_blocked _ t hmem
  have hone := h.code_ok.newborn_one σ.current
  rw [hc] at hone
  have hnil : newborns fs = [] := by
    have : (newborns fs).length + 1 ≤ 1 := hone
    exact length_eq_zero_iff.mp (by omega)
  obtain ⟨σ₁, h1, rfl⟩ := map_eq_some_iff.mp hs
  obtain ⟨hb, rfl⟩ := threadUnblock_eq h1
  have hun : WellPlaced { (σ.setCode σ.current fs).setStatus t .ready with
      readyList := σ.readyList ++ [t] } := by
    refine hin.placed.unblock ht.1 ?_ ?_ ?_ ?_
    · intro r hr
      have := (h.waiting r t hr).2
      simp [ht.2, waitsOn] at this
    · intro hr
      have := (h.sleeping t hr).2
      simp [ht.2, sleeps] at this
    · intro u hu
      simp only [setCode, update_apply] at hu
      split at hu
      · simp [hnil] at hu
      · next hne => exact hne (h.code_ok.newborn_unique u _ t hu hmem)
    · intro e
      have hi := h.idle_code
      rw [show σ.idleThread = t from e.symm, ht.2] at hi
      cases hi
  have hsec : InSection { ({ σ.setCode σ.current fs with
      tid := update σ.tid t v } : Kernel).setStatus t .ready with
      readyList := σ.readyList ++ [t] } := ⟨{ hun with }, hin.ne_idle, hin.rest⟩
  exact pushCode_wellPlaced hsec (by simp) (by simp [Frame.outer]) rfl

theorem adjustPriority_inSection (h : InSection σ) (t : Tid) : InSection (σ.adjustPriority t) := by
  obtain ⟨p, -, hp⟩ := adjustPriority_eq σ t
  rw [hp]
  exact ⟨{ h.placed with }, h.ne_idle, h.rest⟩

theorem takeLock_inSection (h : InSection σ) (l : LockId) : InSection (σ.takeLock l) := by
  obtain ⟨p, -, hp⟩ := takeLock_eq σ l
  rw [hp]
  exact ⟨{ h.placed with }, h.ne_idle, h.rest⟩

theorem dropLock_inSection (h : InSection σ) (l : LockId) : InSection (σ.dropLock l) := by
  obtain ⟨p, -, hp⟩ := dropLock_eq σ l
  rw [hp]
  exact ⟨{ h.placed with }, h.ne_idle, h.rest⟩

theorem wakeMaxWaiter_inSection (h : InSection σ) (hw : σ.wakeMaxWaiter r = some σ') :
    InSection σ' := by
  have hp := wakeMaxWaiter_placed h.placed hw
  obtain ⟨st, ws, rl, -, rfl⟩ := wakeMaxWaiter_eq hw
  exact ⟨hp, h.ne_idle, h.rest⟩

theorem semaUpWake_inSection (h : InSection σ) (hw : σ.semaUpWake r = some σ') : InSection σ' := by
  obtain ⟨σ₁, h1, rfl⟩ := map_eq_some_iff.mp hw
  have hs := wakeMaxWaiter_inSection h h1
  exact ⟨{ hs.placed with }, hs.ne_idle, hs.rest⟩

theorem semaTryDown_wellPlaced (h : WellPlaced σ) : WellPlaced (σ.semaTryDown r).1 := by
  unfold semaTryDown
  split
  · exact { h with }
  · exact h

section

variable (h : InSection σ)

include h

theorem semaDownLoop_wellPlaced : WellPlaced (σ.semaDownLoop r) := by
  unfold semaDownLoop
  split
  · exact waitOn_wellPlaced h (fun _ => rfl) rfl rfl
  · exact { h.placed with }

theorem lockAcquireLoop_wellPlaced : WellPlaced (σ.lockAcquireLoop l) := by
  unfold lockAcquireLoop
  split
  · exact waitOn_wellPlaced h (fun _ => rfl) rfl rfl
  · have hv : InSection (σ.setValue (.lock l) (σ.value (.lock l) - 1)) :=
      ⟨{ h.placed with }, h.ne_idle, h.rest⟩
    exact { (takeLock_inSection hv l).placed with }

theorem lockAcquire_wellPlaced (ha : lockAcquire n σ l = some σ') : WellPlaced σ' := by
  unfold lockAcquire at ha
  split at ha
  · cases ha
  · obtain ⟨σ₁, h1, rfl⟩ := map_eq_some_iff.mp ha
    obtain ⟨p, m, -, rfl⟩ := flushPriority_eq h1
    exact lockAcquireLoop_wellPlaced ⟨{ h.placed with }, h.ne_idle, h.rest⟩

theorem lockTryAcquire_wellPlaced (ha : σ.lockTryAcquire l = some σ') : WellPlaced σ' := by
  unfold lockTryAcquire at ha
  split at ha
  · cases ha
  split at ha
  · cases ha
    have hs : InSection (σ.semaTryDown (.lock l)).1 := by
      unfold semaTryDown
      split
      · exact ⟨{ h.placed with }, h.ne_idle, h.rest⟩
      · exact h
    exact (takeLock_inSection hs l).placed
  · cases ha
    exact h.placed

theorem lockRelease_wellPlaced (hr : σ.lockRelease l = some σ') : WellPlaced σ' := by
  unfold lockRelease at hr
  split at hr
  · obtain ⟨σ₁, h1, rfl⟩ := map_eq_some_iff.mp hr
    have hs := semaUpWake_inSection (dropLock_inSection h l) h1
    exact threadYield_wellPlaced (pushCode_wellPlaced hs (by simp) (by simp [Frame.outer]) rfl)
  · cases hr

theorem condWait_wellPlaced (hc : σ.condWait c l = some σ') : WellPlaced σ' := by
  unfold condWait at hc
  split at hc
  · cases hc
    refine pushCode_wellPlaced ⟨{ h.placed with waiters_nodup := ?_, waiting := ?_ },
      h.ne_idle, h.rest⟩ (by simp [Frame.intrOn]) (by simp [Frame.outer]) rfl
    · intro r
      have := h.placed.waiters_nodup r
      simp only [setWaiters, setValue, update_apply]
      split
      · exact nodup_nil
      · exact this
    · intro r t ht
      simp only [setWaiters, setValue, update_apply] at ht
      split at ht
      · cases ht
      · exact h.placed.waiting r t ht
  · cases hc

theorem condSignal_wellPlaced (hc : σ.condSignal c l = some σ') : WellPlaced σ' := by
  unfold condSignal at hc
  split at hc
  · split at hc
    · cases hc
      exact h.placed
    · cases hc
      exact pushCode_wellPlaced ⟨{ h.placed with }, h.ne_idle, h.rest⟩ (by simp)
        (by simp [Frame.outer]) rfl
  · cases hc

theorem condBroadcast_wellPlaced : WellPlaced (σ.condBroadcast c l) := by
  unfold condBroadcast
  split
  · exact h.placed
  · exact pushCode_wellPlaced h (by simp [Frame.intrOn]) (by simp [Frame.outer]) rfl

theorem threadSetPriority_wellPlaced {p : ℤ} : WellPlaced (σ.threadSetPriority p) := by
  refine pushCode_wellPlaced (adjustPriority_inSection ?_ _) (by simp) (by simp [Frame.outer]) rfl
  exact ⟨{ h.placed with }, h.ne_idle, h.rest⟩

end

theorem timerInterrupt_wellPlaced (h : WellPlaced σ) (ht : σ.timerInterrupt = some σ') :
    WellPlaced σ' := by
  obtain ⟨σ₁, h1, rfl⟩ := map_eq_some_iff.mp ht
  have hp : Placed (some σ.current) σ₁ := by
    refine threadAlarmLoop_placed ?_ rfl h1
    exact { h with }
  have hcur : σ₁.current = σ.current := by
    obtain ⟨st, rl, sl, -, rfl⟩ := threadAlarmLoop_eq h1
    rfl
  rw [← hcur] at hp
  unfold tickReturn
  have hk : WellPlaced σ₁.threadTick.1 := { hp with }
  split
  · exact threadYield_wellPlaced hk
  · exact hk

theorem enter_wellPlaced {op : Op} (h : InSection σ)
    (ho : (Frame.call op).outer = true → σ.code σ.current = []) (he : enter n σ op = some σ') :
    WellPlaced σ' := by
  cases op with
  | semaDown r =>
    cases he
    exact semaDownLoop_wellPlaced h
  | semaTryDown r =>
    cases he
    exact semaTryDown_wellPlaced h.placed
  | semaUp r =>
    obtain ⟨σ₁, h1, rfl⟩ := map_eq_some_iff.mp he
    exact pushCode_wellPlaced (semaUpWake_inSection h h1) (by simp) (by simp [Frame.outer]) rfl
  | lockAcquire l => exact lockAcquire_wellPlaced h he
  | lockTryAcquire l => exact lockTryAcquire_wellPlaced h he
  | lockRelease l => exact lockRelease_wellPlaced h he
  | condWait c l => exact condWait_wellPlaced h he
  | condSignal c l => exact condSignal_wellPlaced h he
  | condBroadcast c l =>
    cases he
    exact condBroadcast_wellPlaced h
  | threadCreate t p => exact threadCreate_wellPlaced h (ho rfl) he
  | threadSetPriority p =>
    cases he
    exact threadSetPriority_wellPlaced h
  | threadYield =>
    cases he
    exact threadYield_wellPlaced h.placed
  | timerSleep k =>
    cases he
    exact pushCode_wellPlaced h (by simp) (by simp [Frame.outer]) rfl
  | threadSleep w =>
    cases he
    exact threadSleep_wellPlaced h
  | threadExit =>
    cases he
    exact threadExit_wellPlaced h (ho rfl)

theorem idle_wellPlaced (h : WellPlaced σ) (hc : σ.code σ.current = .idle :: fs) :
    WellPlaced ((σ.setCode σ.current fs).pushCode [.idle]).threadBlock := by
  have hsame : (σ.setCode σ.current fs).pushCode [.idle] = σ := by
    rw [setCode_pushCode, singleton_append, ← hc]
    simp [setCode]
  rw [hsame]
  exact threadBlock_wellPlaced h.block

theorem execFrame_wellPlaced (h : WellPlaced σ) (hc : σ.code σ.current = f :: fs)
    (he : execFrame n (σ.setCode σ.current fs) f = some σ') : WellPlaced σ' := by
  cases f with
  | call op =>
    refine enter_wellPlaced (InSection.of_code h hc (by simp)) ?_ he
    intro ho
    have hnil := h.code_ok.outer_alone σ.current (.call op) (by simp [hc]) ho
    rw [hc, tail_cons] at hnil
    simp [setCode, hnil]
  | semaDown r =>
    cases he
    exact semaDownLoop_wellPlaced (InSection.of_code h hc (by simp))
  | lockAcquire l =>
    cases he
    exact lockAcquireLoop_wellPlaced (InSection.of_code h hc (by simp))
  | lockRelease l =>
    cases he
    have hs := InSection.of_code h hc (by simp)
    exact pushCode_wellPlaced ⟨{ hs.placed with }, hs.ne_idle, hs.rest⟩ (by simp)
      (by simp [Frame.outer]) rfl
  | threadSleep =>
    cases he
    exact (InSection.of_code h hc (by simp)).placed
  | threadYield =>
    cases he
    exact threadYield_wellPlaced (InSection.of_code h hc (by simp)).placed
  | allocateTid t =>
    cases he
    exact allocateTid_wellPlaced h hc
  | startThread t v => exact startThread_wellPlaced h hc he
  | idle =>
    cases he
    exact idle_wellPlaced h hc

theorem step_wellPlaced {a : Act} (h : WellPlaced σ) (hs : σ.step a = some σ') : WellPlaced σ' := by
  cases a with
  | exec n =>
    cases hc : σ.code σ.current with
    | nil => simp [step, hc] at hs
    | cons f fs =>
      simp only [step, hc] at hs
      exact execFrame_wellPlaced h hc hs
  | call op =>
    obtain ⟨⟨hnil, -⟩, hs⟩ := ite_none_right_eq_some.mp hs
    cases hs
    have hi : σ.current ≠ σ.idleThread := by
      intro e
      have := h.idle_code
      rw [← e, hnil] at this
      cases this
    exact h.setCode h.current_running hi (by simp) (by simp) (Nat.zero_le 1)
      (by simp [newborns, Frame.newborn])
  | timer =>
    obtain ⟨-, hs⟩ := ite_none_right_eq_some.mp hs
    exact timerInterrupt_wellPlaced h hs
  | intrSemaUp s =>
    obtain ⟨-, hs⟩ := ite_none_right_eq_some.mp hs
    obtain ⟨σ₁, h1, rfl⟩ := map_eq_some_iff.mp hs
    have hp := wakeMaxWaiter_placed h h1
    have hcur : σ₁.current = σ.current := by
      obtain ⟨st, ws, rl, -, rfl⟩ := wakeMaxWaiter_eq h1
      rfl
    rw [← hcur] at hp
    exact { hp with }
  | intrSemaTryDown s =>
    obtain ⟨-, hs⟩ := ite_none_right_eq_some.mp hs
    cases hs
    exact semaTryDown_wellPlaced h
  | switchYield =>
    obtain ⟨-, hs⟩ := ite_none_right_eq_some.mp hs
    cases hs
    exact { h with }

end Kernel

theorem boot_wellPlaced (b : Bool) (v : ℕ → ℕ) : WellPlaced (boot b v) where
  all_nodup := by simp [boot]
  mem_all_iff t := by
    simp only [boot]
    grind
  running_iff t := by
    simp only [boot]
    grind
  ready_nodup := nodup_nil
  mem_ready_iff t := by
    simp only [boot]
    grind
  waiters_nodup _ := nodup_nil
  waiting r t ht := by cases ht
  sleep_nodup := nodup_nil
  sleeping t ht := by cases ht
  idle_alive := by simp [boot]
  idle_code := rfl
  code_dead t ht := by
    simp only [boot] at ht ⊢
    grind
  newborn_blocked t v hv := by
    simp only [boot] at hv
    split at hv <;> cases hv
  code_ok := by
    refine ⟨?_, ?_, ?_, ?_⟩
    all_goals simp only [boot]
    · intro t f hf
      split at hf <;> cases hf
    · intro t f hf ho
      split <;> rfl
    · intro t
      split <;> decide
    · intro t u v hv
      split at hv <;> cases hv

/-- The lists a thread is put into through its member `elem`. -/
inductive Queue where
  | ready
  | sleep
  | waiters (r : SemaRef)
  deriving DecidableEq, Repr

def Kernel.queue (σ : Kernel) : Queue → List Tid
  | .ready => σ.readyList
  | .sleep => σ.sleepList
  | .waiters r => σ.waiters r

/-- Every thread is in the places its status says, and in each of them once. -/
structure OnePlace (σ : Kernel) : Prop where
  running : ∃! t, σ.status t = .running
  ready : ∀ t, σ.readyList.count t =
    if σ.status t = .ready ∧ t ≠ σ.idleThread then 1 else 0
  blocked : ∀ t q, q ≠ .ready → t ∈ σ.queue q → σ.status t = .blocked
  once : ∀ t q, t ∈ σ.queue q → (σ.queue q).count t = 1
  one_queue : ∀ t q q', t ∈ σ.queue q → t ∈ σ.queue q' → q = q'
  all : ∀ t, σ.allList.count t = if σ.status t = .dying then 0 else 1

namespace Placed

variable {σ : Kernel} {run : Option Tid}

theorem queue_nodup (h : Placed run σ) (q : Queue) : (σ.queue q).Nodup := by
  cases q with
  | ready => exact h.ready_nodup
  | sleep => exact h.sleep_nodup
  | waiters r => exact h.waiters_nodup r

theorem of_mem_queue (h : Placed run σ) {t : Tid} {q : Queue} (ht : t ∈ σ.queue q) :
    q = .ready ∧ σ.status t = .ready ∨ q ≠ .ready ∧ σ.status t = .blocked ∧
      ((q = .sleep ∧ sleeps (σ.code t) = true) ∨
        ∃ r, q = .waiters r ∧ waitsOn (σ.code t) = some r) := by
  cases q with
  | ready => exact .inl ⟨rfl, ((h.mem_ready_iff t).mp ht).1⟩
  | sleep =>
    obtain ⟨hb, hs⟩ := h.sleeping t ht
    exact .inr ⟨nofun, hb, .inl ⟨rfl, hs⟩⟩
  | waiters r =>
    obtain ⟨hb, hw⟩ := h.waiting r t ht
    exact .inr ⟨nofun, hb, .inr ⟨r, rfl, hw⟩⟩

theorem one_queue (h : Placed run σ) {t : Tid} {q q' : Queue} (ht : t ∈ σ.queue q)
    (ht' : t ∈ σ.queue q') : q = q' := by
  rcases h.of_mem_queue ht with ⟨rfl, hs⟩ | ⟨-, hs, hq⟩
  · rcases h.of_mem_queue ht' with ⟨rfl, -⟩ | ⟨-, hs', -⟩
    · rfl
    · rw [hs] at hs'
      cases hs'
  · rcases h.of_mem_queue ht' with ⟨-, hs'⟩ | ⟨-, -, hq'⟩
    · rw [hs] at hs'
      cases hs'
    · rcases hq with ⟨rfl, hc⟩ | ⟨r, rfl, hc⟩
      · rcases hq' with ⟨rfl, -⟩ | ⟨r, rfl, hc'⟩
        · rfl
        · rw [waitsOn_of_sleeps hc] at hc'
          cases hc'
      · rcases hq' with ⟨rfl, hc'⟩ | ⟨r', rfl, hc'⟩
        · rw [waitsOn_of_sleeps hc'] at hc
          cases hc
        · rw [some.inj (hc.symm.trans hc')]

end Placed

theorem WellPlaced.onePlace (h : WellPlaced σ) : OnePlace σ where
  running := by
    refine ⟨σ.current, (h.running_iff _).mpr rfl, fun t ht => ?_⟩
    exact (some.inj ((h.running_iff t).mp ht)).symm
  ready t := by
    rw [List.Nodup.count h.ready_nodup]
    exact if_congr (h.mem_ready_iff t) rfl rfl
  blocked t q hq ht := by
    rcases h.of_mem_queue ht with ⟨hr, -⟩ | ⟨-, hb, -⟩
    · exact absurd hr hq
    · exact hb
  once t q ht := count_eq_one_of_mem (h.queue_nodup q) ht
  one_queue t q q' ht ht' := h.one_queue ht ht'
  all t := by
    rw [List.Nodup.count h.all_nodup]
    by_cases hd : σ.status t = .dying
    · rw [if_neg fun hm => (h.mem_all_iff t).mp hm hd, if_pos hd]
    · rw [if_pos ((h.mem_all_iff t).mpr hd), if_neg hd]

/-- In every state of every run exactly one thread is running, every list holds the
threads whose status says so, each once, and no thread is in two of the lists that share
`elem`. -/
theorem run_onePlace {b : Bool} {v : ℕ → ℕ} {acts : List Act} {σ : Kernel}
    (hr : Run.run Kernel.step (boot b v) acts = some σ) : OnePlace σ :=
  WellPlaced.onePlace
    (Run.run_invariant' (fun _ _ _ => Kernel.step_wellPlaced) (boot_wellPlaced b v) hr)

/-- The initial thread goes to sleep and the timer interrupts the idle thread. -/
def sleepTick : List Act :=
  [.call (.timerSleep 5), .exec 0, .exec 0, .exec 0, .timer]

theorem run_onePlace_sleepTick :
    ∃ σ, Run.run Kernel.step (boot true fun _ => 0) sleepTick = some σ ∧
      σ.sleepList = [0] ∧ OnePlace σ := by
  have hr : Run.run Kernel.step (boot true fun _ => 0) sleepTick = some _ := rfl
  exact ⟨_, hr, rfl, run_onePlace hr⟩

end CS162.Threads
