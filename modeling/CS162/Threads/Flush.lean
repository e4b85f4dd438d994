import CS162.Threads.Effect

/-!
# Donation stops

`flush_priority` follows `waiting_lock` and `holder` without looking where it has been, and the
links may be a cycle.  Each round raises the `max_priority` of a lock, and the values it can write
are those that some thread or lock had at the start, so that it ends.
-/

namespace CS162.Threads.Kernel

open Finset Function


/-- The threads and locks of the sets, with all that their members lead to. -/
structure Closed (σ : Kernel) (ts : Finset Tid) (ls : Finset LockId) : Prop where
  waiting : ∀ t ∈ ts, ∀ l, σ.waitingLock t = some l → l ∈ ls
  held : ∀ l ∈ ls, ∀ h, σ.holder l = some h → h ∈ ts
  locks : ∀ t ∈ ts, ∀ l ∈ σ.lockList t, l ∈ ls

/-- All priorities of the threads and locks are in `vs`. -/
structure Valued (σ : Kernel) (ts : Finset Tid) (ls : Finset LockId) (vs : Finset ℤ) : Prop where
  priority : ∀ t ∈ ts, σ.priority t ∈ vs
  instrinsic : ∀ t ∈ ts, σ.instrinsicPriority t ∈ vs
  lock : ∀ l ∈ ls, σ.maxPriority l ∈ vs

/-- How often the locks can still be raised. -/
def room (σ : Kernel) (ls : Finset LockId) (vs : Finset ℤ) : ℕ :=
  ∑ l ∈ ls, (vs.filter (σ.maxPriority l < ·)).card

variable {σ : Kernel} {ts : Finset Tid} {ls : Finset LockId} {vs : Finset ℤ} {t : Tid}
  {l : LockId} {p : ℤ}

theorem Valued.setMaxPriority (hv : σ.Valued ts ls vs) (hp : p ∈ vs) :
    (σ.setMaxPriority l p).Valued ts ls vs := by
  refine ⟨hv.priority, hv.instrinsic, fun k hk => ?_⟩
  rcases eq_or_ne k l with rfl | hne
  · have hself : (σ.setMaxPriority k p).maxPriority k = p := update_self _ _ _
    rwa [hself]
  · have hother : (σ.setMaxPriority l p).maxPriority k = σ.maxPriority k := update_of_ne hne _ _
    rw [hother]
    exact hv.lock k hk

theorem Valued.setPriority (hv : σ.Valued ts ls vs) (hp : p ∈ vs) :
    (σ.setPriority t p).Valued ts ls vs := by
  refine ⟨fun u hu => ?_, hv.instrinsic, hv.lock⟩
  rcases eq_or_ne u t with rfl | hne
  · have hself : (σ.setPriority u p).priority u = p := update_self _ _ _
    rwa [hself]
  · have hother : (σ.setPriority t p).priority u = σ.priority u := update_of_ne hne _ _
    rw [hother]
    exact hv.priority u hu

theorem Valued.adjustPriority (hv : σ.Valued ts ls vs) (hc : σ.Closed ts ls) (ht : t ∈ ts) :
    (σ.adjustPriority t).Valued ts ls vs := by
  unfold Kernel.adjustPriority
  cases hmax : listMax σ.maxPriority (σ.lockList t) with
  | none => exact hv.setPriority (hv.instrinsic t ht)
  | some l =>
    dsimp only
    split_ifs
    · exact hv.setPriority (hv.lock l (hc.locks t ht l (listMax_mem hmax)))
    · exact hv

theorem Closed.of_eq {σ' : Kernel} (hc : σ.Closed ts ls) (hw : σ'.waitingLock = σ.waitingLock)
    (hh : σ'.holder = σ.holder) (hl : σ'.lockList = σ.lockList) : σ'.Closed ts ls :=
  ⟨hw ▸ hc.waiting, hh ▸ hc.held, hl ▸ hc.locks⟩

theorem room_setMaxPriority_lt (hl : l ∈ ls) (hp : p ∈ vs) (hlt : σ.maxPriority l < p) :
    (σ.setMaxPriority l p).room ls vs < σ.room ls vs := by
  unfold room
  refine sum_lt_sum (fun k _ => ?_) ⟨l, hl, ?_⟩
  · -- every lock has at least the value it had
    refine card_le_card (monotone_filter_right vs fun v _ hv => ?_)
    refine lt_of_le_of_lt ?_ hv
    rcases eq_or_ne k l with rfl | hne
    · exact hlt.le.trans_eq (update_self k p σ.maxPriority).symm
    · exact (update_of_ne hne p σ.maxPriority).ge
  · -- and the value `p` is not above this one any more
    have hself : (σ.setMaxPriority l p).maxPriority l = p := update_self _ _ _
    refine card_lt_card ((ssubset_iff_of_subset ?_).mpr ⟨p, ?_, ?_⟩)
    · intro v hv
      rw [mem_filter, hself] at hv
      exact mem_filter.mpr ⟨hv.1, hlt.trans hv.2⟩
    · exact mem_filter.mpr ⟨hp, hlt⟩
    · rw [mem_filter, hself]
      exact fun h => lt_irrefl p h.2

theorem le_setMaxPriority (hle : σ.maxPriority l ≤ p) (k : LockId) :
    σ.maxPriority k ≤ (σ.setMaxPriority l p).maxPriority k := by
  rcases eq_or_ne k l with rfl | hne
  · exact hle.trans_eq (update_self k p σ.maxPriority).symm
  · exact (update_of_ne hne p σ.maxPriority).ge

theorem adjustPriority_links (σ : Kernel) (t : Tid) :
    (σ.adjustPriority t).waitingLock = σ.waitingLock ∧ (σ.adjustPriority t).holder = σ.holder ∧
      (σ.adjustPriority t).lockList = σ.lockList ∧
      (σ.adjustPriority t).maxPriority = σ.maxPriority := by
  obtain ⟨pr, -, h⟩ := adjustPriority_eq σ t
  rw [h]
  exact ⟨rfl, rfl, rfl, rfl⟩

theorem flushPriority_of_room {n : ℕ} (hc : σ.Closed ts ls) (hv : σ.Valued ts ls vs) (ht : t ∈ ts)
    (hn : σ.room ls vs < n) :
    ∃ σ', flushPriority n σ t = some σ' ∧ ∀ k, σ.maxPriority k ≤ σ'.maxPriority k := by
  induction n generalizing σ t with
  | zero => exact absurd hn (Nat.not_lt_zero _)
  | succ n ih =>
    unfold flushPriority
    cases hw : σ.waitingLock t with
    | none => exact ⟨σ, rfl, fun _ => le_rfl⟩
    | some l =>
      dsimp only
      split_ifs with hlt
      · have hl : l ∈ ls := hc.waiting t ht l hw
        have hp : σ.priority t ∈ vs := hv.priority t ht
        have hup : ∀ k, σ.maxPriority k ≤ (σ.setMaxPriority l (σ.priority t)).maxPriority k :=
          le_setMaxPriority hlt.le
        cases hh : σ.holder l with
        | none => exact ⟨_, rfl, hup⟩
        | some h =>
          have hmem : h ∈ ts := hc.held l hl h hh
          have hc1 : (σ.setMaxPriority l (σ.priority t)).Closed ts ls := hc.of_eq rfl rfl rfl
          obtain ⟨ew, eh, el, em⟩ := adjustPriority_links (σ.setMaxPriority l (σ.priority t)) h
          have hroom := room_setMaxPriority_lt hl hp hlt
          -- `adjust_priority` leaves the locks alone, so the room is that of the raised lock
          obtain ⟨σ', hflush, hle⟩ := ih (hc1.of_eq ew eh el)
            ((hv.setMaxPriority hp).adjustPriority hc1 hmem) hmem (by
              unfold room at hroom hn ⊢
              rw [em]
              omega)
          refine ⟨σ', hflush, fun k => (hup k).trans ?_⟩
          rw [← em]
          exact hle k
      · exact ⟨σ, rfl, fun _ => le_rfl⟩

theorem flushPriority_mono {n m : ℕ} {σ' : Kernel} (h : flushPriority n σ t = some σ')
    (hle : n ≤ m) : flushPriority m σ t = some σ' := by
  induction n generalizing σ t m with
  | zero => cases h
  | succ n ih =>
    obtain ⟨m, rfl⟩ : ∃ k, m = k + 1 := ⟨m - 1, by omega⟩
    unfold flushPriority at h ⊢
    cases hw : σ.waitingLock t with
    | none =>
      rw [hw] at h
      exact h
    | some l =>
      rw [hw] at h
      dsimp only at h ⊢
      split_ifs at h ⊢ with hlt
      · cases hh : σ.holder l with
        | none =>
          rw [hh] at h
          exact h
        | some u =>
          rw [hh] at h
          exact ih h (by omega)
      · exact h

/-- `flush_priority` on any thread of a finite set of threads and locks returns, and no lock is
lowered. -/
theorem flushPriority_stops (hc : σ.Closed ts ls) (ht : t ∈ ts) :
    ∃ N σ', (∀ n ≥ N, flushPriority n σ t = some σ') ∧ ∀ l, σ.maxPriority l ≤ σ'.maxPriority l := by
  classical
  let vs := ts.image σ.priority ∪ ts.image σ.instrinsicPriority ∪ ls.image σ.maxPriority
  have hv : σ.Valued ts ls vs := by
    refine ⟨fun u hu => ?_, fun u hu => ?_, fun l hl => ?_⟩
    · exact mem_union_left _ (mem_union_left _ (mem_image_of_mem _ hu))
    · exact mem_union_left _ (mem_union_right _ (mem_image_of_mem _ hu))
    · exact mem_union_right _ (mem_image_of_mem _ hl)
  obtain ⟨σ', hflush, hle⟩ := flushPriority_of_room hc hv ht (Nat.lt_succ_self (σ.room ls vs))
  exact ⟨_, σ', fun n hn => flushPriority_mono hflush hn, hle⟩

/-- Two threads that wait for each other's lock. -/
def deadlock : Kernel :=
  { boot true fun _ => 0 with
    priority := fun t => t + 10
    lockList := fun t => [t]
    waitingLock := fun t => some (1 - t)
    holder := fun l => some l }

theorem flushPriority_stops_deadlock :
    ∃ N σ', (∀ n ≥ N, flushPriority n deadlock 0 = some σ') ∧
      ∀ l, deadlock.maxPriority l ≤ σ'.maxPriority l := by
  have hclosed : deadlock.Closed {0, 1} {0, 1} := ⟨by decide, by decide, by decide⟩
  exact flushPriority_stops hclosed (by decide)

end CS162.Threads.Kernel
