import CS162.Threads.Locks

/-!
# Priority donation

`max_priority` of a lock is what the code remembers of the threads that wait for it.
`Donation` says how the remembered values must relate to the priorities for
`adjust_priority` and `flush_priority` to compute the maximum; `UpToDate` is the condition
under which each step keeps it, since the code lets these values grow old.
-/

namespace CS162.Threads

open List Kernel Function

namespace Kernel

def waitingFor (σ : Kernel) (ls : List LockId) : Set ℤ :=
  {p | ∃ l ∈ ls, ∃ w, σ.waitingLock w = some l ∧ p = σ.priority w}

/-- The invariant of donation. `p t` is the priority that `t` should have; it is
`t->priority` except on the way of `flush_priority` along a chain of locks. -/
structure Donating (p : Tid → ℤ) (σ : Kernel) : Prop where
  exact : ∀ t, IsGreatest
    (insert (σ.instrinsicPriority t) (σ.waitingFor (σ.lockList t))) (p t)
  own_le : ∀ t, σ.instrinsicPriority t ≤ σ.priority t
  max_le : ∀ t, ∀ l ∈ σ.lockList t, σ.maxPriority l ≤ σ.priority t
  max_eq : ∀ t, σ.instrinsicPriority t < σ.priority t →
    ∃ l ∈ σ.lockList t, σ.maxPriority l = σ.priority t
  priMin_le : ∀ t, priMin ≤ σ.instrinsicPriority t

/-- Every thread has the priority that its locks call for. -/
abbrev Donation (σ : Kernel) : Prop :=
  Donating σ.priority σ

variable {σ σ' : Kernel} {t w u c : Tid} {l : LockId} {n : ℕ}

theorem adjustPriority_cases (σ : Kernel) (t : Tid) :
    (σ.lockList t = [] ∧ σ.adjustPriority t = σ.setPriority t (σ.instrinsicPriority t)) ∨
      ∃ k ∈ σ.lockList t, (∀ j ∈ σ.lockList t, σ.maxPriority j ≤ σ.maxPriority k) ∧
      σ.adjustPriority t = σ.setPriority t
      (if σ.instrinsicPriority t < σ.maxPriority k then σ.maxPriority k else σ.priority t) := by
  unfold adjustPriority
  cases hm : listMax σ.maxPriority (σ.lockList t) with
  | none => exact .inl ⟨listMax_eq_none.mp hm, rfl⟩
  | some k =>
    refine .inr ⟨k, listMax_mem hm, fun j hj => le_of_listMax hj hm, ?_⟩
    dsimp only
    split
    · rfl
    · simp [setPriority]

theorem adjustPriority_raise {x : ℤ} (hl : l ∈ σ.lockList t) (hx : σ.maxPriority l = x)
    (hintr : σ.instrinsicPriority t ≤ σ.priority t)
    (hle : ∀ j ∈ σ.lockList t, j ≠ l → σ.maxPriority j ≤ σ.priority t)
    (heq : σ.instrinsicPriority t < σ.priority t →
      (∃ j ∈ σ.lockList t, σ.maxPriority j = σ.priority t) ∨ σ.priority t ≤ x) :
    σ.adjustPriority t = σ.setPriority t (max (σ.priority t) x) ∧
      (∀ j ∈ σ.lockList t, σ.maxPriority j ≤ max (σ.priority t) x) ∧
      (σ.instrinsicPriority t < max (σ.priority t) x →
        ∃ j ∈ σ.lockList t, σ.maxPriority j = max (σ.priority t) x) := by
  rcases adjustPriority_cases σ t with ⟨hnil, -⟩ | ⟨k, hk, hmax, heqn⟩
  · rw [hnil] at hl
    cases hl
  have hkl : x ≤ σ.maxPriority k := hx ▸ hmax l hl
  have hall : ∀ j ∈ σ.lockList t, σ.maxPriority j ≤ max (σ.priority t) x := by
    intro j hj
    by_cases e : j = l
    · rw [e, hx]
      exact le_max_right _ _
    · exact (hle j hj e).trans (le_max_left _ _)
  have hkle := hall k hk
  by_cases hlt : σ.instrinsicPriority t < σ.maxPriority k
  · -- the remembered value wins; it is at least the old priority
    have hge : σ.priority t ≤ σ.maxPriority k := by
      by_cases hp : σ.instrinsicPriority t < σ.priority t
      · rcases heq hp with ⟨j, hj, e⟩ | hpx
        · exact e ▸ hmax j hj
        · exact hpx.trans hkl
      · omega
    have hval : σ.maxPriority k = max (σ.priority t) x := le_antisymm hkle (max_le hge hkl)
    refine ⟨?_, hall, fun _ => ⟨k, hk, hval⟩⟩
    rw [heqn, if_pos hlt, hval]
  · -- no lock exceeds the thread's own priority
    have hval : max (σ.priority t) x = σ.priority t := max_eq_left (by omega)
    refine ⟨?_, hall, ?_⟩
    · rw [heqn, if_neg hlt, hval]
    · intro hp
      rw [hval] at hp ⊢
      rcases heq hp with ⟨j, hj, e⟩ | hpx
      · exact ⟨j, hj, e⟩
      · omega

def target (σ : Kernel) (t : Tid) : Option Tid :=
  (σ.waitingLock t).bind σ.holder

/-- The priorities once `t` has donated its own to the holder of the lock it
waits for. -/
def raised (σ : Kernel) (t u : Tid) : ℤ :=
  if σ.target t = some u then max (σ.priority u) (σ.priority t) else σ.priority u

section

variable (hh : LockHeld σ)

include hh

theorem target_eq_some (hw : σ.waitingLock w = some l) (hl : l ∈ σ.lockList u) :
    σ.target w = some u := by
  rw [target, hw, Option.bind_some]
  exact (hh.holder_iff l u).mpr hl

theorem target_eq_some_iff :
    σ.target w = some u ↔ ∃ l ∈ σ.lockList u, σ.waitingLock w = some l := by
  constructor
  · intro h
    obtain ⟨l, hw, hl⟩ := Option.bind_eq_some_iff.mp h
    exact ⟨l, (hh.holder_iff l u).mp hl, hw⟩
  · rintro ⟨l, hl, hw⟩
    exact target_eq_some hh hw hl

theorem exact_raised {p : Tid → ℤ} {m : LockId → ℤ} {h : Tid}
    (hne : ∀ u, u ≠ h → p u = σ.priority u) (hge : σ.priority h ≤ p h)
    (hex : ∀ u, IsGreatest (insert (σ.instrinsicPriority u) (σ.waitingFor (σ.lockList u))) (p u))
    (u : Tid) :
    IsGreatest (insert (σ.instrinsicPriority u)
      ({ σ with priority := p, maxPriority := m }.waitingFor (σ.lockList u)))
      ({ σ with priority := p, maxPriority := m }.raised h u) := by
  obtain ⟨hmem, hub⟩ := hex u
  by_cases ht : σ.target h = some u
  · obtain ⟨k, hk, hwk⟩ := (target_eq_some_iff hh).mp ht
    have hval : { σ with priority := p, maxPriority := m : Kernel }.raised h u =
        max (p u) (p h) := if_pos ht
    rw [hval]
    constructor
    · rcases le_total (p u) (p h) with hle | hle
      · rw [max_eq_right hle]
        exact .inr ⟨k, hk, h, hwk, rfl⟩
      · rw [max_eq_left hle]
        rcases hmem with hmem | ⟨l, hl, w, hw, e⟩
        · exact .inl hmem
        · refine .inr ⟨l, hl, w, hw, ?_⟩
          by_cases hwh : w = h
          · subst hwh
            exact le_antisymm (e ▸ hge) hle
          · rw [e, ← hne w hwh]
    · rintro x (rfl | ⟨l, hl, w, hw, rfl⟩)
      · exact (hub (.inl rfl)).trans (le_max_left _ _)
      · by_cases hwh : w = h
        · subst hwh
          exact le_max_right _ _
        · refine le_trans ?_ (le_max_left _ _)
          exact hub (.inr ⟨l, hl, w, hw, hne w hwh⟩)
  · have hval : { σ with priority := p, maxPriority := m : Kernel }.raised h u = p u :=
      if_neg ht
    -- `h` is not among the threads that wait for a lock of `u`
    have hset : { σ with priority := p, maxPriority := m : Kernel }.waitingFor
        (σ.lockList u) = σ.waitingFor (σ.lockList u) := by
      ext x
      have hw' : ∀ l ∈ σ.lockList u, ∀ w, σ.waitingLock w = some l → p w = σ.priority w :=
        fun l hl w hw => hne w fun e => ht (target_eq_some hh (e ▸ hw) hl)
      constructor
      · rintro ⟨l, hl, w, hw, rfl⟩
        exact ⟨l, hl, w, hw, hw' l hl w hw⟩
      · rintro ⟨l, hl, w, hw, rfl⟩
        exact ⟨l, hl, w, hw, (hw' l hl w hw).symm⟩
    rw [hval, hset]
    exact ⟨hmem, hub⟩

theorem donating_link (h : Donating (σ.raised t) σ) (hw : σ.waitingLock t = some l)
    (hl : σ.holder l = some u) (hlt : σ.maxPriority l < σ.priority t) :
    Donating (((σ.setMaxPriority l (σ.priority t)).adjustPriority u).raised u)
      ((σ.setMaxPriority l (σ.priority t)).adjustPriority u) := by
  have hmem : l ∈ σ.lockList u := (hh.holder_iff l u).mp hl
  have hother : ∀ v, v ≠ u → l ∉ σ.lockList v := by
    intro v hv hm
    rw [← hh.holder_iff, hl] at hm
    exact hv (Option.some.inj hm).symm
  have hval : ∀ j, j ≠ l → (σ.setMaxPriority l (σ.priority t)).maxPriority j =
      σ.maxPriority j := fun j hj => by simp [setMaxPriority, hj]
  obtain ⟨hadj, hle, heq⟩ := adjustPriority_raise
    (σ := σ.setMaxPriority l (σ.priority t)) (x := σ.priority t) hmem
    (by simp [setMaxPriority]) (h.own_le u)
    (fun j hj hne => by rw [hval j hne]; exact h.max_le u j hj)
    (by
      intro hp
      obtain ⟨j, hj, e⟩ := h.max_eq u hp
      by_cases hjl : j = l
      · rw [hjl] at e
        exact .inr (e ▸ hlt.le)
      · exact .inl ⟨j, hj, (hval j hjl).trans e⟩)
  -- the new priorities are the ones the chain had called for
  have hp : σ.raised t =
      update σ.priority u (max (σ.priority u) (σ.priority t)) := by
    funext v
    have ht : σ.target t = some u := target_eq_some hh hw hmem
    rw [raised, ht, update_apply]
    by_cases hv : v = u
    · simp [hv]
    · simp [hv, Ne.symm hv]
  have hne : ∀ v, v ≠ u → σ.raised t v = σ.priority v := fun v hv => by
    rw [hp, update_of_ne hv]
  have hself : σ.raised t u = max (σ.priority u) (σ.priority t) := by
    rw [hp, update_self]
  have hstate : (σ.setMaxPriority l (σ.priority t)).adjustPriority u =
      { σ with
        priority := σ.raised t
        maxPriority := update σ.maxPriority l (σ.priority t) } := by
    rw [hadj, hp]
    rfl
  have hge : ∀ v, σ.priority v ≤ σ.raised t v := by
    intro v
    by_cases hv : v = u
    · rw [hv, hself]
      exact le_max_left _ _
    · exact (hne v hv).ge
  rw [hstate]
  refine ⟨?_, ?_, ?_, ?_, h.priMin_le⟩
  · intro v
    have := exact_raised (m := update σ.maxPriority l (σ.priority t)) hh hne (hge u) h.exact v
    exact this
  · intro v
    exact (h.own_le v).trans (hge v)
  · intro v j hj
    by_cases hv : v = u
    · rw [hv] at hj
      show _ ≤ σ.raised t v
      rw [hv, hself]
      exact hle j hj
    · have hjl : j ≠ l := fun e => hother v hv (e ▸ hj)
      show _ ≤ σ.raised t v
      rw [hne v hv]
      exact (hval j hjl).le.trans (h.max_le v j hj)
  · intro v hv'
    by_cases hv : v = u
    · have hv'' : σ.instrinsicPriority u < max (σ.priority u) (σ.priority t) := by
        rw [← hself]
        exact hv ▸ hv'
      obtain ⟨j, hj, e⟩ := heq hv''
      rw [hv]
      exact ⟨j, hj, e.trans hself.symm⟩
    · have hv'' : σ.instrinsicPriority v < σ.priority v := by
        rw [← hne v hv]
        exact hv'
      obtain ⟨j, hj, e⟩ := h.max_eq v hv''
      have hjl : j ≠ l := fun e => hother v hv (e ▸ hj)
      exact ⟨j, hj, ((hval j hjl).trans e).trans (hne v hv).symm⟩

theorem flushPriority_donation (h : Donating (σ.raised t) σ) (hf : flushPriority n σ t = some σ') :
    Donation σ' := by
  induction n generalizing σ t with
  | zero => cases hf
  | succ n ih =>
    unfold flushPriority at hf
    cases hw : σ.waitingLock t with
    | none =>
      have hr : σ.raised t = σ.priority := by
        funext u
        simp [raised, target, hw]
      rw [hr] at h
      rw [hw] at hf
      cases hf
      exact h
    | some l =>
      simp only [hw] at hf
      split at hf
      · next hlt =>
          cases hl : σ.holder l with
          | none =>
            have hr : σ.raised t = σ.priority := by
              funext u
              simp [raised, target, hw, hl]
            have hfree : ∀ v, ∀ j ∈ σ.lockList v, j ≠ l := by
              rintro v j hj rfl
              rw [← hh.holder_iff, hl] at hj
              cases hj
            rw [hr] at h
            rw [hl] at hf
            cases hf
            refine ⟨h.exact, h.own_le, ?_, ?_, h.priMin_le⟩
            · intro v j hj
              have := h.max_le v j hj
              simpa [setMaxPriority, hfree v j hj] using this
            · intro v hv
              obtain ⟨j, hj, e⟩ := h.max_eq v hv
              exact ⟨j, hj, by simpa [setMaxPriority, hfree v j hj] using e⟩
          | some u =>
            simp only [hl] at hf
            refine ih ?_ (donating_link hh h hw hl hlt) hf
            obtain ⟨q, -, hq⟩ := adjustPriority_eq (σ.setMaxPriority l (σ.priority t)) u
            rw [hq]
            exact ⟨hh.holder_iff, hh.nodup, hh.dead_free⟩
      · next hge =>
          -- the lock already remembers at least this priority
          have hr : σ.raised t = σ.priority := by
            funext u
            unfold raised
            split
            · next ht =>
                obtain ⟨k, hk, hwk⟩ := (target_eq_some_iff hh).mp ht
                rw [hw] at hwk
                cases hwk
                have := h.max_le u l hk
                exact max_eq_left (by omega)
            · rfl
          rw [hr] at h
          cases hf
          exact h

theorem donating_wait (h : Donation σ) (hc : σ.waitingLock c = none) :
    Donating ((σ.setWaitingLock c (some l)).raised c) (σ.setWaitingLock c (some l)) := by
  refine ⟨?_, h.own_le, h.max_le, h.max_eq, h.priMin_le⟩
  intro u
  obtain ⟨hmem, hub⟩ := h.exact u
  have hold : ∀ k w, σ.waitingLock w = some k →
      (σ.setWaitingLock c (some l)).waitingLock w = some k := by
    intro k w hw
    have hne : w ≠ c := by
      rintro rfl
      rw [hc] at hw
      cases hw
    simpa [setWaitingLock, hne] using hw
  have htarget : (σ.setWaitingLock c (some l)).target c = σ.holder l := by
    simp [target, setWaitingLock]
  have hnew : ∀ k w, (σ.setWaitingLock c (some l)).waitingLock w = some k →
      σ.waitingLock w = some k ∨ (w = c ∧ k = l) := by
    intro k w hw
    by_cases e : w = c
    · refine .inr ⟨e, ?_⟩
      simpa [setWaitingLock, e, eq_comm] using hw
    · exact .inl (by simpa [setWaitingLock, e] using hw)
  unfold raised
  rw [htarget]
  split
  · next ht =>
      have hl : l ∈ σ.lockList u := (hh.holder_iff l u).mp ht
      constructor
      · rcases le_total (σ.priority u) (σ.priority c) with hle | hle
        · refine .inr ⟨l, hl, c, by simp [setWaitingLock], ?_⟩
          exact max_eq_right hle
        · rcases hmem with hmem | ⟨k, hk, w, hw, e⟩
          · exact .inl ((max_eq_left hle).trans hmem)
          · exact .inr ⟨k, hk, w, hold k w hw, (max_eq_left hle).trans e⟩
      · rintro x (rfl | ⟨k, hk, w, hw, rfl⟩)
        · exact (h.own_le u).trans (le_max_left _ _)
        · rcases hnew k w hw with hw | ⟨rfl, -⟩
          · exact (hub (.inr ⟨k, hk, w, hw, rfl⟩)).trans (le_max_left _ _)
          · exact le_max_right _ _
  · next ht =>
      constructor
      · rcases hmem with hmem | ⟨k, hk, w, hw, e⟩
        · exact .inl hmem
        · exact .inr ⟨k, hk, w, hold k w hw, e⟩
      · rintro x (rfl | ⟨k, hk, w, hw, rfl⟩)
        · exact h.own_le u
        · rcases hnew k w hw with hw | ⟨rfl, rfl⟩
          · exact hub (.inr ⟨k, hk, w, hw, rfl⟩)
          · exact absurd ((hh.holder_iff k u).mpr hk) ht

end

/-- What `l` remembers is the largest priority of the threads other than `c`
that wait for it, as far as it exceeds the priority of `c`. -/
def TakeOk (σ : Kernel) (c : Tid) (l : LockId) : Prop :=
  IsGreatest
    (insert (σ.priority c)
      {p | ∃ w, w ≠ c ∧ σ.waitingLock w = some l ∧ p = σ.priority w})
    (max (σ.priority c) (σ.maxPriority l))

theorem takeLock_raise (h : Donation σ) :
    σ.takeLock l = { σ with
      holder := update σ.holder l (some σ.current)
      lockList := update σ.lockList σ.current
        (σ.lockList σ.current ++ [l])
      priority := update σ.priority σ.current
        (max (σ.priority σ.current) (σ.maxPriority l)) } := by
  refine (adjustPriority_raise (σ := { σ with
    holder := update σ.holder l (some σ.current)
    lockList := update σ.lockList σ.current (σ.lockList σ.current ++ [l]) })
    (by simp) rfl (h.own_le _) ?_ ?_).1
  · intro j hj hne
    have hj' : j ∈ σ.lockList σ.current := by simpa [hne] using hj
    exact h.max_le σ.current j hj'
  · intro hp
    obtain ⟨j, hj, e⟩ := h.max_eq σ.current hp
    exact .inl ⟨j, by simp [hj], e⟩

theorem donation_take (hh : LockHeld σ) (h : Donation σ) (hfree : σ.holder l = none)
    (hwait : ∀ k, σ.waitingLock c = some k → k = l) (ht : TakeOk σ c l)
    (hp : σ'.priority = update σ.priority c (max (σ.priority c) (σ.maxPriority l)))
    (hi : σ'.instrinsicPriority = σ.instrinsicPriority)
    (hlist : σ'.lockList = update σ.lockList c (σ.lockList c ++ [l]))
    (hw : σ'.waitingLock = update σ.waitingLock c none)
    (hm : σ'.maxPriority = σ.maxPriority) : Donation σ' := by
  have hnot : ∀ u, l ∉ σ.lockList u := by
    intro u hu
    rw [← hh.holder_iff, hfree] at hu
    cases hu
  have hpc : σ'.priority c = max (σ.priority c) (σ.maxPriority l) := by simp [hp]
  have hpu : ∀ u, u ≠ c → σ'.priority u = σ.priority u := fun u hu => by simp [hp, hu]
  have hwu : ∀ u k, σ'.waitingLock u = some k ↔ u ≠ c ∧ σ.waitingLock u = some k := by
    intro u k
    rw [hw]
    by_cases e : u = c
    · simp [e]
    · simp [e]
  -- the taker waits for no lock that anybody holds
  have hother : ∀ u k w, k ∈ σ.lockList u → σ.waitingLock w = some k → w ≠ c := by
    rintro u k w hk hwk rfl
    exact hnot u (hwait k hwk ▸ hk)
  have hkeep : ∀ u, ∀ p ∈ σ.waitingFor (σ.lockList u), ∃ k ∈ σ.lockList u, ∃ w,
      σ'.waitingLock w = some k ∧ p = σ'.priority w := by
    rintro u p ⟨k, hk, w, hwk, rfl⟩
    have hne := hother u k w hk hwk
    exact ⟨k, hk, w, (hwu w k).mpr ⟨hne, hwk⟩, (hpu w hne).symm⟩
  have hback : ∀ u k w, k ∈ σ.lockList u → σ'.waitingLock w = some k →
      σ'.priority w ∈ σ.waitingFor (σ.lockList u) := by
    intro u k w hk hwk
    obtain ⟨hne, hwk'⟩ := (hwu w k).mp hwk
    exact ⟨k, hk, w, hwk', hpu w hne⟩
  refine ⟨?_, ?_, ?_, ?_, hi ▸ h.priMin_le⟩
  · intro u
    obtain ⟨hmem, hub⟩ := h.exact u
    rw [hi, hlist]
    by_cases e : u = c
    · subst e
      rw [update_self, hpc]
      constructor
      · rcases ht.1 with e | ⟨w, hne, hwl, e⟩
        · rw [e]
          rcases hmem with hmem | hmem
          · exact .inl hmem
          · obtain ⟨k, hk, w, hwk, e⟩ := hkeep u _ hmem
            exact .inr ⟨k, mem_append_left _ hk, w, hwk, e⟩
        · refine .inr ⟨l, by simp, w, (hwu w l).mpr ⟨hne, hwl⟩, ?_⟩
          rw [e, hpu w hne]
      · rintro x (rfl | ⟨k, hk, w, hwk, rfl⟩)
        · exact (h.own_le u).trans (le_max_left _ _)
        · rcases mem_append.mp hk with hk | hk
          · exact (hub (.inr (hback u k w hk hwk))).trans (le_max_left _ _)
          · rw [mem_singleton] at hk
            subst hk
            obtain ⟨hne, hwk'⟩ := (hwu w k).mp hwk
            exact ht.2 (.inr ⟨w, hne, hwk', hpu w hne⟩)
    · rw [update_of_ne e, hpu u e]
      constructor
      · rcases hmem with hmem | hmem
        · exact .inl hmem
        · exact .inr (hkeep u _ hmem)
      · rintro x (rfl | ⟨k, hk, w, hwk, rfl⟩)
        · exact h.own_le u
        · exact hub (.inr (hback u k w hk hwk))
  · intro u
    rw [hi]
    by_cases e : u = c
    · rw [e, hpc]
      exact (h.own_le c).trans (le_max_left _ _)
    · rw [hpu u e]
      exact h.own_le u
  · intro u j hj
    rw [hm]
    by_cases e : u = c
    · rw [e, hpc]
      rw [hlist, e, update_self, mem_append, mem_singleton] at hj
      rcases hj with hj | rfl
      · exact (h.max_le c j hj).trans (le_max_left _ _)
      · exact le_max_right _ _
    · rw [hlist, update_of_ne e] at hj
      rw [hpu u e]
      exact h.max_le u j hj
  · intro u hlt
    rw [hi] at hlt
    rw [hlist, hm]
    by_cases e : u = c
    · subst e
      rw [hpc] at hlt ⊢
      rw [update_self]
      rcases le_total (σ.priority u) (σ.maxPriority l) with hle | hle
      · exact ⟨l, by simp, (max_eq_right hle).symm⟩
      · rw [max_eq_left hle] at hlt ⊢
        obtain ⟨j, hj, e⟩ := h.max_eq u hlt
        exact ⟨j, mem_append_left _ hj, e⟩
    · rw [hpu u e] at hlt ⊢
      rw [update_of_ne e]
      exact h.max_eq u hlt

/-- What the locks `ls` remember is the largest priority of the threads that
wait for them, as far as it exceeds `q`; and if it does not, the priority of `c`
is `q` already, for `adjust_priority` does not set it. -/
def KeepOk (σ : Kernel) (c : Tid) (q : ℤ) (ls : List LockId) : Prop :=
  ∀ k ∈ ls, (∀ j ∈ ls, σ.maxPriority j ≤ σ.maxPriority k) →
    IsGreatest (insert q (σ.waitingFor ls)) (max q (σ.maxPriority k)) ∧
      (σ.maxPriority k ≤ q → σ.priority c = q)

theorem waitingFor_setPriority (hc : σ.waitingLock c = none) (x : ℤ) (ls : List LockId) :
    (σ.setPriority c x).waitingFor ls = σ.waitingFor ls := by
  have hne : ∀ w l, σ.waitingLock w = some l → w ≠ c := by
    rintro w l hw rfl
    rw [hc] at hw
    cases hw
  ext p
  constructor
  · rintro ⟨l, hl, w, hw, rfl⟩
    exact ⟨l, hl, w, hw, by simp [setPriority, hne w l hw]⟩
  · rintro ⟨l, hl, w, hw, rfl⟩
    exact ⟨l, hl, w, hw, by simp [setPriority, hne w l hw]⟩

/-- The part of the invariant that is about the thread `t`. -/
structure DonationAt (σ : Kernel) (t : Tid) : Prop where
  exact : IsGreatest
    (insert (σ.instrinsicPriority t) (σ.waitingFor (σ.lockList t))) (σ.priority t)
  max_le : ∀ l ∈ σ.lockList t, σ.maxPriority l ≤ σ.priority t
  max_eq : σ.instrinsicPriority t < σ.priority t →
    ∃ l ∈ σ.lockList t, σ.maxPriority l = σ.priority t
  priMin_le : priMin ≤ σ.instrinsicPriority t

theorem Donating.at (h : Donation σ) (t : Tid) : DonationAt σ t :=
  ⟨h.exact t, h.max_le t, h.max_eq t, h.priMin_le t⟩

theorem donation_of_at (h : ∀ t, DonationAt σ t) : Donation σ :=
  ⟨fun t => (h t).exact, fun t => (h t).exact.2 (.inl rfl), fun t => (h t).max_le,
    fun t => (h t).max_eq, fun t => (h t).priMin_le⟩

theorem DonationAt.of_eq (h : DonationAt σ t) (hp : σ'.priority = σ.priority)
    (hw : σ'.waitingLock = σ.waitingLock) (hm : σ'.maxPriority = σ.maxPriority)
    (hi : σ'.instrinsicPriority t = σ.instrinsicPriority t) (hl : σ'.lockList t = σ.lockList t) :
    DonationAt σ' t := by
  have hset : σ'.waitingFor (σ.lockList t) = σ.waitingFor (σ.lockList t) := by
    unfold waitingFor
    rw [hw, hp]
  refine ⟨?_, ?_, ?_, hi ▸ h.priMin_le⟩
  · rw [hi, hl, hp, hset]
    exact h.exact
  · rw [hl, hp, hm]
    exact h.max_le
  · rw [hi, hl, hp, hm]
    exact h.max_eq

theorem adjustPriority_donation (hc : σ.waitingLock c = none) (hother : ∀ u, u ≠ c → DonationAt σ u)
    (hmin : priMin ≤ σ.instrinsicPriority c)
    (hk : KeepOk σ c (σ.instrinsicPriority c) (σ.lockList c)) : Donation (σ.adjustPriority c) := by
  -- only the priority of `c` changes, so the other threads keep their part
  have hset : ∀ x, DonationAt (σ.setPriority c x) c → Donation (σ.setPriority c x) := by
    intro x hx
    refine donation_of_at fun u => ?_
    by_cases e : u = c
    · exact e ▸ hx
    · have hu := hother u e
      have hp : (σ.setPriority c x).priority u = σ.priority u := by simp [setPriority, e]
      refine ⟨?_, ?_, ?_, hu.priMin_le⟩
      · rw [hp, waitingFor_setPriority hc]
        exact hu.exact
      · rw [hp]
        exact hu.max_le
      · rw [hp]
        exact hu.max_eq
  rcases adjustPriority_cases σ c with ⟨hnil, e⟩ | ⟨k, hmem, hmax, e⟩
  · rw [e]
    refine hset _ ⟨?_, ?_, ?_, hmin⟩
    · rw [waitingFor_setPriority hc]
      show IsGreatest (insert _ (σ.waitingFor (σ.lockList c))) _
      rw [hnil]
      constructor
      · exact .inl (by simp [setPriority])
      · rintro x (rfl | ⟨l, hl, -⟩)
        · simp [setPriority]
        · cases hl
    · intro l hl
      have hl' : l ∈ σ.lockList c := hl
      rw [hnil] at hl'
      cases hl'
    · simp [setPriority]
  · obtain ⟨hgr, hfall⟩ := hk k hmem hmax
    have hval : (if σ.instrinsicPriority c < σ.maxPriority k then σ.maxPriority k
        else σ.priority c) = max (σ.instrinsicPriority c) (σ.maxPriority k) := by
      split
      · next hlt => exact (max_eq_right hlt.le).symm
      · next hle => rw [hfall (by omega), max_eq_left (by omega)]
    rw [e, hval]
    have hself : (σ.setPriority c (max (σ.instrinsicPriority c) (σ.maxPriority k))).priority c
        = max (σ.instrinsicPriority c) (σ.maxPriority k) := by simp [setPriority]
    refine hset _ ⟨?_, ?_, ?_, hmin⟩
    · rw [waitingFor_setPriority hc, hself]
      exact hgr
    · intro l hl
      rw [hself]
      exact (hmax l hl).trans (le_max_right _ _)
    · intro hlt
      rw [hself] at hlt ⊢
      refine ⟨k, hmem, ?_⟩
      have hlt' : σ.instrinsicPriority c < max (σ.instrinsicPriority c) (σ.maxPriority k) := hlt
      show σ.maxPriority k = _
      omega

theorem maxPriorityOf_cases (σ : Kernel) (ts : List Tid) :
    (ts = [] ∧ σ.maxPriorityOf ts = priMin) ∨ ∃ w ∈ ts, σ.maxPriorityOf ts = σ.priority w ∧
      ∀ v ∈ ts, σ.priority v ≤ σ.priority w := by
  unfold maxPriorityOf
  cases hm : listMax σ.priority ts with
  | none => exact .inl ⟨listMax_eq_none.mp hm, rfl⟩
  | some w =>
    exact .inr ⟨w, listMax_mem hm, rfl, fun v hv => le_of_listMax hv hm⟩

/-- If a new holder of `l` runs at a donated priority, another lock of it
remembers that priority, or a waiter of `l` has it. -/
def FlushOk (σ : Kernel) (l : LockId) : Prop :=
  ∀ h, σ.holder l = some h → σ.instrinsicPriority h < σ.priority h →
    (∃ j ∈ σ.lockList h, j ≠ l ∧ σ.maxPriority j = σ.priority h) ∨
    ∃ w ∈ σ.waiters (.lock l), σ.priority w = σ.priority h

theorem flushLockPriority_donation (hh : LockHeld σ) (h : Donation σ)
    (hwait : ∀ w ∈ σ.waiters (.lock l), σ.waitingLock w = some l) (hf : FlushOk σ l) :
    Donation (σ.flushLockPriority l) := by
  have hother : ∀ j, j ≠ l → (σ.flushLockPriority l).maxPriority j = σ.maxPriority j :=
    fun j hj => by simp [flushLockPriority, setMaxPriority, hj]
  have hself : (σ.flushLockPriority l).maxPriority l =
      σ.maxPriorityOf (σ.waiters (.lock l)) := by
    simp [flushLockPriority, setMaxPriority]
  -- the new value does not exceed the priority of a holder
  have hle : ∀ t, l ∈ σ.lockList t →
      σ.maxPriorityOf (σ.waiters (.lock l)) ≤ σ.priority t := by
    intro t hl
    rcases maxPriorityOf_cases σ (σ.waiters (.lock l)) with ⟨-, e⟩ | ⟨w, hw, e, -⟩
    · rw [e]
      exact (h.priMin_le t).trans (h.own_le t)
    · rw [e]
      exact (h.exact t).2 (.inr ⟨l, hl, w, hwait w hw, rfl⟩)
  refine ⟨h.exact, h.own_le, ?_, ?_, h.priMin_le⟩
  · intro t j hj
    by_cases e : j = l
    · rw [e, hself]
      exact hle t (e ▸ hj)
    · rw [hother j e]
      exact h.max_le t j hj
  · intro t hlt
    by_cases hl : l ∈ σ.lockList t
    · rcases hf t ((hh.holder_iff l t).mpr hl) hlt with ⟨j, hj, hne, e⟩ | ⟨w, hw, e⟩
      · exact ⟨j, hj, (hother j hne).trans e⟩
      · refine ⟨l, hl, ?_⟩
        rw [hself]
        refine le_antisymm (hle t hl) ?_
        rcases maxPriorityOf_cases σ (σ.waiters (.lock l)) with ⟨hnil, -⟩ | ⟨v, -, hv, hmax⟩
        · rw [hnil] at hw
          cases hw
        · rw [hv]
          show σ.priority t ≤ _
          rw [← e]
          exact hmax w hw
    · obtain ⟨j, hj, e⟩ := h.max_eq t hlt
      exact ⟨j, hj, (hother j (fun e => hl (e ▸ hj))).trans e⟩

theorem initThread_donation {q : ℤ} (h : Donation σ) (hl : σ.lockList t = [])
    (hw : σ.waitingLock t = none) (hq : priMin ≤ q) : Donation (σ.initThread t q) := by
  have hlist : (σ.initThread t q).lockList = σ.lockList := by
    simp only [initThread]
    rw [← hl, update_eq_self]
  have hwait : (σ.initThread t q).waitingLock = σ.waitingLock := by
    simp only [initThread]
    rw [← hw, update_eq_self]
  have hset : ∀ ls, (σ.initThread t q).waitingFor ls = σ.waitingFor ls := by
    intro ls
    rw [← waitingFor_setPriority hw q ls]
    unfold waitingFor
    rw [hwait]
    rfl
  refine donation_of_at fun u => ?_
  have hu := h.at u
  by_cases e : u = t
  · subst e
    have hp : (σ.initThread u q).priority u = q := by simp [initThread]
    have hi : (σ.initThread u q).instrinsicPriority u = q := by simp [initThread]
    refine ⟨?_, ?_, ?_, hi.symm ▸ hq⟩
    · rw [hp, hi, hset, hlist, hl]
      constructor
      · exact .inl rfl
      · rintro x (rfl | ⟨l, hl, -⟩)
        · exact le_rfl
        · cases hl
    · rw [hlist, hl]
      simp
    · rw [hp, hi]
      exact fun hlt => absurd hlt (lt_irrefl q)
  · have hp : (σ.initThread t q).priority u = σ.priority u := by simp [initThread, e]
    have hi : (σ.initThread t q).instrinsicPriority u = σ.instrinsicPriority u := by
      simp [initThread, e]
    refine ⟨?_, ?_, ?_, hi.symm ▸ hu.priMin_le⟩
    · rw [hp, hi, hset, hlist]
      exact hu.exact
    · rw [hp, hlist]
      exact hu.max_le
    · rw [hp, hi, hlist]
      exact hu.max_eq

/-- The step keeps what the locks remember up to date. -/
def UpToDate (σ : Kernel) : Act → Prop
  | .exec _ =>
    match (σ.code σ.current).head? with
    | some (.call (.lockAcquire l)) => σ.value (.lock l) ≠ 0 → TakeOk σ σ.current l
    | some (.lockAcquire l) => σ.value (.lock l) ≠ 0 → TakeOk σ σ.current l
    | some (.call (.lockTryAcquire l)) => σ.value (.lock l) ≠ 0 → TakeOk σ σ.current l
    | some (.call (.lockRelease l)) =>
      KeepOk σ σ.current (σ.instrinsicPriority σ.current)
        ((σ.lockList σ.current).erase l)
    | some (.call (.threadSetPriority q)) =>
      priMin ≤ q ∧ KeepOk σ σ.current q (σ.lockList σ.current)
    | some (.lockRelease l) => FlushOk σ l
    | some (.call .threadExit) => σ.lockList σ.current = []
    | _ => True
  | _ => True

theorem UpToDate.exitsFree {a : Act} (h : UpToDate σ a) : ExitsFree σ a := by
  cases a with
  | exec n =>
    intro hc
    simpa only [UpToDate, hc] using h
  | _ => trivial

theorem Donating.of_same (h : Donation σ) (s : SameLocks σ σ') : Donation σ' :=
  donation_of_at fun t => (h.at t).of_eq s.priority s.waitingLock s.maxPriority
    (by rw [s.instrinsicPriority]) (by rw [s.lockList])

theorem waitingLock_of_mem_waiters (hi : LockInv σ) (hw : w ∈ σ.waiters (.lock l)) :
    σ.waitingLock w = some l := by
  have hwait := (hi.placed.waiting _ w hw).2
  have hraw := hi.rawFree w
  rw [hi.waitingOk w]
  cases hc : σ.code w with
  | nil =>
    rw [hc] at hwait
    cases hwait
  | cons f fs =>
    rw [hc] at hwait hraw
    cases f with
    | semaDown r =>
      obtain rfl : r = .lock l := by simpa [waitsOn] using hwait
      have := hraw (.semaDown (.lock l)) (by simp)
      cases this
    | lockAcquire k =>
      obtain rfl : k = l := by simpa [waitsOn] using hwait
      rfl
    | _ => cases hwait

theorem flushPriority_free (hw : σ.waitingLock t = some l) (hl : σ.holder l = none)
    (hf : flushPriority n σ t = some σ') :
    σ' = σ.setMaxPriority l (max (σ.priority t) (σ.maxPriority l)) := by
  cases n with
  | zero => cases hf
  | succ n =>
    simp only [flushPriority, hw, hl] at hf
    split at hf
    · next hlt =>
        cases hf
        rw [max_eq_left hlt.le]
    · next hge =>
        cases hf
        rw [max_eq_right (by omega)]
        simp [setMaxPriority]

section

variable (hv : LockValue σ) (hh : LockHeld σ) (h : Donation σ)

include hv hh h

theorem lockAcquireLoop_donation (hc : σ.waitingLock σ.current = some l)
    (ht : σ.value (.lock l) ≠ 0 → TakeOk σ σ.current l) : Donation (σ.lockAcquireLoop l) := by
  by_cases h0 : σ.value (.lock l) = 0
  · rcases lockAcquireLoop_eq l with ⟨-, st, rl, c, -, e⟩ | ⟨hne, -⟩
    · rw [e]
      exact ⟨h.exact, h.own_le, h.max_le, h.max_eq, h.priMin_le⟩
    · exact absurd h0 hne
  · have hset : Donation (σ.setValue (.lock l) (σ.value (.lock l) - 1)) :=
      ⟨h.exact, h.own_le, h.max_le, h.max_eq, h.priMin_le⟩
    have hfree := hv.holder_of_value h0
    unfold lockAcquireLoop
    rw [if_neg h0, takeLock_raise hset]
    refine donation_take hh h hfree ?_ (ht h0) rfl rfl rfl rfl rfl
    intro k hk
    rw [hc] at hk
    exact (Option.some.inj hk).symm

theorem lockAcquire_donation (hc : σ.waitingLock σ.current = none)
    (ht : σ.value (.lock l) ≠ 0 → TakeOk σ σ.current l) (ha : lockAcquire n σ l = some σ') :
    Donation σ' := by
  unfold lockAcquire at ha
  split at ha
  · cases ha
  obtain ⟨σ₁, h1, rfl⟩ := Option.map_eq_some_iff.mp ha
  have hh' : LockHeld (σ.setWaitingLock σ.current (some l)) :=
    ⟨hh.holder_iff, hh.nodup, hh.dead_free⟩
  have hd : Donation σ₁ := flushPriority_donation hh' (donating_wait hh h hc) h1
  obtain ⟨p, m, -, rfl⟩ := flushPriority_eq h1
  refine lockAcquireLoop_donation ⟨hv.value_le, hv.value_one_iff⟩
    ⟨hh.holder_iff, hh.nodup, hh.dead_free⟩ hd (update_self _ _ _) ?_
  intro h0
  have hst := flushPriority_free (σ := σ.setWaitingLock σ.current (some l))
    (by simp [setWaitingLock]) (hv.holder_of_value h0) h1
  have hp : p = σ.priority := congrArg priority hst
  have hm : m = update σ.maxPriority l
      (max (σ.priority σ.current) (σ.maxPriority l)) := congrArg maxPriority hst
  obtain ⟨hmem, hub⟩ := ht h0
  subst hp hm
  unfold TakeOk
  simp only [setWaitingLock, update_self, le_max_left, max_eq_right]
  constructor
  · rcases hmem with hmem | ⟨w, hne, hw, e⟩
    · exact .inl hmem
    · exact .inr ⟨w, hne, by simpa [hne] using hw, e⟩
  · rintro x (rfl | ⟨w, hne, hw, rfl⟩)
    · exact le_max_left _ _
    · exact hub (.inr ⟨w, hne, by simpa [hne] using hw, rfl⟩)

theorem lockTryAcquire_donation (hc : σ.waitingLock σ.current = none)
    (ht : σ.value (.lock l) ≠ 0 → TakeOk σ σ.current l) (ha : σ.lockTryAcquire l = some σ') :
    Donation σ' := by
  by_cases h0 : σ.value (.lock l) = 0
  · rcases lockTryAcquire_eq ha with ⟨-, ⟨-, rfl⟩ | ⟨hne, -⟩⟩
    · exact h
    · exact absurd h0 hne
  · have hset : Donation (σ.setValue (.lock l) (σ.value (.lock l) - 1)) :=
      ⟨h.exact, h.own_le, h.max_le, h.max_eq, h.priMin_le⟩
    unfold lockTryAcquire at ha
    split at ha
    · cases ha
    simp only [semaTryDown, Nat.pos_of_ne_zero h0, if_true] at ha
    rw [takeLock_raise hset] at ha
    cases ha
    refine donation_take hh h (hv.holder_of_value h0) ?_ (ht h0) rfl rfl rfl ?_ rfl
    · intro k hk
      rw [hc] at hk
      cases hk
    · show σ.waitingLock = update σ.waitingLock σ.current none
      rw [← hc, update_eq_self]

end

theorem lockRelease_donation (h : Donation σ) (hc : σ.waitingLock σ.current = none)
    (hk : KeepOk σ σ.current (σ.instrinsicPriority σ.current) ((σ.lockList σ.current).erase l))
    (hr : σ.lockRelease l = some σ') : Donation σ' := by
  have hd : Donation (σ.dropLock l) := by
    refine adjustPriority_donation (σ := { σ with
      holder := update σ.holder l none
      lockList := update σ.lockList σ.current
        ((σ.lockList σ.current).erase l) }) hc ?_ (h.priMin_le _) ?_
    · intro u hu
      exact (h.at u).of_eq rfl rfl rfl rfl (update_of_ne hu _ _)
    · show KeepOk σ σ.current _ (update σ.lockList σ.current _ σ.current)
      rw [update_self]
      exact hk
  unfold lockRelease at hr
  split at hr
  · obtain ⟨σ₁, h1, rfl⟩ := Option.map_eq_some_iff.mp hr
    obtain ⟨st, ws, rl, -, rfl⟩ := semaUpWake_eq h1
    obtain ⟨st', rl', c, k, -, e⟩ := threadYield_eq (pushCode _ [.lockRelease l])
    rw [e]
    exact ⟨hd.exact, hd.own_le, hd.max_le, hd.max_eq, hd.priMin_le⟩
  · cases hr

theorem threadSetPriority_donation {q : ℤ} (h : Donation σ) (hc : σ.waitingLock σ.current = none)
    (hq : priMin ≤ q) (hk : KeepOk σ σ.current q (σ.lockList σ.current)) :
    Donation (σ.threadSetPriority q) := by
  have hd : Donation (adjustPriority { σ with
      instrinsicPriority := update σ.instrinsicPriority σ.current q }
      σ.current) := by
    refine adjustPriority_donation hc ?_ ?_ ?_
    · intro u hu
      exact (h.at u).of_eq rfl rfl rfl (update_of_ne hu _ _) rfl
    · simpa using hq
    · show KeepOk σ σ.current (update σ.instrinsicPriority σ.current q σ.current) _
      rw [update_self]
      exact hk
  exact ⟨hd.exact, hd.own_le, hd.max_le, hd.max_eq, hd.priMin_le⟩

theorem lockOp_donation {f : Frame} {fs : List Frame} (hi : LockInv σ) (hh : LockHeld σ)
    (h : Donation σ) (hc : σ.code σ.current = f :: fs) (hf : f.lockOp = true)
    (hu : UpToDate σ (.exec n)) (he : execFrame n (σ.setCode σ.current fs) f = some σ') :
    Donation σ' := by
  have hsame := setCode_sameLocks (σ := σ) σ.current fs
  have hv := hi.lockValue.of_same hsame
  have hh' := hh.of_same hsame
  have h' := h.of_same hsame
  have hwait : (σ.setCode σ.current fs).waitingLock σ.current = acquiring (f :: fs) := by
    rw [← hc]
    exact hi.waitingOk σ.current
  simp only [UpToDate, hc, head?_cons] at hu
  cases f with
  | call op =>
    cases op with
    | lockAcquire l => exact lockAcquire_donation hv hh' h' hwait hu he
    | lockTryAcquire l => exact lockTryAcquire_donation hv hh' h' hwait hu he
    | lockRelease l => exact lockRelease_donation h' hwait hu he
    | threadSetPriority q =>
      cases he
      exact threadSetPriority_donation h' hwait hu.1 hu.2
    | threadCreate t q =>
      obtain ⟨ht, hq, -, rfl⟩ := threadCreate_eq he
      have hnone : σ.waitingLock t = none := by
        rw [hi.waitingOk t, code_of_not_mem hi.placed ht]
        rfl
      have hd := initThread_donation h' (hh.dead_free t ht) hnone hq
      exact ⟨hd.exact, hd.own_le, hd.max_le, hd.max_eq, hd.priMin_le⟩
    | threadExit =>
      cases he
      obtain ⟨st, rl, c, -, e⟩ := threadExit_eq (σ.setCode σ.current fs)
      rw [e]
      exact ⟨h.exact, h.own_le, h.max_le, h.max_eq, h.priMin_le⟩
    | _ => cases hf
  | lockAcquire l =>
    cases he
    exact lockAcquireLoop_donation hv hh' h' hwait hu
  | lockRelease l =>
    cases he
    have hw : ∀ w ∈ σ.waiters (.lock l), σ.waitingLock w = some l :=
      fun w hw => waitingLock_of_mem_waiters hi hw
    have hd := flushLockPriority_donation hh' h' hw hu
    exact ⟨hd.exact, hd.own_le, hd.max_le, hd.max_eq, hd.priMin_le⟩
  | _ => cases hf

theorem step_donation {a : Act} (hi : LockInv σ) (hh : LockHeld σ) (h : Donation σ)
    (hu : UpToDate σ a) (hs : σ.step a = some σ') : Donation σ' := by
  rcases step_cases hi.rawFree hs with
    ⟨-, hsame⟩ | ⟨n, f, fs, rfl, hc, he, ⟨-, hsame⟩ | hf⟩
  · exact h.of_same hsame
  · exact h.of_same hsame
  · exact lockOp_donation hi hh h hc hf hu he

end Kernel

theorem boot_donation (b : Bool) (v : ℕ → ℕ) : Kernel.Donation (boot b v) := by
  refine donation_of_at fun t => ⟨⟨.inl rfl, ?_⟩, ?_, ?_, ?_⟩
  · rintro x (rfl | ⟨l, hl, -⟩)
    · exact le_rfl
    · cases hl
  · intro l hl
    cases hl
  · exact fun hlt => absurd hlt (lt_irrefl _)
  · simp only [boot]
    split <;> decide

/-- No operation on locks is half-way: a thread inside one of them is blocked in
`lock_acquire`. -/
def Settled (σ : Kernel) : Prop :=
  ∀ t ∈ σ.allList, ∀ l,
    (.lockAcquire l ∈ σ.code t → t ∈ σ.waiters (.lock l)) ∧ .lockRelease l ∉ σ.code t

/-- Donation is exact: the priority of every thread is the largest of its own
and those of the threads blocked in `lock_acquire` on a lock it holds. -/
def ExactDonation (σ : Kernel) : Prop :=
  ∀ t ∈ σ.allList, IsGreatest
    (insert (σ.instrinsicPriority t)
      {p | ∃ l ∈ σ.lockList t, ∃ w ∈ σ.waiters (.lock l), p = σ.priority w})
    (σ.priority t)

variable {σ : Kernel}

theorem exactDonation_of_donation (hi : LockInv σ) (h : Kernel.Donation σ) (hset : Settled σ) :
    ExactDonation σ := by
  intro t _
  have heq : σ.waitingFor (σ.lockList t) =
      {p | ∃ l ∈ σ.lockList t, ∃ w ∈ σ.waiters (.lock l), p = σ.priority w} := by
    ext p
    constructor
    · rintro ⟨l, hl, w, hw, rfl⟩
      have hcode : .lockAcquire l ∈ σ.code w := by
        rw [← acquiring_eq_some_iff hi.placed, ← hi.waitingOk w]
        exact hw
      have hmem : w ∈ σ.allList := by
        by_contra hd
        rw [code_of_not_mem hi.placed hd] at hcode
        cases hcode
      exact ⟨l, hl, w, (hset w hmem l).1 hcode, rfl⟩
    · rintro ⟨l, hl, w, hw, rfl⟩
      exact ⟨l, hl, w, waitingLock_of_mem_waiters hi hw, rfl⟩
  rw [← heq]
  exact h.exact t

/-- In every run whose steps keep what the locks remember up to date, donation
is exact in every state in which no lock operation is half-way. -/
theorem run_exactDonation {b : Bool} {v : ℕ → ℕ} {acts : List Act} {σ : Kernel}
    (hu : Run.Meets step Kernel.UpToDate (boot b v) acts)
    (hr : Run.run step (boot b v) acts = some σ) (hset : Settled σ) :
    ExactDonation σ := by
  have h : LockInv σ ∧ LockHeld σ ∧ Kernel.Donation σ := by
    refine Run.run_invariant (I := fun σ => LockInv σ ∧ LockHeld σ ∧ Kernel.Donation σ) ?_
      ⟨boot_lockInv b v, boot_lockHeld b v, boot_donation b v⟩ hu hr
    rintro σ a σ' ⟨hi, hh, hd⟩ hu hs
    exact ⟨step_lockInv hi hs, step_lockHeld hi.placed hi.rawFree hi.lockValue hh
      hu.exitsFree hs, step_donation hi hh hd hu hs⟩
  exact exactDonation_of_donation h.1 h.2.2 hset

theorem takeOk_of_no_waiter {c : Tid} {l : LockId} (hw : ∀ w, σ.waitingLock w = none)
    (hle : σ.maxPriority l ≤ σ.priority c) : σ.TakeOk c l := by
  unfold Kernel.TakeOk
  rw [max_eq_left hle]
  refine ⟨.inl rfl, ?_⟩
  rintro x (rfl | ⟨w, -, h, -⟩)
  · exact le_rfl
  · rw [hw w] at h
    cases h

theorem keepOk_of_no_waiter {c : Tid} {q : ℤ} {ls : List LockId} (hw : ∀ w, σ.waitingLock w = none)
    (hle : ∀ l ∈ ls, σ.maxPriority l ≤ q) (hq : σ.priority c = q) : σ.KeepOk c q ls := by
  intro k hk _
  rw [max_eq_left (hle k hk)]
  refine ⟨⟨.inl rfl, ?_⟩, fun _ => hq⟩
  rintro x (rfl | ⟨l, -, w, h, -⟩)
  · exact le_rfl
  · rw [hw w] at h
    cases h

def observe (σ : Kernel) :
    List Tid × List (List Frame) × List LockId × List Tid × ℤ × ℤ :=
  (σ.allList, [σ.code 0, σ.code 1, σ.code 2], σ.lockList 0, σ.waiters (.lock 5),
    σ.instrinsicPriority 0, σ.priority 0)

theorem donateOnce_meets : Run.Meets step Kernel.UpToDate (boot true fun _ => 0) donateOnce := by
  refine ⟨trivial, fun s hs => ?_⟩
  cases hs
  refine ⟨fun _ => takeOk_of_no_waiter (fun w => rfl) (by decide), fun s hs => ?_⟩
  cases hs
  refine ⟨trivial, fun s hs => ?_⟩
  cases hs
  refine ⟨trivial, fun s hs => ?_⟩
  cases hs
  refine ⟨fun _ => takeOk_of_no_waiter ?_ (by decide), fun s hs => ?_⟩
  · exact fun | 0 => rfl | 1 => rfl | 2 => rfl | _ + 3 => rfl
  cases hs
  refine ⟨trivial, fun s hs => ?_⟩
  cases hs
  refine ⟨keepOk_of_no_waiter ?_ (by decide) rfl, fun s hs => ?_⟩
  · exact fun | 0 => rfl | 1 => rfl | 2 => rfl | _ + 3 => rfl
  cases hs
  refine ⟨nofun, fun s hs => ?_⟩
  cases hs
  refine ⟨trivial, fun s hs => ?_⟩
  cases hs
  refine ⟨trivial, fun s hs => ?_⟩
  cases hs
  refine ⟨trivial, fun s hs => ?_⟩
  cases hs
  refine ⟨trivial, fun s hs => ?_⟩
  cases hs
  exact ⟨fun h => absurd rfl h, fun s hs => trivial⟩

theorem run_exactDonation_donateOnce :
    ∃ σ, Run.run step (boot true fun _ => 0) donateOnce = some σ ∧
      ExactDonation σ ∧ σ.instrinsicPriority 0 = 31 ∧ σ.priority 0 = 40 := by
  have hobs : (Run.run step (boot true fun _ => 0) donateOnce).map observe =
      some ([0, 1, 2], [[], [.idle], [.lockAcquire 5]], [5], [2], 31, 40) := rfl
  obtain ⟨σ, hr, ho⟩ := Option.map_eq_some_iff.mp hobs
  simp only [observe, Prod.mk.injEq, List.cons.injEq, and_true] at ho
  obtain ⟨hall, ⟨h0, h1, h2⟩, -, hw, hi, hp⟩ := ho
  refine ⟨σ, hr, run_exactDonation donateOnce_meets hr ?_, hi, hp⟩
  intro t ht l
  rw [hall] at ht
  simp only [mem_cons, not_mem_nil, or_false] at ht
  rcases ht with rfl | rfl | rfl
  · simp [h0]
  · simp [h1]
  · simp only [h2, mem_singleton, Frame.lockAcquire.injEq, reduceCtorEq,
      not_false_eq_true, and_true]
    rintro rfl
    simp [hw]

/-- The initial thread takes a lock nobody waits for and lowers its own priority
while it holds it. -/
def setWhileHolding : List Act :=
  [.call (.lockAcquire 5), .exec 1, .call (.threadSetPriority 20), .exec 1, .exec 1]

/-- `thread_set_priority (20)` leaves the priority at 31: the lock remembers the
priority with which it was taken. -/
theorem setPriority_keeps_old :
    ∃ σ, Run.run step (boot true fun _ => 0) setWhileHolding = some σ ∧
      Settled σ ∧ ¬ ExactDonation σ := by
  have hobs : (Run.run step (boot true fun _ => 0) setWhileHolding).map observe =
      some ([0, 1], [[], [.idle], []], [5], [], 20, 31) := rfl
  obtain ⟨σ, hr, ho⟩ := Option.map_eq_some_iff.mp hobs
  simp only [observe, Prod.mk.injEq, List.cons.injEq, and_true] at ho
  obtain ⟨hall, ⟨h0, h1, -⟩, hl, hw, hi, hp⟩ := ho
  refine ⟨σ, hr, ?_, ?_⟩
  · intro t ht l
    rw [hall] at ht
    simp only [mem_cons, not_mem_nil, or_false] at ht
    rcases ht with rfl | rfl
    · simp [h0]
    · simp [h1]
  · intro h
    have h0' := (h 0 (by simp [hall])).1
    simp [hi, hp, hl, hw] at h0'

end CS162.Threads
