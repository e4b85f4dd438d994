import Mathlib

/-!
# Finite maps in a table of slots

A table has slots that are free or hold a key with its value.  `Denotes m t f` says that the
first `m` slots of the table `t` hold the finite map `f`, and every key once.
-/

namespace CS162.Slots

open Function


section

variable {α β : Type*} [DecidableEq α] {f : α → Option β} {a x y : α} {b c : β}

theorem of_update_some (h : update f a (some b) x = some c) :
    x = a ∧ b = c ∨ x ≠ a ∧ f x = some c := by
  by_cases hx : x = a
  · rw [hx, update_self] at h
    exact .inl ⟨hx, Option.some.inj h⟩
  · rw [update_of_ne hx] at h
    exact .inr ⟨hx, h⟩

theorem of_update_none (h : update f a none x = some c) : x ≠ a ∧ f x = some c := by
  by_cases hx : x = a
  · rw [hx, update_self] at h
    cases h
  · rw [update_of_ne hx] at h
    exact ⟨hx, h⟩

theorem update_inj (hf : ∀ x y c, f x = some c → f y = some c → x = y) (hb : ∀ x, f x ≠ some b)
    (hx : update f a (some b) x = some c) (hy : update f a (some b) y = some c) : x = y := by
  rcases of_update_some hx with ⟨rfl, rfl⟩ | ⟨-, hx⟩
  · rcases of_update_some hy with ⟨rfl, -⟩ | ⟨-, hy⟩
    · rfl
    · exact absurd hy (hb y)
  · rcases of_update_some hy with ⟨-, rfl⟩ | ⟨-, hy⟩
    · exact absurd hx (hb x)
    · exact hf x y c hx hy

end

variable {K V : Type*} {m i : ℕ} {t t' : ℕ → Option (K × V)} {f : K → Option V} {k : K} {v : V}

/-- The first `m` slots of `t` hold the map `f`, every key in one slot. -/
structure Denotes (m : ℕ) (t : ℕ → Option (K × V)) (f : K → Option V) : Prop where
  inj : ∀ i j k v w, i < m → j < m → t i = some (k, v) → t j = some (k, w) → i = j
  eq_some_iff : ∀ k v, f k = some v ↔ ∃ i < m, t i = some (k, v)

theorem Denotes.eq_none_iff (h : Denotes m t f) : f k = none ↔ ∀ i < m, ∀ v, t i ≠ some (k, v) := by
  rw [Option.eq_none_iff_forall_ne_some]
  constructor
  · intro hne i hi v hv
    exact hne v ((h.eq_some_iff k v).mpr ⟨i, hi, hv⟩)
  · intro hne v hv
    obtain ⟨i, hi, hiv⟩ := (h.eq_some_iff k v).mp hv
    exact hne i hi v hiv

theorem denotes_empty (h : ∀ i < m, t i = none) : Denotes m t fun _ => none where
  inj i j k v w hi _ hk := by
    rw [h i hi] at hk
    cases hk
  eq_some_iff k v := by
    refine ⟨nofun, ?_⟩
    rintro ⟨i, hi, hk⟩
    rw [h i hi] at hk
    cases hk

theorem Denotes.congr (h : Denotes m t f) (ht : ∀ i < m, t' i = t i) : Denotes m t' f where
  inj i j k v w hi hj := by
    rw [ht i hi, ht j hj]
    exact h.inj i j k v w hi hj
  eq_some_iff k v := by
    rw [h.eq_some_iff]
    exact exists_congr fun i => and_congr_right fun hi => by rw [ht i hi]

section

variable [DecidableEq K]

theorem Denotes.insert (h : Denotes m t f) (hi : i < m) (hfree : t i = none) (hk : f k = none) :
    Denotes m (update t i (some (k, v))) (update f k (some v)) := by
  have habsent := h.eq_none_iff.mp hk
  constructor
  · intro j j' k' w w' hj hj' hw hw'
    rcases of_update_some hw with ⟨rfl, heq⟩ | ⟨-, hw⟩
    · cases heq
      rcases of_update_some hw' with ⟨rfl, -⟩ | ⟨-, hw'⟩
      · rfl
      · exact absurd hw' (habsent j' hj' w')
    · rcases of_update_some hw' with ⟨-, heq⟩ | ⟨-, hw'⟩
      · cases heq
        exact absurd hw (habsent j hj w)
      · exact h.inj j j' k' w w' hj hj' hw hw'
  · intro k' w
    by_cases hk' : k' = k
    · subst hk'
      rw [update_self]
      constructor
      · rintro ⟨rfl⟩
        exact ⟨i, hi, update_self ..⟩
      · rintro ⟨j, hj, hw⟩
        rcases of_update_some hw with ⟨-, heq⟩ | ⟨-, hw⟩
        · cases heq
          rfl
        · exact absurd hw (habsent j hj w)
    · rw [update_of_ne hk', h.eq_some_iff]
      refine exists_congr fun j => and_congr_right fun _ => ?_
      by_cases hji : j = i
      · rw [hji, hfree, update_self]
        refine ⟨nofun, fun hw => ?_⟩
        cases hw
        exact absurd rfl hk'
      · rw [update_of_ne hji]

theorem Denotes.erase (h : Denotes m t f) (hi : i < m) (hk : t i = some (k, v)) :
    Denotes m (update t i none) (update f k none) := by
  constructor
  · intro j j' k' w w' hj hj' hw hw'
    exact h.inj j j' k' w w' hj hj' (of_update_none hw).2 (of_update_none hw').2
  · intro k' w
    by_cases hk' : k' = k
    · subst hk'
      rw [update_self]
      refine ⟨nofun, ?_⟩
      rintro ⟨j, hj, hw⟩
      obtain ⟨hji, hw⟩ := of_update_none hw
      exact absurd (h.inj j i k' w v hj hi hw hk) hji
    · rw [update_of_ne hk', h.eq_some_iff]
      refine exists_congr fun j => and_congr_right fun _ =>
        ⟨fun hw => ?_, fun hw => (of_update_none hw).2⟩
      have hji : j ≠ i := by
        rintro rfl
        rw [hk] at hw
        cases hw
        exact hk' rfl
      rw [update_of_ne hji]
      exact hw

end

end CS162.Slots
