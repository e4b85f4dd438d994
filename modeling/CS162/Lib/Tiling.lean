import Mathlib

/-!
# Pieces laid end to end

`Tiles lo hi a b l` says that the pieces of the list `l`, each from `lo t` to `hi t`, follow one
another from `a` to `b` without a gap.
-/

namespace CS162

open List

variable {α : Type*} {lo hi : α → ℕ} {a b c : ℕ} {l l' : List α} {t u : α}

/-- The pieces of the list fill the place from `a` to `b`. -/
def Tiles (lo hi : α → ℕ) : ℕ → ℕ → List α → Prop
  | a, b, [] => a = b
  | a, b, t :: l => lo t = a ∧ lo t < hi t ∧ Tiles lo hi (hi t) b l

theorem tiles_append : Tiles lo hi a c (l ++ l') ↔ ∃ b, Tiles lo hi a b l ∧ Tiles lo hi b c l' := by
  induction l generalizing a with
  | nil =>
    constructor
    · intro h
      exact ⟨a, rfl, h⟩
    · rintro ⟨b, rfl, h⟩
      exact h
  | cons t l ih =>
    constructor
    · rintro ⟨hlo, hlt, h⟩
      obtain ⟨b, hl, hl'⟩ := ih.mp h
      exact ⟨b, ⟨hlo, hlt, hl⟩, hl'⟩
    · rintro ⟨b, ⟨hlo, hlt, hl⟩, hl'⟩
      exact ⟨hlo, hlt, ih.mpr ⟨b, hl, hl'⟩⟩

namespace Tiles

theorem le (h : Tiles lo hi a b l) : a ≤ b := by
  induction l generalizing a with
  | nil => exact Nat.le_of_eq h
  | cons t l ih =>
    obtain ⟨hlo, hlt, h⟩ := h
    have := ih h
    omega

theorem mem_le (h : Tiles lo hi a b l) (ht : t ∈ l) : a ≤ lo t ∧ lo t < hi t ∧ hi t ≤ b := by
  induction l generalizing a with
  | nil => cases ht
  | cons u l ih =>
    obtain ⟨hlo, hlt, h⟩ := h
    rcases mem_cons.mp ht with rfl | ht
    · exact ⟨Nat.le_of_eq hlo.symm, hlt, h.le⟩
    · have := ih h ht
      omega

theorem split (h : Tiles lo hi a b l) (ht : t ∈ l) :
    ∃ A B, l = A ++ t :: B ∧ Tiles lo hi a (lo t) A ∧ Tiles lo hi (hi t) b B := by
  obtain ⟨A, B, rfl⟩ := append_of_mem ht
  obtain ⟨c, hA, hlo, -, hB⟩ := tiles_append.mp h
  subst hlo
  exact ⟨A, B, rfl, hA, hB⟩

theorem apart (h : Tiles lo hi a b l) (ht : t ∈ l) (hu : u ∈ l) :
    t = u ∨ hi t ≤ lo u ∨ hi u ≤ lo t := by
  obtain ⟨A, B, rfl, hA, hB⟩ := h.split ht
  rcases mem_append.mp hu with hu | hu
  · exact .inr (.inr (hA.mem_le hu).2.2)
  · rcases mem_cons.mp hu with rfl | hu
    · exact .inl rfl
    · exact .inr (.inl (hB.mem_le hu).1)

theorem eq_of_lo_eq (h : Tiles lo hi a b l) (ht : t ∈ l) (hu : u ∈ l) (heq : lo t = lo u) :
    t = u := by
  have htl := (h.mem_le ht).2.1
  have hul := (h.mem_le hu).2.1
  rcases h.apart ht hu with htu | hle | hle
  · exact htu
  · omega
  · omega

theorem exists_head (h : Tiles lo hi a b l) (hlt : a < b) :
    ∃ t l', l = t :: l' ∧ lo t = a ∧ Tiles lo hi (hi t) b l' := by
  cases l with
  | nil => exact absurd h (Nat.ne_of_lt hlt)
  | cons t l => exact ⟨t, l, rfl, h.1, h.2.2⟩

theorem exists_last (h : Tiles lo hi a b l) (hlt : a < b) :
    ∃ l' t, l = l' ++ [t] ∧ Tiles lo hi a (lo t) l' ∧ hi t = b := by
  rcases eq_nil_or_concat l with rfl | ⟨l', t, rfl⟩
  · exact absurd h (Nat.ne_of_lt hlt)
  · rw [concat_eq_append] at h ⊢
    obtain ⟨c, hl', hlo, -, hend⟩ := tiles_append.mp h
    subst hlo
    exact ⟨l', t, rfl, hl', hend⟩

end Tiles

end CS162
