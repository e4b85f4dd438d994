import Mathlib

/-!
# Splitting a list

A list whose elements are marked as separators or not is split into its pieces: the maximal runs
of elements that are not separators.
-/

namespace CS162.Split

open List

variable {α : Type*}

/-- The pieces of a list of marked elements; `piece` is what the current piece has so far. -/
def loop : List (α × Bool) → List α → List (List α)
  | [], piece => if piece.isEmpty then [] else [piece]
  | (a, sep) :: rest, piece =>
    if sep then
      if piece.isEmpty then loop rest [] else piece :: loop rest []
    else loop rest (piece ++ [a])

/-- The pieces between the elements that satisfy `p`. -/
def split (p : α → Bool) (l : List α) : List (List α) :=
  loop (l.map fun a => (a, p a)) []

section Loop

variable {xs ys : List (α × Bool)} {piece l : List α} {a : α}

theorem loop_append_sep (xs ys : List (α × Bool)) (a : α) (piece : List α) :
    loop (xs ++ (a, true) :: ys) piece = loop xs piece ++ loop ys [] := by
  induction xs generalizing piece with
  | nil =>
    simp only [nil_append, loop, if_true]
    split <;> rfl
  | cons x xs ih =>
    obtain ⟨b, sep⟩ := x
    simp only [cons_append, loop, ih]
    split_ifs <;> rfl

theorem loop_of_forall (h : ∀ x ∈ xs, x.2 = false) (piece : List α) :
    loop xs piece =
      if (piece ++ xs.map Prod.fst).isEmpty then [] else [piece ++ xs.map Prod.fst] := by
  induction xs generalizing piece with
  | nil => simp [loop]
  | cons x xs ih =>
    obtain ⟨a, sep⟩ := x
    obtain rfl : sep = false := h _ (mem_cons_self ..)
    rw [loop, if_neg Bool.false_ne_true, ih fun x hx => h x (mem_cons_of_mem _ hx)]
    simp

theorem mem_of_mem_loop (hl : l ∈ loop xs piece) (ha : a ∈ l) : a ∈ piece ∨ (a, false) ∈ xs := by
  induction xs generalizing piece with
  | nil =>
    rw [loop] at hl
    split at hl
    · exact absurd hl not_mem_nil
    · exact Or.inl (mem_singleton.mp hl ▸ ha)
  | cons x xs ih =>
    obtain ⟨b, sep⟩ := x
    rw [loop] at hl
    split_ifs at hl with hsep
    · exact Or.inr (mem_cons_of_mem _ ((ih hl).resolve_left not_mem_nil))
    · rcases mem_cons.mp hl with rfl | hl
      · exact Or.inl ha
      · exact Or.inr (mem_cons_of_mem _ ((ih hl).resolve_left not_mem_nil))
    · rcases ih hl with hmem | hmem
      · rcases mem_append.mp hmem with hmem | hmem
        · exact Or.inl hmem
        · rw [Bool.not_eq_true] at hsep
          rw [mem_singleton.mp hmem, hsep]
          exact Or.inr (mem_cons_self ..)
      · exact Or.inr (mem_cons_of_mem _ hmem)

theorem ne_nil_of_mem_loop (hl : l ∈ loop xs piece) : l ≠ [] := by
  induction xs generalizing piece with
  | nil =>
    rw [loop] at hl
    split at hl
    · exact absurd hl not_mem_nil
    · next hne =>
        rw [mem_singleton.mp hl]
        exact fun heq => hne (List.isEmpty_iff.mpr heq)
  | cons x xs ih =>
    obtain ⟨b, sep⟩ := x
    rw [loop] at hl
    split_ifs at hl with hsep hne
    · exact ih hl
    · rcases mem_cons.mp hl with rfl | hl
      · exact fun heq => hne (List.isEmpty_iff.mpr heq)
      · exact ih hl
    · exact ih hl

theorem loop_length (xs : List (α × Bool)) (piece : List α) :
    (loop xs piece).flatten.length + xs.countP Prod.snd = piece.length + xs.length := by
  induction xs generalizing piece with
  | nil =>
    rw [loop]
    split
    · next h => simp [List.isEmpty_iff.mp h]
    · simp
  | cons x xs ih =>
    obtain ⟨b, sep⟩ := x
    cases sep with
    | true =>
      have hrest := ih []
      rw [loop, if_pos rfl, countP_cons_of_pos rfl, length_cons]
      rw [length_nil] at hrest
      split
      · next h =>
          rw [List.isEmpty_iff.mp h, length_nil]
          omega
      · rw [flatten_cons, length_append]
        omega
    | false =>
      have hrest := ih (piece ++ [b])
      rw [loop, if_neg Bool.false_ne_true, countP_cons_of_neg (by simp), length_cons]
      rw [length_append, length_singleton] at hrest
      omega

end Loop

section Split

variable {p : α → Bool} {l l' piece : List α} {a : α}

theorem split_append_sep (ha : p a) (l l' : List α) :
    split p (l ++ a :: l') = split p l ++ split p l' := by
  unfold split
  rw [map_append, map_cons, ha]
  exact loop_append_sep ..

theorem split_cons_sep (ha : p a) (l : List α) : split p (a :: l) = split p l :=
  split_append_sep ha [] l

theorem split_of_forall (hne : l ≠ []) (h : ∀ a ∈ l, p a = false) : split p l = [l] := by
  have hfalse : ∀ x ∈ l.map fun a => (a, p a), x.2 = false := by
    rintro x hx
    obtain ⟨b, hb, rfl⟩ := List.mem_map.mp hx
    exact h b hb
  rw [split, loop_of_forall hfalse]
  simp [Function.comp_def, hne]

theorem not_of_mem_split (hpiece : piece ∈ split p l) (ha : a ∈ piece) : p a = false := by
  have hmem := (mem_of_mem_loop hpiece ha).resolve_left not_mem_nil
  obtain ⟨b, -, heq⟩ := List.mem_map.mp hmem
  obtain ⟨rfl, hb⟩ := Prod.mk.inj heq
  exact hb

end Split

end CS162.Split
