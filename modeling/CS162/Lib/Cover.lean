import Mathlib

/-!
# Items that cover what is marked

`has r i` says that the item `r` contains the point `i`, and `Covers has marked items` that
no two items share a point and that the points of the items are the marked ones.  An allocator
that hands out unmarked points and takes back whole items keeps this.
-/

namespace CS162

open List

variable {ρ ι : Type*} {has : ρ → ι → Prop} {marked marked' : ι → Prop} {items : List ρ} {r : ρ}

/-- The items are apart and their points are those that are marked. -/
structure Covers (has : ρ → ι → Prop) (marked : ι → Prop) (items : List ρ) : Prop where
  apart : items.Pairwise fun r r' => ∀ i, has r i → ¬ has r' i
  marked_iff : ∀ i, marked i ↔ ∃ r ∈ items, has r i

theorem eq_of_has {i : ι} {r' : ρ} (h : items.Pairwise fun r r' => ∀ i, has r i → ¬ has r' i)
    (hr : r ∈ items) (hr' : r' ∈ items) (hi : has r i) (hi' : has r' i) : r = r' := by
  by_contra hne
  have : Std.Symm fun r r' => ∀ i, has r i → ¬ has r' i := ⟨fun _ _ hd i hi hi' => hd i hi' hi⟩
  exact h.forall hr hr' hne i hi hi'

namespace Covers

theorem nil (h : ∀ i, ¬ marked i) : Covers has marked [] where
  apart := List.Pairwise.nil
  marked_iff i := by
    simp only [not_mem_nil, false_and, exists_false, iff_false]
    exact h i

theorem cons (h : Covers has marked items) (hfree : ∀ i, has r i → ¬ marked i)
    (hmarked : ∀ i, marked' i ↔ has r i ∨ marked i) : Covers has marked' (r :: items) where
  apart := by
    refine pairwise_cons.mpr ⟨fun r' hr' i hi hi' => hfree i hi ?_, h.apart⟩
    exact (h.marked_iff i).mpr ⟨r', hr', hi'⟩
  marked_iff i := by
    rw [hmarked, h.marked_iff, exists_mem_cons_iff]

theorem erase [DecidableEq ρ] (h : Covers has marked items) (hr : r ∈ items)
    (hmarked : ∀ i, marked' i ↔ marked i ∧ ¬ has r i) : Covers has marked' (items.erase r) := by
  have hsymm : ∀ {r r' : ρ}, (∀ i, has r i → ¬ has r' i) → ∀ i, has r' i → ¬ has r i :=
    fun hd i hi hi' => hd i hi' hi
  have hperm := perm_cons_erase hr
  have hsplit := pairwise_cons.mp (hperm.pairwise h.apart hsymm)
  refine ⟨hsplit.2, fun i => ?_⟩
  have hold : (∃ r' ∈ items, has r' i) ↔ has r i ∨ ∃ r' ∈ items.erase r, has r' i :=
    (exists_congr fun r' => and_congr_left fun _ => hperm.mem_iff).trans (exists_mem_cons_iff ..)
  rw [hmarked, h.marked_iff, hold]
  constructor
  · rintro ⟨hi | hi, hnot⟩
    · exact absurd hi hnot
    · exact hi
  · rintro ⟨r', hr', hi⟩
    exact ⟨.inr ⟨r', hr', hi⟩, fun hi' => hsplit.1 r' hr' i hi' hi⟩

end Covers

end CS162
