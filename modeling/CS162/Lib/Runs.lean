import Mathlib

/-!
# The runs of a list

A natural merge sort merges adjacent ascending runs. `runs r l` is the number of runs of `l`;
`afterRun r x l` is what is left of `x :: l` after the first one. A list with at most one run is
in order, and joining two lists adds no run.
-/

namespace CS162

open List

variable {α : Type*} (r : α → α → Bool)

/-- The number of runs of a list. -/
def runs : List α → ℕ
  | [] => 0
  | [_] => 1
  | x :: y :: l => (if r x y then 0 else 1) + runs (y :: l)

/-- What is left of `x :: l` after its first run. -/
def afterRun : α → List α → List α
  | _, [] => []
  | x, y :: l => if r x y then afterRun y l else y :: l

/-- Neither of the two has to come before the other. -/
def alike (x y : α) : Bool :=
  r x y && r y x

/-- The same elements, those that are alike in the same order. -/
structure Rearranges (l' l : List α) : Prop where
  perm : l'.Perm l
  stable : ∀ c, l'.filter (alike r c) = l.filter (alike r c)

variable {r} {l l' l₁ l₂ : List α}

theorem runs_cons_pos (x : α) (l : List α) : 0 < runs r (x :: l) := by
  induction l generalizing x with
  | nil => exact Nat.one_pos
  | cons y l ih => exact Nat.add_pos_right _ (ih y)

theorem runs_le_length (l : List α) : runs r l ≤ l.length := by
  induction l with
  | nil => exact Nat.le_refl 0
  | cons x l ih =>
    cases l with
    | nil => exact Nat.le_refl 1
    | cons y l =>
      simp only [runs, length_cons] at ih ⊢
      split <;> omega

theorem runs_le_one_iff : runs r l ≤ 1 ↔ l.IsChain (r · ·) := by
  induction l with
  | nil => simp [runs]
  | cons x l ih =>
    cases l with
    | nil => simp [runs]
    | cons y l =>
      have hpos := runs_cons_pos (r := r) y l
      rw [isChain_cons_cons, ← ih, runs]
      split
      · next hxy => simp [hxy]
      · next hxy =>
          constructor
          · omega
          · exact fun h => absurd h.1 hxy

theorem runs_append_le (l l' : List α) : runs r (l ++ l') ≤ runs r l + runs r l' := by
  induction l with
  | nil => simp [runs]
  | cons x l ih =>
    cases l with
    | nil =>
      cases l' with
      | nil => simp [runs]
      | cons y l' =>
        simp only [singleton_append, runs]
        split <;> omega
    | cons z l =>
      simp only [cons_append, runs] at ih ⊢
      omega

theorem exists_first_run (x : α) (l : List α) :
    ∃ R, l = R ++ afterRun r x l ∧ (x :: R).IsChain (r · ·) ∧
      runs r (x :: l) = runs r (afterRun r x l) + 1 := by
  induction l generalizing x with
  | nil => exact ⟨[], rfl, .singleton x, rfl⟩
  | cons y l ih =>
    by_cases hxy : r x y
    · obtain ⟨R, hl, hR, hruns⟩ := ih y
      rw [afterRun, if_pos hxy]
      refine ⟨y :: R, congrArg (y :: ·) hl, isChain_cons_cons.mpr ⟨hxy, hR⟩, ?_⟩
      rw [runs, if_pos hxy, Nat.zero_add, hruns]
    · rw [afterRun, if_neg hxy]
      refine ⟨[], rfl, .singleton x, ?_⟩
      rw [runs, if_neg hxy, Nat.add_comm]

namespace Rearranges

theorem refl (l : List α) : Rearranges r l l :=
  ⟨.refl l, fun _ => rfl⟩

theorem trans (h : Rearranges r l₂ l₁) (h' : Rearranges r l₁ l) : Rearranges r l₂ l :=
  ⟨h.perm.trans h'.perm, fun c => (h.stable c).trans (h'.stable c)⟩

theorem append (h : Rearranges r l₁ l) (h' : Rearranges r l₂ l') :
    Rearranges r (l₁ ++ l₂) (l ++ l') :=
  ⟨h.perm.append h'.perm, fun c => by
    rw [filter_append, filter_append, h.stable, h'.stable]⟩

end Rearranges

section Order

variable (htrans : ∀ x y z, r x y → r y z → r x z)
include htrans

theorem pairwise_of_isChain (h : l.IsChain (r · ·)) : l.Pairwise (r · ·) :=
  have : Trans (r · ·) (r · ·) (r · · : α → α → Prop) := ⟨htrans _ _ _⟩
  h.pairwise

theorem isChain_merge (htotal : ∀ x y, r x y || r y x) (h : l.IsChain (r · ·))
    (h' : l'.IsChain (r · ·)) : (l.merge l' r).IsChain (r · ·) :=
  (pairwise_merge htrans htotal l l' (pairwise_of_isChain htrans h)
    (pairwise_of_isChain htrans h')).isChain

theorem filter_alike_merge (h : l.IsChain (r · ·)) (c : α) :
    (l.merge l' r).filter (alike r c) = l.filter (alike r c) ++ l'.filter (alike r c) := by
  induction l generalizing l' with
  | nil => simp
  | cons a l ih =>
    induction l' with
    | nil => simp
    | cons b l' ih' =>
      rw [cons_merge_cons]
      by_cases hab : r a b
      · rw [if_pos hab, filter_cons, ih h.tail, filter_cons (x := a)]
        split <;> rfl
      · rw [if_neg hab, filter_cons, ih', filter_cons (x := b)]
        split
        · next hcb =>
            -- what is left of the first list comes after `b`
            have hnone : (a :: l).filter (alike r c) = [] := by
              refine filter_eq_nil_iff.mpr fun x hx hcx => hab ?_
              rw [alike, Bool.and_eq_true] at hcb hcx
              have hxb := htrans x c b hcx.2 hcb.1
              rcases mem_cons.mp hx with rfl | hx
              · exact hxb
              · have hax := (pairwise_cons.mp (pairwise_of_isChain htrans h)).1 x hx
                exact htrans a x b hax hxb
            rw [hnone, nil_append, nil_append]
        · rfl

theorem Rearranges.merge (l' : List α) (h : l.IsChain (r · ·)) :
    Rearranges r (l.merge l' r) (l ++ l') :=
  ⟨merge_perm_append r, fun c => by
    rw [filter_alike_merge htrans h, filter_append]⟩

end Order

end CS162
