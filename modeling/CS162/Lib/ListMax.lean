import Mathlib

/-!
# The largest element of a list

`listMax` is `list_max` of `lib/kernel/list.c`: it walks over the list and
replaces the candidate when it is strictly less than the element at hand, so
that it returns the first of the largest elements. The comparison is by a key.
-/

namespace CS162

open List

variable {α : Type*} {key : α → ℤ} {as : List α} {m : α}

/-- One step of the walk: the candidate `m` meets the element `e`. -/
def maxStep (key : α → ℤ) (m e : α) : α :=
  if key m < key e then e else m

/-- `list_max` for the order given by `key`. -/
def listMax (key : α → ℤ) : List α → Option α
  | [] => none
  | a :: as => some (as.foldl (maxStep key) a)

theorem foldl_maxStep_mem (key : α → ℤ) (as : List α) (a : α) :
    as.foldl (maxStep key) a ∈ a :: as := by
  induction as generalizing a with
  | nil => exact mem_singleton.mpr rfl
  | cons b bs ih =>
    have h := ih (maxStep key a b)
    rw [foldl_cons]
    rcases mem_cons.mp h with h | h
    · rw [h]
      unfold maxStep
      split
      · exact mem_cons_of_mem _ mem_cons_self
      · exact mem_cons_self
    · exact mem_cons_of_mem _ (mem_cons_of_mem _ h)

theorem le_foldl_maxStep (key : α → ℤ) (as : List α) (a : α) :
    ∀ b ∈ a :: as, key b ≤ key (as.foldl (maxStep key) a) := by
  induction as generalizing a with
  | nil =>
    intro b hb
    rw [mem_singleton.mp hb]
    exact le_rfl
  | cons c cs ih =>
    have hstep : key a ≤ key (maxStep key a c) ∧ key c ≤ key (maxStep key a c) := by
      unfold maxStep
      split
      · next hlt => exact ⟨hlt.le, le_rfl⟩
      · next hge => exact ⟨le_rfl, not_lt.mp hge⟩
    have hcand := ih (maxStep key a c) _ mem_cons_self
    intro b hb
    rcases mem_cons.mp hb with rfl | hb
    · exact hstep.1.trans hcand
    rcases mem_cons.mp hb with rfl | hb
    · exact hstep.2.trans hcand
    · exact ih (maxStep key a c) b (mem_cons_of_mem _ hb)

theorem listMax_mem (h : listMax key as = some m) : m ∈ as := by
  cases as with
  | nil => cases h
  | cons a as =>
    cases h
    exact foldl_maxStep_mem key as a

theorem le_of_listMax {a : α} (ha : a ∈ as) (h : listMax key as = some m) : key a ≤ key m := by
  cases as with
  | nil => cases h
  | cons b bs =>
    cases h
    exact le_foldl_maxStep key bs b a ha

theorem foldl_maxStep_split (key : α → ℤ) (as : List α) (a : α) :
    ∃ A B, a :: as = A ++ as.foldl (maxStep key) a :: B ∧
      ∀ b ∈ A, key b < key (as.foldl (maxStep key) a) := by
  induction as generalizing a with
  | nil => exact ⟨[], [], rfl, by simp⟩
  | cons c cs ih =>
    rw [foldl_cons]
    unfold maxStep
    split
    · next hlt =>
        obtain ⟨A, B, hsplit, hA⟩ := ih c
        refine ⟨a :: A, B, congrArg (a :: ·) hsplit, fun b hb => ?_⟩
        rcases mem_cons.mp hb with rfl | hb
        · exact hlt.trans_le (le_foldl_maxStep key cs c c mem_cons_self)
        · exact hA b hb
    · next hge =>
        obtain ⟨A, B, hsplit, hA⟩ := ih a
        cases A with
        | nil =>
          obtain ⟨hm, rfl⟩ := List.cons.inj hsplit
          exact ⟨[], c :: cs, congrArg (· :: c :: cs) hm, by simp⟩
        | cons a' A =>
          obtain ⟨rfl, htail⟩ := List.cons.inj hsplit
          refine ⟨a :: c :: A, B, congrArg (a :: c :: ·) htail, fun b hb => ?_⟩
          have ha := hA a mem_cons_self
          rcases mem_cons.mp hb with rfl | hb
          · exact ha
          rcases mem_cons.mp hb with rfl | hb
          · exact (not_lt.mp hge).trans_lt ha
          · exact hA b (mem_cons_of_mem a hb)

theorem listMax_split (h : listMax key as = some m) :
    ∃ A B, as = A ++ m :: B ∧ ∀ a ∈ A, key a < key m := by
  cases as with
  | nil => cases h
  | cons a as =>
    cases h
    exact foldl_maxStep_split key as a

theorem listMax_eq_none : listMax key as = none ↔ as = [] := by
  cases as with
  | nil => exact ⟨fun _ => rfl, fun _ => rfl⟩
  | cons a as => exact ⟨nofun, nofun⟩

end CS162
