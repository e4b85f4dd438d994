import Mathlib

/-!
# Runs of a labelled step function

`step s a` is the state the action `a` leads to, or `none` when `a` is not possible in `s`.
`run` performs actions in order, `Meets step P s as` says that every action is performed in a
state that allows it under `P`, and `Always step Q s as` that `Q` holds in every state the run
passes through.
-/

namespace CS162.Run

open Option

variable {S A : Type*} {step : S → A → Option S} {s t : S} {as : List A} {a : A}
  {P Q : S → A → Prop} {I : S → Prop}

/-- The state after performing the actions in order; `none` as soon as one of
them is not possible. -/
def run (step : S → A → Option S) : S → List A → Option S
  | s, [] => some s
  | s, a :: as => (step s a).bind fun s' => run step s' as

/-- Every action of the run is performed in a state that satisfies `P` together
with it. Actions after an impossible one are not looked at. -/
def Meets (step : S → A → Option S) (P : S → A → Prop) : S → List A → Prop
  | _, [] => True
  | s, a :: as => P s a ∧ ∀ s', step s a = some s' → Meets step P s' as

/-- `Q` holds in every state the run passes through, the first one included. -/
def Always (step : S → A → Option S) (Q : S → Prop) : S → List A → Prop
  | s, [] => Q s
  | s, a :: as => Q s ∧ ∀ s', step s a = some s' → Always step Q s' as

theorem Always.head {Q : S → Prop} (h : Always step Q s as) : Q s := by
  cases as with
  | nil => exact h
  | cons a as => exact h.1

/-- A condition with a budget of which each step spends one holds along every run that the
budget allows. -/
theorem always_of_budget {Q : S → Prop} {I : ℕ → S → Prop}
    (hstep : ∀ n s a s', I (n + 1) s → step s a = some s' → I n s') (hQ : ∀ n s, I n s → Q s)
    (hs : I as.length s) : Always step Q s as := by
  induction as generalizing s with
  | nil => exact hQ _ s hs
  | cons a as ih => exact ⟨hQ _ s hs, fun s' hs' => ih (hstep _ s a s' hs hs')⟩

@[simp] theorem run_nil (step : S → A → Option S) (s : S) :
    run step s [] = some s := rfl

theorem run_cons (step : S → A → Option S) (s : S) (a : A) (as : List A) :
    run step s (a :: as) = (step s a).bind fun s' => run step s' as := rfl

theorem run_cons_eq_some :
    run step s (a :: as) = some t ↔ ∃ s', step s a = some s' ∧ run step s' as = some t := by
  rw [run_cons, bind_eq_some_iff]

theorem run_append {bs : List A} (h : run step s as = some t) :
    run step s (as ++ bs) = run step t bs := by
  induction as generalizing s with
  | nil =>
    cases h
    rfl
  | cons a as ih =>
    obtain ⟨s', hs', h'⟩ := run_cons_eq_some.mp h
    rw [List.cons_append, run_cons, hs', bind_some, ih h']

theorem run_invariant (hstep : ∀ s a s', I s → P s a → step s a = some s' → I s') (hs : I s)
    (hm : Meets step P s as) (hr : run step s as = some t) : I t := by
  induction as generalizing s with
  | nil =>
    cases hr
    exact hs
  | cons a as ih =>
    obtain ⟨s', hs', hr'⟩ := run_cons_eq_some.mp hr
    exact ih (hstep s a s' hs hm.1 hs') (hm.2 s' hs') hr'

theorem meets_cons :
    Meets step P s (a :: as) ↔ P s a ∧ (step s a).elim True fun s' => Meets step P s' as := by
  cases h : step s a with
  | none => simp [Meets, h]
  | some s' => simp [Meets, h]

/-- Whether a run meets a decidable condition can be computed. -/
instance decidableMeets (step : S → A → Option S) (P : S → A → Prop)
    [∀ s a, Decidable (P s a)] : ∀ (s : S) (as : List A), Decidable (Meets step P s as)
  | _, [] => isTrue trivial
  | s, a :: as =>
    have : Decidable ((step s a).elim True fun s' => Meets step P s' as) :=
      match step s a with
      | none => isTrue trivial
      | some s' => decidableMeets step P s' as
    decidable_of_iff _ meets_cons.symm

theorem always_cons {Q : S → Prop} :
    Always step Q s (a :: as) ↔ Q s ∧ (step s a).elim True fun s' => Always step Q s' as := by
  cases h : step s a with
  | none => simp [Always, h]
  | some s' => simp [Always, h]

instance decidableAlways (step : S → A → Option S) (Q : S → Prop) [DecidablePred Q] :
    ∀ (s : S) (as : List A), Decidable (Always step Q s as)
  | s, [] => inferInstanceAs (Decidable (Q s))
  | s, a :: as =>
    have : Decidable ((step s a).elim True fun s' => Always step Q s' as) :=
      match step s a with
      | none => isTrue trivial
      | some s' => decidableAlways step Q s' as
    decidable_of_iff _ always_cons.symm

theorem meets_of_forall (step : S → A → Option S) {P : A → Prop} (h : ∀ a ∈ as, P a) (s : S) :
    Meets step (fun _ a => P a) s as := by
  induction as generalizing s with
  | nil => trivial
  | cons a as ih =>
    refine ⟨h a List.mem_cons_self, fun s' _ => ih (fun b hb => ?_) s'⟩
    exact h b (List.mem_cons_of_mem a hb)

theorem Meets.after {bs : List A} (h : Meets step P s (as ++ bs)) (hr : run step s as = some t) :
    Meets step P t bs := by
  induction as generalizing s with
  | nil =>
    cases hr
    exact h
  | cons a as ih =>
    obtain ⟨s', hs', hr'⟩ := run_cons_eq_some.mp hr
    exact ih (h.2 s' hs') hr'

theorem meets_true (step : S → A → Option S) (s : S) (as : List A) :
    Meets step (fun _ _ => True) s as := by
  induction as generalizing s with
  | nil => trivial
  | cons a as ih => exact ⟨trivial, fun s' _ => ih s'⟩

theorem run_invariant' (hstep : ∀ s a s', I s → step s a = some s' → I s') (hs : I s)
    (hr : run step s as = some t) : I t :=
  run_invariant (P := fun _ _ => True) (fun s a s' h _ => hstep s a s' h) hs
    (meets_true step s as) hr

/-- Two conditions that agree on the states of an invariant agree on every run that
meets `L`, when the invariant is kept under the first one. -/
theorem meets_iff {L : S → A → Prop} (hiff : ∀ s a, I s → L s a → (P s a ↔ Q s a))
    (hstep : ∀ s a s', I s → L s a → P s a → step s a = some s' → I s') (hs : I s)
    (hl : Meets step L s as) : Meets step P s as ↔ Meets step Q s as := by
  induction as generalizing s with
  | nil => exact Iff.rfl
  | cons a as ih =>
    obtain ⟨hla, hlas⟩ := hl
    constructor
    · rintro ⟨hp, hps⟩
      refine ⟨(hiff s a hs hla).mp hp, fun s' hs' => ?_⟩
      exact (ih (hstep s a s' hs hla hp hs') (hlas s' hs')).mp (hps s' hs')
    · rintro ⟨hq, hqs⟩
      have hp := (hiff s a hs hla).mpr hq
      refine ⟨hp, fun s' hs' => ?_⟩
      exact (ih (hstep s a s' hs hla hp hs') (hlas s' hs')).mpr (hqs s' hs')

/-- The sum of `w` over the actions of the run, each taken in the state it is
performed in. -/
def total (step : S → A → Option S) (w : S → A → ℕ) : S → List A → ℕ
  | _, [] => 0
  | s, a :: as => w s a + ((step s a).map fun s' => total step w s' as).getD 0

theorem total_cons {w : S → A → ℕ} {s' : S} (as : List A) (h : step s a = some s') :
    total step w s (a :: as) = w s a + total step w s' as := by
  rw [total, h, map_some, getD_some]

/-- A quantity that each step raises by `up` and lowers by `down`, modulo `m`,
is raised and lowered by the totals over a run. -/
theorem run_modEq {q : S → ℤ} {up down : S → A → ℕ} {m : ℤ}
    (hstep : ∀ s a s', step s a = some s' → q s' ≡ q s + up s a - down s a [ZMOD m])
    (hr : run step s as = some t) :
    q t ≡ q s + total step up s as - total step down s as [ZMOD m] := by
  induction as generalizing s with
  | nil =>
    cases hr
    simp only [total, Nat.cast_zero, add_zero, sub_zero]
    rfl
  | cons a as ih =>
    obtain ⟨s', hs', hr'⟩ := run_cons_eq_some.mp hr
    rw [total_cons as hs', total_cons as hs']
    have h1 := hstep s a s' hs'
    calc q t ≡ q s' + total step up s' as - total step down s' as [ZMOD m] := ih hr'
      _ ≡ q s + up s a - down s a + total step up s' as
          - total step down s' as [ZMOD m] := by gcongr
      _ = _ := by
        push_cast
        ring

end CS162.Run
