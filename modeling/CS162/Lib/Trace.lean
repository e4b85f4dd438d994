import Mathlib

/-!
# Machines with answers

A machine answers each call and goes to the next state.  `trace step s as` is what it answers to
the calls `as` one after the other, and the state it ends in.
-/

namespace CS162.Trace

variable {S T A O : Type*}

/-- The answers to the calls in order, and the last state. -/
def trace (step : S → A → O × S) : S → List A → List O × S
  | s, [] => ([], s)
  | s, a :: as => ((step s a).1 :: (trace step (step s a).2 as).1, (trace step (step s a).2 as).2)

theorem trace_simulation {step : S → A → O × S} {step' : T → A → O × T} {R : S → T → Prop}
    (hstep : ∀ s t a, R s t → (step s a).1 = (step' t a).1 ∧ R (step s a).2 (step' t a).2) {s : S}
    {t : T} (h : R s t) (as : List A) :
    (trace step s as).1 = (trace step' t as).1 ∧ R (trace step s as).2 (trace step' t as).2 := by
  induction as generalizing s t with
  | nil => exact ⟨rfl, h⟩
  | cons a as ih =>
    obtain ⟨hanswer, hnext⟩ := hstep s t a h
    obtain ⟨hanswers, hlast⟩ := ih hnext
    exact ⟨congrArg₂ List.cons hanswer hanswers, hlast⟩

end CS162.Trace
