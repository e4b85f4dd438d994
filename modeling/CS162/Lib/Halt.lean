import Mathlib

/-!
# Programs that may stop

A program reads and changes a state and returns a value, or stops for a reason.  `Ends x s E Q`
says how the program `x` ends from the state `s`: with `Q` of the value and the state when it
returns, with `E` of the reason and the state when it stops.
-/

namespace CS162

/-- A program over states of type `S` that returns an `α` or stops with an `ε`. -/
abbrev Halt (ε S α : Type) : Type :=
  ExceptT ε (StateM S) α

namespace Halt

variable {ε S α β : Type} {x : Halt ε S α} {f : α → Halt ε S β} {s : S} {a : α} {e : ε}
  {E E' : ε → S → Prop} {P Q : α → S → Prop} {R : β → S → Prop}

def exec (x : Halt ε S α) (s : S) : Except ε α × S :=
  (ExceptT.run x).run s

/-- How the program ends from `s`. -/
def Ends (x : Halt ε S α) (s : S) (E : ε → S → Prop) (Q : α → S → Prop) : Prop :=
  match x.exec s with
  | (.ok a, s') => Q a s'
  | (.error e, s') => E e s'

theorem ends_of_ok {s' : S} (h : x.exec s = (.ok a, s')) : Ends x s E Q ↔ Q a s' := by
  unfold Ends
  rw [h]

theorem ends_of_error {s' : S} (h : x.exec s = (.error e, s')) : Ends x s E Q ↔ E e s' := by
  unfold Ends
  rw [h]

theorem Ends.mono (h : Ends x s E P) (hE : ∀ e s', E e s' → E' e s')
    (hQ : ∀ a s', P a s' → Q a s') : Ends x s E' Q := by
  obtain ⟨r, s', hr⟩ : ∃ r s', x.exec s = (r, s') := ⟨_, _, rfl⟩
  cases r with
  | ok a => exact (ends_of_ok hr).mpr (hQ a s' ((ends_of_ok hr).mp h))
  | error e => exact (ends_of_error hr).mpr (hE e s' ((ends_of_error hr).mp h))

@[simp] theorem ends_pure : Ends (pure a) s E Q ↔ Q a s :=
  Iff.rfl

@[simp] theorem ends_throw : Ends (throw e) s E Q ↔ E e s :=
  Iff.rfl

@[simp] theorem ends_get {Q : S → S → Prop} : Ends (get : Halt ε S S) s E Q ↔ Q s s :=
  Iff.rfl

@[simp] theorem ends_modify {g : S → S} {Q : PUnit → S → Prop} :
    Ends (modify g : Halt ε S PUnit) s E Q ↔ Q ⟨⟩ (g s) :=
  Iff.rfl

theorem exec_bind (x : Halt ε S α) (f : α → Halt ε S β) (s : S) :
    (x >>= f).exec s =
      match x.exec s with
      | (.ok a, s') => (f a).exec s'
      | (.error e, s') => (.error e, s') := by
  unfold exec ExceptT.run StateT.run
  simp only [bind, ExceptT.bind, ExceptT.mk, StateT.bind, ExceptT.bindCont]
  cases x s with
  | mk r s' =>
    cases r with
    | ok a => rfl
    | error e => rfl

theorem ends_bind : Ends (x >>= f) s E R ↔ Ends x s E fun a t => Ends (f a) t E R := by
  unfold Ends
  rw [exec_bind]
  cases x.exec s with
  | mk r s' =>
    cases r with
    | ok a => rfl
    | error e => rfl

theorem Ends.bind (hx : Ends x s E P) (hf : ∀ a t, P a t → Ends (f a) t E R) :
    Ends (x >>= f) s E R :=
  ends_bind.mpr (hx.mono (fun _ _ => id) hf)

@[simp] theorem ends_true : Ends x s (fun _ _ => True) fun _ _ => True := by
  unfold Ends
  split <;> trivial

variable {T : Type} {k : S → T}

/-- A part of the state is the same whenever the program returns. -/
def Spares (k : S → T) (x : Halt ε S α) : Prop :=
  ∀ s, Ends x s (fun _ _ => True) fun _ s' => k s' = k s

@[grind ←] theorem spares_pure (a : α) : Spares k (pure a : Halt ε S α) :=
  fun _ => rfl

@[grind ←] theorem spares_throw (e : ε) : Spares k (throw e : Halt ε S α) :=
  fun _ => trivial

@[grind ←] theorem spares_get : Spares k (get : Halt ε S S) :=
  fun _ => rfl

@[grind ←] theorem spares_modify {g : S → S} (h : ∀ s, k (g s) = k s) :
    Spares k (modify g : Halt ε S PUnit) :=
  h

@[grind ←] theorem Spares.bind (hx : Spares k x) (hf : ∀ a, Spares k (f a)) :
    Spares k (x >>= f) := by
  intro s
  refine (hx s).bind fun a t ht => ?_
  exact (hf a t).mono (fun _ _ => id) fun _ _ hu => hu.trans ht

end Halt

end CS162
