import Mathlib

/-!
# Programs with a state

A program reads and changes a state and returns a value, or fails.  `Does x s Q` is total
correctness from the state `s`, and `Ensures x s Q` is partial correctness.  `Within R x` says
that the state the program leaves is related to the one it found, and `Agree E x` that two
runs from related states return the same value and leave related states.
-/

namespace CS162

/-- A program over states of type `S` that returns an `α` or fails. -/
abbrev Prog (S α : Type) : Type :=
  StateT S Option α

namespace Prog

variable {S α β : Type} {x : Prog S α} {f : α → Prog S β} {s s' : S} {a : α}
  {P Q : α → S → Prop} {R : β → S → Prop}

/-- The program ends from `s`, with `Q` of the value and the state it ends in. -/
def Does (x : Prog S α) (s : S) (Q : α → S → Prop) : Prop :=
  ∃ a s', x.run s = some (a, s') ∧ Q a s'

/-- If the program ends from `s`, then with `Q` of the value and the state. -/
def Ensures (x : Prog S α) (s : S) (Q : α → S → Prop) : Prop :=
  ∀ a s', x.run s = some (a, s') → Q a s'

/-- The state in which a run that gives `a` ends. -/
def stateAfter (h : (x.run s).map Prod.fst = some a) : { s' // x.run s = some (a, s') } :=
  match hx : x.run s with
  | some r => ⟨r.2, by rw [hx] at h; cases h; rfl⟩
  | none => by rw [hx] at h; cases h

theorem Does.mono (h : Does x s P) (hPQ : ∀ a s', P a s' → Q a s') : Does x s Q := by
  obtain ⟨a, s', hr, hp⟩ := h
  exact ⟨a, s', hr, hPQ a s' hp⟩

theorem Ensures.mono (h : Ensures x s P) (hPQ : ∀ a s', P a s' → Q a s') : Ensures x s Q :=
  fun a s' hr => hPQ a s' (h a s' hr)

theorem ensures_and (h : Ensures x s P) (h' : Ensures x s Q) :
    Ensures x s fun a s' => P a s' ∧ Q a s' :=
  fun a s' hr => ⟨h a s' hr, h' a s' hr⟩

theorem Does.ensures (h : Does x s Q) : Ensures x s Q := by
  obtain ⟨a, s', hr, hq⟩ := h
  intro b t hb
  rw [hr] at hb
  cases hb
  exact hq

@[simp] theorem does_pure : Does (pure a) s Q ↔ Q a s := by
  constructor
  · rintro ⟨b, t, hr, hq⟩
    cases hr
    exact hq
  · intro hq
    exact ⟨a, s, rfl, hq⟩

@[simp] theorem ensures_pure : Ensures (pure a) s Q ↔ Q a s := by
  constructor
  · intro h
    exact h a s rfl
  · intro hq b t hr
    cases hr
    exact hq

theorem run_bind_eq_some {b : β} :
    (x >>= f).run s = some (b, s') ↔ ∃ a t, x.run s = some (a, t) ∧ (f a).run t = some (b, s') := by
  rw [StateT.run_bind, Option.bind_eq_bind, Option.bind_eq_some_iff]
  exact Prod.exists

theorem does_bind : Does (x >>= f) s R ↔ Does x s fun a t => Does (f a) t R := by
  constructor
  · rintro ⟨b, s', hr, hq⟩
    obtain ⟨a, t, hx, hf⟩ := run_bind_eq_some.mp hr
    exact ⟨a, t, hx, b, s', hf, hq⟩
  · rintro ⟨a, t, hx, b, s', hf, hq⟩
    exact ⟨b, s', run_bind_eq_some.mpr ⟨a, t, hx, hf⟩, hq⟩

theorem ensures_bind : Ensures (x >>= f) s R ↔ Ensures x s fun a t => Ensures (f a) t R := by
  constructor
  · intro h a t hx b s' hf
    exact h b s' (run_bind_eq_some.mpr ⟨a, t, hx, hf⟩)
  · intro h b s' hr
    obtain ⟨a, t, hx, hf⟩ := run_bind_eq_some.mp hr
    exact h a t hx b s' hf

theorem Does.bind (hx : Does x s P) (hf : ∀ a t, P a t → Does (f a) t R) : Does (x >>= f) s R :=
  does_bind.mpr (hx.mono hf)

theorem Ensures.bind (hx : Ensures x s P) (hf : ∀ a t, P a t → Ensures (f a) t R) :
    Ensures (x >>= f) s R :=
  ensures_bind.mpr (hx.mono hf)

@[simp] theorem does_get {Q : S → S → Prop} : Does (get : Prog S S) s Q ↔ Q s s := by
  constructor
  · rintro ⟨b, t, hr, hq⟩
    cases hr
    exact hq
  · intro hq
    exact ⟨s, s, rfl, hq⟩

@[simp] theorem ensures_get {Q : S → S → Prop} :
    Ensures (get : Prog S S) s Q ↔ Q s s := by
  constructor
  · intro h
    exact h s s rfl
  · intro hq b t hr
    cases hr
    exact hq

@[simp] theorem does_modify {g : S → S} {Q : PUnit → S → Prop} :
    Does (modify g : Prog S PUnit) s Q ↔ Q ⟨⟩ (g s) := by
  constructor
  · rintro ⟨b, t, hr, hq⟩
    cases hr
    exact hq
  · intro hq
    exact ⟨⟨⟩, g s, rfl, hq⟩

@[simp] theorem ensures_modify {g : S → S} {Q : PUnit → S → Prop} :
    Ensures (modify g : Prog S PUnit) s Q ↔ Q ⟨⟩ (g s) := by
  constructor
  · intro h
    exact h ⟨⟩ (g s) rfl
  · intro hq b t hr
    cases hr
    exact hq

@[simp] theorem ensures_failure : Ensures (failure : Prog S α) s Q := by
  intro a s' hr
  cases hr

theorem ensures_ite {c : Prop} [Decidable c] {y : Prog S α} (hx : c → Ensures x s Q)
    (hy : ¬ c → Ensures y s Q) : Ensures (if c then x else y) s Q := by
  split_ifs with hc
  · exact hx hc
  · exact hy hc

section Within

variable {R : S → S → Prop}

/-- What the program leaves is related to what it found. -/
def Within (R : S → S → Prop) (x : Prog S α) : Prop :=
  ∀ s, Ensures x s fun _ s' => R s s'

theorem Within.bind [IsTrans S R] (hx : Within R x) (hf : ∀ a, Within R (f a)) :
    Within R (x >>= f) :=
  fun s => (hx s).bind fun a t hst => (hf a t).mono fun _ _ htu => IsTrans.trans _ _ _ hst htu

theorem within_pure [Std.Refl R] (a : α) : Within R (pure a : Prog S α) :=
  fun s => ensures_pure.mpr (refl s)

theorem within_get [Std.Refl R] : Within R (get : Prog S S) :=
  fun s => ensures_get.mpr (refl s)

theorem within_modify {g : S → S} (h : ∀ s, R s (g s)) : Within R (modify g : Prog S PUnit) :=
  fun s => ensures_modify.mpr (h s)

theorem within_failure : Within R (failure : Prog S α) :=
  fun _ => ensures_failure

theorem within_ite {c : Prop} [Decidable c] {y : Prog S α} (hx : Within R x)
    (hy : Within R y) : Within R (if c then x else y) := by
  split_ifs
  · exact hx
  · exact hy

end Within

section Agree

variable {E : S → S → Prop}

/-- Two runs from related states return the same value and end in related states. -/
def Agree (E : S → S → Prop) (x : Prog S α) : Prop :=
  ∀ s t, E s t → Ensures x s fun a s' => Ensures x t fun b t' => a = b ∧ E s' t'

theorem Agree.bind (hx : Agree E x) (hf : ∀ a, Agree E (f a)) : Agree E (x >>= f) := by
  intro s t hst c s' hr c' t' hr'
  obtain ⟨a, s1, ha, hr⟩ := run_bind_eq_some.mp hr
  obtain ⟨b, t1, hb, hr'⟩ := run_bind_eq_some.mp hr'
  obtain ⟨rfl, hst1⟩ := hx s t hst a s1 ha b t1 hb
  exact hf a s1 t1 hst1 c s' hr c' t' hr'

theorem agree_pure (a : α) : Agree E (pure a : Prog S α) := by
  intro s t hst b s' hr b' t' hr'
  cases hr
  cases hr'
  exact ⟨rfl, hst⟩

theorem agree_failure : Agree E (failure : Prog S α) :=
  fun _ _ _ => ensures_failure

theorem agree_ite {c : Prop} [Decidable c] {y : Prog S α} (hx : Agree E x)
    (hy : Agree E y) : Agree E (if c then x else y) := by
  split_ifs
  · exact hx
  · exact hy

end Agree

end Prog

end CS162
