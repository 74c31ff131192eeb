import Mathlib

/-!
Computations that may fail: what a sequence of them returned, and partial correctness.
-/

namespace Quaint.Partial

variable {ε α β : Type*}

section Inversion

universe u

variable {α β : Type u}

lemma bind_eq_ok {x : Except ε α} {f : α → Except ε β} {b : β} :
    (x >>= f) = .ok b ↔ ∃ a, x = .ok a ∧ f a = .ok b := by
  cases x with
  | error e => simp [bind, Except.bind]
  | ok a => simp [bind, Except.bind]

lemma map_eq_ok {x : Except ε α} {f : α → β} {b : β} :
    (f <$> x) = .ok b ↔ ∃ a, x = .ok a ∧ f a = b := by
  cases x with
  | error e => simp [Functor.map, Except.map]
  | ok a => simp [Functor.map, Except.map]

lemma pure_eq_ok {a b : α} : (pure a : Except ε α) = .ok b ↔ a = b := by
  simp [pure, Except.pure]

end Inversion

/-- Whatever the computation returns meets the postcondition. -/
def Returns (x : Except ε α) (P : α → Prop) : Prop := ∀ a, x = .ok a → P a

lemma returns_ok {a : α} {P : α → Prop} (h : P a) : Returns (.ok a : Except ε α) P := by
  rintro b ⟨⟩
  exact h

lemma Returns.mono {x : Except ε α} {P Q : α → Prop} (h : Returns x P) (hPQ : ∀ a, P a → Q a) :
    Returns x Q := fun a ha => hPQ a (h a ha)

section Rules

universe u

variable {α β : Type u}

lemma returns_pure {a : α} {P : α → Prop} (h : P a) : Returns (pure a : Except ε α) P :=
  returns_ok h

lemma returns_bind {x : Except ε α} {f : α → Except ε β} {P : β → Prop}
    (h : ∀ a, x = .ok a → Returns (f a) P) : Returns (x >>= f) P := by
  intro b hb
  obtain ⟨a, ha, hf⟩ := bind_eq_ok.mp hb
  exact h a ha b hf

end Rules

/-! ### Failures -/

/-- Whatever error the computation ends with meets the condition. -/
def Stops (x : Except ε α) (P : ε → Prop) : Prop := ∀ e, x = .error e → P e

section Failures

universe u

variable {α β : Type u} {P : ε → Prop}

lemma stops_ok {a : α} : Stops (.ok a : Except ε α) P := by
  rintro e ⟨⟩

lemma stops_error {e : ε} (h : P e) : Stops (.error e : Except ε α) P := by
  rintro e' ⟨⟩
  exact h

lemma stops_pure {a : α} : Stops (pure a : Except ε α) P := stops_ok

lemma stops_bind {x : Except ε α} {f : α → Except ε β} (hx : Stops x P)
    (hf : ∀ a, Stops (f a) P) : Stops (x >>= f) P := by
  cases x with
  | error e => exact stops_error (hx e rfl)
  | ok a => exact hf a

lemma stops_map {x : Except ε α} {f : α → β} (hx : Stops x P) : Stops (f <$> x) P := by
  cases x with
  | error e => exact stops_error (hx e rfl)
  | ok a => exact stops_ok

lemma stops_ite {c : Prop} [Decidable c] {x y : Except ε α} (hx : Stops x P) (hy : Stops y P) :
    Stops (if c then x else y) P := by
  split
  · exact hx
  · exact hy

end Failures

end Quaint.Partial
