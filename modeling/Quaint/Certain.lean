import Mathlib

/-!
What every run of a system comes to.

A step takes an input and may fail. The runs from a state come to a property if each of them, taking
whatever inputs, is in a state that has it after some steps, and none of these fails.
-/

namespace Quaint.Certain

variable {ι σ ε : Type*} {step : ι → σ → Except ε σ} {P Q : σ → Prop} {s : σ}

/-- Every run from the state comes to the property. -/
inductive ComesTo (step : ι → σ → Except ε σ) (P : σ → Prop) : σ → Prop
  | here {s : σ} (h : P s) : ComesTo step P s
  | later {s : σ} (next : ι → σ) (hstep : ∀ i, step i s = .ok (next i))
    (h : ∀ i, ComesTo step P (next i)) : ComesTo step P s

namespace ComesTo

/-- A run that has come to one property goes on to the other. -/
theorem bind (h : ComesTo step P s) (hP : ∀ s, P s → ComesTo step Q s) : ComesTo step Q s := by
  induction h with
  | here h => exact hP _ h
  | later next hstep _ ih => exact .later next hstep ih

/-- One step, after which the run goes on. -/
lemma of_step (h : ∀ i, ∃ s', step i s = .ok s' ∧ ComesTo step P s') : ComesTo step P s := by
  choose next hnext using h
  exact .later next (fun i => (hnext i).1) fun i => (hnext i).2

end ComesTo

/-! ### Runs that may stop -/

variable {E : ε → Prop}

/-- Every run from the state comes to the property, unless it fails for one of the reasons before. -/
inductive ComesUnless (step : ι → σ → Except ε σ) (E : ε → Prop) (P : σ → Prop) : σ → Prop
  | here {s : σ} (h : P s) : ComesUnless step E P s
  | later {s : σ} (hok : ∀ i s', step i s = .ok s' → ComesUnless step E P s')
    (hstop : ∀ i e, step i s = .error e → E e) : ComesUnless step E P s

namespace ComesUnless

theorem bind (h : ComesUnless step E P s) (hP : ∀ s, P s → ComesUnless step E Q s) :
    ComesUnless step E Q s := by
  induction h with
  | here h => exact hP _ h
  | later _ hstop ih => exact .later ih hstop

end ComesUnless

end Quaint.Certain
