import Mathlib

/-!
Runs of a transition system, invariants, and runs that carry a history along.
-/

namespace Quaint.Transition

open Relation

variable {σ γ : Type*}

/-- The steps taken from states that meet a condition. -/
def Guarded (ok : σ → Prop) (step : σ → σ → Prop) (s s' : σ) : Prop := ok s ∧ step s s'

/-- A step that also brings a history up to date. -/
def WithHistory (step : σ → σ → Prop) (upd : γ → σ → σ → γ → Prop) (x x' : σ × γ) : Prop :=
  step x.1 x'.1 ∧ upd x.2 x.1 x'.1 x'.2

/-- What holds at the start and is preserved by every step holds along a run. -/
theorem invariant_of_run {step : σ → σ → Prop} {I : σ → Prop} {s s' : σ}
    (hstep : ∀ s s', I s → step s s' → I s') (h : I s) (run : ReflTransGen step s s') : I s' := by
  induction run with
  | refl => exact h
  | tail _ hs ih => exact hstep _ _ ih hs

/-- A guarded run is a run. -/
lemma run_of_guarded {ok : σ → Prop} {step : σ → σ → Prop} {s s' : σ}
    (run : ReflTransGen (Guarded ok step) s s') : ReflTransGen step s s' :=
  ReflTransGen.mono (fun _ _ h => h.2) _ _ run

/-- Every run carries a history, if every step can bring it up to date. -/
lemma exists_history {step : σ → σ → Prop} {upd : γ → σ → σ → γ → Prop}
    (total : ∀ g s s', step s s' → ∃ g', upd g s s' g') {s s' : σ} (g : γ)
    (run : ReflTransGen step s s') :
    ∃ g', ReflTransGen (WithHistory step upd) (s, g) (s', g') := by
  induction run with
  | refl => exact ⟨g, .refl⟩
  | tail _ hs ih =>
    obtain ⟨g', hg'⟩ := ih
    obtain ⟨g'', hg''⟩ := total g' _ _ hs
    exact ⟨g'', hg'.tail ⟨hs, hg''⟩⟩

/-! ### Segments -/

end Quaint.Transition
