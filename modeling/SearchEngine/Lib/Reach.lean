import Mathlib.Order.Basic

/-!
# Runs of a labelled transition relation

`Reaches step ok s₀ s`: a run of `step` leads from `s₀` to `s` and each of its
steps met `ok` in the state it was taken from. With `ok` always true these are
the plain runs. A property that holds initially and that every admitted step
preserves holds in every state reached (`Reaches.invariant`).
-/

namespace Reach

variable {σ ε : Type}

/-- A run from `s₀` to the index whose every step meets `ok`. -/
inductive Reaches (step : σ → ε → σ → Prop) (ok : σ → ε → Prop) (s₀ : σ) : σ → Prop
  | refl : Reaches step ok s₀ s₀
  | tail {s t : σ} {e : ε} (run : Reaches step ok s₀ s) (met : ok s e) (last : step s e t) :
      Reaches step ok s₀ t

variable {step : σ → ε → σ → Prop} {ok ok' : σ → ε → Prop} {s₀ s t : σ}

/-- The induction rule: an invariant of the admitted steps holds along the run. -/
theorem Reaches.invariant {I : σ → Prop} (h : Reaches step ok s₀ s) (h0 : I s₀)
    (hstep : ∀ s e t, I s → ok s e → step s e t → I t) : I s := by
  induction h with
  | refl => exact h0
  | tail run met last ih => exact hstep _ _ _ ih met last

/-- A weaker condition admits every run of a stronger one. -/
theorem Reaches.mono (h : Reaches step ok s₀ s) (hok : ∀ s e, ok s e → ok' s e) :
    Reaches step ok' s₀ s := by
  induction h with
  | refl => exact .refl
  | tail _ met last ih => exact ih.tail (hok _ _ met) last

/-- Runs compose. -/
theorem Reaches.trans (h : Reaches step ok s₀ s) (h' : Reaches step ok s t) :
    Reaches step ok s₀ t := by
  induction h' with
  | refl => exact h
  | tail _ met last ih => exact ih.tail met last

/-- A run of one step. -/
theorem Reaches.single {e : ε} (met : ok s e) (last : step s e t) : Reaches step ok s t :=
  Reaches.refl.tail met last

end Reach
