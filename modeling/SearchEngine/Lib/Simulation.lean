import Mathlib.Order.Basic

/-!
# Simulation

A step of a system shows a list of observations, most steps none. `Shown step s ws t`: a run from
`s` to `t` shows `ws`. Where each step of one system can be followed by a run of the other that
shows the same, from related states to related states (`Simulates`), the runs of the one show
nothing that the runs of the other do not (`Simulates.shown`).
-/

namespace Simulation

variable {σ τ ω : Type}

/-- A run and what its steps show. -/
inductive Shown (step : σ → List ω → σ → Prop) (s₀ : σ) : List ω → σ → Prop
  | refl : Shown step s₀ [] s₀
  | tail {ws ws' : List ω} {s t : σ} (run : Shown step s₀ ws s) (last : step s ws' t) :
      Shown step s₀ (ws ++ ws') t

variable {step : σ → List ω → σ → Prop} {step' : τ → List ω → τ → Prop} {R : σ → τ → Prop}
  {s₀ s t : σ} {a₀ : τ} {ws ws' : List ω}

/-- Runs compose. -/
theorem Shown.trans (h : Shown step s₀ ws s) (h' : Shown step s ws' t) :
    Shown step s₀ (ws ++ ws') t := by
  induction h' with
  | refl => rwa [List.append_nil]
  | tail run last ih =>
    rw [← List.append_assoc]
    exact ih.tail last

/-- A run of one step. -/
theorem Shown.single (h : step s ws t) : Shown step s ws t := Shown.refl.tail h

/-- Every step of the first system is a run of the second. -/
def Simulates (R : σ → τ → Prop) (step : σ → List ω → σ → Prop)
    (step' : τ → List ω → τ → Prop) : Prop :=
  ∀ ⦃s t : σ⦄ ⦃a : τ⦄ ⦃ws : List ω⦄, R s a → step s ws t → ∃ b, R t b ∧ Shown step' a ws b

/-- Every run of the first system is one of the second. -/
theorem Simulates.shown (h : Simulates R step step') (h0 : R s₀ a₀) (hrun : Shown step s₀ ws s) :
    ∃ a, R s a ∧ Shown step' a₀ ws a := by
  induction hrun with
  | refl => exact ⟨a₀, h0, .refl⟩
  | tail run last ih =>
    obtain ⟨a, ha, hshown⟩ := ih
    obtain ⟨b, hb, hnext⟩ := h ha last
    exact ⟨b, hb, hshown.trans hnext⟩

end Simulation
