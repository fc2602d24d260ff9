import SearchEngine.Lib.Reach
import Mathlib.Algebra.Order.BigOperators.Group.Finset
import Mathlib.Algebra.Order.Ring.Nat

/-!
# The potential method

`Trace step ok s₀ es s`: the events `es` lead from `s₀` to `s`. A potential pays for the steps:
when each step lowers it by one, up to what the event brings with it, a run is no longer than
the potential it starts with and the credit of its events (`Trace.length_le`). The last part is
about the potential of a system of parts, of which a step moves one.
-/

namespace Reach

variable {σ ε : Type}

/-- A run from `s₀` to the second index that takes the events of the first. -/
inductive Trace (step : σ → ε → σ → Prop) (ok : σ → ε → Prop) (s₀ : σ) : List ε → σ → Prop
  | refl : Trace step ok s₀ [] s₀
  | tail {es : List ε} {s t : σ} {e : ε} (run : Trace step ok s₀ es s) (met : ok s e)
      (last : step s e t) : Trace step ok s₀ (es ++ [e]) t

variable {step : σ → ε → σ → Prop} {ok ok' : σ → ε → Prop} {s₀ s : σ} {es : List ε}

theorem Trace.reaches (h : Trace step ok s₀ es s) : Reaches step ok s₀ s := by
  induction h with
  | refl => exact .refl
  | tail _ met last ih => exact ih.tail met last

theorem Trace.exists_of_reaches (h : Reaches step ok s₀ s) : ∃ es, Trace step ok s₀ es s := by
  induction h with
  | refl => exact ⟨[], .refl⟩
  | tail _ met last ih =>
    obtain ⟨es, hrun⟩ := ih
    exact ⟨_, hrun.tail met last⟩

/-- What holds of the events of a run may be asked of each step. -/
theorem Trace.mono (h : Trace step ok s₀ es s) (hok : ∀ s, ∀ e ∈ es, ok s e → ok' s e) :
    Trace step ok' s₀ es s := by
  induction h with
  | refl => exact .refl
  | tail run met last ih =>
    refine (ih fun s e he => hok s e (List.mem_append_left _ he)).tail ?_ last
    exact hok _ _ (List.mem_append_right _ List.mem_cons_self) met

/-- The rule of the potential method. -/
theorem Trace.length_le (h : Trace step ok s₀ es s) (I : σ → Prop) (Φ : σ → Nat)
    (credit : ε → Nat) (h0 : I s₀)
    (hstep : ∀ s e t, I s → ok s e → step s e t → I t ∧ Φ t + 1 ≤ Φ s + credit e) :
    I s ∧ es.length + Φ s ≤ Φ s₀ + (es.map credit).sum := by
  induction h with
  | refl => exact ⟨h0, by simp⟩
  | tail run met last ih =>
    obtain ⟨hI, hle⟩ := ih
    obtain ⟨hI', hpay⟩ := hstep _ _ _ hI met last
    refine ⟨hI', ?_⟩
    rw [List.length_append, List.map_append, List.sum_append, List.length_singleton,
      List.map_singleton, List.sum_singleton]
    omega

/-! ## Systems of parts -/

section Parts

variable {ι α : Type} [DecidableEq ι] {S : Finset ι} {f : ι → α} {w : α → Nat} {i : ι} {a : α}

/-- One part moves. -/
theorem sum_move {g : ι → α} (hi : i ∈ S) (hstay : ∀ j, j ≠ i → g j = f j) :
    (∑ j ∈ S, w (g j)) + w (f i) = (∑ j ∈ S, w (f j)) + w (g i) := by
  have hrest : ∑ j ∈ S.erase i, w (g j) = ∑ j ∈ S.erase i, w (f j) := by
    refine Finset.sum_congr rfl fun j hj => ?_
    rw [hstay j (Finset.ne_of_mem_erase hj)]
  rw [← Finset.add_sum_erase S _ hi, ← Finset.add_sum_erase S (fun j => w (f j)) hi, hrest]
  omega

theorem sum_update_add (hi : i ∈ S) :
    (∑ j ∈ S, w (Function.update f i a j)) + w (f i) = (∑ j ∈ S, w (f j)) + w a := by
  have hsum := sum_move (w := w) hi fun j hj => Function.update_of_ne hj a f
  rwa [Function.update_self] at hsum

/-- Each part that moves gains at most `k`. -/
theorem sum_le_add_card_mul {g : ι → α} {T : Finset ι} {k : Nat} (hT : T ⊆ S)
    (hmove : ∀ j ∈ T, w (g j) ≤ w (f j) + k) (hstay : ∀ j ∈ S, j ∉ T → g j = f j) :
    ∑ j ∈ S, w (g j) ≤ (∑ j ∈ S, w (f j)) + T.card * k := by
  calc ∑ j ∈ S, w (g j)
      ≤ ∑ j ∈ S, (w (f j) + if j ∈ T then k else 0) := by
        refine Finset.sum_le_sum fun j hj => ?_
        by_cases hjT : j ∈ T
        · rw [if_pos hjT]
          exact hmove j hjT
        · rw [if_neg hjT, hstay j hj hjT]
          omega
    _ = (∑ j ∈ S, w (f j)) + T.card * k := by
        rw [Finset.sum_add_distrib, ← Finset.sum_filter, Finset.filter_mem_eq_inter,
          Finset.inter_eq_right.mpr hT, Finset.sum_const_nat fun _ _ => rfl]

end Parts

end Reach
