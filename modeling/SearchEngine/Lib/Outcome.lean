import Mathlib.Order.Basic

/-!
# Outcome judgements for computations that can stop

`Sat x Q E` says what a fallible computation may answer: a result satisfies
`Q`, an error satisfies `E`. One judgement covers both halves of a total
correctness statement, so a specification proved with it bounds the errors of a
computation at the same time as it describes its results. The rules follow the
shape of a `do` block.
-/

namespace Outcome

universe u

variable {ε : Type} {α β : Type u}

/-- Every result of `x` satisfies `Q`; every error of `x` satisfies `E`. -/
def Sat (x : Except ε α) (Q : α → Prop) (E : ε → Prop) : Prop :=
  match x with
  | .ok a => Q a
  | .error e => E e

@[simp] theorem sat_ok {a : α} {Q : α → Prop} {E : ε → Prop} :
    Sat (.ok a) Q E ↔ Q a := Iff.rfl

@[simp] theorem sat_pure {a : α} {Q : α → Prop} {E : ε → Prop} :
    Sat (pure a) Q E ↔ Q a := Iff.rfl

@[simp] theorem sat_error {e : ε} {Q : α → Prop} {E : ε → Prop} :
    Sat (.error e : Except ε α) Q E ↔ E e := Iff.rfl

theorem ok_bind {a : α} {f : α → Except ε β} : (Except.ok a >>= f) = f a := rfl

theorem error_bind {e : ε} {f : α → Except ε β} : (Except.error e >>= f) = .error e := rfl

/-- The rule of sequencing. -/
theorem Sat.bind {x : Except ε α} {f : α → Except ε β} {R : α → Prop} {Q : β → Prop}
    {E : ε → Prop} (hx : Sat x R E) (hf : ∀ a, R a → Sat (f a) Q E) :
    Sat (x >>= f) Q E := by
  cases x with
  | error e => exact hx
  | ok a => exact hf a hx

/-- A sequence is judged by what its second half makes of the first. -/
theorem sat_bind {x : Except ε α} {f : α → Except ε β} {Q : β → Prop} {E : ε → Prop} :
    Sat (x >>= f) Q E ↔ Sat x (fun a => Sat (f a) Q E) E := by
  cases x <;> rfl

theorem sat_map {x : Except ε α} {f : α → β} {Q : β → Prop} {E : ε → Prop} :
    Sat (x.map f) Q E ↔ Sat x (fun a => Q (f a)) E := by
  cases x <;> rfl

/-- The rule of consequence. -/
theorem Sat.mono {x : Except ε α} {Q R : α → Prop} {E F : ε → Prop} (hx : Sat x Q E)
    (hQ : ∀ a, Q a → R a) (hE : ∀ e, E e → F e) : Sat x R F := by
  cases x with
  | error e => exact hE e hx
  | ok a => exact hQ a hx

/-- Two judgements of one computation. -/
theorem Sat.and {x : Except ε α} {Q R : α → Prop} {E F : ε → Prop} (hx : Sat x Q E)
    (hx' : Sat x R F) : Sat x (fun a => Q a ∧ R a) fun e => E e ∧ F e := by
  cases x with
  | error e => exact ⟨hx, hx'⟩
  | ok a => exact ⟨hx, hx'⟩

/-- The result half of a judgement. -/
theorem Sat.of_ok {x : Except ε α} {Q : α → Prop} {E : ε → Prop} {a : α} (hx : Sat x Q E)
    (h : x = .ok a) : Q a := by
  subst h
  exact hx

/-- The error half of a judgement. -/
theorem Sat.of_error {x : Except ε α} {Q : α → Prop} {E : ε → Prop} {e : ε} (hx : Sat x Q E)
    (h : x = .error e) : E e := by
  subst h
  exact hx

/-- A sequence that answers has answered at its first half. -/
theorem bind_eq_ok {x : Except ε α} {f : α → Except ε β} {b : β} (h : x >>= f = .ok b) :
    ∃ a, x = .ok a ∧ f a = .ok b := by
  cases x with
  | error e => cases h
  | ok a => exact ⟨a, rfl, h⟩

/-- The rule of a loop over a list: the invariant speaks of the elements that are done. -/
theorem foldlM_invariant {γ : Type} {f : α → γ → Except ε α} {I : List γ → α → Prop}
    (hstep : ∀ xs x a b, I xs a → f a x = .ok b → I (xs ++ [x]) b) {done xs : List γ} {a b : α}
    (h0 : I done a) (h : xs.foldlM f a = .ok b) : I (done ++ xs) b := by
  induction xs generalizing done a with
  | nil =>
    obtain rfl := Except.ok.inj h
    rw [List.append_nil]
    exact h0
  | cons x xs ih =>
    rw [List.foldlM_cons] at h
    obtain ⟨c, hc, h⟩ := bind_eq_ok h
    have hrest := ih (hstep done x a c h0 hc) h
    rwa [List.append_assoc] at hrest

/-- What each round keeps, the loop keeps. -/
theorem foldlM_keeps {γ : Type} {f : α → γ → Except ε α} {I : α → Prop}
    (hstep : ∀ x a b, I a → f a x = .ok b → I b) {xs : List γ} {a b : α} (h0 : I a)
    (h : xs.foldlM f a = .ok b) : I b := by
  induction xs generalizing a with
  | nil =>
    obtain rfl := Except.ok.inj h
    exact h0
  | cons x xs ih =>
    rw [List.foldlM_cons] at h
    obtain ⟨c, hc, h⟩ := bind_eq_ok h
    exact ih (hstep x a c h0 hc) h

end Outcome
