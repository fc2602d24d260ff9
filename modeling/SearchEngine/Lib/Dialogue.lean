import SearchEngine.Lib.Outcome

/-!
# Programs that converse with a device

A `Dialogue` asks its device for one operation after the other, and goes on with the answers.
`Dialogue.run` holds a conversation with a device that does nothing else meanwhile. In a system in
which other things happen between two operations, `OnTrack` is the invariant of a conversation:
what is left of it, with the device as it is now, ends as the whole of it would have ended.
-/

namespace Outcome

/-- A program with the operations `Op`; `Answer op` is what the device can answer to `op`. -/
inductive Dialogue (Op : Type) (Answer : Op → Type) (ε α : Type) where
  | ret (a : α)
  | fail (e : ε)
  | ask (op : Op) (next : Answer op → Dialogue Op Answer ε α)

namespace Dialogue

variable {Op : Type} {Answer : Op → Type} {ε α β σ : Type}

protected def bind : Dialogue Op Answer ε α → (α → Dialogue Op Answer ε β) → Dialogue Op Answer ε β
  | .ret a, f => f a
  | .fail e, _ => .fail e
  | .ask op next, f => .ask op fun x => (next x).bind f

instance : Monad (Dialogue Op Answer ε) where
  pure := .ret
  bind := .bind

/-- A step of the program itself. -/
def lift : Except ε α → Dialogue Op Answer ε α
  | .ok a => .ret a
  | .error e => .fail e

/-- A device answers and is in another state. -/
abbrev Device (Answer : Op → Type) (σ : Type) := (op : Op) → σ → Answer op × σ

variable (device : Device Answer σ) {s s₀ : σ} {a : α} {e : ε}

/-- The conversation. -/
def run : Dialogue Op Answer ε α → σ → Except ε (α × σ)
  | .ret a, s => .ok (a, s)
  | .fail e, _ => .error e
  | .ask op next, s => run (next (device op s).1) (device op s).2

@[simp] theorem run_ret : (ret a : Dialogue Op Answer ε α).run device s = .ok (a, s) := rfl

@[simp] theorem run_pure : (pure a : Dialogue Op Answer ε α).run device s = .ok (a, s) := rfl

@[simp] theorem run_fail : (fail e : Dialogue Op Answer ε α).run device s = .error e := rfl

@[simp] theorem run_ask {op : Op} {next : Answer op → Dialogue Op Answer ε α} :
    (ask op next).run device s = (next (device op s).1).run device (device op s).2 := rfl

theorem run_bind (p : Dialogue Op Answer ε α) (f : α → Dialogue Op Answer ε β) (s : σ) :
    (p >>= f).run device s = p.run device s >>= fun x => (f x.1).run device x.2 := by
  induction p generalizing s with
  | ret a => rfl
  | fail e => rfl
  | ask op next ih => exact ih _ _

theorem run_lift (x : Except ε α) (s : σ) :
    (lift x : Dialogue Op Answer ε α).run device s = x.map (·, s) := by
  cases x <;> rfl

/-! ## Conversations that are interrupted -/

/-- The rest `p` of the conversation `p₀`, which began in the state `s₀` of the device. -/
def OnTrack (p₀ : Dialogue Op Answer ε α) (s₀ : σ) (p : Dialogue Op Answer ε α) (s : σ) : Prop :=
  p.run device s = p₀.run device s₀

variable {device} {p₀ : Dialogue Op Answer ε α}

theorem OnTrack.start : OnTrack device p₀ s₀ p₀ s₀ := rfl

/-- The next operation. -/
theorem OnTrack.ask {op : Op} {next : Answer op → Dialogue Op Answer ε α}
    (h : OnTrack device p₀ s₀ (.ask op next) s) :
    OnTrack device p₀ s₀ (next (device op s).1) (device op s).2 := h

theorem OnTrack.ret (h : OnTrack device p₀ s₀ (.ret a) s) : p₀.run device s₀ = .ok (a, s) := h.symm

theorem OnTrack.fail (h : OnTrack device p₀ s₀ (.fail e) s) : p₀.run device s₀ = .error e := h.symm

end Dialogue

end Outcome
