import Mathlib.Data.Set.Basic
import Mathlib.Order.Basic

/-!
# Locks that are taken in an order

Threads hold locks and wait for locks. If a thread that holds a lock waits only for locks that may
be taken inside of it, and no chain of locks is taken one inside of the other for ever, then no set
of threads waits for itself.
-/

namespace LockOrder

universe u v

variable {Thread : Type u} {Lock : Type v} {holds waits : Thread → Lock → Prop}
  {inside : Lock → Lock → Prop} {W : Set Thread}

/-- Each thread of the set waits for a lock that a member of the set holds. -/
def CircularWait (holds waits : Thread → Lock → Prop) (W : Set Thread) : Prop :=
  W.Nonempty ∧ ∀ t ∈ W, ∃ l, waits t l ∧ ∃ t' ∈ W, holds t' l

/-- Locks are taken in an order. -/
def Ordered (holds waits : Thread → Lock → Prop) (inside : Lock → Lock → Prop) : Prop :=
  ∀ t l l', holds t l → waits t l' → inside l' l

/-- No member of a set that waits for itself holds a lock. -/
theorem CircularWait.not_holds (hwf : WellFounded inside) (hord : Ordered holds waits inside)
    (hW : CircularWait holds waits W) (l : Lock) : ∀ t ∈ W, ¬ holds t l := by
  induction l using hwf.induction with
  | h l ih =>
    intro t ht hl
    obtain ⟨l', hwait, t', ht', hl'⟩ := hW.2 t ht
    exact ih l' (hord t l l' hl hwait) t' ht' hl'

theorem Ordered.not_circularWait (hwf : WellFounded inside) (hord : Ordered holds waits inside)
    (W : Set Thread) : ¬ CircularWait holds waits W := by
  intro hW
  obtain ⟨t, ht⟩ := hW.1
  obtain ⟨l, -, t', ht', hl⟩ := hW.2 t ht
  exact hW.not_holds hwf hord l t' ht' hl

end LockOrder
