import Mathlib.Logic.Function.Basic
import SearchEngine.Lib.Simulation

/-!
# What an allocator is for

The users of an allocator see blocks of bytes. A thread asks for a block and is given one that
overlaps no block anyone has, with at least the bytes it asked for; a block is its users' until
they give it back, and its bytes change when they write them. Nothing else is seen, and what the
bytes outside the blocks are is nobody's business. `Step` says this for any number of threads,
each of which has at most one request pending.
-/

namespace BlockStore

variable {θ β : Type}

/-- What the users know. -/
structure Store (θ β : Type) where
  /-- the size of the block at an address -/
  size : Nat → Option Nat
  /-- the bytes -/
  byte : Nat → β
  /-- what a thread has asked for -/
  asked : θ → Option Nat

/-- What the users do and see. -/
inductive Deed (θ β : Type) where
  | ask (t : θ) (n : Nat)
  | give (t : θ) (p : Nat)
  | free (p : Nat)
  | write (a : Nat) (v : β)

/-- The byte at `a` is in a block. -/
def Store.Live (s : Store θ β) (a : Nat) : Prop := ∃ p n, s.size p = some n ∧ p ≤ a ∧ a < p + n

/-- The `n` bytes from `p` on are in no block, and no block is at `p`. -/
def Store.Free (s : Store θ β) (p n : Nat) : Prop :=
  s.size p = none ∧ ∀ a, p ≤ a → a < p + n → ¬ s.Live a

/-- The users cannot tell the two apart. -/
structure Store.Agrees (s s' : Store θ β) : Prop where
  size : s.size = s'.size
  asked : s.asked = s'.asked
  byte : ∀ a, s.Live a → s.byte a = s'.byte a

variable [DecidableEq θ]

/-- A step of the store. -/
inductive Step (s : Store θ β) : List (Deed θ β) → Store θ β → Prop
  | ask {t : θ} {n : Nat} (idle : s.asked t = none) :
      Step s [.ask t n] { s with asked := Function.update s.asked t (some n) }
  /-- the bytes of the new block are arbitrary -/
  | give {t : θ} {n p : Nat} {byte : Nat → β} (asked : s.asked t = some n) (new : s.Free p n)
      (kept : ∀ a, s.Live a → byte a = s.byte a) :
      Step s [.give t p]
        ⟨Function.update s.size p (some n), byte, Function.update s.asked t none⟩
  | free {p n : Nat} (block : s.size p = some n) :
      Step s [.free p] { s with size := Function.update s.size p none }
  | write {a : Nat} {v : β} (block : s.Live a) :
      Step s [.write a v] { s with byte := Function.update s.byte a v }

end BlockStore
