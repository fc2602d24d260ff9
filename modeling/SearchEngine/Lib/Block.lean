import Mathlib.Data.List.Basic
import Mathlib.Data.List.TakeDrop

/-!
# Blocks of memory with a fixed size

A `Block` carries the proof that it still has the size it was allocated with; `write` stores
a run of elements at an offset and answers `none` when one of them would lie outside. An
offset may be negative, as an index in C may be.
-/

namespace Memory

universe u

variable {α : Type u} {cap : Nat}

/-- A block of `cap` elements. -/
structure Block (α : Type u) (cap : Nat) where
  data : List α
  length_eq : data.length = cap

/-- The block after the elements `xs` are stored from offset `off` on. -/
def Block.write (off : Int) (xs : List α) (b : Block α cap) : Option (Block α cap) :=
  if h : 0 ≤ off ∧ off.toNat + xs.length ≤ cap then
    some ⟨b.data.take off.toNat ++ xs ++ b.data.drop (off.toNat + xs.length), by
      have hlen := b.length_eq
      simp only [List.length_append, List.length_take, List.length_drop]
      omega⟩
  else none

theorem Block.ext {b c : Block α cap} (h : b.data = c.data) : b = c := by
  cases b
  cases c
  congr

theorem Block.write_eq_none {off : Int} {xs : List α} {b : Block α cap} :
    b.write off xs = none ↔ off < 0 ∨ cap < off.toNat + xs.length := by
  rw [Block.write]
  split <;> simp only [reduceCtorEq, false_iff, true_iff] <;> omega

theorem Block.write_natCast (b : Block α cap) (n : Nat) (xs : List α) (h : n + xs.length ≤ cap) :
    ∃ c, b.write n xs = some c ∧ c.data = b.data.take n ++ xs ++ b.data.drop (n + xs.length) := by
  rw [Block.write, dif_pos (show 0 ≤ (n : Int) ∧ (n : Int).toNat + xs.length ≤ cap by omega)]
  exact ⟨_, rfl, rfl⟩

/-- Storing nothing changes nothing. -/
theorem Block.write_nil {n : Nat} {b : Block α cap} (h : n ≤ cap) :
    b.write n [] = some b := by
  obtain ⟨c, hc, hdata⟩ := Block.write_natCast b n [] (by simpa using h)
  rw [hc]
  congr 1
  exact Block.ext (by rw [hdata]; simp)

/-- Two runs stored one behind the other are one run. -/
theorem Block.write_append (b : Block α cap) (n : Nat) (xs ys : List α) :
    (b.write n xs).bind (fun c => c.write (n + xs.length : Nat) ys) = b.write n (xs ++ ys) := by
  have hlen := b.length_eq
  by_cases h : n + (xs ++ ys).length ≤ cap
  · rw [List.length_append] at h
    obtain ⟨c, hc, hcdata⟩ := Block.write_natCast b n xs (by omega)
    obtain ⟨d, hd, hddata⟩ := Block.write_natCast c (n + xs.length) ys (by omega)
    obtain ⟨e, he, hedata⟩ := Block.write_natCast b n (xs ++ ys)
      (by rw [List.length_append]; omega)
    rw [hc, he, Option.bind_some, hd]
    congr 1
    refine Block.ext ?_
    have hpre : (b.data.take n ++ xs).length = n + xs.length := by
      simp only [List.length_append, List.length_take]
      omega
    rw [hddata, hedata, hcdata, List.take_left' hpre, ← List.drop_drop, List.drop_left' hpre]
    simp only [List.append_assoc, List.length_append, List.drop_drop, Nat.add_assoc]
  · rw [List.length_append] at h
    have hnone : b.write n (xs ++ ys) = none := by
      refine Block.write_eq_none.mpr (.inr ?_)
      rw [List.length_append]
      simp only [Int.toNat_natCast]
      omega
    rw [hnone]
    cases hc : b.write n xs with
    | none => rfl
    | some c =>
      exact Block.write_eq_none.mpr (.inr (by simp only [Int.toNat_natCast]; omega))

end Memory
