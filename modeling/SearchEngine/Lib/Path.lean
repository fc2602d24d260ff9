import Mathlib.Data.List.Nodup
import Mathlib.Logic.Function.Basic

/-!
# Null-terminated linked lists

`Path next p xs`: from the pointer `p` the links `next` lead through exactly the
nodes `xs` to a null pointer. The nodes are given by their addresses, so the lemmas
are about any record type with a link field.
-/

namespace LinkedPath

universe u

variable {α : Type u}

/-- The links `next` lead from `p` through `xs` to null. -/
def Path (next : α → Option α) : Option α → List α → Prop
  | p, [] => p = none
  | p, x :: xs => p = some x ∧ Path next (next x) xs

variable {next next' : α → Option α} {p : Option α} {x y : α} {xs ys : List α}

@[simp] theorem path_nil : Path next p [] ↔ p = none := Iff.rfl

@[simp] theorem path_cons : Path next p (x :: xs) ↔ p = some x ∧ Path next (next x) xs := Iff.rfl

/-- Links off the path do not matter. -/
theorem Path.congr (h : Path next p xs) (hn : ∀ x ∈ xs, next' x = next x) :
    Path next' p xs := by
  induction xs generalizing p with
  | nil => exact h
  | cons x xs ih =>
    refine ⟨h.1, ?_⟩
    rw [hn x List.mem_cons_self]
    exact ih h.2 fun y hy => hn y (List.mem_cons_of_mem x hy)

/-- The links lead one way only. -/
theorem Path.unique (h : Path next p xs) (h' : Path next p ys) : xs = ys := by
  induction xs generalizing p ys with
  | nil =>
    cases ys with
    | nil => rfl
    | cons y ys => exact absurd (h.symm.trans h'.1) (by simp)
  | cons x xs ih =>
    cases ys with
    | nil => exact absurd (h'.symm.trans h.1) (by simp)
    | cons y ys =>
      obtain rfl : x = y := Option.some.inj (h.1.symm.trans h'.1)
      rw [ih h.2 h'.2]

/-- The links do not lead off the path. -/
theorem Path.next_mem (h : Path next p xs) (hx : x ∈ xs) (hy : next x = some y) : y ∈ xs := by
  induction xs generalizing p with
  | nil => cases hx
  | cons z zs ih =>
    rcases List.mem_cons.mp hx with rfl | hx
    · have hrest := h.2
      rw [hy] at hrest
      cases zs with
      | nil => cases hrest
      | cons w ws =>
        obtain rfl : y = w := Option.some.inj hrest.1
        exact List.mem_cons_of_mem _ List.mem_cons_self
    · exact List.mem_cons_of_mem z (ih h.2 hx)

/-- A node linked behind the last one extends the path. -/
theorem Path.snoc [DecidableEq α] (h : Path next p xs) (hnd : xs.Nodup) (hy : y ∉ xs)
    (hnull : next y = none)
    (hx : xs.getLast? = some x) : Path (Function.update next x (some y)) p (xs ++ [y]) := by
  induction xs generalizing p with
  | nil => cases hx
  | cons z zs ih =>
    obtain ⟨hz, hzs⟩ := List.nodup_cons.mp hnd
    refine ⟨h.1, ?_⟩
    cases zs with
    | nil =>
      obtain rfl : z = x := Option.some.inj hx
      have hne : y ≠ z := fun e => hy (e ▸ List.mem_cons_self)
      rw [Function.update_self]
      exact ⟨rfl, by rw [Function.update_of_ne hne]; exact hnull⟩
    | cons w ws =>
      have hlast : (w :: ws).getLast? = some x := by
        rw [← hx, List.getLast?_cons_cons]
      have hzx : z ≠ x := fun e => hz (e ▸ List.mem_of_getLast? hlast)
      rw [Function.update_of_ne hzx]
      exact ih h.2 hzs (fun hm => hy (List.mem_cons_of_mem z hm)) hlast

/-- The first nodes of a path are a path when the link of the last of them is cleared. -/
theorem Path.cut (h : Path next p (xs ++ ys)) (hnd : (xs ++ ys).Nodup) (hx : xs.getLast? = some x)
    (hnull : next' x = none) (hn : ∀ y ∈ xs, y ≠ x → next' y = next y) : Path next' p xs := by
  induction xs generalizing p with
  | nil => cases hx
  | cons z zs ih =>
    obtain ⟨hz, hzs⟩ := List.nodup_cons.mp hnd
    refine ⟨h.1, ?_⟩
    cases zs with
    | nil =>
      obtain rfl : z = x := Option.some.inj hx
      exact hnull
    | cons w ws =>
      rw [List.getLast?_cons_cons] at hx
      have hzx : z ≠ x := fun e => hz (e ▸ List.mem_append_left _ (List.mem_of_getLast? hx))
      rw [hn z List.mem_cons_self hzx]
      exact ih h.2 hzs hx fun y hy => hn y (List.mem_cons_of_mem z hy)

end LinkedPath
