import Mathlib.Data.List.Nodup
import Mathlib.Data.List.Perm.Basic
import Mathlib.Logic.Function.Basic

/-!
# Items kept in places

`f : ι → List α` lists what each place holds. `Placed f`: no place holds an item
twice and no item is in two places. The moves of a system that hands items from
place to place keep `Placed`; they are stated up to the order inside a place.
-/

namespace Placement

variable {ι α : Type} [DecidableEq ι]

/-- Every item is in at most one place, and there at most once. -/
structure Placed (f : ι → List α) : Prop where
  nodup : ∀ p, (f p).Nodup
  unique : ∀ {p q x}, x ∈ f p → x ∈ f q → p = q

namespace Placed

variable {f g : ι → List α} {p q : ι} {x : α}

omit [DecidableEq ι] in
/-- Reordering inside places. -/
theorem perm (h : Placed f) (hg : ∀ p, (g p).Perm (f p)) : Placed g :=
  ⟨fun p => (hg p).nodup_iff.mpr (h.nodup p),
    fun hp hq => h.unique ((hg _).mem_iff.mp hp) ((hg _).mem_iff.mp hq)⟩

omit [DecidableEq ι] in
/-- Dropping items. -/
theorem sublist (h : Placed f) (hg : ∀ p, (g p).Sublist (f p)) : Placed g :=
  ⟨fun p => (h.nodup p).sublist (hg p),
    fun hp hq => h.unique ((hg _).subset hp) ((hg _).subset hq)⟩

/-- A new item enters one place. -/
theorem insert (h : Placed f) (hx : ∀ p, x ∉ f p) :
    Placed (Function.update f q (x :: f q)) := by
  refine ⟨fun p => ?_, ?_⟩
  · by_cases hp : p = q
    · subst hp
      simpa using ⟨hx p, h.nodup p⟩
    · simpa [hp] using h.nodup p
  · intro p p' y hp hp'
    have key : ∀ r, y ∈ Function.update f q (x :: f q) r → (y = x ∧ r = q) ∨ y ∈ f r := by
      intro r hr
      by_cases hrq : r = q
      · subst hrq
        rw [Function.update_self, List.mem_cons] at hr
        exact hr.imp (fun e => ⟨e, rfl⟩) id
      · rw [Function.update_of_ne hrq] at hr
        exact Or.inr hr
    rcases key p hp with ⟨rfl, rfl⟩ | h1 <;> rcases key p' hp' with ⟨e, rfl⟩ | h2
    · rfl
    · exact absurd h2 (hx p')
    · exact absurd (e ▸ h1) (hx p)
    · exact h.unique h1 h2

/-- Where an item is after the items `m` have moved from `p`, where `r` stays behind, to
`q`, which then holds `l`. -/
theorem mem_of_move {m r l : List α} (h : Placed f) (hpq : p ≠ q) (hp : (f p).Perm (m ++ r))
    (hq : l.Perm (m ++ f q)) {a : ι} {y : α}
    (hy : y ∈ Function.update (Function.update f p r) q l a) :
    (a = q ∧ y ∈ m) ∨ (y ∈ f a ∧ y ∉ m) := by
  have hnp : (m ++ r).Nodup := hp.nodup_iff.mp (h.nodup p)
  have hm : ∀ y ∈ m, y ∈ f p := fun y hy => hp.mem_iff.mpr (List.mem_append_left _ hy)
  by_cases haq : a = q
  · subst haq
    rw [Function.update_self] at hy
    rcases List.mem_append.mp (hq.mem_iff.mp hy) with hy | hy
    · exact Or.inl ⟨rfl, hy⟩
    · exact Or.inr ⟨hy, fun hym => hpq (h.unique (hm y hym) hy)⟩
  · rw [Function.update_of_ne haq] at hy
    by_cases hap : a = p
    · subst hap
      rw [Function.update_self] at hy
      exact Or.inr ⟨hp.mem_iff.mpr (List.mem_append_right _ hy),
        fun hym => (List.nodup_append.mp hnp).2.2 y hym y hy rfl⟩
    · rw [Function.update_of_ne hap] at hy
      exact Or.inr ⟨hy, fun hym => hap (h.unique hy (hm y hym))⟩

/-- The items `m` move from `p` to `q`. -/
theorem move {m r l : List α} (h : Placed f) (hpq : p ≠ q) (hp : (f p).Perm (m ++ r))
    (hq : l.Perm (m ++ f q)) :
    Placed (Function.update (Function.update f p r) q l) := by
  have hnp : (m ++ r).Nodup := hp.nodup_iff.mp (h.nodup p)
  have hm : ∀ y ∈ m, y ∈ f p := fun y hy => hp.mem_iff.mpr (List.mem_append_left _ hy)
  refine ⟨fun a => ?_, ?_⟩
  · by_cases haq : a = q
    · subst haq
      rw [Function.update_self, hq.nodup_iff, List.nodup_append]
      refine ⟨(List.nodup_append.mp hnp).1, h.nodup a, fun y hy z hz e => ?_⟩
      subst e
      exact hpq (h.unique (hm y hy) hz)
    · rw [Function.update_of_ne haq]
      by_cases hap : a = p
      · subst hap
        rw [Function.update_self]
        exact (List.nodup_append.mp hnp).2.1
      · rw [Function.update_of_ne hap]
        exact h.nodup a
  · intro a b y ha hb
    rcases h.mem_of_move hpq hp hq ha with ⟨rfl, h1⟩ | ⟨h1, h1'⟩ <;>
      rcases h.mem_of_move hpq hp hq hb with ⟨rfl, h2⟩ | ⟨h2, h2'⟩
    · rfl
    · exact absurd h1 h2'
    · exact absurd h2 h1'
    · exact h.unique h1 h2

/-- New items `m` enter the place `q`. -/
theorem add {m l : List α} (h : Placed f) (hm : m.Nodup) (hnew : ∀ y ∈ m, ∀ p, y ∉ f p)
    (hq : l.Perm (m ++ f q)) : Placed (Function.update f q l) := by
  have key : ∀ a y, y ∈ Function.update f q l a → (a = q ∧ y ∈ m) ∨ y ∈ f a := by
    intro a y hy
    by_cases haq : a = q
    · subst haq
      rw [Function.update_self] at hy
      exact (List.mem_append.mp (hq.mem_iff.mp hy)).imp (fun h => ⟨rfl, h⟩) id
    · rw [Function.update_of_ne haq] at hy
      exact Or.inr hy
  refine ⟨fun a => ?_, ?_⟩
  · by_cases haq : a = q
    · subst haq
      rw [Function.update_self, hq.nodup_iff, List.nodup_append]
      refine ⟨hm, h.nodup a, fun y hy z hz e => hnew y hy a (e ▸ hz)⟩
    · rw [Function.update_of_ne haq]
      exact h.nodup a
  · intro a b y ha hb
    rcases key a y ha with ⟨rfl, h1⟩ | h1 <;> rcases key b y hb with ⟨rfl, h2⟩ | h2
    · rfl
    · exact absurd h2 (hnew y h1 b)
    · exact absurd h1 (hnew y h2 a)
    · exact h.unique h1 h2

/-- The items of `p` go to the places that `dest` names. -/
theorem scatter (h : Placed f) (dest : α → ι) (hgp : g p = [])
    (hg : ∀ q, q ≠ p → (g q).Perm ((f p).filter (fun x => dest x = q) ++ f q)) : Placed g := by
  have key : ∀ a y, y ∈ g a → (y ∈ f p ∧ dest y = a ∧ a ≠ p) ∨ (y ∈ f a ∧ a ≠ p) := by
    intro a y hy
    by_cases hap : a = p
    · subst hap
      rw [hgp] at hy
      cases hy
    · rcases List.mem_append.mp ((hg a hap).mem_iff.mp hy) with hy | hy
      · obtain ⟨h1, h2⟩ := List.mem_filter.mp hy
        exact Or.inl ⟨h1, by simpa using h2, hap⟩
      · exact Or.inr ⟨hy, hap⟩
  refine ⟨fun a => ?_, ?_⟩
  · by_cases hap : a = p
    · subst hap
      rw [hgp]
      exact List.nodup_nil
    · rw [(hg a hap).nodup_iff, List.nodup_append]
      refine ⟨(h.nodup p).filter _, h.nodup a, fun y hy z hz e => ?_⟩
      subst e
      exact hap (h.unique hz (List.mem_filter.mp hy).1)
  · intro a b y ha hb
    rcases key a y ha with ⟨h1, rfl, ha'⟩ | ⟨h1, ha'⟩ <;>
      rcases key b y hb with ⟨h2, rfl, hb'⟩ | ⟨h2, hb'⟩
    · rfl
    · exact absurd (h.unique h2 h1) hb'
    · exact absurd (h.unique h1 h2) ha'
    · exact h.unique h1 h2

omit [DecidableEq ι] in
/-- An item of one place is in no other. -/
theorem not_mem_of_ne (h : Placed f) (hx : x ∈ f p) (hpq : p ≠ q) : x ∉ f q :=
  fun hq => hpq (h.unique hx hq)

end Placed

/-- Items that enter the `j`-th of `n` lists are added to all of them together. -/
theorem flatMap_range_insert {g g' : Nat → List α} {m : List α} {j n : Nat} (hj : j < n)
    (hother : ∀ i, i ≠ j → g' i = g i) (hself : (g' j).Perm (m ++ g j)) :
    ((List.range n).flatMap g').Perm (m ++ (List.range n).flatMap g) := by
  induction n with
  | zero => exact absurd hj (Nat.not_lt_zero j)
  | succ n ih =>
    rw [List.range_succ, List.flatMap_append, List.flatMap_append, List.flatMap_singleton,
      List.flatMap_singleton]
    by_cases hjn : j = n
    · subst hjn
      have hinit : (List.range j).flatMap g' = (List.range j).flatMap g :=
        List.flatMap_congr fun i hi => hother i (Nat.ne_of_lt (List.mem_range.mp hi))
      rw [hinit]
      refine (List.Perm.append_left _ hself).trans ?_
      rw [← List.append_assoc, ← List.append_assoc]
      exact List.perm_append_comm.append_right _
    · rw [hother n (Ne.symm hjn), ← List.append_assoc]
      exact (ih (by omega)).append_right _

/-- A move loses no item. -/
theorem exists_mem_move {f : ι → List α} {p q : ι} {m r l : List α} (hpq : p ≠ q)
    (hp : (f p).Perm (m ++ r)) (hq : l.Perm (m ++ f q)) {a : ι} {y : α} (hy : y ∈ f a) :
    ∃ b, y ∈ Function.update (Function.update f p r) q l b := by
  by_cases haq : a = q
  · subst haq
    exact ⟨a, by rw [Function.update_self]; exact hq.mem_iff.mpr (List.mem_append_right _ hy)⟩
  · by_cases hap : a = p
    · subst hap
      rcases List.mem_append.mp (hp.mem_iff.mp hy) with hy | hy
      · exact ⟨q, by rw [Function.update_self]; exact hq.mem_iff.mpr (List.mem_append_left _ hy)⟩
      · exact ⟨a, by rw [Function.update_of_ne hpq, Function.update_self]; exact hy⟩
    · exact ⟨a, by rw [Function.update_of_ne haq, Function.update_of_ne hap]; exact hy⟩

end Placement
