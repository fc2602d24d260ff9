import SearchEngine.Server.Helper
import SearchEngine.Lib.Outcome
import Mathlib.Data.Nat.Basic

/-!
# The word table

What `insert` and `lookup` do with the slots of a dynamic list. `Passed` is what a probe has seen
before it stops; `insert_iff` is the exact condition under which `insert` does what it reports.
-/

namespace SearchEngine.Server

open Memory Outcome

section Insert

variable {env : Alloc} {slots : List (Option Nat)} {l : DynList} {item index k : Nat}

/-- The `tc_realloc` that never fails. -/
def Alloc.exact : Alloc where
  reallocPtrs := fun l n => some (l ++ List.replicate (n - l.length) none)
  reallocSizes := fun l n => some (l ++ List.replicate (n - l.length) 0)
  malloc := fun n => ⟨List.replicate n 0, List.length_replicate⟩

theorem Alloc.exact_keeps : Alloc.exact.Keeps := ⟨fun _ _ _ => rfl, fun _ _ _ => rfl⟩

/-- `k` is the first empty slot from `index` on. -/
structure FirstEmpty (slots : List (Option Nat)) (index k : Nat) : Prop where
  le : index ≤ k
  empty : slots[k]? = some none
  before : ∀ j, index ≤ j → j < k → ∃ item, slots[j]? = some (some item)

theorem FirstEmpty.lt (h : FirstEmpty slots index k) : k < slots.length :=
  (List.getElem?_eq_some_iff.mp h.empty).1

/-- A probe stops at the first empty slot, or at the end of the table. -/
theorem firstEmpty_spec (slots : List (Option Nat)) {index : Nat} (h : index ≤ slots.length) :
    FirstEmpty slots index (firstEmpty slots index) ∨
      (firstEmpty slots index = slots.length ∧
        ∀ j, index ≤ j → j < slots.length → ∃ item, slots[j]? = some (some item)) := by
  induction hn : slots.length - index generalizing index with
  | zero =>
    have hlen : index = slots.length := by omega
    rw [firstEmpty, if_neg (by omega)]
    exact .inr ⟨rfl, fun j hj hlt => absurd hlt (by omega)⟩
  | succ n ih =>
    have hlt : index < slots.length := by omega
    rw [firstEmpty, if_pos hlt]
    split
    · next hempty => exact .inl ⟨Nat.le_refl _, hempty, fun j hj hlt => absurd hlt (by omega)⟩
    · next hfull =>
      have hhere : ∃ item, slots[index]? = some (some item) := by
        obtain ⟨o, ho⟩ : ∃ o, slots[index]? = some o := ⟨_, List.getElem?_eq_getElem hlt⟩
        cases o with
        | none => exact absurd ho hfull
        | some item => exact ⟨item, ho⟩
      rcases ih (show index + 1 ≤ slots.length by omega) (by omega) with hfirst | ⟨hend, hall⟩
      · refine .inl ⟨Nat.le_of_succ_le hfirst.le, hfirst.empty, fun j hj hjk => ?_⟩
        rcases Nat.eq_or_lt_of_le hj with rfl | hj
        · exact hhere
        · exact hfirst.before j hj hjk
      · refine .inr ⟨hend, fun j hj hjk => ?_⟩
        rcases Nat.eq_or_lt_of_le hj with rfl | hj
        · exact hhere
        · exact hall j hj hjk

theorem FirstEmpty.unique {k' : Nat} (h : FirstEmpty slots index k)
    (h' : FirstEmpty slots index k') : k = k' := by
  rcases Nat.lt_trichotomy k k' with hlt | rfl | hlt
  · obtain ⟨item, hitem⟩ := h'.before k h.le hlt
    rw [h.empty] at hitem
    cases hitem
  · rfl
  · obtain ⟨item, hitem⟩ := h.before k' h'.le hlt
    rw [h'.empty] at hitem
    cases hitem

theorem FirstEmpty.eq (h : FirstEmpty slots index k) : firstEmpty slots index = k := by
  rcases firstEmpty_spec slots (h.le.trans h.lt.le) with hfirst | ⟨-, hall⟩
  · exact hfirst.unique h
  · obtain ⟨item, hitem⟩ := hall k h.le h.lt
    rw [h.empty] at hitem
    cases hitem

/-- The list that `insert` works on. -/
def DynList.grown (l : DynList) : DynList :=
  if l.physLen ≤ l.lastIndex then { l with dynList := l.dynList ++ List.replicate l.physLen none }
  else l

theorem resizeDyn_eq (henv : env.Keeps) (l : DynList) :
    resizeDyn env l = (1, { l with dynList := l.dynList ++ List.replicate l.physLen none }) := by
  rw [resizeDyn, henv.ptrs _ _ (by rw [DynList.physLen]; omega)]
  simp only [DynList.physLen, Nat.mul_two, Nat.add_sub_cancel]

/-- `insert`, when `tc_realloc` does not fail if it is called. -/
theorem insertDyn_eq (henv : l.physLen ≤ l.lastIndex → env.Keeps) (item index : Nat) :
    insertDyn env l item index =
      if l.grown.physLen ≤ index then (-1, l.grown)
      else (if l.physLen ≤ l.lastIndex then EXTEND else 1, {
        dynList := l.grown.dynList.set (firstEmpty l.grown.dynList index) (some item)
        lastIndex := if l.lastIndex < firstEmpty l.grown.dynList index then
          firstEmpty l.grown.dynList index + 1 else l.lastIndex }) := by
  rw [insertDyn, DynList.grown]
  by_cases h : l.physLen ≤ l.lastIndex
  · simp only [if_pos h, resizeDyn_eq (henv h)]
  · simp only [if_neg h]

/-- The item is stored in the first empty slot from `index` on and in no other, and that is
reported. -/
def Stores (l : DynList) (item index : Nat) (r : Int × DynList) : Prop :=
  0 < r.1 ∧ ∃ k, FirstEmpty l.grown.dynList index k ∧
    r.2.dynList = l.grown.dynList.set k (some item)

/-- `insert` reports what it has done, and stores an item that is to be put into a table with an
empty slot. -/
structure InsertReports (l : DynList) (item index : Nat) (r : Int × DynList) : Prop where
  report : Stores l item index r ∨ r = (-1, l)
  room : index < l.physLen → (∃ j : Nat, l.dynList[j]? = some none) → Stores l item index r

theorem DynList.grown_of_lt (h : l.lastIndex < l.physLen) : l.grown = l := by
  rw [DynList.grown, if_neg (Nat.not_le.mpr h)]

theorem DynList.grown_of_le (h : l.physLen ≤ l.lastIndex) :
    l.grown = { l with dynList := l.dynList ++ List.replicate l.physLen none } := by
  rw [DynList.grown, if_pos h]

theorem DynList.grown_eq_iff : l.grown = l ↔ l.physLen = 0 ∨ l.lastIndex < l.physLen := by
  by_cases h : l.physLen ≤ l.lastIndex
  · rw [DynList.grown_of_le h]
    constructor
    · intro he
      have hlen := congrArg (fun l => l.dynList.length) he
      simp only [List.length_append, List.length_replicate] at hlen
      exact .inl (by omega)
    · rintro (hzero | hlt)
      · rw [hzero, List.replicate_zero, List.append_nil]
      · exact absurd h (Nat.not_le.mpr hlt)
  · rw [DynList.grown_of_lt (Nat.lt_of_not_le h)]
    exact ⟨fun _ => .inr (Nat.lt_of_not_le h), fun _ => rfl⟩

theorem DynList.physLen_le_grown (l : DynList) : l.physLen ≤ l.grown.physLen := by
  rw [DynList.grown]
  split
  · rw [DynList.physLen, DynList.physLen, List.length_append]
    exact Nat.le_add_right _ _
  · exact Nat.le_refl _

/-- An item that finds an empty slot is stored. -/
theorem insertDyn_stores (henv : l.physLen ≤ l.lastIndex → env.Keeps) (item : Nat)
    (h : FirstEmpty l.grown.dynList index k) :
    insertDyn env l item index = (if l.physLen ≤ l.lastIndex then EXTEND else 1, {
      dynList := l.grown.dynList.set k (some item)
      lastIndex := if l.lastIndex < k then k + 1 else l.lastIndex }) := by
  have hlt : ¬ l.grown.physLen ≤ index := Nat.not_le.mpr (Nat.lt_of_le_of_lt h.le h.lt)
  rw [insertDyn_eq henv, if_neg hlt, h.eq]

/-- `insert` does what it reports exactly if a slot from `index` on is empty, when the list has
grown, or it refuses the index without growing the list. -/
theorem insert_iff (henv : env.Keeps) (l : DynList) (item index : Nat) :
    InsertReports l item index (insertDyn env l item index) ↔
      (∃ k, index ≤ k ∧ l.grown.dynList[k]? = some none) ∨
        (l.physLen ≤ index ∧ (l.physLen = 0 ∨ l.lastIndex < l.physLen)) := by
  constructor
  · rintro ⟨⟨-, k, hfirst, -⟩ | hrefused, -⟩
    · exact .inl ⟨k, hfirst.le, hfirst.empty⟩
    · rw [insertDyn_eq fun _ => henv] at hrefused
      split at hrefused
      · next hindex =>
        have hgrown : l.grown = l := (Prod.mk.inj hrefused).2
        exact .inr ⟨l.physLen_le_grown.trans hindex, DynList.grown_eq_iff.mp hgrown⟩
      · have hret := (Prod.mk.inj hrefused).1
        split at hret <;> cases hret
  · intro h
    by_cases hempty : ∃ k, index ≤ k ∧ l.grown.dynList[k]? = some none
    · obtain ⟨k, hle, hk⟩ := hempty
      have hlt : k < l.grown.dynList.length := (List.getElem?_eq_some_iff.mp hk).1
      have hfirst : FirstEmpty l.grown.dynList index (firstEmpty l.grown.dynList index) := by
        rcases firstEmpty_spec l.grown.dynList (hle.trans hlt.le) with hfirst | ⟨-, hall⟩
        · exact hfirst
        · obtain ⟨item', hitem⟩ := hall k hle hlt
          rw [hk] at hitem
          cases hitem
      have hstores : Stores l item index (insertDyn env l item index) := by
        rw [insertDyn_stores (fun _ => henv) item hfirst]
        refine ⟨?_, _, hfirst, rfl⟩
        simp only
        split <;> decide
      exact ⟨.inl hstores, fun _ _ => hstores⟩
    · obtain ⟨hindex, hgrows⟩ := h.resolve_left hempty
      have hgrown := DynList.grown_eq_iff.mpr hgrows
      refine ⟨.inr ?_, fun hlt => absurd hlt (Nat.not_lt.mpr hindex)⟩
      rw [insertDyn_eq fun _ => henv, hgrown, if_pos hindex]

/-- A table that grows for the item. -/
theorem insert_iff_grown :
    InsertReports ⟨3, [some 4, none, some 6]⟩ 7 2
    (insertDyn .exact ⟨3, [some 4, none, some 6]⟩ 7 2) ↔
      (∃ k, 2 ≤ k ∧ (DynList.grown ⟨3, [some 4, none, some 6]⟩).dynList[k]? = some none) ∨
        (3 ≤ 2 ∧ (3 = 0 ∨ 3 < 3)) :=
  insert_iff Alloc.exact_keeps ⟨3, [some 4, none, some 6]⟩ 7 2

/-- An item whose probe starts behind the last empty slot is lost, and reported as stored. -/
theorem insert_lost :
    ¬ InsertReports ⟨0, [none, some 3]⟩ 7 1 (insertDyn .exact ⟨0, [none, some 3]⟩ 7 1) := by
  intro h
  obtain ⟨-, k, hfirst, -⟩ := h.room (by decide) ⟨0, rfl⟩
  obtain ⟨hle, hempty, -⟩ := hfirst
  rw [DynList.grown_of_lt (by decide)] at hempty
  match k with
  | 0 => exact absurd hle (by decide)
  | 1 => cases hempty
  | k + 2 => cases hempty

end Insert

section Lookup

variable {words : List Word} {l : DynList} {str : List UInt8} {index item k : Nat}

/-- The string of an item is compared equal. -/
def Matches (words : List Word) (str : List UInt8) (item : Nat) : Prop :=
  ∃ word, words[item]? = some word ∧ strCompare word.str str DYN_SIZE = 0

/-- The probe from `index` on passes over every slot before `k`: it holds a word with another
string. -/
def Passed (words : List Word) (l : DynList) (str : List UInt8) (index k : Nat) : Prop :=
  ∀ j, index ≤ j → j < k → ∃ item word, l.dynList[j]? = some (some item) ∧
    words[item]? = some word ∧ strCompare word.str str DYN_SIZE ≠ 0

theorem Passed.refl : Passed words l str k k :=
  fun _ hj hlt => absurd hlt (Nat.not_lt.mpr hj)

theorem Passed.cons {word : Word} (hitem : l.dynList[index]? = some (some item))
    (hword : words[item]? = some word) (hne : strCompare word.str str DYN_SIZE ≠ 0)
    (h : Passed words l str (index + 1) k) : Passed words l str index k := by
  intro j hj hlt
  rcases Nat.eq_or_lt_of_le hj with rfl | hj
  · exact ⟨item, word, hitem, hword, hne⟩
  · exact h j hj hlt

/-- What `lookup` has seen when it returns. -/
theorem lookup_ok {o : Option Nat} (h : lookup words l str index = .ok o) :
    ∃ k, index ≤ k ∧ l.dynList[k]? = some o ∧ Passed words l str index k ∧
      ∀ item ∈ o, Matches words str item := by
  induction hn : l.dynList.length - index generalizing index with
  | zero =>
    have hnone : l.dynList[index]? = none := List.getElem?_eq_none (by omega)
    rw [lookup] at h
    split at h
    · cases h
    · next heq => cases heq.symm.trans hnone
    · next heq => cases heq.symm.trans hnone
  | succ n ih =>
    rw [lookup] at h
    split at h
    · cases h
    · next heq =>
      obtain rfl := Except.ok.inj h
      exact ⟨index, Nat.le_refl _, heq, .refl, by simp⟩
    · next item heq =>
      split at h
      · cases h
      · next word hword =>
        split at h
        · next hzero =>
          obtain rfl := Except.ok.inj h
          refine ⟨index, Nat.le_refl _, heq, .refl, ?_⟩
          rintro _ ⟨⟩
          exact ⟨word, hword, hzero⟩
        · next hne =>
          obtain ⟨k, hle, hk, hpassed, hmatch⟩ := ih h (by omega)
          exact ⟨k, Nat.le_of_succ_le hle, hk, .cons heq hword hne hpassed, hmatch⟩

/-- What `lookup` returns when it stops at slot `k`. -/
theorem lookup_of_passed {o : Option Nat} (hle : index ≤ k) (hk : l.dynList[k]? = some o)
    (hpassed : Passed words l str index k) (hmatch : ∀ item ∈ o, Matches words str item) :
    lookup words l str index = .ok o := by
  induction hn : k - index generalizing index with
  | zero =>
    obtain rfl : index = k := by omega
    rw [lookup]
    cases o with
    | none =>
      split
      · next heq => cases heq.symm.trans hk
      · rfl
      · next heq => cases heq.symm.trans hk
    | some item =>
      obtain ⟨word, hword, hzero⟩ := hmatch item rfl
      split
      · next heq => cases heq.symm.trans hk
      · next heq => cases heq.symm.trans hk
      · next item' heq =>
        obtain rfl := Option.some.inj (Option.some.inj (heq.symm.trans hk))
        simp only [hword, if_pos hzero]
  | succ n ih =>
    obtain ⟨item, word, hitem, hword, hne⟩ := hpassed index (Nat.le_refl _) (by omega)
    have hrest : Passed words l str (index + 1) k :=
      fun j hj hlt => hpassed j (Nat.le_of_succ_le hj) hlt
    rw [lookup]
    split
    · next heq => cases heq.symm.trans hitem
    · next heq => cases heq.symm.trans hitem
    · next item' heq =>
      obtain rfl := Option.some.inj (Option.some.inj (heq.symm.trans hitem))
      simp only [hword, if_neg hne]
      exact ih (by omega) hrest (by omega)

/-- A `lookup` that finds nothing has found the first empty slot. -/
theorem lookup_none (h : lookup words l str index = .ok none) :
    ∃ k, FirstEmpty l.dynList index k ∧ Passed words l str index k := by
  obtain ⟨k, hle, hk, hpassed, -⟩ := lookup_ok h
  refine ⟨k, ⟨hle, hk, fun j hj hlt => ?_⟩, hpassed⟩
  obtain ⟨item, -, hitem, -⟩ := hpassed j hj hlt
  exact ⟨item, hitem⟩

end Lookup

end SearchEngine.Server
