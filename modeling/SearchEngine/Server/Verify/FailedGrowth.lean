import SearchEngine.Server.Verify.Handle

/-!
# When a list cannot grow

`insert` does not look at the result of `resize`. After a failed growth it goes on with the list
as it was: a `LINKLIST` is written behind its end, and a `DYNLIST` reports `EXTEND`, unless
the index is behind its end as well (`failedGrowth_iff`). `parse` never returns `-1`
(`parseWord_flag`).
-/

namespace SearchEngine.Server

open Memory Outcome

section FailedGrowth

variable {env : Alloc}

/-- The places where a list may have to grow. -/
inductive Growing where
  /-- a call of `insert` for a `DYNLIST` -/
  | dyn (l : DynList) (item index : Nat)
  /-- a call of `insert` for a `LINKLIST` -/
  | link (l : LinkedList) (val index : Nat)
  /-- a round of the loop of `parse` -/
  | round (ix : Index) (word : List UInt8) (docId lineNum : Nat)

/-- The table is to grow, and `tc_realloc` returns `NULL`. -/
def DynList.Starved (env : Alloc) (l : DynList) : Prop :=
  l.physLen ≤ l.lastIndex ∧ env.reallocPtrs l.dynList (l.physLen * 2) = none

def LinkedList.Starved (env : Alloc) (l : LinkedList) : Prop :=
  l.list.length ≤ l.lastIndex ∧ env.reallocSizes l.list (l.list.length + LIST_SIZE) = none

/-- `insert` needs to grow the list, and `tc_realloc` returns `NULL`; for a round of `parse`, the
`insert` that it calls. -/
def Growing.Starved (env : Alloc) : Growing → Prop
  | .dyn l _ _ => l.Starved env
  | .link l _ _ => l.Starved env
  | .round ix word docId _ =>
    (ix.find word = .ok none ∧ ix.dynlist.Starved env) ∨
      ∃ item w i doc, ix.find word = .ok (some item) ∧ ix.words[item]? = some w ∧
        lookupLink w.list docId = some i ∧ w.list[i]? = some doc ∧ doc.Starved env

/-- `insert` returns `-1` and leaves the list as it was; `parse` then returns `-1`, with the table
as it was, and with the other words where they were. -/
def Growing.Unharmed (env : Alloc) : Growing → Prop
  | .dyn l item index => insertDyn env l item index = (-1, l)
  | .link l val index => insertLink env l val index = .ok (-1, l)
  | .round ix word docId lineNum =>
    ∃ ix', parseWord env docId lineNum ix word = .ok (false, ix') ∧ ix'.dynlist = ix.dynlist ∧
      ∀ other, other ≠ word → ix'.find other = ix.find other

/-- The list is a `DYNLIST`, and the index is behind its end (as in the call of `read_dir`). -/
def Growing.Behind : Growing → Prop
  | .dyn l _ index => l.physLen ≤ index
  | .link .. => False
  | .round .. => False

theorem DynList.Starved.resize {l : DynList} (h : l.Starved env) : resizeDyn env l = (-1, l) := by
  rw [resizeDyn, h.2]

theorem LinkedList.Starved.resize {l : LinkedList} (h : l.Starved env) :
    resizeLink env l = (-1, l) := by
  rw [resizeLink, h.2]

/-- `insert` into a table that could not grow. -/
theorem insertDyn_starved {l : DynList} (h : l.Starved env) (item index : Nat) :
    insertDyn env l item index =
      if l.physLen ≤ index then (-1, l)
      else (EXTEND, {
        dynList := l.dynList.set (firstEmpty l.dynList index) (some item)
        lastIndex := if l.lastIndex < firstEmpty l.dynList index then
          firstEmpty l.dynList index + 1 else l.lastIndex }) := by
  rw [insertDyn, if_pos h.1, h.resize]

/-- `insert` into postings that could not grow: it writes at the index all the same. -/
theorem insertLink_starved {l : LinkedList} (h : l.Starved env) (val index : Nat) :
    insertLink env l val index =
      if index < l.list.length then
        .ok (1, { l with list := l.list.set index val, lastIndex := l.lastIndex + 1 })
      else .error .outOfBounds := by
  rw [insertLink, if_pos h.1, h.resize]

/-- `parse` does not return `-1` from the round of a word. -/
theorem parseWord_flag {ix ix' : Index} {word : List UInt8} {docId lineNum : Nat} {flag : Bool}
    (h : parseWord env docId lineNum ix word = .ok (flag, ix')) : flag = true := by
  obtain ⟨found, -, h⟩ := bind_eq_ok h
  cases found with
  | some item =>
    simp only at h
    split at h
    · cases h
    · obtain ⟨⟨ok, list⟩, hadd, h⟩ := bind_eq_ok h
      obtain ⟨rfl, -⟩ := Prod.mk.inj (Except.ok.inj h)
      exact (addPosting_cases hadd).1
  | none =>
    obtain ⟨_, -, h⟩ := bind_eq_ok h
    obtain ⟨_, -, h⟩ := bind_eq_ok h
    obtain ⟨_, -, h⟩ := bind_eq_ok h
    simp only at h
    split at h
    · obtain ⟨_, -, h⟩ := bind_eq_ok h
      exact (Prod.mk.inj (Except.ok.inj h)).1.symm
    · exact (Prod.mk.inj (Except.ok.inj h)).1.symm

/-- A failed growth does no harm exactly if the list is a `DYNLIST` and the index is behind its
end. -/
theorem failedGrowth_iff (g : Growing) (h : g.Starved env) : g.Unharmed env ↔ g.Behind := by
  cases g with
  | dyn l item index =>
    simp only [Growing.Unharmed, Growing.Behind, insertDyn_starved h]
    constructor
    · intro hrun
      by_contra hlt
      rw [if_neg hlt] at hrun
      have hret : EXTEND = -1 := congrArg Prod.fst hrun
      exact absurd hret (by decide)
    · intro hle
      rw [if_pos hle]
  | link l val index =>
    simp only [Growing.Unharmed, Growing.Behind, insertLink_starved h, iff_false]
    split
    · intro hrun
      have hret : (1 : Int) = -1 := congrArg Prod.fst (Except.ok.inj hrun)
      exact absurd hret (by decide)
    · intro hrun
      cases hrun
  | round ix word docId lineNum =>
    refine iff_of_false ?_ id
    rintro ⟨ix', hrun, -⟩
    cases parseWord_flag hrun

/-- `tc_realloc` with no memory left. -/
def Alloc.exhausted : Alloc :=
  { Alloc.exact with reallocPtrs := fun _ _ => none, reallocSizes := fun _ _ => none }

/-- A full table, and an item whose home slot is behind it. -/
theorem failedGrowth_iff_full :
    (Growing.dyn ⟨3, [some 3, none, some 5]⟩ 7 3).Unharmed .exhausted ↔
      (Growing.dyn ⟨3, [some 3, none, some 5]⟩ 7 3).Behind :=
  failedGrowth_iff (.dyn ⟨3, [some 3, none, some 5]⟩ 7 3) ⟨Nat.le_refl 3, rfl⟩

/-- The eleventh line of a word in a document is written behind the list of its postings, and a
table of two slots with an item in the last one takes another item into the first. -/
theorem failedGrowth_harms :
    (Growing.link ⟨0, List.replicate 10 1, 10⟩ 1 10).Starved .exhausted ∧
      insertLink .exhausted ⟨0, List.replicate 10 1, 10⟩ 1 10 = .error .outOfBounds ∧
      (Growing.dyn ⟨2, [none, some 3]⟩ 5 0).Starved .exhausted ∧
      insertDyn .exhausted ⟨2, [none, some 3]⟩ 5 0 = (EXTEND, ⟨2, [some 5, some 3]⟩) ∧
      ¬ (∀ g : Growing, g.Starved .exhausted → g.Unharmed .exhausted) := by
  have hlink : LinkedList.Starved .exhausted ⟨0, List.replicate 10 1, 10⟩ := ⟨Nat.le_refl 10, rfl⟩
  have hdyn : DynList.Starved .exhausted ⟨2, [none, some 3]⟩ := ⟨Nat.le_refl 2, rfl⟩
  refine ⟨hlink, ?_, hdyn, ?_, fun h => ?_⟩
  · rw [insertLink_starved hlink]
    rfl
  · rw [insertDyn_starved hdyn]
    simp [DynList.physLen, firstEmpty]
  · have hrun := h (.link ⟨0, List.replicate 10 1, 10⟩ 1 10) hlink
    simp only [Growing.Unharmed, insertLink_starved hlink] at hrun
    cases hrun

end FailedGrowth

end SearchEngine.Server
