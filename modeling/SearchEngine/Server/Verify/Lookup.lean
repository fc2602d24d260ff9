import SearchEngine.Server.Verify.Handle

/-!
# The slots that `lookup` reads

From an occupied slot `lookup` goes on to the next one without testing that there is one. So it
stays inside of the table only if it comes to an empty slot or to the word before the end
(`lookup_inside`). This holds of every table that `parse` can build, also if `tc_realloc` fails
on the way.
-/

namespace SearchEngine.Server

open Memory Outcome Reach

section Items

variable {env : Alloc} {words : List Word} {l l' : DynList} {n item index : Nat}

/-- `tc_realloc` may fail. If it does not, it keeps the pointers and adds null pointers. -/
def Alloc.Preserves (env : Alloc) : Prop :=
  ∀ l n l', l.length ≤ n → env.reallocPtrs l n = some l' →
    l' = l ++ List.replicate (n - l.length) none

theorem Alloc.Keeps.preserves (h : env.Keeps) : env.Preserves := by
  intro l n l' hle hl'
  rw [h.ptrs l n hle] at hl'
  exact (Option.some.inj hl').symm

/-- The items are numbers below `n`. -/
def DynList.Below (l : DynList) (n : Nat) : Prop := ∀ item, some item ∈ l.dynList → item < n

theorem DynList.Below.mono {m : Nat} (h : l.Below n) (hle : n ≤ m) : l.Below m :=
  fun item hitem => Nat.lt_of_lt_of_le (h item hitem) hle

/-- One more item is stored. -/
theorem DynList.Below.set (h : l.Below n) (hitem : item < n) (k lastIndex : Nat) :
    DynList.Below ⟨lastIndex, l.dynList.set k (some item)⟩ n := by
  intro item' hmem
  rcases List.mem_or_eq_of_mem_set hmem with hold | hnew
  · exact h item' hold
  · cases hnew
    exact hitem

theorem DynList.Below.resizeDyn (henv : env.Preserves) (h : l.Below n) :
    (resizeDyn env l).2.Below n := by
  unfold Server.resizeDyn
  split
  · exact h
  · next list hlist =>
    intro item hitem
    rw [henv _ _ _ (by rw [DynList.physLen]; omega) hlist] at hitem
    rcases List.mem_append.mp hitem with hold | hnew
    · exact h item hold
    · cases (List.mem_replicate.mp hnew).2

theorem DynList.Below.insertDyn (henv : env.Preserves) (h : l.Below n) (hitem : item < n) :
    (insertDyn env l item index).2.Below n := by
  have hput : ∀ (ret : Int) (g : DynList) (k lastIndex : Nat), g.Below n →
      (if g.physLen ≤ index then (-1, g)
        else (ret, ⟨lastIndex, g.dynList.set k (some item)⟩)).2.Below n := by
    intro ret g k lastIndex hg
    split
    · exact hg
    · exact hg.set hitem k lastIndex
  unfold Server.insertDyn
  split
  next ret g hgrown =>
  split at hgrown
  · obtain ⟨rfl, rfl⟩ := Prod.mk.inj hgrown
    exact hput _ _ _ _ (h.resizeDyn henv)
  · obtain ⟨rfl, rfl⟩ := Prod.mk.inj hgrown
    exact hput _ _ _ _ h

/-- A round of `disperse_keys` stores an item that is in the table. -/
theorem DynList.Below.disperseKey {p c i : Nat} (h : l.Below n)
    (hrun : disperseKey words p c i l index = .ok l') : l'.Below n := by
  unfold Server.disperseKey at hrun
  split at hrun
  · cases hrun
  · obtain rfl := Except.ok.inj hrun
    exact h
  · next item hitem =>
    split at hrun
    · cases hrun
    · split at hrun
      · simp only at hrun
        split at hrun
        · obtain rfl := Except.ok.inj hrun
          exact h.set (h item (List.mem_of_getElem? hitem)) _ _
        · obtain rfl := Except.ok.inj hrun
          exact h
      · obtain rfl := Except.ok.inj hrun
        exact h

theorem DynList.Below.disperseKeys (h : l.Below n) (hrun : disperseKeys words l = .ok l') :
    l'.Below n :=
  foldlM_keeps (I := fun l => l.Below n) (fun _ _ _ hI hstep => hI.disperseKey hstep) h hrun

end Items

section Lookup

variable {env : Alloc} {ix ix' : Index} {word str : List UInt8} {flag : Bool}
  {docId lineNum index k : Nat}

/-- The items are addresses of words, whose strings are shorter than `MAX_WORD_LEN`. -/
structure ItemsOk (ix : Index) : Prop where
  items : ix.dynlist.Below ix.words.length
  strings : ∀ w ∈ ix.words, 0 ∉ w.str ∧ w.str.length < MAX_WORD_LEN

theorem ItemsOk.empty : ItemsOk .empty where
  items item hitem := by cases (List.mem_replicate.mp hitem).2
  strings w hw := absurd hw List.not_mem_nil

/-- One word preserves this. -/
theorem ItemsOk.step (henv : env.Preserves) (h : ItemsOk ix) (hnul : 0 ∉ word)
    (hrun : parseWord env docId lineNum ix word = .ok (flag, ix')) : ItemsOk ix' := by
  obtain ⟨-, ⟨item, w, list, -, hw, -, rfl⟩ |
    ⟨-, hlen, doc, ret, dynlist, -, hins, hwords, hdyn⟩⟩ :=
    parseWord_cases hnul hrun
  · refine ⟨?_, fun v hv => ?_⟩
    · simp only [List.length_set]
      exact h.items
    · rcases List.mem_or_eq_of_mem_set hv with hold | rfl
      · exact h.strings v hold
      · exact h.strings w (List.mem_of_getElem? hw)
  · have hlength : ix'.words.length = ix.words.length + 1 := by
      rw [hwords, List.length_append, List.length_singleton]
    have hdynlist : dynlist.Below ix'.words.length := by
      have hstored : (insertDyn env ix.dynlist ix.words.length (ix.home word)).2.Below
          ix'.words.length :=
        (h.items.mono (by omega)).insertDyn henv (by omega)
      rwa [hins] at hstored
    refine ⟨?_, fun v hv => ?_⟩
    · split at hdyn
      · exact hdynlist.disperseKeys hdyn
      · rw [hdyn]
        exact hdynlist
    · rw [hwords] at hv
      rcases List.mem_append.mp hv with hold | hnew
      · exact h.strings v hold
      · obtain rfl := List.mem_singleton.mp hnew
        exact ⟨hnul, hlen⟩

/-- The word of an item matches exactly the strings that are equal to it. -/
theorem ItemsOk.matches_iff (h : ItemsOk ix) (hnul : 0 ∉ str) {item : Nat} {w : Word}
    (hw : ix.words[item]? = some w) : strCompare w.str str DYN_SIZE = 0 ↔ w.str = str := by
  obtain ⟨hchars, hlen⟩ := h.strings w (List.mem_of_getElem? hw)
  exact strCompare_eq_zero hchars hnul (Nat.lt_trans hlen (by decide))

/-- The slot is empty, or holds the word. -/
def Ends (ix : Index) (str : List UInt8) (k : Nat) : Prop :=
  ix.dynlist.dynList[k]? = some none ∨
    ∃ item w, ix.dynlist.dynList[k]? = some (some item) ∧ ix.words[item]? = some w ∧ w.str = str

/-- `lookup` returns, with a word of the table that has the string or with `NULL`. -/
def LooksUp (ix : Index) (str : List UInt8) (r : Except Fault (Option Nat)) : Prop :=
  ∃ o, r = .ok o ∧ ∀ item ∈ o, some item ∈ ix.dynlist.dynList ∧
    ∃ w, ix.words[item]? = some w ∧ w.str = str

/-- A probe that comes to a slot at which it may end does not leave the table. -/
theorem ItemsOk.lookup_ends (h : ItemsOk ix) (hnul : 0 ∉ str) (hle : index ≤ k)
    (hends : Ends ix str k) : ∃ o, lookup ix.words ix.dynlist str index = .ok o := by
  induction hn : k - index generalizing index with
  | zero =>
    obtain rfl : index = k := by omega
    rcases hends with hempty | ⟨item, w, hitem, hw, rfl⟩
    · exact ⟨none, lookup_of_passed (Nat.le_refl _) hempty .refl (by simp)⟩
    · refine ⟨some item, lookup_of_passed (Nat.le_refl _) hitem .refl ?_⟩
      rintro _ ⟨⟩
      exact ⟨w, hw, (h.matches_iff hnul hw).mpr rfl⟩
  | succ n ih =>
    have hk : k < ix.dynlist.dynList.length := by
      rcases hends with hempty | ⟨item, w, hitem, -⟩
      · exact (List.getElem?_eq_some_iff.mp hempty).1
      · exact (List.getElem?_eq_some_iff.mp hitem).1
    obtain ⟨o, ho⟩ : ∃ o, ix.dynlist.dynList[index]? = some o :=
      ⟨_, List.getElem?_eq_getElem (by omega)⟩
    cases o with
    | none => exact ⟨none, lookup_of_passed (Nat.le_refl _) ho .refl (by simp)⟩
    | some item =>
      obtain ⟨w, hw⟩ : ∃ w, ix.words[item]? = some w :=
        ⟨_, List.getElem?_eq_getElem (h.items item (List.mem_of_getElem? ho))⟩
      by_cases hstr : strCompare w.str str DYN_SIZE = 0
      · refine ⟨some item, lookup_of_passed (Nat.le_refl _) ho .refl ?_⟩
        rintro _ ⟨⟩
        exact ⟨w, hw, hstr⟩
      · have hnext : index + 1 ≤ k := by omega
        obtain ⟨o, hrest⟩ := ih hnext (by omega)
        obtain ⟨j, hle', hj, hpassed, hmatch⟩ := lookup_ok hrest
        exact ⟨o, lookup_of_passed (by omega) hj (.cons ho hw hstr hpassed) hmatch⟩

/-- `lookup` reads slots of the table only, and returns the word or `NULL`, exactly if a slot from
the home slot on is empty or holds the word. -/
theorem lookup_inside (henv : env.Preserves) (hr : Parsed env (fun _ _ => True) .empty ix)
    (hnul : 0 ∉ str) :
    LooksUp ix str (lookup ix.words ix.dynlist str index) ↔ ∃ k, index ≤ k ∧ Ends ix str k := by
  have h : ItemsOk ix := parsed_invariant hr .empty
    fun _ _ _ _ _ _ hI hword _ hrun => hI.step henv hword hrun
  constructor
  · rintro ⟨o, ho, hword⟩
    obtain ⟨k, hle, hk, -⟩ := lookup_ok ho
    refine ⟨k, hle, ?_⟩
    cases o with
    | none => exact .inl hk
    | some item =>
      obtain ⟨-, w, hw, hstr⟩ := hword item rfl
      exact .inr ⟨item, w, hk, hw, hstr⟩
  · rintro ⟨k, hle, hends⟩
    obtain ⟨o, ho⟩ := h.lookup_ends hnul hle hends
    obtain ⟨j, -, hj, -, hmatch⟩ := lookup_ok ho
    refine ⟨o, ho, ?_⟩
    rintro item rfl
    obtain ⟨w, hw, hstr⟩ := hmatch item rfl
    exact ⟨List.mem_of_getElem? hj, w, hw, (h.matches_iff hnul hw).mp hstr⟩

theorem lookup_inside_word :
    LooksUp lastSlot [118, 106, 115] (lookup lastSlot.words lastSlot.dynlist
      [118, 106, 115] 10239) ↔
      ∃ k, 10239 ≤ k ∧ Ends lastSlot [118, 106, 115] k :=
  lookup_inside Alloc.exact_keeps.preserves lastSlot_parsed (by decide)

/-- The query `agkd` has the same home slot, and `lookup` reads behind the table. -/
theorem lookup_outside :
    Parsed .exact (fun _ _ => True) .empty lastSlot ∧
      hashFunction [97, 103, 107, 100] % lastSlot.dynlist.physLen = 10239 ∧
      ¬ LooksUp lastSlot [97, 103, 107, 100]
        (lookup lastSlot.words lastSlot.dynlist [97, 103, 107, 100] 10239) := by
  obtain ⟨hphys, hslot⟩ := lastSlot_slots
  refine ⟨lastSlot_parsed, by rw [hphys]; decide, ?_⟩
  rintro ⟨o, ho, hword⟩
  obtain ⟨k, hle, hk, hpassed, hmatch⟩ := lookup_ok ho
  have hlt : k < DYN_SIZE := by
    rw [← hphys]
    exact (List.getElem?_eq_some_iff.mp hk).1
  obtain rfl : k = 10239 := by
    simp only [DYN_SIZE] at hlt
    omega
  obtain rfl := Option.some.inj (hslot.symm.trans hk)
  obtain ⟨w, hw, hstr⟩ := hmatch 0 rfl
  obtain rfl := Option.some.inj (show some _ = some w from hw)
  exact absurd hstr (by decide)

end Lookup

end SearchEngine.Server
