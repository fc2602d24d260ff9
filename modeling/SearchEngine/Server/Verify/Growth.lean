import SearchEngine.Server.Verify.Handle

/-!
# The growth of the word table

When the table grows, the words stay where they are, `disperse_keys` finds nothing in the second
half, and the home slot of a word is computed with the new size. `growth_iff` says for which words
that does no harm.
-/

namespace SearchEngine.Server

open Memory Outcome

section Growth

variable {env : Alloc} {ix ix' : Index} {word : List UInt8} {flag : Bool} {docId lineNum k : Nat}
  {w : Word}

/-- Every word that was found before is found again, and the new word `word` is found. -/
structure GrowthKeeps (ix ix' : Index) (word : List UInt8) : Prop where
  old : ∀ v item, 0 ∉ v → ix.find v = .ok (some item) → ix'.find v = .ok (some item)
  new : ix'.find word = .ok (some ix.words.length)

/-- The home slots of a word before and after the growth are the same. -/
def Stays (ix : Index) (word : List UInt8) : Prop :=
  hashFunction word % (2 * ix.dynlist.physLen) < ix.dynlist.physLen

/-- The growth moves no home slot, of a word that is found or of the new word. -/
structure HomesStay (ix : Index) (word : List UInt8) : Prop where
  old : ∀ v item, 0 ∉ v → ix.find v = .ok (some item) → Stays ix v
  new : Stays ix word

theorem AddsWord.physLen (h : AddsWord ix ix' k w)
    (hgrow : ix.dynlist.physLen ≤ ix.dynlist.lastIndex) :
    ix'.dynlist.physLen = 2 * ix.dynlist.physLen := by
  rw [DynList.physLen, h.dynList, List.length_set, DynList.grown_of_le hgrow, List.length_append,
    List.length_replicate, DynList.physLen]
  omega

/-- The second half of the table is empty after the growth. -/
theorem AddsWord.secondHalf (h : AddsWord ix ix' k w)
    (hgrow : ix.dynlist.physLen ≤ ix.dynlist.lastIndex) {j : Nat}
    (hle : ix.dynlist.physLen ≤ j) (hlt : j < 2 * ix.dynlist.physLen) :
    ix'.dynlist.dynList[j]? = some none := by
  have hk := h.slot.lt
  simp only [DynList.physLen] at hle hlt
  rw [h.dynList, List.getElem?_set_ne (by omega), DynList.grown_of_le hgrow]
  simp only [DynList.physLen]
  rw [List.getElem?_append_right hle, List.getElem?_replicate_of_lt (by omega)]

theorem home_stays (hphys : ix'.dynlist.physLen = 2 * ix.dynlist.physLen) (h : Stays ix word) :
    ix'.home word = ix.home word := by
  rw [Stays] at h
  have hmod : hashFunction word % (2 * ix.dynlist.physLen) % ix.dynlist.physLen =
      hashFunction word % ix.dynlist.physLen := Nat.mod_mul_left_mod _ _ _
  rw [Index.home, Index.home, hphys, ← hmod, Nat.mod_eq_of_lt h]

/-- A word whose home slot moves is not found. -/
theorem find_moved (h : AddsWord ix ix' k w) (hgrow : ix.dynlist.physLen ≤ ix.dynlist.lastIndex)
    (hmoves : ¬ Stays ix word) : ix'.find word = .ok none := by
  have hphys := h.physLen hgrow
  have hpos : 0 < 2 * ix.dynlist.physLen := by
    have := h.slot.lt
    rw [DynList.physLen]
    omega
  rw [Stays] at hmoves
  rw [Index.find, Index.home, hphys]
  refine lookup_of_passed (Nat.le_refl _) ?_ .refl (by simp)
  exact h.secondHalf hgrow (Nat.le_of_not_lt hmoves) (Nat.mod_lt _ hpos)

/-- A growth keeps the words that were found, and the new word is found, exactly if the home
slots of all of these stay the same. -/
theorem growth_iff (henv : env.Keeps) (hnul : 0 ∉ word) (hnew : ix.find word = .ok none)
    (hgrow : ix.dynlist.physLen ≤ ix.dynlist.lastIndex)
    (hrun : parseWord env docId lineNum ix word = .ok (flag, ix')) :
    GrowthKeeps ix ix' word ↔ HomesStay ix word := by
  obtain ⟨-, ⟨item, w, list, hfind, -⟩ | ⟨k, doc, -, hlen, -, h⟩⟩ :=
    parseWord_table hnul (fun _ => henv) hrun
  · rw [hfind] at hnew
    cases hnew
  · have hphys := h.physLen hgrow
    constructor
    · intro hkeeps
      constructor
      · intro v item hnul' hv
        by_contra hmoves
        have hv' := hkeeps.old v item hnul' hv
        rw [find_moved h hgrow hmoves] at hv'
        cases hv'
      · by_contra hmoves
        have hword := hkeeps.new
        rw [find_moved h hgrow hmoves] at hword
        cases hword
    · intro hstay
      constructor
      · intro v item hnul' hv
        obtain ⟨j, hle, hj, hpassed, hmatch⟩ := lookup_ok hv
        rw [Index.find, home_stays hphys (hstay.old v item hnul' hv)]
        refine lookup_of_passed hle (h.slot_of_some hj) (h.passed_of hpassed) ?_
        rintro _ ⟨⟩
        exact h.matches_of (hmatch item rfl)
      · rw [Index.find, home_stays hphys hstay.new]
        refine lookup_of_passed h.slot.le h.slot_new (h.passed_of h.passed) ?_
        rintro _ ⟨⟩
        refine ⟨_, h.word_new, (strCompare_eq_zero hnul hnul ?_).mpr rfl⟩
        exact Nat.lt_trans hlen (by decide)

/-! ### A word in the last slot -/

/-- After a first word whose home slot is the last one, the table is to grow. -/
theorem firstWord_full (w : Word) (hix : ix = Index.empty.add (hashFunction w.str % DYN_SIZE) w)
    (hhome : hashFunction w.str % DYN_SIZE = 10239) :
    ix.dynlist.physLen = DYN_SIZE ∧ ix.dynlist.lastIndex = DYN_SIZE ∧
      ∀ j : Nat, j < 10239 → ix.dynlist.dynList[j]? = some none := by
  have hgrow : Index.empty.dynlist.lastIndex < Index.empty.dynlist.physLen := by
    rw [Index.empty_physLen]
    decide
  have hlast : Index.empty.dynlist.lastIndex < 10239 := by decide
  rw [hix, hhome]
  refine ⟨by rw [physLen_add hgrow, Index.empty_physLen], ?_, fun j hj => ?_⟩
  · simp only [Index.add, if_pos hlast]
  · rw [getElem?_add hgrow (Nat.ne_of_gt hj), Index.empty_slot (Nat.lt_succ_of_lt hj)]

/-- The next new word, if its home slot is another one, makes it grow. -/
theorem secondWord_grows (w : Word) (word : List UInt8) (docId lineNum : Nat)
    (hix : ix = Index.empty.add (hashFunction w.str % DYN_SIZE) w)
    (hhome : hashFunction w.str % DYN_SIZE = 10239) (hnul : 0 ∉ word)
    (hlen : word.length < MAX_WORD_LEN) (hk : hashFunction word % DYN_SIZE = k) (hlt : k < 10239) :
    let w' : Word := ⟨hashFunction word, word, [firstPosting docId lineNum]⟩
    ix.find word = .ok none ∧ ix.dynlist.physLen ≤ ix.dynlist.lastIndex ∧
      parseWord .exact docId lineNum ix word = .ok (true, ix.add k w') ∧
      AddsWord ix (ix.add k w') k w' := by
  obtain ⟨hphys, hlast, hempty⟩ := firstWord_full w hix hhome
  have hword : ix.home word = k := by rw [Index.home, hphys, hk]
  have hslot : ix.dynlist.dynList[ix.home word]? = some none := by
    rw [hword]
    exact hempty k hlt
  obtain ⟨hfind, hslot⟩ := find_of_empty hslot
  rw [hword] at hslot
  refine ⟨hfind, by rw [hphys, hlast],
    parseWord_new .exact word docId lineNum hnul hlen (fun _ => Alloc.exact_keeps) ?_ hfind,
    add_addsWord ?_ ?_⟩
  · rw [hword]
    exact hslot
  · rw [hword]
    exact hslot
  · rw [hword]
    exact .refl

/-- The table after the line `davx`, whose word is in the last slot and stays there. -/
def keptSlot : Index :=
  Index.empty.add (hashFunction [100, 97, 118, 120] % DYN_SIZE)
    ⟨hashFunction [100, 97, 118, 120], [100, 97, 118, 120], [firstPosting 0 1]⟩

theorem keptSlot_parsed : Parsed .exact (fun _ _ => True) .empty keptSlot :=
  parsed_first _ 0 1 (List.all_eq_true.mp rfl) (by decide) (by decide) trivial

theorem keptSlot_grows (docId lineNum : Nat) :
    keptSlot.find [97] = .ok none ∧ keptSlot.dynlist.physLen ≤ keptSlot.dynlist.lastIndex ∧
      parseWord .exact docId lineNum keptSlot [97] = .ok (true,
        keptSlot.add 97 ⟨hashFunction [97], [97], [firstPosting docId lineNum]⟩) := by
  obtain ⟨hfind, hgrow, hrun, -⟩ := secondWord_grows ⟨_, [100, 97, 118, 120], _⟩ [97] docId lineNum
    keptSlot.eq_1 (by decide) (by decide) (by decide)
    (show hashFunction [97] % DYN_SIZE = 97 by decide) (by decide)
  exact ⟨hfind, hgrow, hrun⟩

/-- The only word that is found is `davx`. -/
theorem keptSlot_homesStay : HomesStay keptSlot [97] := by
  have hphys : keptSlot.dynlist.physLen = DYN_SIZE :=
    (firstWord_full ⟨_, [100, 97, 118, 120], _⟩ keptSlot.eq_1 (by decide)).1
  constructor
  · intro v item hnul hv
    obtain ⟨-, -, -, -, hmatch⟩ := lookup_ok hv
    obtain ⟨w, hw, hzero⟩ := hmatch item rfl
    have hmem : w ∈ keptSlot.words := List.mem_of_getElem? hw
    obtain rfl := List.mem_singleton.mp hmem
    obtain rfl := (strCompare_eq_zero (by decide) hnul (by decide)).mp hzero
    rw [Stays, hphys]
    decide
  · rw [Stays, hphys]
    decide

/-- Behind `davx` the word `a` makes the table grow, and both are found in it. -/
theorem growth_iff_kept : ∃ ix', Parsed .exact (fun _ _ => True) .empty keptSlot ∧
    parseWord .exact 0 2 keptSlot [97] = .ok (true, ix') ∧ HomesStay keptSlot [97] ∧
      GrowthKeeps keptSlot ix' [97] := by
  obtain ⟨hfind, hgrow, hrun⟩ := keptSlot_grows 0 2
  exact ⟨_, keptSlot_parsed, hrun, keptSlot_homesStay,
    (growth_iff Alloc.exact_keeps (by decide) hfind hgrow hrun).mpr keptSlot_homesStay⟩

/-- The word in the last slot makes the table grow with the next new word, which is not found. -/
theorem lastSlot_grows (docId lineNum : Nat) : lastSlot.find [97, 97] = .ok none ∧
    lastSlot.dynlist.physLen ≤ lastSlot.dynlist.lastIndex ∧
      ∃ ix', parseWord .exact docId lineNum lastSlot [97, 97] = .ok (true, ix') ∧
        ix'.find [97, 97] = .ok none := by
  obtain ⟨hfind, hgrow, hrun, hadds⟩ := secondWord_grows ⟨_, [118, 106, 115], _⟩ [97, 97] docId
    lineNum lastSlot.eq_1 (by decide) (by decide) (by decide) rfl (by decide)
  have hmoves : ¬ Stays lastSlot [97, 97] := by
    rw [Stays, lastSlot_slots.1]
    decide
  exact ⟨hfind, hgrow, _, hrun, find_moved hadds hgrow hmoves⟩

/-- A word in the last slot makes the table grow, and the next new word is lost. -/
theorem growth_loses :
    ∃ ix ix', Parsed .exact (fun _ _ => True) .empty ix ∧ ix.find [97, 97] = .ok none ∧
      ix.dynlist.physLen ≤ ix.dynlist.lastIndex ∧
      parseWord .exact 0 2 ix [97, 97] = .ok (true, ix') ∧ ¬ GrowthKeeps ix ix' [97, 97] := by
  obtain ⟨hfind, hgrow, ix', hrun, hmoved⟩ := lastSlot_grows 0 2
  refine ⟨lastSlot, ix', lastSlot_parsed, hfind, hgrow, hrun, fun hkeeps => ?_⟩
  have hnew := hkeeps.new
  rw [hmoved] at hnew
  cases hnew

end Growth

end SearchEngine.Server
