import SearchEngine.Server.Verify.Handle

/-!
# What holds of the word table along every run

As long as the table is not resized, a probe finds every word that has been placed
(`probing_complete`). The representation invariant of the table (`TableOk`) is kept by every
word that is not in the table already and does not come to the slot `last_index` (`table_ok`).
-/

namespace SearchEngine.Server

open Memory Outcome Reach

section Probing

variable {env : Alloc} {ix ix' : Index} {word : List UInt8} {flag : Bool}
  {docId lineNum item k : Nat}

/-- `insert` does not resize the table. -/
def NoResize (ix : Index) (word : List UInt8) : Prop :=
  ix.find word = .ok none → ix.dynlist.lastIndex < ix.dynlist.physLen

/-- The word in a slot, where it is found. -/
structure Placed (ix : Index) (k : Nat) (w : Word) : Prop where
  chars : 0 ∉ w.str
  length : w.str.length < MAX_WORD_LEN
  hash : w.hash = hashFunction w.str
  home : ix.home w.str ≤ k
  passed : Passed ix.words ix.dynlist w.str (ix.home w.str) k

/-- A probe finds every word of the table. -/
structure Probing (ix : Index) : Prop where
  physLen : ix.dynlist.physLen = DYN_SIZE
  placed : ∀ k item : Nat, ix.dynlist.dynList[k]? = some (some item) →
    ∃ w, ix.words[item]? = some w ∧ Placed ix k w

/-- The slots of `ix` are those of `ix'`, and hold the same words. -/
structure Extends (ix ix' : Index) : Prop where
  slot : ∀ k item : Nat, ix.dynlist.dynList[k]? = some (some item) →
    ix'.dynlist.dynList[k]? = some (some item)
  word : ∀ (item : Nat) (w : Word), ix.words[item]? = some w →
    ∃ w', ix'.words[item]? = some w' ∧ w'.str = w.str ∧ w'.hash = w.hash

theorem Extends.refl (ix : Index) : Extends ix ix := ⟨fun _ _ h => h, fun _ w h => ⟨w, h, rfl, rfl⟩⟩

theorem Extends.trans {ix'' : Index} (h : Extends ix ix') (h' : Extends ix' ix'') :
    Extends ix ix'' := by
  refine ⟨fun k item hk => h'.slot k item (h.slot k item hk), fun item w hw => ?_⟩
  obtain ⟨w', hw', hstr, hhash⟩ := h.word item w hw
  obtain ⟨w'', hw'', hstr', hhash'⟩ := h'.word item w' hw'
  exact ⟨w'', hw'', hstr'.trans hstr, hhash'.trans hhash⟩

theorem AddsWord.extends {w : Word} (h : AddsWord ix ix' k w) : Extends ix ix' :=
  ⟨fun _ _ hj => h.slot_of_some hj, fun _ v hv => ⟨v, h.word_of_some hv, rfl, rfl⟩⟩

theorem AddsPosting.extends {w : Word} {list : List LinkedList}
    (h : AddsPosting ix ix' item w list) : Extends ix ix' :=
  ⟨fun k item hk => by rw [h.dynlist]; exact hk, fun j _ hv => h.getElem?_word j hv⟩

theorem slots_empty (k item : Nat) : Index.empty.dynlist.dynList[k]? ≠ some (some item) := by
  intro hk
  have hmem := List.mem_of_getElem? hk
  rw [Index.empty, createList, List.mem_replicate] at hmem
  cases hmem.2

theorem Probing.empty : Probing .empty :=
  ⟨List.length_replicate, fun k item hk => absurd hk (slots_empty k item)⟩

/-- One word preserves what the probes find. -/
theorem Probing.step (h : Probing ix) (hnul : 0 ∉ word) (hno : NoResize ix word)
    (hrun : parseWord env docId lineNum ix word = .ok (flag, ix')) :
    Probing ix' ∧ Extends ix ix' := by
  have hcases : (∃ item w list, AddsPosting ix ix' item w list) ∨
      ∃ k doc, ix.find word = .ok none ∧ word.length < MAX_WORD_LEN ∧
        AddsWord ix ix' k ⟨hashFunction word, word, [doc]⟩ := by
    by_cases hfind : ix.find word = .ok none
    · obtain ⟨-, ⟨item, w, list, hfind', -⟩ | ⟨k, doc, -, hlen, -, hadds⟩⟩ :=
        parseWord_table hnul (fun hge => absurd (hno hfind) (Nat.not_lt.mpr hge)) hrun
      · rw [hfind] at hfind'
        cases hfind'
      · exact .inr ⟨k, doc, hfind, hlen, hadds⟩
    · obtain ⟨-, ⟨item, w, list, hfind', hw, -, rfl⟩ | ⟨hfind', -⟩⟩ := parseWord_cases hnul hrun
      · exact .inl ⟨item, w, list, hw, rfl, rfl⟩
      · exact absurd hfind' hfind
  rcases hcases with ⟨item, w, list, hadds⟩ | ⟨k, doc, hfind, hlen, hadds⟩
  · have hphys : ix'.dynlist.physLen = ix.dynlist.physLen := by rw [hadds.dynlist]
    have hhome : ∀ v, ix'.home v = ix.home v := fun v => by rw [Index.home, Index.home, hphys]
    refine ⟨⟨hphys.trans h.physLen, fun j item' hj => ?_⟩, hadds.extends⟩
    rw [hadds.dynlist] at hj
    obtain ⟨v, hv, hplaced⟩ := h.placed j item' hj
    obtain ⟨v', hv', hstr, hhash⟩ := hadds.getElem?_word item' hv
    refine ⟨v', hv', ?_, ?_, ?_, ?_, ?_⟩
    · rw [hstr]; exact hplaced.chars
    · rw [hstr]; exact hplaced.length
    · rw [hstr, hhash]; exact hplaced.hash
    · rw [hstr, hhome]; exact hplaced.home
    · rw [hstr, hhome]; exact hadds.passed_of hplaced.passed
  · have hlt := hno hfind
    have hphys : ix'.dynlist.physLen = ix.dynlist.physLen := by
      rw [DynList.physLen, hadds.dynList, List.length_set, DynList.grown_of_lt hlt, DynList.physLen]
    have hhome : ∀ v, ix'.home v = ix.home v := fun v => by rw [Index.home, Index.home, hphys]
    refine ⟨⟨hphys.trans h.physLen, fun j item' hj => ?_⟩, hadds.extends⟩
    by_cases hjk : j = k
    · subst hjk
      obtain rfl := Option.some.inj (Option.some.inj (hj.symm.trans hadds.slot_new))
      refine ⟨_, hadds.word_new, hnul, hlen, rfl, ?_, ?_⟩
      · rw [hhome]; exact hadds.slot.le
      · rw [hhome]; exact hadds.passed_of hadds.passed
    · have hjlt : j < ix.dynlist.physLen := by
        rw [← hphys]
        exact (List.getElem?_eq_some_iff.mp hj).1
      rw [hadds.getElem? hjlt hjk] at hj
      obtain ⟨v, hv, hplaced⟩ := h.placed j item' hj
      refine ⟨v, hadds.word_of_some hv, hplaced.chars, hplaced.length, hplaced.hash, ?_, ?_⟩
      · rw [hhome]; exact hplaced.home
      · rw [hhome]; exact hadds.passed_of hplaced.passed

/-- While the table is not resized, every word that has been placed is the one that is found, now
and later, and the probe for it reads slots in use only. -/
theorem probing_complete (h : Parsed env NoResize .empty ix) (h' : Parsed env NoResize ix ix')
    (hk : ix.dynlist.dynList[k]? = some (some item)) :
    ∃ w w', ix.words[item]? = some w ∧ ix'.words[item]? = some w' ∧ w'.str = w.str ∧
      w'.hash = w.hash ∧ ix'.dynlist.dynList[k]? = some (some item) ∧
      lookup ix'.words ix'.dynlist w'.str (w'.hash % ix'.dynlist.physLen) = .ok (some item) ∧
      w'.hash % ix'.dynlist.physLen ≤ k ∧
      ∀ j, w'.hash % ix'.dynlist.physLen ≤ j → j ≤ k →
        ∃ item, ix'.dynlist.dynList[j]? = some (some item) := by
  have hix : Probing ix := parsed_invariant h .empty
    fun ix word docId lineNum flag ix' hI hnul hno hrun => (hI.step hnul hno hrun).1
  obtain ⟨hix', hext⟩ : Probing ix' ∧ Extends ix ix' :=
    parsed_invariant (I := fun ix' => Probing ix' ∧ Extends ix ix') h' ⟨hix, .refl ix⟩
      fun ix₁ word docId lineNum flag ix₂ hI hnul hno hrun =>
        ⟨(hI.1.step hnul hno hrun).1, hI.2.trans (hI.1.step hnul hno hrun).2⟩
  obtain ⟨w, hw, -⟩ := hix.placed k item hk
  obtain ⟨w', hw', hstr, hhash⟩ := hext.word item w hw
  have hk' := hext.slot k item hk
  obtain ⟨w₁, hw₁, hplaced⟩ := hix'.placed k item hk'
  obtain rfl := Option.some.inj (hw'.symm.trans hw₁)
  have hhome : w'.hash % ix'.dynlist.physLen = ix'.home w'.str := by
    rw [hplaced.hash, Index.home]
  refine ⟨w, w', hw, hw', hstr, hhash, hk', ?_⟩
  rw [hhome]
  refine ⟨?_, hplaced.home, fun j hj hjk => ?_⟩
  · refine lookup_of_passed hplaced.home hk' hplaced.passed ?_
    rintro _ ⟨⟩
    refine ⟨w', hw', (strCompare_eq_zero hplaced.chars hplaced.chars ?_).mpr rfl⟩
    exact Nat.lt_trans hplaced.length (by decide)
  · rcases Nat.eq_or_lt_of_le hjk with rfl | hlt
    · exact ⟨item, hk'⟩
    · obtain ⟨item', -, hitem, -⟩ := hplaced.passed j hj hlt
      exact ⟨item', hitem⟩

/-- The probe for `get` passes over the slot of `yo`. -/
theorem probing_complete_line : ∃ w, getPlaced.words[2]? = some w ∧
    lookup getPlaced.words getPlaced.dynlist w.str (w.hash % getPlaced.dynlist.physLen) =
        .ok (some 2) ∧
      ∀ j, w.hash % getPlaced.dynlist.physLen ≤ j → j ≤ 1591 →
        ∃ item, getPlaced.dynlist.dynList[j]? = some (some item) := by
  have hrun : Parsed .exact NoResize .empty getPlaced :=
    getPlaced_parsed (fun _ => InUse.empty.hasRoom (by decide))
      (fun _ => wePlaced_inUse.hasRoom (by decide)) (fun _ => yoPlaced_inUse.hasRoom (by decide))
  obtain ⟨w, w', -, hw, -, -, -, hfind, -, hfull⟩ := probing_complete (k := 1591) hrun .refl
    (getPlaced_inUse.slot 1591 (by decide))
  exact ⟨w', hw, hfind, hfull⟩

end Probing

section Table

variable {env : Alloc} {ix ix' : Index} {word : List UInt8} {flag : Bool} {docId lineNum : Nat}

/-- The representation invariant of the word table. -/
structure TableOk (ix : Index) : Prop where
  once : ∀ k k' item : Nat, ix.dynlist.dynList[k]? = some (some item) →
    ix.dynlist.dynList[k']? = some (some item) → k = k'
  strings : ∀ (k k' item item' : Nat) (w w' : Word), ix.dynlist.dynList[k]? = some (some item) →
    ix.dynlist.dynList[k']? = some (some item') → ix.words[item]? = some w →
    ix.words[item']? = some w' → w.str = w'.str → k = k'
  below : ∀ k item : Nat, ix.dynlist.dynList[k]? = some (some item) → k < ix.dynlist.lastIndex
  lastIndex : ix.dynlist.lastIndex ≤ ix.dynlist.physLen

/-- The word is found, or it is in no slot and does not come to the slot `last_index`. -/
def Regular (ix : Index) (word : List UInt8) : Prop :=
  ix.find word = .ok none →
    (∀ (k item : Nat) (w : Word), ix.dynlist.dynList[k]? = some (some item) →
      ix.words[item]? = some w → w.str ≠ word) ∧
    ¬ FirstEmpty ix.dynlist.dynList (ix.home word) ix.dynlist.lastIndex

/-- The slots hold numbers of words. -/
structure TableInv (ix : Index) : Prop extends TableOk ix where
  items : ∀ k item : Nat, ix.dynlist.dynList[k]? = some (some item) → item < ix.words.length

theorem TableInv.empty : TableInv .empty where
  once := fun k _ item hk => absurd hk (slots_empty k item)
  strings := fun k _ item _ _ _ hk => absurd hk (slots_empty k item)
  below := fun k item hk => absurd hk (slots_empty k item)
  lastIndex := Nat.zero_le _
  items := fun k item hk => absurd hk (slots_empty k item)

/-- One word preserves the invariant. -/
theorem TableInv.step (henv : env.Keeps) (h : TableInv ix) (hnul : 0 ∉ word)
    (hreg : Regular ix word) (hrun : parseWord env docId lineNum ix word = .ok (flag, ix')) :
    TableInv ix' := by
  obtain ⟨-, ⟨item, w, list, -, -, hadds⟩ | ⟨k, doc, hfind, -, -, hadds⟩⟩ :=
    parseWord_table hnul (fun _ => henv) hrun
  · refine { once := ?_, strings := ?_, below := ?_, lastIndex := ?_, items := ?_ } <;>
      rw [hadds.dynlist]
    · exact h.once
    · intro j j' i i' v v' hj hj' hv hv' hstr
      obtain ⟨u, hu, hustr⟩ := hadds.word_inv i hv
      obtain ⟨u', hu', hustr'⟩ := hadds.word_inv i' hv'
      exact h.strings j j' i i' u u' hj hj' hu hu' (hustr.trans (hstr.trans hustr'.symm))
    · exact h.below
    · exact h.lastIndex
    · rw [hadds.words, List.length_set]
      exact h.items
  · obtain ⟨hother, hplace⟩ := hreg hfind
    have hk := hadds.slot.lt
    have hne : k ≠ ix.dynlist.lastIndex := fun e => hplace (e ▸ hadds.slot)
    -- a word of the old table has another string than the new one
    have hnew : ∀ (j i : Nat) (v : Word), ix.dynlist.dynList[j]? = some (some i) →
        ix'.words[i]? = some v → v.str ≠ word := by
      intro j i v hj hv
      rw [hadds.word_inv (h.items j i hj)] at hv
      exact hother j i v hj hv
    refine { once := ?_, strings := ?_, below := ?_, lastIndex := ?_, items := ?_ }
    · intro j j' i hj hj'
      rcases hadds.slot_inv hj with ⟨rfl, rfl⟩ | ⟨hjk, hj⟩ <;>
        rcases hadds.slot_inv hj' with ⟨rfl, hi⟩ | ⟨hjk', hj'⟩
      · rfl
      · exact absurd (h.items j' _ hj') (Nat.lt_irrefl _)
      · exact absurd (hi ▸ h.items j i hj) (Nat.lt_irrefl _)
      · exact h.once j j' i hj hj'
    · intro j j' i i' v v' hj hj' hv hv' hstr
      rcases hadds.slot_inv hj with ⟨rfl, rfl⟩ | ⟨hjk, hj⟩ <;>
        rcases hadds.slot_inv hj' with ⟨rfl, rfl⟩ | ⟨hjk', hj'⟩
      · rfl
      · obtain rfl := Option.some.inj (hv.symm.trans hadds.word_new)
        exact absurd hstr.symm (hnew j' i' v' hj' hv')
      · obtain rfl := Option.some.inj (hv'.symm.trans hadds.word_new)
        exact absurd hstr (hnew j i v hj hv)
      · rw [hadds.word_inv (h.items j i hj)] at hv
        rw [hadds.word_inv (h.items j' i' hj')] at hv'
        exact h.strings j j' i i' v v' hj hj' hv hv' hstr
    · intro j i hj
      rw [hadds.lastIndex]
      rcases hadds.slot_inv hj with ⟨rfl, -⟩ | ⟨-, hj⟩
      · split <;> omega
      · have hlt := h.below j i hj
        split <;> omega
    · have hle := ix.dynlist.physLen_le_grown
      have hphys : ix'.dynlist.physLen = ix.dynlist.grown.physLen := by
        rw [DynList.physLen, hadds.dynList, List.length_set, DynList.physLen]
      have hlast := h.lastIndex
      rw [hadds.lastIndex, hphys]
      simp only [DynList.physLen] at hle hlast hphys ⊢
      split <;> omega
    · intro j i hj
      rw [hadds.words, List.length_append, List.length_singleton]
      rcases hadds.slot_inv hj with ⟨-, rfl⟩ | ⟨-, hj⟩
      · exact Nat.lt_succ_self _
      · exact Nat.lt_succ_of_lt (h.items j i hj)

/-- In every run in which each new word is regular, the invariant holds. -/
theorem table_ok (henv : env.Keeps) (h : Parsed env Regular .empty ix) : TableOk ix :=
  (parsed_invariant h TableInv.empty
    fun _ _ _ _ _ _ hI hnul hreg hrun => hI.step henv hnul hreg hrun).toTableOk

/-- A word that is not in the table, and does not come to the slot `last_index`. -/
theorem InUse.regular {used : List (Nat × Nat)} {last k : Nat} (h : InUse ix used last)
    (hnew : ∀ w ∈ ix.words, w.str ≠ word)
    (hslot : FirstEmpty ix.dynlist.dynList (ix.home word) k) (hne : k ≠ last) :
    Regular ix word := by
  intro _
  refine ⟨fun j item w _ hw => hnew w (List.mem_of_getElem? hw), fun hlast => hne ?_⟩
  rw [h.last] at hlast
  exact hslot.unique hlast

theorem table_ok_line : TableOk getPlaced :=
  table_ok Alloc.exact_keeps (getPlaced_parsed
    (InUse.empty.regular (by decide) wePlaced_new.1 (by decide))
    (wePlaced_inUse.regular (by decide) yoPlaced_new.1 (by decide))
    (yoPlaced_inUse.regular (by decide) getPlaced_new.1 (by decide)))

/-- The second of two words with neighbouring home slots comes to the slot `last_index`. -/
theorem table_neighbours :
    ∃ ix, Parsed .exact (fun _ _ => True) .empty ix ∧ ¬ TableOk ix := by
  obtain ⟨-, -, hrun₁⟩ := InUse.empty.new (by decide) .exact 0 1 [97] 97
    (by decide) (by decide) (by decide) (by decide) rfl .refl
  have hfirst := InUse.empty.add (k := 97) (by decide) (by decide)
    ⟨hashFunction [97], [97], [firstPosting 0 1]⟩
  obtain ⟨-, -, hrun₂⟩ := hfirst.new (by decide) .exact 0 1 [98] 98
    (by decide) (by decide) (by decide) (by decide) rfl .refl
  have hsecond := hfirst.add (k := 98) (by decide) (by decide)
    ⟨hashFunction [98], [98], [firstPosting 0 1]⟩
  have hrun := (handleWords_cons [[98]] hrun₁).trans (handleWords_cons [] hrun₂)
  refine ⟨_, parsed_line [97, 32, 98] 0 1 (by decide) (by decide)
    ⟨trivial, fun _ _ => ⟨trivial, fun _ _ => trivial⟩⟩ hrun, fun hok => ?_⟩
  have hbelow := hok.below 98 1 (hsecond.slot 98 (by decide))
  rw [hsecond.last] at hbelow
  exact absurd hbelow (by decide)

end Table

end SearchEngine.Server
