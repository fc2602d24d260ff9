import SearchEngine.Server.Verify.Occurrences
import SearchEngine.Server.Verify.Growth
import SearchEngine.Server.Verify.Lookup
import SearchEngine.Server.Verify.Postings
import SearchEngine.Server.Verify.Probing

/-!
# The inverted index

`Indexed xs ix` says that the index is one of the occurrences `xs`: each of their words is in a
slot where it is found, with the postings of its occurrences. A word keeps this if it can be
placed (`Placeable`), so that after `read_dir` the index answers for the files of the directory
(`readDir_answers`).
-/

namespace SearchEngine.Server

open Memory Outcome Segments

section Step

variable {env : Alloc} {ix ix' : Index} {xs : List Occurrence} {x : Occurrence}
  {word : List UInt8} {docId lineNum item k : Nat} {w : Word}

/-- The documents and lines of the occurrences of a word. -/
def placesOf (xs : List Occurrence) (word : List UInt8) : List (Nat × Nat) :=
  (xs.filter fun x => x.word = word).map fun x => (x.docId, x.lineNum)

theorem placesOf_append (xs : List Occurrence) (x : Occurrence) (word : List UInt8) :
    placesOf (xs ++ [x]) word =
      placesOf xs word ++ if x.word = word then [(x.docId, x.lineNum)] else [] := by
  rw [placesOf, List.filter_append, List.map_append]
  by_cases h : x.word = word <;> simp [h, placesOf]

theorem placesOf_eq_nil (h : ∀ x ∈ xs, x.word ≠ word) : placesOf xs word = [] := by
  rw [placesOf, List.map_eq_nil_iff, List.filter_eq_nil_iff]
  exact fun x hx heq => h x hx (of_decide_eq_true heq)

/-- What a word finds when it comes to the index: it has room in a block, its probe ends inside of
the table, and a growth moves no home slot. -/
structure Placeable (ix : Index) (word : List UInt8) : Prop where
  length : word.length < MAX_WORD_LEN
  ends : ∃ k, ix.home word ≤ k ∧ Ends ix word k
  stays : ix.find word = .ok none → ix.dynlist.physLen ≤ ix.dynlist.lastIndex → HomesStay ix word

/-- The index of the occurrences `xs`. -/
structure Indexed (xs : List Occurrence) (ix : Index) : Prop where
  placed : ∀ k item : Nat, ix.dynlist.dynList[k]? = some (some item) →
    ∃ w, ix.words[item]? = some w ∧ Placed ix k w
  slot : ∀ (item : Nat) (w : Word), ix.words[item]? = some w →
    ∃ k : Nat, ix.dynlist.dynList[k]? = some (some item)
  postings : ∀ (item : Nat) (w : Word), ix.words[item]? = some w →
    PostingsOf (placesOf xs w.str) w.list
  occurs : ∀ (item : Nat) (w : Word), ix.words[item]? = some w → ∃ x ∈ xs, x.word = w.str
  known : ∀ x ∈ xs, ∃ (item : Nat) (w : Word), ix.words[item]? = some w ∧ w.str = x.word

theorem Indexed.empty : Indexed [] .empty where
  placed k item hk := absurd hk (slots_empty k item)
  slot item w hw := by cases hw
  postings item w hw := by cases hw
  occurs item w hw := by cases hw
  known x hx := absurd hx List.not_mem_nil

/-- A word of the index is in a slot where it is found. -/
theorem Indexed.placedAt (h : Indexed xs ix) (hw : ix.words[item]? = some w) :
    ∃ k, ix.dynlist.dynList[k]? = some (some item) ∧ Placed ix k w := by
  obtain ⟨k, hk⟩ := h.slot item w hw
  obtain ⟨w', hw', hplaced⟩ := h.placed k item hk
  obtain rfl := Option.some.inj (hw.symm.trans hw')
  exact ⟨k, hk, hplaced⟩

theorem Indexed.itemsOk (h : Indexed xs ix) : ItemsOk ix where
  items item hitem := by
    obtain ⟨k, hk⟩ := List.mem_iff_getElem?.mp hitem
    obtain ⟨w, hw, -⟩ := h.placed k item hk
    exact (List.getElem?_eq_some_iff.mp hw).1
  strings w hw := by
    obtain ⟨item, hitem⟩ := List.mem_iff_getElem?.mp hw
    obtain ⟨k, -, hplaced⟩ := h.placedAt hitem
    exact ⟨hplaced.chars, hplaced.length⟩

/-- Every word of the index is found. -/
theorem Indexed.find (h : Indexed xs ix) (hw : ix.words[item]? = some w) :
    ix.find w.str = .ok (some item) := by
  obtain ⟨k, hk, hplaced⟩ := h.placedAt hw
  refine lookup_of_passed hplaced.home hk hplaced.passed ?_
  rintro _ ⟨⟩
  exact ⟨w, hw, (h.itemsOk.matches_iff hplaced.chars hw).mpr rfl⟩

/-- What is found has the string. -/
theorem Indexed.found (h : Indexed xs ix) (hnul : 0 ∉ word)
    (hfind : ix.find word = .ok (some item)) :
    ∃ w, ix.words[item]? = some w ∧ w.str = word := by
  obtain ⟨-, -, -, -, hmatch⟩ := lookup_ok hfind
  obtain ⟨w, hw, hzero⟩ := hmatch item rfl
  exact ⟨w, hw, (h.itemsOk.matches_iff hnul hw).mp hzero⟩

/-- A word that is not found is not in the index. -/
theorem Indexed.not_found (h : Indexed xs ix) (hfind : ix.find word = .ok none)
    (hw : ix.words[item]? = some w) : w.str ≠ word := by
  rintro rfl
  rw [h.find hw] at hfind
  cases hfind

/-- The place of a word does not depend on its postings, nor on words in other slots. -/
theorem Placed.mono {v v' : Word} (h : Placed ix k v) (hstr : v'.str = v.str)
    (hhash : v'.hash = v.hash) (hhome : ix'.home v.str = ix.home v.str)
    (hpassed : ∀ a b, Passed ix.words ix.dynlist v.str a b →
      Passed ix'.words ix'.dynlist v.str a b) :
    Placed ix' k v' where
  chars := hstr ▸ h.chars
  length := hstr ▸ h.length
  hash := by rw [hhash, hstr, h.hash]
  home := by
    rw [hstr, hhome]
    exact h.home
  passed := by
    rw [hstr, hhome]
    exact hpassed _ _ h.passed

/-- Another occurrence of a word of the index. -/
theorem Indexed.step_known (henv : env.Keeps) (h : Indexed xs ix) (hnul : 0 ∉ x.word)
    (hfind : ix.find x.word = .ok (some item)) :
    ∃ ix', parseWord env x.docId x.lineNum ix x.word = .ok (true, ix') ∧
      Indexed (xs ++ [x]) ix' := by
  obtain ⟨w, hw, hstr⟩ := h.found hnul hfind
  obtain ⟨list, hadd, hlist⟩ := (h.postings item w hw).add henv.grows x.docId x.lineNum
  have hfind' : lookup ix.words ix.dynlist x.word (hashFunction x.word % ix.dynlist.physLen) =
    .ok (some item) := hfind
  refine ⟨{ ix with words := ix.words.set item { w with list := list } }, ?_, ?_⟩
  · rw [parseWord]
    simp only [hfind', ok_bind, hw, hadd]
  · have hadds : AddsPosting ix { ix with words := ix.words.set item { w with list := list } }
      item w list := ⟨hw, rfl, rfl⟩
    -- a word of the new index has its postings, or those that have been added to
    have hword : ∀ (j : Nat) (v : Word),
        (ix.words.set item { w with list := list })[j]? = some v →
        (j = item ∧ v = { w with list := list }) ∨ (j ≠ item ∧ ix.words[j]? = some v) := by
      intro j v hv
      by_cases hj : item = j
      · subst hj
        rw [List.getElem?_set_self (List.getElem?_eq_some_iff.mp hw).1] at hv
        exact .inl ⟨rfl, (Option.some.inj hv).symm⟩
      · rw [List.getElem?_set_ne hj] at hv
        exact .inr ⟨Ne.symm hj, hv⟩
    refine ⟨?_, ?_, ?_, ?_, ?_⟩
    · intro j i hj
      obtain ⟨v, hv, hplaced⟩ := h.placed j i hj
      obtain ⟨v', hv', hstr', hhash'⟩ := hadds.getElem?_word i hv
      exact ⟨v', hv', hplaced.mono hstr' hhash' rfl fun a b hp => hadds.passed_of hp⟩
    · intro j v hv
      obtain ⟨v', hv', -⟩ := hadds.word_inv j hv
      exact h.slot j v' hv'
    · intro j v hv
      rw [placesOf_append]
      rcases hword j v hv with ⟨rfl, rfl⟩ | ⟨hj, hv'⟩
      · rw [if_pos hstr.symm]
        exact hlist
      · rw [if_neg, List.append_nil]
        · exact h.postings j v hv'
        · intro heq
          have hsame := (h.find hv').symm.trans (heq ▸ hfind)
          exact hj (Option.some.inj (Except.ok.inj hsame))
    · intro j v hv
      obtain ⟨v', hv', hstr'⟩ := hadds.word_inv j hv
      obtain ⟨y, hy, hword⟩ := h.occurs j v' hv'
      exact ⟨y, List.mem_append_left _ hy, hword.trans hstr'⟩
    · intro y hy
      obtain ⟨j, v, hv, hvy⟩ : ∃ (j : Nat) (v : Word), ix.words[j]? = some v ∧ v.str = y.word := by
        rcases List.mem_append.mp hy with hy | hy
        · exact h.known y hy
        · rw [List.mem_singleton.mp hy]
          exact ⟨item, w, hw, hstr⟩
      obtain ⟨v', hv', hstr', -⟩ := hadds.getElem?_word j hv
      exact ⟨j, v', hv', hstr'.trans hvy⟩

theorem firstPosting_postings (docId lineNum : Nat) :
    PostingsOf [(docId, lineNum)] [firstPosting docId lineNum] := by
  obtain ⟨list, hadd, hlist⟩ := PostingsOf.empty.add Alloc.exact_keeps.grows docId lineNum
  obtain rfl : [firstPosting docId lineNum] = list := (Prod.mk.inj (Except.ok.inj hadd)).2
  exact hlist

/-- The first occurrence of a word. -/
theorem Indexed.step_new (henv : env.Keeps) (h : Indexed xs ix) (hnul : 0 ∉ x.word)
    (hplace : Placeable ix x.word) (hfind : ix.find x.word = .ok none) :
    ∃ ix', parseWord env x.docId x.lineNum ix x.word = .ok (true, ix') ∧
      Indexed (xs ++ [x]) ix' := by
  obtain ⟨k, hslot, hpassed⟩ := lookup_none hfind
  obtain ⟨w, hw⟩ : ∃ w : Word, w = ⟨hashFunction x.word, x.word,
    [firstPosting x.docId x.lineNum]⟩ :=
    ⟨_, rfl⟩
  have hstr : w.str = x.word := by rw [hw]
  have hrun := parseWord_new env x.word x.docId x.lineNum hnul hplace.length (fun _ => henv) hslot
    hfind
  rw [← hw] at hrun
  have hadds : AddsWord ix (ix.add k w) k w :=
    add_addsWord (by rw [hstr]; exact hslot) (by rw [hstr]; exact hpassed)
  -- no home slot moves
  have hhome : ∀ v, v = x.word ∨ (0 ∉ v ∧ ∃ item, ix.find v = .ok (some item)) →
      (ix.add k w).home v = ix.home v := by
    intro v hv
    by_cases hgrow : ix.dynlist.physLen ≤ ix.dynlist.lastIndex
    · have hstay := hplace.stays hfind hgrow
      refine home_stays (hadds.physLen hgrow) ?_
      rcases hv with rfl | ⟨hv, item, hitem⟩
      · exact hstay.new
      · exact hstay.old v item hv hitem
    · rw [Index.home, Index.home, physLen_add (Nat.lt_of_not_le hgrow)]
  -- a word of the new index is the new one, or was there
  have hword : ∀ (i : Nat) (v : Word), (ix.add k w).words[i]? = some v →
      (i = ix.words.length ∧ v = w) ∨ ix.words[i]? = some v := by
    intro i v hv
    rcases Nat.lt_or_ge i ix.words.length with hi | hi
    · rw [hadds.word_inv hi] at hv
      exact .inr hv
    · have hi' := (List.getElem?_eq_some_iff.mp hv).1
      rw [hadds.words, List.length_append, List.length_singleton] at hi'
      obtain rfl : i = ix.words.length := by omega
      exact .inl ⟨rfl, Option.some.inj (hv.symm.trans hadds.word_new)⟩
  refine ⟨ix.add k w, hrun, ?_, ?_, ?_, ?_, ?_⟩
  · intro j i hj
    rcases hadds.slot_inv hj with ⟨rfl, rfl⟩ | ⟨-, hj⟩
    · refine ⟨w, hadds.word_new, ?_, ?_, ?_, ?_, ?_⟩
      · rw [hstr]; exact hnul
      · rw [hstr]; exact hplace.length
      · rw [hw]
      · rw [hstr, hhome _ (.inl rfl)]; exact hslot.le
      · rw [hstr, hhome _ (.inl rfl)]; exact hadds.passed_of hpassed
    · obtain ⟨v, hv, hplaced⟩ := h.placed j i hj
      refine ⟨v, hadds.word_of_some hv, hplaced.mono rfl rfl
        (hhome _ (.inr ⟨hplaced.chars, i, h.find hv⟩)) ?_⟩
      exact fun a b hp => hadds.passed_of hp
  · intro i v hv
    rcases hword i v hv with ⟨rfl, -⟩ | hv
    · exact ⟨k, hadds.slot_new⟩
    · obtain ⟨j, hj⟩ := h.slot i v hv
      exact ⟨j, hadds.slot_of_some hj⟩
  · intro i v hv
    rw [placesOf_append]
    rcases hword i v hv with ⟨-, rfl⟩ | hv
    · have hnone : placesOf xs v.str = [] := by
        refine placesOf_eq_nil fun y hy heq => ?_
        obtain ⟨j, u, hu, huy⟩ := h.known y hy
        exact h.not_found hfind hu (huy.trans (heq.trans hstr))
      rw [hnone, if_pos hstr.symm, List.nil_append, hw]
      exact firstPosting_postings _ _
    · rw [if_neg (Ne.symm (h.not_found hfind hv)), List.append_nil]
      exact h.postings i v hv
  · intro i v hv
    rcases hword i v hv with ⟨-, rfl⟩ | hv
    · exact ⟨x, List.mem_append_right _ List.mem_cons_self, hstr.symm⟩
    · obtain ⟨y, hy, hyv⟩ := h.occurs i v hv
      exact ⟨y, List.mem_append_left _ hy, hyv⟩
  · intro y hy
    rcases List.mem_append.mp hy with hy | hy
    · obtain ⟨j, v, hv, hvy⟩ := h.known y hy
      exact ⟨j, v, hadds.word_of_some hv, hvy⟩
    · rw [List.mem_singleton.mp hy]
      exact ⟨_, w, hadds.word_new, hstr⟩

/-- One occurrence more. -/
theorem Indexed.step (henv : env.Keeps) (h : Indexed xs ix) (hnul : 0 ∉ x.word)
    (hplace : Placeable ix x.word) :
    ∃ ix', parseWord env x.docId x.lineNum ix x.word = .ok (true, ix') ∧
      Indexed (xs ++ [x]) ix' := by
  obtain ⟨k, hle, hends⟩ := hplace.ends
  obtain ⟨o, hfind⟩ := h.itemsOk.lookup_ends hnul hle hends
  cases o with
  | none => exact h.step_new henv hnul hplace hfind
  | some item => exact h.step_known henv hnul hfind

end Step

section Run

variable {env : Alloc} {ix ix' : Index} {xs ys : List Occurrence} {files : List (List UInt8)}
  {file word : List UInt8} {d d₀ : Nat}

/-- Each word meets `P` in the state in which it comes to the index. -/
def EachOccurrence (env : Alloc) (P : Index → List UInt8 → Prop) : Index → List Occurrence → Prop
  | _, [] => True
  | ix, x :: xs => P ix x.word ∧ ∀ ix',
      parseWord env x.docId x.lineNum ix x.word = .ok (true, ix') → EachOccurrence env P ix' xs

/-- Words that can be placed are indexed. -/
theorem Indexed.run (henv : env.Keeps) (h : Indexed xs ix) (hnul : ∀ y ∈ ys, 0 ∉ y.word)
    (heach : EachOccurrence env Placeable ix ys) :
    ∃ ix', handleOccurrences env ix ys = .ok ix' ∧ Indexed (xs ++ ys) ix' := by
  induction ys generalizing xs ix with
  | nil => exact ⟨ix, rfl, by rw [List.append_nil]; exact h⟩
  | cons y ys ih =>
    obtain ⟨hplace, hrest⟩ := heach
    obtain ⟨ix₁, hrun, h₁⟩ := h.step henv (hnul y List.mem_cons_self) hplace
    obtain ⟨ix', hrun', h'⟩ := ih h₁ (fun z hz => hnul z (List.mem_cons_of_mem y hz))
      (hrest ix₁ hrun)
    rw [List.append_assoc, List.singleton_append] at h'
    refine ⟨ix', ?_, h'⟩
    rw [handleOccurrences, List.foldlM_cons, hrun]
    exact hrun'

/-- The lines of a file in which a word occurs, once for each occurrence. -/
def linesIn (word file : List UInt8) : List Nat :=
  ((occurrences file).filter fun o => o.1 = word).map (·.2)

theorem placesOf_concat (xs ys : List Occurrence) (word : List UInt8) :
    placesOf (xs ++ ys) word = placesOf xs word ++ placesOf ys word := by
  rw [placesOf, List.filter_append, List.map_append]
  rfl

theorem linesOf_concat (as bs : List (Nat × Nat)) (d : Nat) :
    linesOf (as ++ bs) d = linesOf as d ++ linesOf bs d := by
  rw [linesOf, List.filter_append, List.map_append]
  rfl

theorem placesOf_file (d : Nat) (file word : List UInt8) :
    placesOf (fileOccurrences d file) word = (linesIn word file).map fun n => (d, n) := by
  rw [placesOf, fileOccurrences, linesIn, List.filter_map, List.map_map, List.map_map]
  rfl

theorem linesOf_file (d₀ d : Nat) (ns : List Nat) :
    linesOf (ns.map fun n => (d₀, n)) d = if d₀ = d then ns else [] := by
  rw [linesOf, List.filter_map, List.map_map]
  by_cases h : d₀ = d <;> simp [Function.comp_def, h]

/-- The lines of the file number `d`. -/
theorem linesOf_files (d₀ d : Nat) (files : List (List UInt8)) (word : List UInt8) :
    linesOf (placesOf (occurrencesFrom d₀ files) word) d =
      if d₀ ≤ d then linesIn word (files.getD (d - d₀) []) else [] := by
  induction files generalizing d₀ with
  | nil => split <;> rfl
  | cons file files ih =>
    rw [occurrencesFrom, List.zipIdx_cons, List.flatMap_cons, placesOf_concat, linesOf_concat,
      placesOf_file, linesOf_file]
    have hrest := ih (d₀ + 1)
    rw [occurrencesFrom] at hrest
    rw [hrest]
    rcases Nat.lt_trichotomy d₀ d with hlt | rfl | hlt
    · obtain ⟨m, hm⟩ : ∃ m, d - d₀ = m + 1 := ⟨d - d₀ - 1, by omega⟩
      have hm' : d - (d₀ + 1) = m := by omega
      rw [if_neg hlt.ne, if_pos (Nat.succ_le_of_lt hlt), if_pos hlt.le, hm, hm', List.nil_append,
        List.getD_cons_succ]
    · rw [if_pos rfl, if_neg (Nat.not_succ_le_self d₀), if_pos (Nat.le_refl d₀), Nat.sub_self,
        List.append_nil, List.getD_cons_zero]
    · rw [if_neg hlt.ne', if_neg (by omega), if_neg (by omega), List.append_nil]

/-- A document of the occurrences is one with lines. -/
theorem mem_docsOf {places : List (Nat × Nat)} : d ∈ docsOf places ↔ linesOf places d ≠ [] := by
  constructor
  · intro hd hnil
    rw [docsOf, List.mem_dedup, List.mem_reverse] at hd
    obtain ⟨place, hplace, rfl⟩ := List.mem_map.mp hd
    rw [linesOf, List.map_eq_nil_iff, List.filter_eq_nil_iff] at hnil
    exact hnil place hplace (decide_eq_true rfl)
  · intro hne
    by_contra hd
    exact hne (linesOf_eq_nil hd)

/-- The files have the word. -/
theorem exists_occurrence :
    (∃ x ∈ occurrencesFrom d₀ files, x.word = word) ↔ ∃ file ∈ files, linesIn word file ≠ [] := by
  constructor
  · rintro ⟨x, hx, rfl⟩
    obtain ⟨⟨file, d⟩, hfile, hx⟩ := List.mem_flatMap.mp hx
    obtain ⟨o, ho, rfl⟩ := List.mem_map.mp hx
    refine ⟨file, List.fst_mem_of_mem_zipIdx hfile, fun hnil => ?_⟩
    rw [linesIn, List.map_eq_nil_iff, List.filter_eq_nil_iff] at hnil
    exact hnil o ho (decide_eq_true rfl)
  · rintro ⟨file, hfile, hne⟩
    obtain ⟨n, hn⟩ := List.exists_mem_of_ne_nil _ hne
    obtain ⟨o, ho, rfl⟩ := List.mem_map.mp hn
    obtain ⟨ho, hword⟩ := List.mem_filter.mp ho
    obtain ⟨d, hd⟩ : ∃ d, (file, d) ∈ files.zipIdx d₀ := by
      obtain ⟨i, hi⟩ := List.mem_iff_getElem?.mp hfile
      exact ⟨d₀ + i, List.mk_add_mem_zipIdx_iff_getElem?.mpr hi⟩
    refine ⟨⟨o.1, d, o.2⟩, ?_, of_decide_eq_true hword⟩
    exact List.mem_flatMap.mpr ⟨(file, d), hd, List.mem_map_of_mem ho⟩

/-- `lookup` of the word returns it with its lines in every file, or `NULL` if no file has it. -/
def Answers (files : List (List UInt8)) (ix : Index) (word : List UInt8) : Prop :=
  ∃ o, lookup ix.words ix.dynlist word (hashFunction word % ix.dynlist.physLen) = .ok o ∧
    (o = none ↔ ∀ file ∈ files, linesIn word file = []) ∧
    ∀ item ∈ o, ∃ w, ix.words[item]? = some w ∧ w.str = word ∧ (w.list.map (·.val)).Nodup ∧
      (∀ d, d ∈ w.list.map (·.val) ↔ linesIn word (files.getD d []) ≠ []) ∧
      ∀ link ∈ w.list,
        link.list.take link.lastIndex = linesIn word (files.getD link.val [])

/-- A word that is not in the index is in no file. -/
theorem Indexed.linesIn_eq_nil (h : Indexed (occurrencesFrom 0 files) ix)
    (hfind : ix.find word = .ok none) : ∀ file ∈ files, linesIn word file = [] := by
  intro file hfile
  by_contra hne
  obtain ⟨x, hx, hxw⟩ := exists_occurrence.mpr ⟨file, hfile, hne⟩
  obtain ⟨item, w, hw, hstr⟩ := h.known x hx
  exact h.not_found hfind hw (hstr.trans hxw)

/-- An index of the occurrences in the files answers for them. -/
theorem Indexed.answers (h : Indexed (occurrencesFrom 0 files) ix) (hnul : 0 ∉ word) :
    Answers files ix word ↔ ∃ k, ix.home word ≤ k ∧ Ends ix word k := by
  have hlines (d : Nat) : linesOf (placesOf (occurrencesFrom 0 files) word) d =
      linesIn word (files.getD d []) := by
    rw [linesOf_files, if_pos (Nat.zero_le d), Nat.sub_zero]
  constructor
  · rintro ⟨o, ho, -, hword⟩
    obtain ⟨k, hle, hk, -⟩ := lookup_ok ho
    refine ⟨k, hle, ?_⟩
    cases o with
    | none => exact .inl hk
    | some item =>
      obtain ⟨w, hw, hstr, -⟩ := hword item rfl
      exact .inr ⟨item, w, hk, hw, hstr⟩
  · rintro ⟨k, hle, hends⟩
    obtain ⟨o, ho⟩ := h.itemsOk.lookup_ends hnul hle hends
    refine ⟨o, ho, ?_, ?_⟩
    · constructor
      · rintro rfl
        exact h.linesIn_eq_nil ho
      · intro hnone
        cases o with
        | none => rfl
        | some item =>
          obtain ⟨w, hw, rfl⟩ := h.found hnul ho
          obtain ⟨file, hfile, hne⟩ := exists_occurrence.mp (h.occurs item w hw)
          exact absurd (hnone file hfile) hne
    · rintro item rfl
      obtain ⟨w, hw, rfl⟩ := h.found hnul ho
      obtain ⟨hdocs, hholds⟩ := h.postings item w hw
      refine ⟨w, hw, rfl, ?_, fun d => ?_, fun link hlink => ?_⟩
      · rw [hdocs]
        exact List.nodup_dedup _
      · rw [hdocs, mem_docsOf, hlines]
      · rw [(hholds link hlink).lines, hlines]

theorem occurrences_nul {o : List UInt8 × Nat} (hnul : 0 ∉ file) (h : o ∈ occurrences file) :
    0 ∉ o.1 := by
  obtain ⟨x, -, rfl⟩ := List.mem_map.mp h
  exact fun hmem => hnul (List.mem_of_mem_take (List.mem_of_mem_drop hmem))

end Run

section ReadDir

variable {env : Env} {absPath : List UInt8} {entries : List DirEntry} {files : List (List UInt8)}

/-- The bootstrapping builds the index of the files. -/
theorem boot_indexed (henv : env.Keeps) (hdir : Directory env absPath entries files)
    (hlines : ReadsLines files)
    (hwords : EachOccurrence env.toAlloc Placeable .empty (occurrencesFrom 0 files)) :
    ∃ b, readDir env absPath entries = .ok b ∧ Indexed (occurrencesFrom 0 files) b.index := by
  have hnul : ∀ x ∈ occurrencesFrom 0 files, 0 ∉ x.word := by
    intro x hx
    obtain ⟨⟨file, d⟩, hfile, hx⟩ := List.mem_flatMap.mp hx
    obtain ⟨o, ho, rfl⟩ := List.mem_map.mp hx
    exact occurrences_nul (hdir.chars file (List.fst_mem_of_mem_zipIdx hfile)) ho
  obtain ⟨ix, hrun, hix⟩ := Indexed.empty.run henv hnul hwords
  obtain ⟨b, hboot, rfl⟩ := readDir_occurrences hdir hlines hrun
  exact ⟨b, hboot, hix⟩

/-- After `read_dir` the index answers for the files, if the lines are read as they are and each
word can be placed when it comes to the index: for every word whose probe ends in the table. -/
theorem readDir_answers (henv : env.Keeps) (hdir : Directory env absPath entries files)
    (hlines : ReadsLines files)
    (hwords : EachOccurrence env.toAlloc Placeable .empty (occurrencesFrom 0 files)) :
    ∃ b, readDir env absPath entries = .ok b ∧ ∀ word, (∀ c ∈ word, isalpha c) →
      (Answers files b.index word ↔ ∃ k, b.index.home word ≤ k ∧ Ends b.index word k) := by
  obtain ⟨b, hboot, hix⟩ := boot_indexed henv hdir hlines hwords
  refine ⟨b, hboot, fun word hword => ?_⟩
  exact hix.answers fun hmem => absurd (hword 0 hmem) (by decide)

/-- The first word of a server can be placed. -/
theorem placeable_empty (hlen : word.length < MAX_WORD_LEN) : Placeable .empty word where
  length := hlen
  ends := by
    refine ⟨_, Nat.le_refl _, .inl ?_⟩
    rw [Index.empty_home]
    exact Index.empty_slot (Nat.mod_lt _ (by decide))
  stays := by
    intro _ hgrow
    rw [Index.empty_physLen] at hgrow
    exact absurd hgrow (by decide)

/-- So can `a` behind `davx`, although the table grows. -/
theorem keptSlot_placeable : Placeable keptSlot [97] where
  length := by decide
  ends := by
    obtain ⟨hphys, -, hempty⟩ :=
      firstWord_full ⟨_, [100, 97, 118, 120], _⟩ keptSlot.eq_1 (by decide)
    have hhome : keptSlot.home [97] = 97 := by
      rw [Index.home, hphys]
      decide
    exact ⟨97, hhome.le, .inl (hempty 97 (by decide))⟩
  stays := fun _ _ => keptSlot_homesStay

/-- A directory with one file, of the line `davx a`. -/
theorem readDir_answers_grown : ∃ b,
    readDir (lineEnv [100, 97, 118, 120, 32, 97]) [100] [fileEntry] = .ok b ∧
    ∀ word, (∀ c ∈ word, isalpha c) → (Answers [[100, 97, 118, 120, 32, 97]] b.index word ↔
      ∃ k, b.index.home word ≤ k ∧ Ends b.index word k) := by
  have hoccurs : occurrencesFrom 0 [[100, 97, 118, 120, 32, 97]] =
    [⟨[100, 97, 118, 120], 0, 1⟩, ⟨[97], 0, 1⟩] := by decide
  have hfile : ∀ file ∈ [([100, 97, 118, 120, 32, 97] : List UInt8)],
    3 * file.length ≤ DYN_SIZE := by decide
  refine readDir_answers Alloc.exact_keeps ⟨by decide, by decide, by decide, rfl, by decide⟩
    ⟨fun file hfile' => ?_, fun file hfile' => linesFit_short (hfile file hfile')⟩ ?_
  · have hle := hfile file hfile'
    refine shortLines_of_le ?_
    simp only [DYN_SIZE] at hle ⊢
    omega
  · rw [hoccurs]
    refine ⟨placeable_empty (by decide), fun ix hix => ?_⟩
    obtain ⟨-, hfirst⟩ := parseWord_first .exact [100, 97, 118, 120] 0 1 (by decide) (by decide)
    obtain ⟨-, rfl⟩ := Prod.mk.inj (Except.ok.inj (hfirst.symm.trans hix))
    exact ⟨keptSlot_placeable, fun _ _ => trivial⟩

/-- In a file with the line `vjs aa` the second word makes the table grow, and is not found. -/
theorem readDir_loses : ∃ b,
    Directory (lineEnv [118, 106, 115, 32, 97, 97]) [100] [fileEntry]
      [[118, 106, 115, 32, 97, 97]] ∧
    readDir (lineEnv [118, 106, 115, 32, 97, 97]) [100] [fileEntry] = .ok b ∧
    linesIn [97, 97] [118, 106, 115, 32, 97, 97] = [1] ∧
    lookup b.index.words b.index.dynlist [97, 97]
      (hashFunction [97, 97] % b.index.dynlist.physLen) = .ok none ∧
    ¬ Answers [[118, 106, 115, 32, 97, 97]] b.index [97, 97] := by
  obtain ⟨-, -, ix, hrun, hlost⟩ := lastSlot_grows 0 1
  obtain ⟨-, hfirst⟩ := parseWord_first .exact [118, 106, 115] 0 1 (by decide) (by decide)
  have hwords : handleWords .exact 0 1 .empty [[118, 106, 115], [97, 97]] = .ok (1, ix) :=
    (handleWords_cons _ hfirst).trans (handleWords_cons _ hrun)
  have hruns : runs isalpha [118, 106, 115, 32, 97, 97] = [[118, 106, 115], [97, 97]] := by decide
  rw [← hruns] at hwords
  obtain ⟨fileList, hboot⟩ := readDir_lineEnv (by decide) (by decide) (by decide) (by decide) hwords
  have hlines : linesIn [97, 97] [118, 106, 115, 32, 97, 97] = [1] := by decide
  refine ⟨_, ⟨by decide, by decide, by decide, rfl, by decide⟩, hboot, hlines, hlost, ?_⟩
  rintro ⟨o, ho, hnull, -⟩
  obtain rfl := Except.ok.inj (hlost.symm.trans ho)
  have hnone := hnull.mp rfl _ List.mem_cons_self
  rw [hlines] at hnone
  cases hnone

end ReadDir

end SearchEngine.Server
