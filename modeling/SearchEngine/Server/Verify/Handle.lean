import SearchEngine.Server.Verify.Table
import SearchEngine.Server.Verify.Words
import SearchEngine.Lib.Reach

/-!
# One word, and runs of `parse`

`parseWord_cases` says once what the body of the loop of `parse` can do with a word: a posting is
added to a word of the table, or a new word is stored. What it preserves is preserved by every
sequence of calls of `parse` (`Parsed.invariant`), also if only calls are admitted in which each
word meets a condition in the state in which it is handled (`CallMeets`).
-/

namespace SearchEngine.Server

open Memory Outcome Reach Segments

section Postings

variable {env : Alloc} {l l' : LinkedList} {list list' : List LinkedList} {val index : Nat}
  {ret : Int} {flag : Bool} {docId lineNum : Nat}

/-- What `insert` does with a list of lines, if it does not write behind it. -/
theorem insertLink_ok (h : insertLink env l val index = .ok (ret, l')) :
    ret = 1 ∧ l'.val = l.val ∧ l'.lastIndex = l.lastIndex + 1 ∧ index < l'.list.length := by
  have hresize : (resizeLink env l).2.val = l.val ∧
    (resizeLink env l).2.lastIndex = l.lastIndex := by
    rw [resizeLink]
    split <;> exact ⟨rfl, rfl⟩
  rw [insertLink] at h
  generalize hbase : (if l.list.length ≤ l.lastIndex then (resizeLink env l).2 else l) = base at h
  have hfields : base.val = l.val ∧ base.lastIndex = l.lastIndex := by
    rw [← hbase]
    split
    · exact hresize
    · exact ⟨rfl, rfl⟩
  split at h
  · next hlt =>
    obtain ⟨rfl, rfl⟩ := Prod.mk.inj (Except.ok.inj h)
    refine ⟨rfl, hfields.1, congrArg (· + 1) hfields.2, ?_⟩
    rw [List.length_set]
    exact hlt
  · cases h

/-- What becomes of the postings of a word. -/
theorem addPosting_cases (h : addPosting env list docId lineNum = .ok (flag, list')) :
    flag = true ∧
      ((∃ i doc doc', lookupLink list docId = some i ∧ list[i]? = some doc ∧
          insertLink env doc lineNum doc.lastIndex = .ok (1, doc') ∧ list' = list.set i doc') ∨
        (lookupLink list docId = none ∧
          ∃ doc', insertLink env (createLink docId) lineNum 0 = .ok (1, doc') ∧
            list' = doc' :: list)) := by
  rw [addPosting] at h
  split at h
  · next i hlook =>
    split at h
    · cases h
    · next doc hdoc =>
      obtain ⟨⟨ret, doc'⟩, hins, h⟩ := bind_eq_ok h
      obtain ⟨hflag, hlist⟩ := Prod.mk.inj (Except.ok.inj h)
      obtain ⟨rfl, -⟩ := insertLink_ok hins
      exact ⟨hflag.symm, .inl ⟨i, doc, doc', hlook, hdoc, hins, hlist.symm⟩⟩
  · next hlook =>
    obtain ⟨⟨ret, doc'⟩, hins, h⟩ := bind_eq_ok h
    obtain ⟨rfl, -⟩ := insertLink_ok hins
    obtain ⟨hflag, hlist⟩ := Prod.mk.inj (Except.ok.inj h)
    exact ⟨hflag.symm, .inr ⟨hlook, doc', hins, hlist.symm⟩⟩

end Postings

section Word

variable {env : Alloc} {ix ix' : Index} {word : List UInt8} {flag : Bool} {docId lineNum : Nat}

/-- The slot from which a word is looked up. -/
def Index.home (ix : Index) (word : List UInt8) : Nat := hashFunction word % ix.dynlist.physLen

/-- `lookup` of a word in the table of an index. -/
def Index.find (ix : Index) (word : List UInt8) : Except Fault (Option Nat) :=
  lookup ix.words ix.dynlist word (ix.home word)

/-- A word that does not reach the limit fills the block that is allocated for it. -/
theorem storeWord_word (env : Alloc) (hlen : word.length < MAX_WORD_LEN) :
    ∃ str, storeWord env word (strGetLength word MAX_WORD_LEN) = .ok str ∧
      str.data = word ++ [0] := by
  have hsize : strGetLength word MAX_WORD_LEN = word.length := by
    rw [strGetLength, if_neg (Nat.not_le.mpr hlen)]
  obtain ⟨mem, hmem⟩ : ∃ mem, mem = env.malloc (strGetLength word MAX_WORD_LEN + 1) := ⟨_, rfl⟩
  have hcap : ([] : List UInt8).length + word.length < strGetLength word MAX_WORD_LEN + 1 := by
    rw [hsize, List.length_nil, Nat.zero_add]
    exact Nat.lt_succ_self _
  have hdata : mem.data = [] ++ mem.data := rfl
  obtain ⟨str, rest, hcopy, hstr⟩ := strCopy_end mem word MAX_WORD_LEN hdata hlen hcap
  have hrest : rest = [] := by
    have hlength := str.length_eq
    rw [hstr, hsize] at hlength
    simp only [List.length_append, List.length_cons, List.length_nil] at hlength
    exact List.length_eq_zero_iff.mp (by omega)
  refine ⟨str, ?_, by rw [hstr, hrest, List.nil_append]⟩
  rw [storeWord, ← hmem]
  have hcopy' : strCopy mem 0 word MAX_WORD_LEN = .ok (true, str) := hcopy
  simp only [hcopy', ok_bind]

/-- The copy of a longer word does not fit into its block. -/
theorem storeWord_longWord (env : Alloc) (hlen : MAX_WORD_LEN ≤ word.length) :
    storeWord env word (strGetLength word MAX_WORD_LEN) = .error .outOfBounds := by
  have hsize : strGetLength word MAX_WORD_LEN = 0 := by
    rw [strGetLength, if_pos hlen]
  have hnone : (env.malloc (strGetLength word MAX_WORD_LEN + 1)).write (0 : Nat)
      ((word ++ [0]).take MAX_WORD_LEN) = none := by
    refine Block.write_eq_none.mpr (.inr ?_)
    rw [hsize, List.length_take, List.length_append, List.length_singleton, Int.toNat_natCast]
    simp only [MAX_WORD_LEN] at hlen ⊢
    omega
  rw [storeWord, strCopy, hnone, error_bind]

/-- What the body of the loop of `parse` does with a word. -/
theorem parseWord_cases (hnul : 0 ∉ word)
    (h : parseWord env docId lineNum ix word = .ok (flag, ix')) :
    flag = true ∧
      ((∃ item w list, ix.find word = .ok (some item) ∧ ix.words[item]? = some w ∧
          addPosting env w.list docId lineNum = .ok (true, list) ∧
          ix' = { ix with words := ix.words.set item { w with list := list } }) ∨
        (ix.find word = .ok none ∧ word.length < MAX_WORD_LEN ∧
          ∃ doc ret dynlist, insertLink env (createLink docId) lineNum 0 = .ok (1, doc) ∧
            insertDyn env ix.dynlist ix.words.length (ix.home word) = (ret, dynlist) ∧
            ix'.words = ix.words ++ [⟨hashFunction word, word, [doc]⟩] ∧
            if ret = EXTEND then disperseKeys ix'.words dynlist = .ok ix'.dynlist
            else ix'.dynlist = dynlist)) := by
  obtain ⟨o, hfind, h⟩ := bind_eq_ok h
  cases o with
  | some item =>
    simp only at h
    split at h
    · cases h
    · next w hw =>
      obtain ⟨⟨ok, list⟩, hadd, h⟩ := bind_eq_ok h
      obtain ⟨rfl, rfl⟩ := Prod.mk.inj (Except.ok.inj h)
      obtain ⟨rfl, -⟩ := addPosting_cases hadd
      exact ⟨rfl, .inl ⟨item, w, list, hfind, hw, hadd, rfl⟩⟩
  | none =>
    by_cases hlen : word.length < MAX_WORD_LEN
    · obtain ⟨str, hstore, hdata⟩ := storeWord_word env hlen
      have hstr : cstring str.data = .ok word := by rw [hdata, cstring_append hnul]
      obtain ⟨str', hstore', h⟩ := bind_eq_ok h
      obtain rfl := Except.ok.inj (hstore.symm.trans hstore')
      obtain ⟨w, hw, h⟩ := bind_eq_ok h
      obtain rfl := Except.ok.inj (hstr.symm.trans hw)
      obtain ⟨⟨ret₁, doc⟩, hdoc, h⟩ := bind_eq_ok h
      obtain ⟨rfl, -⟩ := insertLink_ok hdoc
      obtain ⟨⟨ret, dynlist⟩, hins⟩ : ∃ r, insertDyn env ix.dynlist ix.words.length
        (hashFunction word % ix.dynlist.physLen) = r := ⟨_, rfl⟩
      simp only [hins] at h
      by_cases hext : ret = EXTEND
      · rw [if_pos hext] at h
        obtain ⟨dynlist', hdisp, h⟩ := bind_eq_ok h
        obtain ⟨rfl, rfl⟩ := Prod.mk.inj (Except.ok.inj h)
        exact ⟨rfl, .inr ⟨hfind, hlen, doc, ret, dynlist, hdoc, hins, rfl,
          by rw [if_pos hext]; exact hdisp⟩⟩
      · rw [if_neg hext] at h
        obtain ⟨rfl, rfl⟩ := Prod.mk.inj (Except.ok.inj h)
        exact ⟨rfl, .inr ⟨hfind, hlen, doc, ret, dynlist, hdoc, hins, rfl, by rw [if_neg hext]⟩⟩
    · obtain ⟨str', hstore', h⟩ := bind_eq_ok h
      cases (storeWord_longWord env (Nat.le_of_not_lt hlen)).symm.trans hstore'

/-- Nothing is redistributed while the second half of the table is empty. -/
theorem disperseKeys_empty {words : List Word} {l : DynList}
    (h : ∀ j, l.physLen / 2 ≤ j → j < l.physLen → l.dynList[j]? = some none) :
    disperseKeys words l = .ok l := by
  have hstep : ∀ js : List Nat, (∀ j ∈ js, l.physLen / 2 ≤ j ∧ j < l.physLen) →
      js.foldlM (disperseKey words (l.physLen / 2) l.physLen l.lastIndex) l = .ok l := by
    intro js hjs
    induction js with
    | nil => rfl
    | cons j js ih =>
      obtain ⟨hle, hlt⟩ := hjs j List.mem_cons_self
      rw [List.foldlM_cons, disperseKey, h j hle hlt, ok_bind]
      exact ih fun i hi => hjs i (List.mem_cons_of_mem j hi)
  refine hstep _ fun j hj => ?_
  obtain ⟨hle, hlt⟩ := List.mem_range'_1.mp hj
  exact ⟨hle, by omega⟩

/-- The first empty slot does not move when the table grows. -/
theorem FirstEmpty.grown {l : DynList} {index k : Nat} (h : FirstEmpty l.dynList index k) :
    FirstEmpty l.grown.dynList index k := by
  rw [DynList.grown]
  split
  · have hk := h.lt
    refine ⟨h.le, ?_, fun j hj hlt => ?_⟩
    · simp only [List.getElem?_append_left hk]
      exact h.empty
    · simp only [List.getElem?_append_left (Nat.lt_trans hlt hk)]
      exact h.before j hj hlt
  · exact h

/-- The table of `ix'` is the one of `ix`, with the number of the word `w` in the slot `k`. -/
structure AddsWord (ix ix' : Index) (k : Nat) (w : Word) : Prop where
  slot : FirstEmpty ix.dynlist.dynList (ix.home w.str) k
  passed : Passed ix.words ix.dynlist w.str (ix.home w.str) k
  words : ix'.words = ix.words ++ [w]
  dynList : ix'.dynlist.dynList = ix.dynlist.grown.dynList.set k (some ix.words.length)
  lastIndex : ix'.dynlist.lastIndex =
    if ix.dynlist.lastIndex < k then k + 1 else ix.dynlist.lastIndex

/-- The table of `ix'` is the one of `ix`, but the word `w` has another list of postings. -/
structure AddsPosting (ix ix' : Index) (item : Nat) (w : Word) (list : List LinkedList) : Prop where
  word : ix.words[item]? = some w
  words : ix'.words = ix.words.set item { w with list := list }
  dynlist : ix'.dynlist = ix.dynlist

section AddsWord

variable {k j item : Nat} {w v : Word} {str : List UInt8} {list : List LinkedList}

theorem AddsWord.getElem? (h : AddsWord ix ix' k w) (hj : j < ix.dynlist.physLen) (hne : j ≠ k) :
    ix'.dynlist.dynList[j]? = ix.dynlist.dynList[j]? := by
  rw [h.dynList, List.getElem?_set_ne (Ne.symm hne), DynList.grown]
  split
  · exact List.getElem?_append_left hj
  · rfl

/-- The slots that are in use stay as they are. -/
theorem AddsWord.slot_of_some (h : AddsWord ix ix' k w)
    (hj : ix.dynlist.dynList[j]? = some (some item)) :
    ix'.dynlist.dynList[j]? = some (some item) := by
  rw [h.getElem? (List.getElem?_eq_some_iff.mp hj).1, hj]
  rintro rfl
  rw [h.slot.empty] at hj
  cases hj

theorem AddsWord.slot_new (h : AddsWord ix ix' k w) :
    ix'.dynlist.dynList[k]? = some (some ix.words.length) := by
  rw [h.dynList, List.getElem?_set_self h.slot.grown.lt]

theorem AddsWord.word_of_some (h : AddsWord ix ix' k w) (hv : ix.words[item]? = some v) :
    ix'.words[item]? = some v := by
  rw [h.words, List.getElem?_append_left (List.getElem?_eq_some_iff.mp hv).1, hv]

theorem AddsWord.word_new (h : AddsWord ix ix' k w) : ix'.words[ix.words.length]? = some w := by
  rw [h.words, List.getElem?_append_right (Nat.le_refl _), Nat.sub_self, List.getElem?_cons_zero]

/-- A probe that passed still passes. -/
theorem AddsWord.passed_of {a b : Nat} (h : AddsWord ix ix' k w)
    (hp : Passed ix.words ix.dynlist str a b) : Passed ix'.words ix'.dynlist str a b := by
  intro j hj hlt
  obtain ⟨item, v, hitem, hv, hne⟩ := hp j hj hlt
  exact ⟨item, v, h.slot_of_some hitem, h.word_of_some hv, hne⟩

theorem AddsWord.matches_of (h : AddsWord ix ix' k w) (hm : Matches ix.words str item) :
    Matches ix'.words str item := by
  obtain ⟨v, hv, hzero⟩ := hm
  exact ⟨v, h.word_of_some hv, hzero⟩

/-- The slots of the new table that are in use. -/
theorem AddsWord.slot_inv (h : AddsWord ix ix' k w)
    (hj : ix'.dynlist.dynList[j]? = some (some item)) :
    (j = k ∧ item = ix.words.length) ∨ (j ≠ k ∧ ix.dynlist.dynList[j]? = some (some item)) := by
  by_cases hjk : j = k
  · subst hjk
    exact .inl ⟨rfl, Option.some.inj (Option.some.inj (hj.symm.trans h.slot_new))⟩
  · refine .inr ⟨hjk, ?_⟩
    rw [h.dynList, List.getElem?_set_ne (Ne.symm hjk), DynList.grown] at hj
    split at hj
    · rw [List.getElem?_append] at hj
      split at hj
      · exact hj
      · cases (List.mem_replicate.mp (List.mem_of_getElem? hj)).2
    · exact hj

/-- The words that were there before keep their strings. -/
theorem AddsWord.word_inv (h : AddsWord ix ix' k w) (hlt : item < ix.words.length) :
    ix'.words[item]? = ix.words[item]? := by
  rw [h.words, List.getElem?_append_left hlt]

theorem AddsPosting.word_inv (h : AddsPosting ix ix' item w list) (j : Nat)
    (hv : ix'.words[j]? = some v) : ∃ v', ix.words[j]? = some v' ∧ v'.str = v.str := by
  rw [h.words] at hv
  by_cases hj : item = j
  · subst hj
    rw [List.getElem?_set_self (List.getElem?_eq_some_iff.mp h.word).1] at hv
    obtain rfl := Option.some.inj hv
    exact ⟨w, h.word, rfl⟩
  · rw [List.getElem?_set_ne hj] at hv
    exact ⟨v, hv, rfl⟩

theorem AddsPosting.getElem?_word (h : AddsPosting ix ix' item w list) (j : Nat)
    (hv : ix.words[j]? = some v) :
    ∃ v', ix'.words[j]? = some v' ∧ v'.str = v.str ∧ v'.hash = v.hash := by
  rw [h.words]
  by_cases hj : item = j
  · subst hj
    obtain rfl := Option.some.inj (h.word.symm.trans hv)
    rw [List.getElem?_set_self (List.getElem?_eq_some_iff.mp hv).1]
    exact ⟨_, rfl, rfl, rfl⟩
  · rw [List.getElem?_set_ne hj]
    exact ⟨v, hv, rfl, rfl⟩

theorem AddsPosting.passed_of {a b : Nat} (h : AddsPosting ix ix' item w list)
    (hp : Passed ix.words ix.dynlist str a b) : Passed ix'.words ix'.dynlist str a b := by
  intro j hj hlt
  obtain ⟨item', v, hitem, hv, hne⟩ := hp j hj hlt
  obtain ⟨v', hv', hstr, -⟩ := h.getElem?_word item' hv
  rw [h.dynlist]
  exact ⟨item', v', hitem, hv', by rw [hstr]; exact hne⟩

end AddsWord

/-- The table after a new word has been stored in the slot `k`. -/
def Index.add (ix : Index) (k : Nat) (w : Word) : Index where
  words := ix.words ++ [w]
  dynlist := {
    dynList := ix.dynlist.grown.dynList.set k (some ix.words.length)
    lastIndex := if ix.dynlist.lastIndex < k then k + 1 else ix.dynlist.lastIndex }

theorem add_addsWord {w : Word} {k : Nat} (hslot : FirstEmpty ix.dynlist.dynList (ix.home w.str) k)
    (hpassed : Passed ix.words ix.dynlist w.str (ix.home w.str) k) : AddsWord ix (ix.add k w) k w :=
  ⟨hslot, hpassed, rfl, rfl, rfl⟩

/-- `insert` and `disperse_keys` store a new word and do nothing else. -/
theorem store_word (w : Word) (words : List Word) {k : Nat}
    (henv : ix.dynlist.physLen ≤ ix.dynlist.lastIndex → env.Keeps)
    (h : FirstEmpty ix.dynlist.dynList (ix.home word) k) :
    ∃ ret, insertDyn env ix.dynlist ix.words.length (ix.home word) = (ret, (ix.add k w).dynlist) ∧
      (ret = EXTEND → disperseKeys words (ix.add k w).dynlist = .ok (ix.add k w).dynlist) := by
  refine ⟨_, insertDyn_stores henv _ h.grown, fun hext => disperseKeys_empty ?_⟩
  have hgrow : ix.dynlist.physLen ≤ ix.dynlist.lastIndex := by
    by_contra hlt
    rw [if_neg hlt] at hext
    cases hext
  -- the new word is in the first half
  have hk := h.lt
  rw [Index.add, DynList.grown_of_le hgrow]
  simp only [DynList.physLen, List.length_set, List.length_append, List.length_replicate]
  intro j hle hlt
  rw [List.getElem?_set_ne (by omega), List.getElem?_append_right (by omega)]
  exact List.getElem?_replicate_of_lt (by omega)

/-- What the body of the loop of `parse` does to the table, if `tc_realloc` keeps the slots when
it is called. -/
theorem parseWord_table (hnul : 0 ∉ word)
    (henv : ix.dynlist.physLen ≤ ix.dynlist.lastIndex → env.Keeps)
    (h : parseWord env docId lineNum ix word = .ok (flag, ix')) :
    flag = true ∧
      ((∃ item w list, ix.find word = .ok (some item) ∧
          addPosting env w.list docId lineNum = .ok (true, list) ∧
          AddsPosting ix ix' item w list) ∨
        (∃ k doc, ix.find word = .ok none ∧ word.length < MAX_WORD_LEN ∧
          insertLink env (createLink docId) lineNum 0 = .ok (1, doc) ∧
          AddsWord ix ix' k ⟨hashFunction word, word, [doc]⟩)) := by
  obtain ⟨rfl, ⟨item, w, list, hfind, hw, hadd, rfl⟩ | ⟨hfind, hlen, doc, ret, dynlist, hdoc,
    hins, hwords, hdyn⟩⟩ := parseWord_cases hnul h
  · exact ⟨rfl, .inl ⟨item, w, list, hfind, hadd, hw, rfl, rfl⟩⟩
  · obtain ⟨k, hfirst, hpassed⟩ := lookup_none hfind
    obtain ⟨ret', hins', hext⟩ := store_word ⟨hashFunction word, word, [doc]⟩ ix'.words
      henv hfirst
    obtain ⟨rfl, rfl⟩ := Prod.mk.inj (hins'.symm.trans hins)
    have hdynlist : ix'.dynlist = (ix.add k ⟨hashFunction word, word, [doc]⟩).dynlist := by
      split at hdyn
      · next hret => exact (Except.ok.inj ((hext hret).symm.trans hdyn)).symm
      · exact hdyn
    exact ⟨rfl, .inr ⟨k, doc, hfind, hlen, hdoc, hfirst, hpassed, hwords,
      congrArg DynList.dynList hdynlist, congrArg DynList.lastIndex hdynlist⟩⟩

/-- The postings of a new word. -/
def firstPosting (docId lineNum : Nat) : LinkedList :=
  ⟨docId, lineNum :: List.replicate (LIST_SIZE - 1) 0, 1⟩

/-- A new word is stored in the first empty slot. -/
theorem parseWord_new (env : Alloc) (word : List UInt8) (docId lineNum : Nat) {k : Nat}
    (hnul : 0 ∉ word) (hlen : word.length < MAX_WORD_LEN)
    (henv : ix.dynlist.physLen ≤ ix.dynlist.lastIndex → env.Keeps)
    (hslot : FirstEmpty ix.dynlist.dynList (ix.home word) k) (hfind : ix.find word = .ok none) :
    parseWord env docId lineNum ix word =
      .ok (true, ix.add k ⟨hashFunction word, word, [firstPosting docId lineNum]⟩) := by
  obtain ⟨str, hstore, hdata⟩ := storeWord_word env hlen
  have hstr : cstring str.data = .ok word := by rw [hdata, cstring_append hnul]
  obtain ⟨ret, hins, hext⟩ := store_word
    ⟨hashFunction word, word, [firstPosting docId lineNum]⟩
    (ix.words ++ [⟨hashFunction word, word, [firstPosting docId lineNum]⟩]) henv hslot
  have hfind' : lookup ix.words ix.dynlist word (hashFunction word % ix.dynlist.physLen) =
    .ok none := hfind
  have hins' : insertDyn env ix.dynlist ix.words.length
      (hashFunction word % ix.dynlist.physLen) = _ := hins
  have hdoc : insertLink env (createLink docId) lineNum (createLink docId).lastIndex =
    .ok (1, firstPosting docId lineNum) := rfl
  rw [parseWord]
  simp only [hfind', ok_bind, hstore, hstr, hdoc, hins']
  by_cases hret : ret = EXTEND
  · simp only [if_pos hret, hext hret, ok_bind]
    rfl
  · simp only [if_neg hret]
    rfl

/-- A word whose home slot is empty is not found. -/
theorem find_of_empty (h : ix.dynlist.dynList[ix.home word]? = some none) :
    ix.find word = .ok none ∧ FirstEmpty ix.dynlist.dynList (ix.home word) (ix.home word) :=
  ⟨lookup_of_passed (Nat.le_refl _) h .refl (by simp),
    ⟨Nat.le_refl _, h, fun _ hj hlt => absurd hlt (Nat.not_lt.mpr hj)⟩⟩

variable {k j : Nat} {w : Word}

theorem physLen_add (h : ix.dynlist.lastIndex < ix.dynlist.physLen) :
    (ix.add k w).dynlist.physLen = ix.dynlist.physLen := by
  rw [Index.add, DynList.grown_of_lt h]
  exact List.length_set

theorem getElem?_add (h : ix.dynlist.lastIndex < ix.dynlist.physLen) (hne : k ≠ j) :
    (ix.add k w).dynlist.dynList[j]? = ix.dynlist.dynList[j]? := by
  rw [Index.add, DynList.grown_of_lt h, List.getElem?_set_ne hne]

theorem getElem?_add_self (h : ix.dynlist.lastIndex < ix.dynlist.physLen)
    (hk : k < ix.dynlist.physLen) :
    (ix.add k w).dynlist.dynList[k]? = some (some ix.words.length) := by
  rw [Index.add, DynList.grown_of_lt h, List.getElem?_set_self hk]

end Word

section Run

variable {env : Alloc} {P : Index → List UInt8 → Prop} {ix ix' : Index}
    {maxLen n docId lineNum : Nat}
  {c c' : Cursor} {word : List UInt8} {words : List (List UInt8)}

/-- A word that is cut off contains no NUL. -/
theorem nextWord_nul (h : nextWord maxLen c = .ok (some (word, c'))) : 0 ∉ word := by
  rw [nextWord] at h
  split at h
  · obtain ⟨b₀, -, h⟩ := bind_eq_ok h
    split at h
    · cases h
    · obtain ⟨⟨start, index⟩, -, h⟩ := bind_eq_ok h
      obtain ⟨b₁, -, h⟩ := bind_eq_ok h
      split at h
      · cases h
      · obtain ⟨⟨ptr, index'⟩, -, h⟩ := bind_eq_ok h
        obtain ⟨b₂, -, h⟩ := bind_eq_ok h
        have hend : ∀ {x : Except Fault (List UInt8 × Nat × Nat)},
            (x >>= fun r => cstring (r.1.drop start) >>= fun word =>
              Except.ok (some (word, (⟨r.1, r.2.1, r.2.2⟩ : Cursor)))) = .ok (some (word, c')) →
              0 ∉ word := by
          intro x hx
          obtain ⟨r, -, hx⟩ := bind_eq_ok hx
          obtain ⟨word', hword, hx⟩ := bind_eq_ok hx
          obtain ⟨rfl, -⟩ := Prod.mk.inj (Option.some.inj (Except.ok.inj hx))
          rw [cstring] at hword
          split at hword
          · rw [← Except.ok.inj hword]
            exact not_mem_takeWhile_zero _
          · cases hword
        split at h
        · exact hend h
        · exact hend h
  · cases h

theorem wordsOf_nul (h : wordsOf maxLen n c = .ok words) : ∀ word ∈ words, 0 ∉ word := by
  induction n generalizing c words with
  | zero => cases h
  | succ n ih =>
    obtain ⟨next, hnext, h⟩ := bind_eq_ok h
    cases next with
    | none =>
      obtain rfl := Except.ok.inj h
      simp
    | some next =>
      obtain ⟨word, c'⟩ := next
      obtain ⟨rest, hrest, h⟩ := bind_eq_ok h
      obtain rfl := Except.ok.inj h
      intro w hw
      rcases List.mem_cons.mp hw with rfl | hw
      · exact nextWord_nul hnext
      · exact ih hrest w hw

/-- A call of `parse` that returns has cut its line into words. -/
theorem parseLoop_ok {r : Int × Index × List UInt8}
    (h : parseLoop env maxLen docId lineNum n c ix = .ok r) :
    ∃ words, wordsOf maxLen n c = .ok words := by
  induction n generalizing c ix with
  | zero => cases h
  | succ n ih =>
    obtain ⟨next, hnext, h⟩ := bind_eq_ok h
    rw [wordsOf, hnext, ok_bind]
    cases next with
    | none => exact ⟨[], rfl⟩
    | some next =>
      obtain ⟨word, c'⟩ := next
      obtain ⟨⟨flag, ix'⟩, hword, h⟩ := bind_eq_ok h
      obtain ⟨rfl, -⟩ := parseWord_cases (nextWord_nul hnext) hword
      obtain ⟨words, hwords⟩ := ih h
      exact ⟨word :: words, by simp only [hwords, ok_bind]⟩

/-- A call of `parse`. -/
structure Call where
  buf : List UInt8
  maxLen : Nat
  docId : Nat
  lineNum : Nat

/-- The call leads from one index to the other. -/
def ParseStep (env : Alloc) (ix : Index) (call : Call) (ix' : Index) : Prop :=
  ∃ ret buf', parse env ix call.buf call.maxLen call.docId call.lineNum = .ok (ret, ix', buf')

/-- Each of the words meets `P` in the state in which it is handled. -/
def EachWord (env : Alloc) (docId lineNum : Nat) (P : Index → List UInt8 → Prop) :
    Index → List (List UInt8) → Prop
  | _, [] => True
  | ix, word :: words => P ix word ∧ ∀ ix', parseWord env docId lineNum ix word = .ok (true, ix') →
      EachWord env docId lineNum P ix' words

/-- Each word of the call meets `P` in the state in which it is handled. -/
def CallMeets (env : Alloc) (P : Index → List UInt8 → Prop) (ix : Index) (call : Call) : Prop :=
  ∀ words, wordsOf call.maxLen (call.maxLen + 2) ⟨call.buf, 0, 0⟩ = .ok words →
    EachWord env call.docId call.lineNum P ix words

/-- Calls of `parse` lead from one index to the other, and each word meets `P` in the state in
which it is handled. -/
abbrev Parsed (env : Alloc) (P : Index → List UInt8 → Prop) : Index → Index → Prop :=
  Reaches (ParseStep env) (CallMeets env P)

/-- The tables before the first call. -/
def Index.empty : Index := ⟨[], createList DYN_SIZE⟩

theorem handleWords_invariant {I : Index → Prop} {ret : Int}
    (hstep : ∀ ix word flag ix', I ix → 0 ∉ word → P ix word →
      parseWord env docId lineNum ix word = .ok (flag, ix') → I ix')
    (h : handleWords env docId lineNum ix words = .ok (ret, ix')) (h0 : I ix)
    (hnul : ∀ word ∈ words, 0 ∉ word) (heach : EachWord env docId lineNum P ix words) : I ix' := by
  induction words generalizing ix with
  | nil =>
    obtain ⟨-, rfl⟩ := Prod.mk.inj (Except.ok.inj h)
    exact h0
  | cons word words ih =>
    obtain ⟨⟨flag, ix₁⟩, hword, h⟩ := bind_eq_ok h
    obtain ⟨hP, hrest⟩ := heach
    have hnul₁ := hnul word List.mem_cons_self
    have h₁ := hstep ix word flag ix₁ h0 hnul₁ hP hword
    obtain ⟨rfl, -⟩ := parseWord_cases hnul₁ hword
    exact ih h h₁ (fun w hw => hnul w (List.mem_cons_of_mem word hw)) (hrest ix₁ hword)

theorem eachWord_true (words : List (List UInt8)) (ix : Index) :
    EachWord env docId lineNum (fun _ _ => True) ix words := by
  induction words generalizing ix with
  | nil => trivial
  | cons word words ih => exact ⟨trivial, fun ix' _ => ih ix'⟩

/-- What every word that meets `P` preserves is preserved by a call of `parse`. -/
theorem parse_invariant {I : Index → Prop} {call : Call}
    (hstep : ∀ ix word flag ix', I ix → 0 ∉ word → P ix word →
      parseWord env call.docId call.lineNum ix word = .ok (flag, ix') → I ix')
    (h0 : I ix) (hmeets : CallMeets env P ix call) (h : ParseStep env ix call ix') : I ix' := by
  obtain ⟨ret, buf', hrun⟩ := h
  obtain ⟨words, hwords⟩ := parseLoop_ok hrun
  have hhandle := parse_words env ix call.docId call.lineNum hwords
  rw [hrun] at hhandle
  exact handleWords_invariant hstep hhandle.symm h0 (wordsOf_nul hwords) (hmeets words hwords)

/-- A call of `parse` whose words are handled returns. -/
theorem parse_of_handle {buf : List UInt8} {ret : Int}
    (hwords : wordsOf maxLen (maxLen + 2) ⟨buf, 0, 0⟩ = .ok words)
    (h : handleWords env docId lineNum ix words = .ok (ret, ix')) :
    ParseStep env ix ⟨buf, maxLen, docId, lineNum⟩ ix' := by
  have hmap := parse_words env ix docId lineNum hwords
  rw [h] at hmap
  cases hrun : parse env ix buf maxLen docId lineNum with
  | error e =>
    rw [hrun] at hmap
    cases hmap
  | ok r =>
    obtain ⟨ret', ix₁, buf'⟩ := r
    rw [hrun] at hmap
    obtain ⟨-, rfl⟩ := Prod.mk.inj (Except.ok.inj hmap)
    exact ⟨ret', buf', hrun⟩

/-- What every word that meets `P` preserves is preserved by the calls. -/
theorem parsed_invariant {I : Index → Prop} (h : Parsed env P ix ix') (h0 : I ix)
    (hstep : ∀ ix word docId lineNum flag ix', I ix → 0 ∉ word → P ix word →
      parseWord env docId lineNum ix word = .ok (flag, ix') → I ix') : I ix' :=
  h.invariant h0 fun _ call _ hI hmeets hcall => parse_invariant
    (fun ix word flag ix' => hstep ix word call.docId call.lineNum flag ix') hI hmeets hcall

/-- The scans of a short line are not cut off. -/
theorem wordsFit_short {line : List UInt8} (h : 3 * line.length ≤ DYN_SIZE) :
    WordsFit DYN_SIZE line.length (spans isalpha 0 line) := by
  simp only [DYN_SIZE] at h ⊢
  refine ⟨fun x hx => ?_, fun x hx => ?_⟩
  · have hbounds := spans_bounds hx
    omega
  · have hbounds := spans_bounds (List.mem_of_getLast? hx)
    simp only [TailFits]
    omega

/-- The words of a short line are its runs of letters. -/
theorem wordsOf_short {line : List UInt8} (rest : List UInt8) (hnul : 0 ∉ line)
    (hlen : 3 * line.length ≤ DYN_SIZE) :
    wordsOf DYN_SIZE (DYN_SIZE + 2) ⟨line ++ 0 :: rest, 0, 0⟩ = .ok (runs isalpha line) := by
  have hlt : line.length < DYN_SIZE := by
    simp only [DYN_SIZE] at hlen ⊢
    omega
  obtain ⟨words, hwords, hiff⟩ := wordsOf_line line rest hnul hlt
  rw [hwords, hiff.mpr (wordsFit_short hlen)]

/-- A call of `parse` for a short line handles its runs of letters. -/
theorem parsed_line (line : List UInt8) (docId lineNum : Nat) {ret : Int} (hnul : 0 ∉ line)
    (hlen : 3 * line.length ≤ DYN_SIZE)
    (heach : EachWord env docId lineNum P ix (runs isalpha line))
    (h : handleWords env docId lineNum ix (runs isalpha line) = .ok (ret, ix')) :
    Parsed env P ix ix' := by
  have hwords := wordsOf_short [] hnul hlen
  refine .single (e := ⟨line ++ [0], DYN_SIZE, docId, lineNum⟩) (fun words' hwords' => ?_)
    (parse_of_handle hwords h)
  obtain rfl := Except.ok.inj (hwords.symm.trans hwords')
  exact heach

theorem Index.empty_physLen : Index.empty.dynlist.physLen = DYN_SIZE := List.length_replicate

theorem Index.empty_slot {k : Nat} (hk : k < DYN_SIZE) :
    Index.empty.dynlist.dynList[k]? = some none := List.getElem?_replicate_of_lt hk

theorem Index.empty_home (word : List UInt8) :
    Index.empty.home word = hashFunction word % DYN_SIZE := by
  rw [Index.home, Index.empty_physLen]

/-- No word is in the table of `create_list`. -/
theorem Index.empty_find (word : List UInt8) : Index.empty.find word = .ok none ∧
    FirstEmpty Index.empty.dynlist.dynList (Index.empty.home word) (Index.empty.home word) := by
  refine find_of_empty ?_
  rw [Index.empty_home]
  exact Index.empty_slot (Nat.mod_lt _ (by decide))

/-- The table after the first word of a server. -/
theorem parseWord_first (env : Alloc) (word : List UInt8) (docId lineNum : Nat) (hnul : 0 ∉ word)
    (hlen : word.length < MAX_WORD_LEN) :
    Index.empty.find word = .ok none ∧
      parseWord env docId lineNum .empty word = .ok (true, Index.empty.add
        (hashFunction word % DYN_SIZE) ⟨hashFunction word, word,
          [firstPosting docId lineNum]⟩) := by
  obtain ⟨hfind, hslot⟩ := Index.empty_find word
  refine ⟨hfind, ?_⟩
  rw [← Index.empty_home]
  refine parseWord_new env word docId lineNum hnul hlen (fun hge => ?_) hslot hfind
  rw [Index.empty_physLen] at hge
  exact absurd hge (by decide)

/-- The first word of a server is found. -/
theorem find_first (word : List UInt8) {list : List LinkedList} (hnul : 0 ∉ word)
    (hlen : word.length < MAX_WORD_LEN) :
    (Index.empty.add (hashFunction word % DYN_SIZE) ⟨hashFunction word, word, list⟩).find word =
      .ok (some 0) := by
  have hgrow : Index.empty.dynlist.lastIndex < Index.empty.dynlist.physLen := by
    rw [Index.empty_physLen]
    decide
  have hlt : hashFunction word % DYN_SIZE < DYN_SIZE := Nat.mod_lt _ (by decide)
  rw [Index.find, Index.home, physLen_add hgrow, Index.empty_physLen]
  refine lookup_of_passed (Nat.le_refl _)
    (getElem?_add_self hgrow (by rw [Index.empty_physLen]; exact hlt)) .refl ?_
  rintro _ ⟨⟩
  refine ⟨⟨hashFunction word, word, list⟩, rfl, (strCompare_eq_zero hnul hnul ?_).mpr rfl⟩
  exact Nat.lt_trans hlen (by decide)

theorem handleWords_cons (words : List (List UInt8))
    (h : parseWord env docId lineNum ix word = .ok (true, ix')) :
    handleWords env docId lineNum ix (word :: words) =
      handleWords env docId lineNum ix' words := by
  rw [handleWords, h, ok_bind]

/-- A run of `parse` over a line that is one word. -/
theorem parsed_first (word : List UInt8) (docId lineNum : Nat) (hall : ∀ b ∈ word, isalpha b)
    (hne : word ≠ []) (hlen : word.length < MAX_WORD_LEN) (hP : P .empty word) :
    Parsed env P .empty (Index.empty.add (hashFunction word % DYN_SIZE)
      ⟨hashFunction word, word, [firstPosting docId lineNum]⟩) := by
  have hnul : 0 ∉ word := fun h => absurd (hall 0 h) (by decide)
  have hruns : runs isalpha word = [word] := runs_of_all hall hne
  obtain ⟨-, hrun⟩ := parseWord_first env word docId lineNum hnul hlen
  have hlen' : 3 * word.length ≤ DYN_SIZE := by
    simp only [MAX_WORD_LEN, DYN_SIZE] at hlen ⊢
    omega
  have hwords := handleWords_cons [] hrun
  rw [← hruns] at hwords
  exact parsed_line word docId lineNum hnul hlen'
    (by rw [hruns]; exact ⟨hP, fun _ _ => trivial⟩) hwords

/-- The table after the line `vjs`, whose word is in the last slot. -/
def lastSlot : Index :=
  Index.empty.add (hashFunction [118, 106, 115] % DYN_SIZE)
    ⟨hashFunction [118, 106, 115], [118, 106, 115], [firstPosting 0 1]⟩

theorem lastSlot_parsed : Parsed .exact (fun _ _ => True) .empty lastSlot :=
  parsed_first _ 0 1 (List.all_eq_true.mp rfl) (by decide) (by decide) trivial

theorem lastSlot_slots :
    lastSlot.dynlist.physLen = DYN_SIZE ∧ lastSlot.dynlist.dynList[10239]? = some (some 0) := by
  have hgrow : Index.empty.dynlist.lastIndex < Index.empty.dynlist.physLen := by
    rw [Index.empty_physLen]
    decide
  have hmod : hashFunction [118, 106, 115] % DYN_SIZE = 10239 := by decide
  refine ⟨by rw [lastSlot, physLen_add hgrow, Index.empty_physLen], ?_⟩
  rw [lastSlot, hmod]
  exact getElem?_add_self hgrow (by rw [Index.empty_physLen]; decide)

/-- A table of the first size: the slots in use with their words, and `last_index`. -/
structure InUse (ix : Index) (used : List (Nat × Nat)) (last : Nat) : Prop where
  phys : ix.dynlist.physLen = DYN_SIZE
  last : ix.dynlist.lastIndex = last
  slot : ∀ j, j < DYN_SIZE → ix.dynlist.dynList[j]? = some (used.lookup j)

variable {used : List (Nat × Nat)} {last k : Nat}

theorem InUse.empty : InUse .empty [] 0 where
  phys := Index.empty_physLen
  last := rfl
  slot := fun _ hj => Index.empty_slot hj

theorem InUse.hasRoom (h : InUse ix used last) (hlast : last < DYN_SIZE) :
    ix.dynlist.lastIndex < ix.dynlist.physLen := by
  rw [h.phys, h.last]
  exact hlast

theorem InUse.add (h : InUse ix used last) (hlast : last < DYN_SIZE) (hk : k < DYN_SIZE)
    (w : Word) :
    InUse (ix.add k w) ((k, ix.words.length) :: used) (if last < k then k + 1 else last) where
  phys := by rw [physLen_add (h.hasRoom hlast), h.phys]
  last := by rw [Index.add, h.last]
  slot := by
    intro j hj
    by_cases hjk : k = j
    · subst hjk
      rw [getElem?_add_self (h.hasRoom hlast) (by rw [h.phys]; exact hk), List.lookup_cons_self]
    · have hne : (j == k) = false := beq_false_of_ne (Ne.symm hjk)
      rw [getElem?_add (h.hasRoom hlast) hjk, h.slot j hj, List.lookup_cons, hne]

/-- A new word, whose probe comes to the slot `k`. -/
theorem InUse.new (h : InUse ix used last) (hlast : last < DYN_SIZE) (env : Alloc)
    (docId lineNum : Nat) (word : List UInt8) (k : Nat) (hnul : 0 ∉ word)
    (hlen : word.length < MAX_WORD_LEN)
    (hle : hashFunction word % DYN_SIZE ≤ k) (hk : k < DYN_SIZE) (hfree : used.lookup k = none)
    (hpassed : Passed ix.words ix.dynlist word (hashFunction word % DYN_SIZE) k) :
    ix.find word = .ok none ∧ FirstEmpty ix.dynlist.dynList (ix.home word) k ∧
      parseWord env docId lineNum ix word =
        .ok (true, ix.add k ⟨hashFunction word, word, [firstPosting docId lineNum]⟩) := by
  have hhome : ix.home word = hashFunction word % DYN_SIZE := by rw [Index.home, h.phys]
  have hslot : ix.dynlist.dynList[k]? = some none := by rw [h.slot k hk, hfree]
  have hfirst : FirstEmpty ix.dynlist.dynList (ix.home word) k := by
    rw [hhome]
    refine ⟨hle, hslot, fun j hj hlt => ?_⟩
    obtain ⟨item, -, hitem, -⟩ := hpassed j hj hlt
    exact ⟨item, hitem⟩
  have hfind : ix.find word = .ok none := by
    rw [Index.find, hhome]
    exact lookup_of_passed hle hslot hpassed (by simp)
  exact ⟨hfind, hfirst, parseWord_new env word docId lineNum hnul hlen
    (fun hge => absurd (h.hasRoom hlast) (Nat.not_lt.mpr hge)) hfirst hfind⟩

/-- A word of the table that is new in the document, and whose probe comes to its slot `k`. -/
theorem InUse.known {w : Word} {item : Nat} (h : InUse ix used last) (env : Alloc)
    (docId lineNum k : Nat) (hnul : 0 ∉ w.str) (hlen : w.str.length < DYN_SIZE)
    (hle : hashFunction w.str % DYN_SIZE ≤ k) (hk : k < DYN_SIZE)
    (hitem : used.lookup k = some item)
    (hw : ix.words[item]? = some w) (hdoc : lookupLink w.list docId = none)
    (hpassed : Passed ix.words ix.dynlist w.str (hashFunction w.str % DYN_SIZE) k) :
    parseWord env docId lineNum ix w.str = .ok (true, { ix with
      words := ix.words.set item { w with list := firstPosting docId lineNum :: w.list } }) := by
  have hfind : lookup ix.words ix.dynlist w.str (hashFunction w.str % ix.dynlist.physLen) =
      .ok (some item) := by
    rw [h.phys]
    refine lookup_of_passed hle (by rw [h.slot k hk, hitem]) hpassed ?_
    rintro _ ⟨⟩
    exact ⟨w, hw, (strCompare_eq_zero hnul hnul hlen).mpr rfl⟩
  have hadd : addPosting env w.list docId lineNum =
      .ok (true, firstPosting docId lineNum :: w.list) := by
    rw [addPosting]
    simp only [hdoc]
    rfl
  rw [parseWord]
  simp only [hfind, ok_bind, hw, hadd]

/-- The tables of the line `we yo get`, in which `yo` and `get` have one home slot. -/
def wePlaced : Index :=
  Index.empty.add 3502 ⟨hashFunction [119, 101], [119, 101], [firstPosting 0 1]⟩

def yoPlaced : Index :=
  wePlaced.add 1590 ⟨hashFunction [121, 111], [121, 111], [firstPosting 0 1]⟩

def getPlaced : Index :=
  yoPlaced.add 1591 ⟨hashFunction [103, 101, 116], [103, 101, 116], [firstPosting 0 1]⟩

theorem wePlaced_inUse : InUse wePlaced [(3502, 0)] 3503 :=
  InUse.empty.add (by decide) (by decide) _

theorem yoPlaced_inUse : InUse yoPlaced [(1590, 1), (3502, 0)] 3503 :=
  wePlaced_inUse.add (by decide) (by decide) _

theorem getPlaced_inUse : InUse getPlaced [(1591, 2), (1590, 1), (3502, 0)] 3503 :=
  yoPlaced_inUse.add (by decide) (by decide) _

/-- The probe for `get` passes over the slot of `yo`. -/
theorem yoPlaced_passed : Passed yoPlaced.words yoPlaced.dynlist [103, 101, 116] 1590 1591 :=
  .cons (yoPlaced_inUse.slot 1590 (by decide)) rfl (by decide) .refl

theorem wePlaced_new :
    FirstEmpty Index.empty.dynlist.dynList (Index.empty.home [119, 101]) 3502 ∧
      parseWord .exact 0 1 .empty [119, 101] = .ok (true, wePlaced) :=
  (InUse.empty.new (by decide) .exact 0 1 [119, 101] 3502 (by decide) (by decide) (by decide)
    (by decide) rfl .refl).2

theorem yoPlaced_new :
    FirstEmpty wePlaced.dynlist.dynList (wePlaced.home [121, 111]) 1590 ∧
      parseWord .exact 0 1 wePlaced [121, 111] = .ok (true, yoPlaced) :=
  (wePlaced_inUse.new (by decide) .exact 0 1 [121, 111] 1590 (by decide) (by decide) (by decide)
    (by decide) rfl .refl).2

theorem getPlaced_new :
    FirstEmpty yoPlaced.dynlist.dynList (yoPlaced.home [103, 101, 116]) 1591 ∧
      parseWord .exact 0 1 yoPlaced [103, 101, 116] = .ok (true, getPlaced) :=
  (yoPlaced_inUse.new (by decide) .exact 0 1 [103, 101, 116] 1591 (by decide) (by decide)
    (by decide) (by decide) rfl yoPlaced_passed).2

theorem getPlaced_words :
    handleWords .exact 0 1 .empty [[119, 101], [121, 111], [103, 101, 116]] = .ok (1, getPlaced) :=
  (handleWords_cons _ wePlaced_new.2).trans
    ((handleWords_cons _ yoPlaced_new.2).trans (handleWords_cons _ getPlaced_new.2))

/-- A run of `parse` over this line. -/
theorem getPlaced_parsed (hwe : P .empty [119, 101]) (hyo : P wePlaced [121, 111])
    (hget : P yoPlaced [103, 101, 116]) : Parsed .exact P .empty getPlaced := by
  refine parsed_line [119, 101, 32, 121, 111, 32, 103, 101, 116] 0 1 (by decide) (by decide)
    ⟨hwe, fun ix₁ h₁ => ⟨?_, fun ix₂ h₂ => ⟨?_, fun _ _ => trivial⟩⟩⟩ getPlaced_words
  · obtain ⟨-, rfl⟩ := Prod.mk.inj (Except.ok.inj (wePlaced_new.2.symm.trans h₁))
    exact hyo
  · obtain ⟨-, rfl⟩ := Prod.mk.inj (Except.ok.inj (wePlaced_new.2.symm.trans h₁))
    obtain ⟨-, rfl⟩ := Prod.mk.inj (Except.ok.inj (yoPlaced_new.2.symm.trans h₂))
    exact hget

end Run

end SearchEngine.Server
