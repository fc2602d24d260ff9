import SearchEngine.Server.Verify.Handle
import Mathlib.Data.List.Dedup
import Mathlib.Data.List.Induction

/-!
# The postings of a word

`PostingsOf occs list` says that the links of `list` are the documents of the occurrences `occs`,
the last new one first, and that each holds the lines of its document in the order of their
arrival. Every occurrence that `parse` adds keeps it (`PostingsOf.add`), so the postings are
exactly the occurrences (`postings_exact`).
-/

namespace SearchEngine.Server

open Memory Outcome

section Lines

variable {env : Alloc} {occs : List (Nat × Nat)} {list : List LinkedList} {l link : LinkedList}
  {docId lineNum d : Nat}

/-- `tc_realloc` of an array of lines does not fail, and keeps what the array holds. -/
def Alloc.Grows (env : Alloc) : Prop :=
  ∀ l n, l.length ≤ n → ∃ rest, rest.length = n - l.length ∧ env.reallocSizes l n = some (l ++ rest)

theorem Alloc.Keeps.grows (h : env.Keeps) : env.Grows :=
  fun l n hle => ⟨_, List.length_replicate, h.sizes l n hle⟩

/-- The postings of a word after the occurrences `occs`, each a document and a line. -/
def postings (env : Alloc) (occs : List (Nat × Nat)) : Except Fault (List LinkedList) :=
  occs.foldlM (fun list occ => (·.2) <$> addPosting env list occ.1 occ.2) []

/-- The lines of the occurrences in document `d`. -/
def linesOf (occs : List (Nat × Nat)) (d : Nat) : List Nat :=
  (occs.filter fun occ => occ.1 = d).map Prod.snd

/-- The documents of the occurrences, the last new one first. -/
def docsOf (occs : List (Nat × Nat)) : List Nat := (occs.map Prod.fst).reverse.dedup

/-- The link holds the lines `ns` and has room for them. -/
structure Holds (link : LinkedList) (ns : List Nat) : Prop where
  lines : link.list.take link.lastIndex = ns
  count : link.lastIndex = ns.length
  room : link.lastIndex ≤ link.list.length

/-- The postings are exactly the occurrences. -/
structure PostingsOf (occs : List (Nat × Nat)) (list : List LinkedList) : Prop where
  docs : list.map (·.val) = docsOf occs
  holds : ∀ link ∈ list, Holds link (linesOf occs link.val)

theorem linesOf_append (occs : List (Nat × Nat)) (docId lineNum d : Nat) :
    linesOf (occs ++ [(docId, lineNum)]) d =
      linesOf occs d ++ if docId = d then [lineNum] else [] := by
  unfold linesOf
  rw [List.filter_append, List.map_append]
  by_cases h : docId = d <;> simp [h]

theorem docsOf_append (occs : List (Nat × Nat)) (docId lineNum : Nat) :
    docsOf (occs ++ [(docId, lineNum)]) =
      if docId ∈ docsOf occs then docsOf occs else docId :: docsOf occs := by
  unfold docsOf
  rw [List.map_append, List.reverse_append]
  simp only [List.map_cons, List.map_nil, List.reverse_singleton, List.singleton_append,
    List.mem_dedup]
  split
  next h => exact List.dedup_cons_of_mem h
  next h => exact List.dedup_cons_of_notMem h

theorem linesOf_eq_nil (h : d ∉ docsOf occs) : linesOf occs d = [] := by
  unfold linesOf
  rw [List.map_eq_nil_iff, List.filter_eq_nil_iff]
  intro occ hocc heq
  apply h
  unfold docsOf
  rw [List.mem_dedup, List.mem_reverse, ← of_decide_eq_true heq]
  exact List.mem_map_of_mem hocc

/-- `insert` appends a line, and makes the array longer when it is full. -/
theorem Holds.insertLink (henv : env.Grows) {ns : List Nat} (h : Holds l ns) (lineNum : Nat) :
    ∃ l', insertLink env l lineNum l.lastIndex = .ok (1, l') ∧ l'.val = l.val ∧
      Holds l' (ns ++ [lineNum]) := by
  obtain ⟨base, hbase⟩ : ∃ base, base =
    if l.list.length ≤ l.lastIndex then (resizeLink env l).2 else l := ⟨_, rfl⟩
  have hroom := h.room
  -- the array that is written to
  have hspec : base.val = l.val ∧ base.lastIndex = l.lastIndex ∧ l.lastIndex < base.list.length ∧
      base.list.take l.lastIndex = ns := by
    rw [hbase]
    split
    next hfull =>
      obtain ⟨rest, hrest, hrealloc⟩ :=
        henv l.list (l.list.length + LIST_SIZE) (Nat.le_add_right _ _)
      have hresize : (resizeLink env l).2 = { l with list := l.list ++ rest } := by
        unfold resizeLink
        rw [hrealloc]
      rw [hresize]
      refine ⟨rfl, rfl, ?_, ?_⟩
      · rw [List.length_append, hrest]
        simp only [LIST_SIZE]
        omega
      · rw [List.take_append_of_le_length hroom]
        exact h.lines
    next hlt => exact ⟨rfl, rfl, Nat.lt_of_not_le hlt, h.lines⟩
  obtain ⟨hval, hlast, hlt, hlines⟩ := hspec
  refine ⟨{ base with list := base.list.set l.lastIndex lineNum, lastIndex := base.lastIndex + 1 },
    ?_, hval, ⟨?_, ?_, ?_⟩⟩
  · unfold Server.insertLink
    simp only [← hbase]
    exact if_pos hlt
  · simp only [hlast]
    rw [List.take_add_one, List.take_set_of_le (Nat.le_refl _), hlines,
      List.getElem?_set_self hlt]
    rfl
  · simp only [hlast]
    rw [List.length_append, List.length_singleton, h.count]
  · simp only [hlast, List.length_set]
    exact hlt

theorem createLink_holds (docId : Nat) : Holds (createLink docId) [] := ⟨rfl, rfl, Nat.zero_le _⟩

/-- The first occurrence in a document makes a new link. -/
theorem PostingsOf.add_new (henv : env.Grows) (h : PostingsOf occs list)
    (hlook : lookupLink list docId = none) (lineNum : Nat) :
    ∃ list', addPosting env list docId lineNum = .ok (true, list') ∧
      PostingsOf (occs ++ [(docId, lineNum)]) list' := by
  have hnew : docId ∉ docsOf occs := by
    rw [← h.docs]
    intro hmem
    obtain ⟨link, hlink, hval⟩ := List.mem_map.mp hmem
    have hne := List.findIdx?_eq_none_iff.mp hlook link hlink
    rw [hval] at hne
    simp at hne
  obtain ⟨doc, hdoc, hval, hholds⟩ := (createLink_holds docId).insertLink henv lineNum
  refine ⟨doc :: list, ?_, ?_, ?_⟩
  · unfold addPosting
    rw [hlook]
    simp only [hdoc, ok_bind]
    rfl
  · rw [docsOf_append, if_neg hnew, List.map_cons, h.docs, hval]
    rfl
  · intro link hlink
    rw [linesOf_append]
    rcases List.mem_cons.mp hlink with rfl | hold
    · rw [hval]
      simp only [createLink, if_true]
      rw [linesOf_eq_nil hnew]
      exact hholds
    · have hne : docId ≠ link.val := by
        rintro rfl
        apply hnew
        rw [← h.docs]
        exact List.mem_map_of_mem hold
      rw [if_neg hne, List.append_nil]
      exact h.holds link hold

/-- Another occurrence in a document goes to its link. -/
theorem PostingsOf.add_known (henv : env.Grows) (h : PostingsOf occs list) {i : Nat}
    (hlook : lookupLink list docId = some i) (lineNum : Nat) :
    ∃ list', addPosting env list docId lineNum = .ok (true, list') ∧
      PostingsOf (occs ++ [(docId, lineNum)]) list' := by
  obtain ⟨hi, hdoc, -⟩ := List.findIdx?_eq_some_iff_getElem.mp hlook
  have hdoc : list[i].val = docId := of_decide_eq_true hdoc
  have hmem : list[i] ∈ list := List.getElem_mem hi
  have hnd : (list.map (·.val)).Nodup := h.docs ▸ List.nodup_dedup _
  obtain ⟨doc, hins, hval, hholds⟩ := (h.holds _ hmem).insertLink henv lineNum
  refine ⟨list.set i doc, ?_, ?_, ?_⟩
  · unfold addPosting
    rw [hlook]
    simp only [List.getElem?_eq_getElem hi, hins, ok_bind]
    rfl
  · have hold : docId ∈ docsOf occs := by
      rw [← h.docs, ← hdoc]
      exact List.mem_map_of_mem hmem
    have hself := List.set_getElem_self (show i < (list.map (·.val)).length by
      rw [List.length_map]
      exact hi)
    rw [List.getElem_map] at hself
    rw [docsOf_append, if_pos hold, ← h.docs, List.map_set, hval, hself]
  · intro link hlink
    obtain ⟨j, hj⟩ := List.mem_iff_getElem?.mp hlink
    rw [linesOf_append]
    by_cases hij : i = j
    · subst hij
      rw [List.getElem?_set_self hi] at hj
      obtain rfl := Option.some.inj hj
      rw [hval, hdoc, if_pos rfl, ← hdoc]
      exact hholds
    · rw [List.getElem?_set_ne hij] at hj
      obtain ⟨hjlt, rfl⟩ := List.getElem?_eq_some_iff.mp hj
      -- the other links are those of other documents
      have hne : docId ≠ list[j].val := by
        rw [← hdoc]
        intro heq
        apply hij
        have hsame := List.inj_on_of_nodup_map hnd hmem (List.getElem_mem hjlt) heq
        exact (List.Nodup.getElem_inj_iff hnd.of_map).mp hsame
      rw [if_neg hne, List.append_nil]
      exact h.holds _ (List.getElem_mem hjlt)

/-- One occurrence more. -/
theorem PostingsOf.add (henv : env.Grows) (h : PostingsOf occs list) (docId lineNum : Nat) :
    ∃ list', addPosting env list docId lineNum = .ok (true, list') ∧
      PostingsOf (occs ++ [(docId, lineNum)]) list' := by
  cases hlook : lookupLink list docId with
  | none => exact h.add_new henv hlook lineNum
  | some i => exact h.add_known henv hlook lineNum

theorem PostingsOf.empty : PostingsOf [] [] := ⟨rfl, fun _ h => absurd h List.not_mem_nil⟩

/-- Any number of occurrences more. -/
theorem PostingsOf.run (henv : env.Grows) (h : PostingsOf occs list) (more : List (Nat × Nat)) :
    ∃ list', more.foldlM (fun list occ => (·.2) <$> addPosting env list occ.1 occ.2)
    list = .ok list' ∧
      PostingsOf (occs ++ more) list' := by
  induction more generalizing occs list with
  | nil => exact ⟨list, rfl, by rwa [List.append_nil]⟩
  | cons occ more ih =>
    obtain ⟨list₁, hadd, h₁⟩ := h.add henv occ.1 occ.2
    obtain ⟨list', hrun, h'⟩ := ih h₁
    refine ⟨list', ?_, by rwa [List.append_assoc] at h'⟩
    rw [List.foldlM_cons, hadd]
    exact hrun

/-- The list of a word has one link for each document, the last new one first, and each link
holds exactly the lines that were given for its document, in the order of their arrival. No line
is written outside of its array. -/
theorem postings_exact (henv : env.Grows) (occs : List (Nat × Nat)) :
    ∃ list, postings env occs = .ok list ∧ PostingsOf occs list :=
  PostingsOf.empty.run henv occs

/-- Eleven occurrences in one document, one in another between them. -/
theorem postings_exact_two :
    ∃ list, postings .exact ((0, 1) :: (1, 1) :: (List.range 10).map fun n => (0, n)) = .ok list ∧
      PostingsOf ((0, 1) :: (1, 1) :: (List.range 10).map fun n => (0, n)) list :=
  postings_exact Alloc.exact_keeps.grows _

end Lines

section Words

variable {env : Alloc} {ix ix' : Index} {word : List UInt8} {flag : Bool} {docId lineNum : Nat}

/-- The postings of every word are those of some occurrences. -/
def PostingsInv (env : Alloc) (ix : Index) : Prop :=
  ∀ w ∈ ix.words, ∃ occs, occs ≠ [] ∧ postings env occs = .ok w.list

/-- What `parse` does with the postings of a word that it finds or makes is `postings`. -/
theorem PostingsInv.step (h : PostingsInv env ix) (hnul : 0 ∉ word)
    (hrun : parseWord env docId lineNum ix word = .ok (flag, ix')) : PostingsInv env ix' := by
  obtain ⟨-, ⟨item, w, list, -, hw, hadd, rfl⟩ | ⟨-, -, doc, ret, dynlist, hdoc, -, hwords, -⟩⟩ :=
    parseWord_cases hnul hrun
  · intro v hv
    rcases List.mem_or_eq_of_mem_set hv with hold | rfl
    · exact h v hold
    · obtain ⟨occs, -, hocc⟩ := h w (List.mem_of_getElem? hw)
      refine ⟨occs ++ [(docId, lineNum)], by simp, ?_⟩
      unfold postings at hocc ⊢
      rw [List.foldlM_append, hocc, ok_bind, List.foldlM_cons, hadd]
      rfl
  · intro v hv
    rw [hwords] at hv
    rcases List.mem_append.mp hv with hold | hnew
    · exact h v hold
    · obtain rfl := List.mem_singleton.mp hnew
      refine ⟨[(docId, lineNum)], by simp, ?_⟩
      unfold postings addPosting
      rw [List.foldlM_cons]
      simp only [lookupLink, List.findIdx?_nil]
      rw [show (createLink docId).lastIndex = 0 from rfl, hdoc]
      rfl

/-- In every index that `parse` has built, the postings of each word are exactly some
occurrences. -/
theorem parsed_postings {P : Index → List UInt8 → Prop} (henv : env.Grows)
    (h : Parsed env P .empty ix) {w : Word} (hw : w ∈ ix.words) :
    ∃ occs, occs ≠ [] ∧ PostingsOf occs w.list := by
  have hinv : PostingsInv env ix := parsed_invariant h
    (fun v hv => absurd hv List.not_mem_nil)
    fun _ _ _ _ _ _ hI hnul _ hrun => hI.step hnul hrun
  obtain ⟨occs, hne, hocc⟩ := hinv w hw
  obtain ⟨list, hrun, hlist⟩ := PostingsOf.empty.run henv occs
  obtain rfl := Except.ok.inj (hocc.symm.trans hrun)
  exact ⟨occs, hne, hlist⟩

end Words

end SearchEngine.Server
