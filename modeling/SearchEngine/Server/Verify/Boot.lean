import SearchEngine.Server.Verify.Postings
import SearchEngine.Server.Verify.Render
import Mathlib.Data.List.Induction

/-!
# The tables after bootstrapping

`readDir_inv` is what every bootstrapping establishes: `file_list` holds the entries of the
regular files in their order (`FileList`), and the postings of the words are inside of their
arrays and name documents that are in the list (`DocsInv`). From that follow the exact conditions
for the answers: when they fit into the packet, and when they name the right files.
-/

namespace SearchEngine.Server

open Memory Outcome

section Files

variable {env : Alloc} {xs : List Nat} {l : DynList}

/-- The list holds `xs` in its first slots and nothing else. -/
structure FileList (xs : List Nat) (l : DynList) : Prop where
  slots : l.dynList = xs.map some ++ List.replicate (l.physLen - xs.length) none
  fits : xs.length ≤ l.physLen
  even : l.physLen % 2 = 0
  lastIndex : l.lastIndex = 2 * (xs.length / 2)

theorem FileList.empty : FileList [] (createList DOCSIZE) where
  slots := rfl
  fits := Nat.zero_le _
  even := rfl
  lastIndex := rfl

theorem FileList.getElem? (h : FileList xs l) {k : Nat} (hk : k < xs.length) :
    l.dynList[k]? = some xs[k]? := by
  rw [h.slots, List.getElem?_append_left (by rw [List.length_map]; exact hk), List.getElem?_map,
    List.getElem?_eq_getElem hk]
  rfl

/-- When the list is full, the next `insert` makes it grow. -/
theorem FileList.grown (h : FileList xs l) (hpos : 0 < l.physLen) :
    FileList xs l.grown ∧ xs.length < l.grown.physLen ∧ l.grown.lastIndex = l.lastIndex := by
  have hlast := h.lastIndex
  have hfits := h.fits
  have heven := h.even
  by_cases hgrow : l.physLen ≤ l.lastIndex
  · have hphys : l.grown.physLen = l.physLen + l.physLen := by
      rw [DynList.grown_of_le hgrow, DynList.physLen, List.length_append, List.length_replicate,
        DynList.physLen]
    refine ⟨⟨?_, by omega, by omega, ?_⟩, by omega, ?_⟩
    · have hlen : l.physLen - xs.length + l.physLen = l.physLen + l.physLen - xs.length := by omega
      rw [hphys, DynList.grown_of_le hgrow]
      simp only
      rw [← hlen, ← List.replicate_append_replicate, ← List.append_assoc, ← h.slots]
    · rw [DynList.grown_of_le hgrow]
      exact hlast
    · rw [DynList.grown_of_le hgrow]
  · rw [DynList.grown_of_lt (Nat.lt_of_not_le hgrow)]
    exact ⟨h, by omega, rfl⟩

/-- The next item goes to the next slot. -/
theorem FileList.insert (h : FileList xs l) (hpos : 0 < l.physLen) (henv : env.Keeps) (x : Nat) :
    FileList (xs ++ [x]) (insertDyn env l x l.lastIndex).2 ∧
      0 < (insertDyn env l x l.lastIndex).2.physLen := by
  obtain ⟨hgrown, hlt, -⟩ := h.grown hpos
  have hlast := h.lastIndex
  have hslot : FirstEmpty l.grown.dynList l.lastIndex xs.length := by
    refine ⟨by omega, ?_, fun j hj hjlt => ?_⟩
    · rw [hgrown.slots, List.getElem?_append_right (by rw [List.length_map]), List.length_map,
        Nat.sub_self, List.getElem?_replicate_of_lt (by omega)]
    · exact ⟨xs[j], by rw [hgrown.getElem? hjlt, List.getElem?_eq_getElem hjlt]⟩
  rw [insertDyn_stores (fun _ => henv) x hslot]
  have hphys : DynList.physLen ⟨if l.lastIndex < xs.length then xs.length + 1 else l.lastIndex,
      l.grown.dynList.set xs.length (some x)⟩ = l.grown.physLen := List.length_set
  refine ⟨⟨?_, ?_, ?_, ?_⟩, ?_⟩
  · rw [hphys]
    simp only
    rw [hgrown.slots, List.set_append_right _ _ (by rw [List.length_map]), List.length_map,
      Nat.sub_self, List.map_append, List.length_append, List.length_singleton, List.append_assoc]
    congr 1
    obtain ⟨m, hm⟩ : ∃ m, l.grown.physLen - xs.length = m + 1 :=
      ⟨l.grown.physLen - xs.length - 1, by omega⟩
    rw [hm, List.replicate_succ, List.set_cons_zero]
    have hm' : l.grown.physLen - (xs.length + 1) = m := by omega
    rw [hm']
    rfl
  · rw [hphys, List.length_append]
    exact hlt
  · rw [hphys]
    exact hgrown.even
  · rw [List.length_append, List.length_singleton]
    simp only
    split <;> omega
  · rw [hphys]
    omega

/-- `file_list` after `read_dir` has inserted the items `xs`, each at `last_index`. -/
def fileListOf (env : Alloc) (xs : List Nat) : DynList :=
  xs.foldl (fun l x => (insertDyn env l x l.lastIndex).2) (createList DOCSIZE)

theorem fileListOf_append (env : Alloc) (xs : List Nat) (x : Nat) :
    fileListOf env (xs ++ [x]) =
      (insertDyn env (fileListOf env xs) x (fileListOf env xs).lastIndex).2 := by
  unfold fileListOf
  rw [List.foldl_append]
  rfl

/-- The list represents the items that were inserted. -/
theorem fileListOf_rep (henv : env.Keeps) (xs : List Nat) :
    FileList xs (fileListOf env xs) ∧ 0 < (fileListOf env xs).physLen := by
  induction xs using List.reverseRecOn with
  | nil => exact ⟨FileList.empty, Nat.zero_lt_succ 9⟩
  | append_singleton xs x ih =>
    rw [fileListOf_append]
    exact ih.1.insert ih.2 henv x

/-- The item number `k` is in the slot `k`, where `thread_job` looks for the name of the document
`k`, and the other slots are empty. -/
theorem fileList_slots (henv : env.Keeps) (xs : List Nat) :
    (∀ k, k < xs.length → (fileListOf env xs).dynList[k]? = some xs[k]? ∧
      ∀ index mem, fileName ⟨index, fileListOf env xs, mem⟩ k = .ok (mem (xs.getD k 0))) ∧
    ∀ k, xs.length ≤ k → k < (fileListOf env xs).physLen →
      (fileListOf env xs).dynList[k]? = some none := by
  obtain ⟨hrep, -⟩ := fileListOf_rep henv xs
  refine ⟨fun k hk => ?_, fun k hle hlt => ?_⟩
  · have hslot := hrep.getElem? hk
    refine ⟨hslot, fun index mem => ?_⟩
    unfold fileName
    rw [hslot, List.getD_eq_getElem?_getD, List.getElem?_eq_getElem hk]
    rfl
  · rw [hrep.slots, List.getElem?_append_right (by rw [List.length_map]; exact hle),
      List.length_map, List.getElem?_replicate_of_lt (by omega)]

/-- Thirteen files, with one growth. -/
theorem fileList_slots_grown :
    (∀ k, k < (List.range 13).length →
      (fileListOf .exact (List.range 13)).dynList[k]? = some (List.range 13)[k]? ∧
      ∀ index mem, fileName ⟨index, fileListOf .exact (List.range 13), mem⟩ k =
        .ok (mem ((List.range 13).getD k 0))) ∧
    ∀ k, (List.range 13).length ≤ k → k < (fileListOf .exact (List.range 13)).physLen →
      (fileListOf .exact (List.range 13)).dynList[k]? = some none :=
  fileList_slots Alloc.exact_keeps (List.range 13)

end Files

section Docs

variable {env : Alloc} {ix ix' : Index} {word : List UInt8} {flag : Bool}
  {docId lineNum d d' : Nat} {list list' : List LinkedList}

/-- The documents are among the first `d`, and their lines are inside of their arrays. -/
def DocsIn (d : Nat) (list : List LinkedList) : Prop :=
  ∀ docs ∈ list, docs.val < d ∧ docs.lastIndex ≤ docs.list.length

/-- So are those of every word. -/
def DocsInv (d : Nat) (ix : Index) : Prop := ∀ w ∈ ix.words, DocsIn d w.list

theorem DocsInv.mono (h : DocsInv d ix) (hle : d ≤ d') : DocsInv d' ix :=
  fun w hw docs hdocs => ⟨Nat.lt_of_lt_of_le (h w hw docs hdocs).1 hle, (h w hw docs hdocs).2⟩

theorem DocsIn.insertLink {l l' : LinkedList} (hval : l.val < d)
    (h : insertLink env l lineNum l.lastIndex = .ok (1, l')) :
    l'.val < d ∧ l'.lastIndex ≤ l'.list.length := by
  obtain ⟨-, hval', hlast, hlt⟩ := insertLink_ok h
  rw [hval', hlast]
  exact ⟨hval, hlt⟩

theorem DocsIn.addPosting (h : DocsIn d list) (hd : docId < d)
    (hrun : addPosting env list docId lineNum = .ok (flag, list')) : DocsIn d list' := by
  obtain ⟨-, ⟨i, doc, doc', -, hdoc, hins, rfl⟩ | ⟨-, doc', hins, rfl⟩⟩ := addPosting_cases hrun
  · have hdoc' := h doc (List.mem_of_getElem? hdoc)
    intro docs hdocs
    rcases List.mem_or_eq_of_mem_set hdocs with hdocs | rfl
    · exact h docs hdocs
    · exact DocsIn.insertLink hdoc'.1 hins
  · intro docs hdocs
    rcases List.mem_cons.mp hdocs with rfl | hdocs
    · exact DocsIn.insertLink (l := createLink docId) hd hins
    · exact h docs hdocs

/-- One word. -/
theorem DocsInv.step (h : DocsInv d ix) (hd : docId < d) (hnul : 0 ∉ word)
    (hrun : parseWord env docId lineNum ix word = .ok (flag, ix')) : DocsInv d ix' := by
  obtain ⟨-, ⟨item, w, list, -, hw, hadd, rfl⟩ | ⟨-, -, doc, ret, dynlist, hdoc, -, hwords, -⟩⟩ :=
    parseWord_cases hnul hrun
  · intro v hv
    rcases List.mem_or_eq_of_mem_set hv with hv | rfl
    · exact h v hv
    · exact (h w (List.mem_of_getElem? hw)).addPosting hd hadd
  · intro v hv
    rw [hwords] at hv
    rcases List.mem_append.mp hv with hv | hv
    · exact h v hv
    · obtain rfl := List.mem_singleton.mp hv
      intro docs hdocs
      obtain rfl := List.mem_singleton.mp hdocs
      exact DocsIn.insertLink (l := createLink docId) hd hdoc

end Docs

section Tokenizer

variable {env : Alloc} {ix ix' : Index} {docId lineNum n : Nat} {buf rest : List UInt8}

/-- What every word of a document preserves is preserved by its lines. -/
theorem readLines_invariant {I : Index → Prop}
    (hstep : ∀ ix word lineNum flag ix', I ix → 0 ∉ word →
      parseWord env docId lineNum ix word = .ok (flag, ix') → I ix')
    (h : readLines env docId n buf lineNum rest ix = .ok ix') (h0 : I ix) : I ix' := by
  induction n generalizing buf lineNum rest ix with
  | zero => cases h
  | succ n ih =>
    rw [readLines, readLinesWith] at h
    split at h
    · obtain rfl := Except.ok.inj h
      exact h0
    · obtain ⟨⟨ret, ix₁, buf₁⟩, hrun, h⟩ := bind_eq_ok h
      have hparse : ParseStep env ix ⟨_, _, docId, lineNum⟩ ix₁ := ⟨ret, buf₁, hrun⟩
      exact ih h (parse_invariant (P := fun _ _ => True)
        (fun ix word flag ix' hI hnul _ => hstep ix word lineNum flag ix' hI hnul) h0
        (fun words _ => eachWord_true words _) hparse)

theorem tokenizer_invariant {env : Env} {filename absPath : List UInt8} {I : Index → Prop}
    (hstep : ∀ ix word lineNum flag ix', I ix → 0 ∉ word →
      parseWord env.toAlloc docId lineNum ix word = .ok (flag, ix') → I ix')
    (h : tokenizer env ix filename absPath docId = .ok ix') (h0 : I ix) : I ix' := by
  obtain ⟨⟨_, _⟩, -, h⟩ := bind_eq_ok h
  obtain ⟨⟨_, _⟩, -, h⟩ := bind_eq_ok h
  obtain ⟨⟨_, _⟩, -, h⟩ := bind_eq_ok h
  obtain ⟨path, -, h⟩ := bind_eq_ok h
  split at h
  · obtain rfl := Except.ok.inj h
    exact h0
  · exact readLines_invariant hstep h h0

/-- `tokenizer` opens the file of the directory, if its path has room in the buffer. -/
theorem tokenizerWith_path {σ : Type} {parse : LineParser σ} {s : σ} {env : Env}
    {filename absPath : List UInt8} (habs : 0 ∉ absPath) (hname : 0 ∉ filename)
    (hlen : absPath.length + 1 + filename.length < MAX_WORD_LEN + MAX_PATH_LEN + 1) :
    tokenizerWith parse env s filename absPath docId =
      match env.fopen (absPath ++ [47] ++ filename) with
      | none => .ok s
      | some file => readLinesWith parse docId (file.length + 1)
          (List.replicate (DYN_SIZE + 1) 0) 1 file s := by
  obtain ⟨f₁, r₁, h₁, hd₁⟩ := strCopy_end (a := [])
    ⟨List.replicate (MAX_WORD_LEN + MAX_PATH_LEN + 1) 0, List.length_replicate⟩ absPath
    (MAX_WORD_LEN + MAX_PATH_LEN + 1) rfl (by omega) (by rw [List.length_nil]; omega)
  rw [List.nil_append] at hd₁
  obtain ⟨f₂, r₂, h₂, hd₂⟩ := strConcat_end [47] (MAX_WORD_LEN + MAX_PATH_LEN + 1) hd₁
    habs (by rw [List.length_singleton]; omega) (by decide) (by rw [List.length_singleton]; omega)
  have hslash : 0 ∉ absPath ++ [47] := nul_notMem_append habs (by decide)
  obtain ⟨f₃, r₃, h₃, hd₃⟩ := strConcat_end filename
    (MAX_WORD_LEN + MAX_PATH_LEN + 1) hd₂ hslash
    (by rw [List.length_append, List.length_singleton]; omega) (by decide)
    (by rw [List.length_append, List.length_singleton]; omega)
  have hpath : cstring f₃.data = .ok (absPath ++ [47] ++ filename) := by
    rw [hd₃, cstring_append (nul_notMem_append hslash hname)]
  rw [tokenizerWith]
  have h₁' : strCopy ⟨List.replicate (MAX_WORD_LEN + MAX_PATH_LEN + 1) 0, List.length_replicate⟩ 0
    absPath (MAX_WORD_LEN + MAX_PATH_LEN + 1) = .ok (true, f₁) := h₁
  cases hopen : env.fopen (absPath ++ [47] ++ filename) <;>
    simp only [h₁', ok_bind, h₂, h₃, hpath, hopen]

theorem tokenizer_path {env : Env} {filename absPath : List UInt8} (habs : 0 ∉ absPath)
    (hname : 0 ∉ filename)
    (hlen : absPath.length + 1 + filename.length < MAX_WORD_LEN + MAX_PATH_LEN + 1) :
    tokenizer env ix filename absPath docId =
      match env.fopen (absPath ++ [47] ++ filename) with
      | none => .ok ix
      | some file => readLines env.toAlloc docId (file.length + 1) (List.replicate (DYN_SIZE + 1) 0)
          1 file ix :=
  tokenizerWith_path habs hname hlen

/-- The reading of a file that is a single short line. -/
theorem readLines_line {line : List UInt8} {ret : Int} (hne : line ≠ []) (hnul : 0 ∉ line)
    (hnl : 10 ∉ line) (hlen : 3 * line.length ≤ DYN_SIZE)
    (h : handleWords env docId lineNum ix (Segments.runs isalpha line) = .ok (ret, ix')) :
    readLines env docId (n + 2) buf lineNum line ix = .ok ix' := by
  have htake : ∀ (m : Nat) (l : List UInt8), 10 ∉ l → l.length ≤ m → takeLine m l = (l, []) := by
    intro m l hl hm
    induction l generalizing m with
    | nil => cases m <;> rfl
    | cons b l ih =>
      obtain ⟨m, rfl⟩ : ∃ k, m = k + 1 := ⟨m - 1, by rw [List.length_cons] at hm; omega⟩
      have hb : b ≠ 10 := fun e => hl (e ▸ List.mem_cons_self)
      rw [takeLine, if_neg hb, ih m (fun h => hl (List.mem_cons_of_mem b h))
        (Nat.le_of_succ_le_succ hm)]
  have hlt : line.length < DYN_SIZE := by
    have hpos := List.length_pos_iff.mpr hne
    simp only [DYN_SIZE] at hlen ⊢
    omega
  have hwords := wordsOf_short (buf.drop (line.length + 1)) hnul hlen
  obtain ⟨ret', buf', hrun⟩ := parse_of_handle hwords h
  rw [readLines, readLinesWith, if_neg hne]
  simp only [htake (DYN_SIZE - 1) line hnl (Nat.le_sub_one_of_lt hlt), hrun, ok_bind]
  rw [readLinesWith, if_pos rfl]

end Tokenizer

section ReadDir

variable {env : Env} {absPath : List UInt8} {entries listed : List DirEntry} {b b' : Boot}

/-- The entry is one of a regular file, and is indexed. -/
def DirEntry.Listed (e : DirEntry) : Prop :=
  ¬ (e.dType ≠ DT_REG ∨ strCompare (e.mem e.name) [46] MAX_WORD_LEN = 0 ∨
    strCompare (e.mem e.name) [46, 46] MAX_WORD_LEN = 0)

instance (e : DirEntry) : Decidable e.Listed := inferInstanceAs (Decidable (¬ _))

/-- What bootstrapping has done, when the files of `listed` are indexed. -/
structure BootInv (listed : List DirEntry) (b : Boot) : Prop where
  docId : b.docId = listed.length
  files : FileList (listed.map (·.name)) b.fileList
  pos : 0 < b.fileList.physLen
  docs : DocsInv b.docId b.index

theorem BootInv.initial : BootInv [] .initial where
  docId := rfl
  files := FileList.empty
  pos := by decide
  docs := fun w hw => absurd hw List.not_mem_nil

theorem BootInv.readEntry {e : DirEntry} (henv : env.Keeps) (h : BootInv listed b)
    (hrun : readEntry env absPath b e = .ok b') :
    BootInv (listed ++ if e.Listed then [e] else []) b' := by
  rw [Server.readEntry] at hrun
  by_cases he : e.Listed
  · rw [if_pos he]
    rw [if_neg he] at hrun
    obtain ⟨ix, htok, hrun⟩ := bind_eq_ok hrun
    obtain rfl := Except.ok.inj hrun
    obtain ⟨hfiles, hpos⟩ := h.files.insert h.pos henv e.name
    refine ⟨?_, ?_, hpos, ?_⟩
    · rw [List.length_append, List.length_singleton, h.docId]
    · rw [List.map_append]
      exact hfiles
    · exact tokenizer_invariant (I := DocsInv (b.docId + 1))
        (fun ix word lineNum flag ix' hI hnul hword => hI.step (Nat.lt_succ_self _) hnul hword) htok
        (h.docs.mono (Nat.le_succ _))
  · rw [if_neg he, List.append_nil]
    rw [if_pos (not_not.mp he)] at hrun
    obtain rfl := Except.ok.inj hrun
    exact h

/-- What every bootstrapping establishes. -/
theorem readDir_inv (henv : env.Keeps) (h : readDir env absPath entries = .ok b) :
    BootInv (entries.filter (·.Listed)) b := by
  have hinv := foldlM_invariant (I := fun done b => BootInv (done.filter (·.Listed)) b)
    (fun done e b b' hI hrun => ?_) (show BootInv (List.filter _ []) .initial from BootInv.initial)
    h
  · exact hinv
  · have hnext := hI.readEntry henv hrun
    rw [List.filter_append]
    by_cases he : e.Listed
    · rw [if_pos he] at hnext
      rwa [List.filter_cons_of_pos (by simpa using he), List.filter_nil]
    · rw [if_neg he] at hnext
      rwa [List.filter_cons_of_neg (by simpa using he), List.filter_nil]

theorem readDir_single {e : DirEntry} (h : readEntry env absPath .initial e = .ok b) :
    readDir env absPath [e] = .ok b := by
  rw [readDir, List.foldlM_cons, h]
  rfl

/-- A file that is a single short line. -/
theorem readEntry_line (env : Env) (absPath : List UInt8) (b : Boot) (e : DirEntry)
    {line : List UInt8} {ix : Index} {ret : Int} (he : e.Listed) (habs : 0 ∉ absPath)
    (hname : 0 ∉ e.mem e.name)
    (hpath : absPath.length + 1 + (e.mem e.name).length < MAX_WORD_LEN + MAX_PATH_LEN + 1)
    (hopen : env.fopen (absPath ++ [47] ++ e.mem e.name) = some line) (hne : line ≠ [])
    (hnul : 0 ∉ line) (hnl : 10 ∉ line) (hlen : 3 * line.length ≤ DYN_SIZE)
    (h : handleWords env.toAlloc b.docId 1 b.index (Segments.runs isalpha line) = .ok (ret, ix)) :
    ∃ fileList, readEntry env absPath b e = .ok ⟨ix, fileList, b.docId + 1⟩ := by
  obtain ⟨m, hm⟩ : ∃ m, line.length = m + 1 :=
    ⟨line.length - 1, by have := List.length_pos_iff.mpr hne; omega⟩
  have htok : tokenizer env b.index (e.mem e.name) absPath b.docId = .ok ix := by
    rw [tokenizer_path habs hname hpath, hopen]
    simp only [hm]
    exact readLines_line hne hnul hnl hlen h
  refine ⟨(insertDyn env.toAlloc b.fileList e.name b.fileList.lastIndex).2, ?_⟩
  rw [Server.readEntry, if_neg he]
  simp only [htok, ok_bind]

/-- Every posting can be rendered. -/
theorem BootInv.posted (h : BootInv listed b) {w : Word} (hw : w ∈ b.index.words) :
    ∀ docs ∈ w.list, Posted b.fileList docs := by
  intro docs hdocs
  obtain ⟨hval, hlines⟩ := h.docs w hw docs hdocs
  rw [h.docId, ← List.length_map (·.name)] at hval
  refine ⟨⟨(listed.map (·.name))[docs.val], ?_⟩, hlines⟩
  rw [h.files.getElem? hval, List.getElem?_eq_getElem hval]

/-- The rendering of an indexed word stays inside of the packet, and counts its bytes, exactly if
the lines of its postings take at most `DYN_SIZE` bytes. -/
theorem rendering_inBounds (henv : env.Keeps) (h : readDir env absPath entries = .ok b)
    (mem : Nat → List UInt8) (packet : Packet) {w : Word} (hw : w ∈ b.index.words) :
    (∃ out, render ⟨b.index, b.fileList, mem⟩ packet w = .ok out ∧
        out.2 = (rendered ⟨b.index, b.fileList, mem⟩ w).length) ↔
      (rendered ⟨b.index, b.fileList, mem⟩ w).length ≤ DYN_SIZE := by
  obtain ⟨hfits, hover⟩ := render_spec (t := ⟨b.index, b.fileList, mem⟩) packet
    ((readDir_inv henv h).posted hw)
  constructor
  · rintro ⟨out, hrun, -⟩
    by_contra hlt
    rw [hover (Nat.lt_of_not_le hlt)] at hrun
    cases hrun
  · intro hle
    obtain ⟨out, hrun, hout⟩ := hfits hle
    exact ⟨out, hrun, hout.len⟩

/-- An operating system on which every file is `line`. -/
def lineEnv (line : List UInt8) : Env := { Alloc.exact with fopen := fun _ => some line }

/-- An entry of a regular file with the name `f`. -/
def fileEntry : DirEntry := ⟨0, DT_REG, fun _ => [102]⟩

theorem readDir_lineEnv {line : List UInt8} {ix : Index} {ret : Int} (hne : line ≠ [])
    (hnul : 0 ∉ line) (hnl : 10 ∉ line) (hlen : 3 * line.length ≤ DYN_SIZE)
    (h : handleWords .exact 0 1 .empty (Segments.runs isalpha line) = .ok (ret, ix)) :
    ∃ fileList, readDir (lineEnv line) [100] [fileEntry] = .ok ⟨ix, fileList, 1⟩ := by
  obtain ⟨fileList, hrun⟩ := readEntry_line (lineEnv line) [100] .initial fileEntry
    (by decide) (by decide) (by decide) (by decide) rfl hne hnul hnl hlen h
  exact ⟨fileList, readDir_single hrun⟩

/-- The bootstrapping from a file that is one word. -/
theorem readDir_word (word : List UInt8) (hall : ∀ b ∈ word, isalpha b) (hne : word ≠ [])
    (hlen : word.length < MAX_WORD_LEN) :
    ∃ fileList, readDir (lineEnv word) [100] [fileEntry] =
      .ok ⟨Index.empty.add (hashFunction word % DYN_SIZE)
        ⟨hashFunction word, word, [firstPosting 0 1]⟩, fileList, 1⟩ := by
  have hnul : 0 ∉ word := fun h => absurd (hall 0 h) (by decide)
  have hnl : 10 ∉ word := fun h => absurd (hall 10 h) (by decide)
  obtain ⟨-, hrun⟩ := parseWord_first .exact word 0 1 hnul hlen
  have hwords := handleWords_cons [] hrun
  rw [← Segments.runs_of_all hall hne] at hwords
  refine readDir_lineEnv hne hnul hnl ?_ hwords
  simp only [MAX_WORD_LEN, DYN_SIZE] at hlen ⊢
  omega

/-- The file `f` is the line `we yo get`, and `g` the line `get`. -/
def twoFiles : Env :=
  { Alloc.exact with
    fopen := fun path =>
      if path = [100, 47, 102] then some [119, 101, 32, 121, 111, 32, 103, 101, 116]
      else some [103, 101, 116] }

def twoNames (name : Nat) : List UInt8 := if name = 0 then [102] else [103]

def twoEntries : List DirEntry := [⟨0, DT_REG, twoNames⟩, ⟨1, DT_REG, twoNames⟩]

/-- The index of these files: the last word is in both. -/
def twoIndex : Index :=
  { getPlaced with
    words := getPlaced.words.set 2 ⟨hashFunction [103, 101, 116], [103, 101, 116],
      [firstPosting 1 1, firstPosting 0 1]⟩ }

theorem twoFiles_boot : ∃ fileList, readDir twoFiles [100] twoEntries =
    .ok ⟨twoIndex, fileList, 2⟩ := by
  obtain ⟨l₁, h₁⟩ := readEntry_line twoFiles [100] .initial ⟨0, DT_REG, twoNames⟩
    (by decide) (by decide) (by decide) (by decide) rfl (by decide) (by decide) (by decide)
    (by decide) getPlaced_words
  have hfirst : readEntry twoFiles [100] .initial ⟨0, DT_REG, twoNames⟩ = .ok ⟨getPlaced, l₁, 1⟩ :=
    h₁
  have hpassed : Passed getPlaced.words getPlaced.dynlist [103, 101, 116] 1590 1591 :=
    .cons (getPlaced_inUse.slot 1590 (by decide)) rfl (by decide) .refl
  have hget : parseWord .exact 1 1 getPlaced [103, 101, 116] = .ok (true, twoIndex) :=
    getPlaced_inUse.known .exact 1 1 1591 (by decide) (by decide) (by decide)
    (by decide) rfl rfl rfl
      hpassed
  have hwords : handleWords .exact 1 1 getPlaced [[103, 101, 116]] = .ok (1, twoIndex) :=
    handleWords_cons [] hget
  obtain ⟨l₂, h₂⟩ := readEntry_line twoFiles [100] ⟨getPlaced, l₁, 1⟩
    ⟨1, DT_REG, twoNames⟩ (by decide) (by decide) (by decide) (by decide) rfl (by decide)
    (by decide) (by decide) (by decide) hwords
  refine ⟨l₂, ?_⟩
  rw [readDir, twoEntries, List.foldlM_cons, hfirst, ok_bind, List.foldlM_cons, h₂]
  rfl

theorem rendering_inBounds_two :
    ∃ b w, readDir twoFiles [100] twoEntries = .ok b ∧ w ∈ b.index.words ∧
      w.list = [firstPosting 1 1, firstPosting 0 1] ∧
      ((∃ out, render ⟨b.index, b.fileList, twoNames⟩
          ⟨List.replicate (DYN_SIZE + 1) 0, List.length_replicate⟩ w = .ok out ∧
          out.2 = (rendered ⟨b.index, b.fileList, twoNames⟩ w).length) ↔
        (rendered ⟨b.index, b.fileList, twoNames⟩ w).length ≤ DYN_SIZE) := by
  obtain ⟨fileList, hboot⟩ := twoFiles_boot
  have hmem : ⟨hashFunction [103, 101, 116], [103, 101, 116],
      [firstPosting 1 1, firstPosting 0 1]⟩ ∈ twoIndex.words :=
    List.mem_of_getElem? (i := 2) rfl
  exact ⟨_, _, hboot, hmem, rfl, rendering_inBounds Alloc.exact_keeps hboot twoNames _ hmem⟩

/-- A word that is repeated gets a posting for each occurrence. -/
theorem handleWords_repeat {word : List UInt8} {dynlist : DynList} (doc : LinkedList) {hash : Nat}
    (docId lineNum m : Nat) {ns : List Nat}
    (hfind : ∀ list, Index.find ⟨[⟨hash, word, list⟩], dynlist⟩ word = .ok (some 0))
    (hval : doc.val = docId) (hdoc : Holds doc ns) :
    ∃ doc', handleWords .exact docId lineNum ⟨[⟨hash, word, [doc]⟩], dynlist⟩
        (List.replicate m word) = .ok (1, ⟨[⟨hash, word, [doc']⟩], dynlist⟩) ∧
      doc'.val = docId ∧ Holds doc' (ns ++ List.replicate m lineNum) := by
  induction m generalizing doc ns with
  | zero => exact ⟨doc, rfl, hval, by rwa [List.replicate_zero, List.append_nil]⟩
  | succ m ih =>
    obtain ⟨doc₁, hins, hval₁, hdoc₁⟩ := hdoc.insertLink Alloc.exact_keeps.grows lineNum
    obtain ⟨doc', hrun, hval', hdoc'⟩ := ih doc₁ (hval₁.trans hval) hdoc₁
    rw [List.append_assoc, List.singleton_append, ← List.replicate_succ] at hdoc'
    have hlook : lookupLink [doc] docId = some 0 := by
      simp [lookupLink, hval]
    have hadd : addPosting .exact [doc] docId lineNum = .ok (true, [doc₁]) := by
      rw [addPosting]
      simp only [hlook, List.getElem?_cons_zero, hins, ok_bind]
      rfl
    have hfind' : lookup [⟨hash, word, [doc]⟩] dynlist word
      (hashFunction word % dynlist.physLen) = .ok (some 0) := hfind [doc]
    have hword : parseWord .exact docId lineNum ⟨[⟨hash, word, [doc]⟩], dynlist⟩ word =
        .ok (true, ⟨[⟨hash, word, [doc₁]⟩], dynlist⟩) := by
      rw [parseWord]
      simp only [hfind', ok_bind, List.getElem?_cons_zero, hadd]
      rfl
    refine ⟨doc', ?_, hval', hdoc'⟩
    rw [List.replicate_succ, handleWords_cons _ hword]
    exact hrun

/-- The words of a line that repeats the letter `a`. -/
theorem runs_repeat (m : Nat) :
    Segments.runs isalpha (List.replicate m [97, 32]).flatten = List.replicate m [97] := by
  induction m with
  | zero => rfl
  | succ m ih =>
    have hspace : isalpha 32 = false := by decide
    have hruns : Segments.runs isalpha ([97] ++ 32 :: (List.replicate m [97, 32]).flatten) =
        Segments.runs isalpha [97] ++ Segments.runs isalpha (List.replicate m [97, 32]).flatten :=
      Segments.runs_append_cons hspace _ _
    rw [Segments.runs_of_all (w := [97]) (List.all_eq_true.mp rfl) (by decide), ih] at hruns
    rw [List.replicate_succ, List.flatten_cons, List.replicate_succ]
    exact hruns

/-- `read_dir` calls `tokenizer` for the file `name` with the number `docId`. -/
def IndexedUnder (env : Env) (absPath : List UInt8) (entries : List DirEntry) (docId : Nat)
    (name : List UInt8) : Prop :=
  ∃ done e rest b₀, entries = done ++ e :: rest ∧ readDir env absPath done = .ok b₀ ∧ e.Listed ∧
    b₀.docId = docId ∧ name = e.mem e.name

/-- The string behind the pointer that `file_list` holds for an entry. -/
theorem fileName_listed (done : List DirEntry) {rest : List DirEntry} {e : DirEntry}
    (henv : env.Keeps)
    (h : readDir env absPath (done ++ e :: rest) = .ok b) (he : e.Listed) (mem : Nat → List UInt8) :
    fileName ⟨b.index, b.fileList, mem⟩ (done.filter (·.Listed)).length = .ok (mem e.name) := by
  have hfiles := (readDir_inv henv h).files
  rw [List.filter_append, List.filter_cons_of_pos (by simpa using he), List.map_append,
    List.map_cons] at hfiles
  have hslot := hfiles.getElem? (k := (done.filter (·.Listed)).length) (by simp)
  rw [List.getElem?_append_right (by rw [List.length_map]), List.length_map, Nat.sub_self,
    List.getElem?_cons_zero] at hslot
  simp only [fileName, hslot]

/-- The answer for a word with postings in one file, the first. -/
theorem rendered_single {e : DirEntry} {w : Word} {doc : LinkedList} (henv : env.Keeps)
    (h : readDir env absPath [e] = .ok b) (he : e.Listed) (hw : w ∈ b.index.words)
    (hlist : w.list = [doc]) (hval : doc.val = 0) :
    rendered ⟨b.index, b.fileList, e.mem⟩ w = doc.lines.flatMap (renderLine (e.mem e.name)) := by
  have hposted := (readDir_inv henv h).posted hw doc (hlist ▸ List.mem_singleton_self doc)
  have hname := hposted.fileName (t := ⟨b.index, b.fileList, e.mem⟩)
  rw [hval] at hname
  have hfile := Except.ok.inj ((fileName_listed [] henv h he e.mem).symm.trans hname)
  rw [rendered, hlist, List.flatMap_singleton, hval, ← hfile]

/-- The bootstrapping from a file in which the word `a` is repeated on one line. -/
theorem readDir_repeat {m : Nat} {e : DirEntry} (hpos : 0 < m) (hlen : 6 * m ≤ DYN_SIZE)
    (he : e.Listed) (hname : 0 ∉ e.mem e.name) (hfit : (e.mem e.name).length < MAX_PATH_LEN) :
    ∃ b w, readDir (lineEnv (List.replicate m [97, 32]).flatten) [100] [e] = .ok b ∧
      w ∈ b.index.words ∧ (∀ docs ∈ w.list, Posted b.fileList docs) ∧
      rendered ⟨b.index, b.fileList, e.mem⟩ w =
        (List.replicate m (renderLine (e.mem e.name) 1)).flatten := by
  obtain ⟨n, rfl⟩ : ∃ n, m = n + 1 := ⟨m - 1, by omega⟩
  generalize hline : (List.replicate (n + 1) [(97 : UInt8), 32]).flatten = line
  have hmem : ∀ b ∈ line, b = 97 ∨ b = 32 := by
    intro b hb
    rw [← hline, List.mem_flatten] at hb
    obtain ⟨part, hpart, hb⟩ := hb
    obtain rfl := List.eq_of_mem_replicate hpart
    simpa using hb
  have hlength : line.length = (n + 1) * 2 := by
    rw [← hline, List.length_flatten, List.map_replicate, List.sum_replicate_nat]
    rfl
  have hruns : Segments.runs isalpha line = [97] :: List.replicate n [97] := by
    rw [← hline, runs_repeat, List.replicate_succ]
  -- the first occurrence makes the word, the others add to its postings
  obtain ⟨-, hfirst⟩ := parseWord_first .exact [97] 0 1 (by decide) (by decide)
  have hone : Holds (firstPosting 0 1) [1] := ⟨rfl, rfl, by decide⟩
  obtain ⟨doc, hrepeat, hval, hdoc⟩ := handleWords_repeat (firstPosting 0 1) 0 1 n
    (fun _ => find_first [97] (by decide) (by decide)) rfl hone
  have hrun := (handleWords_cons _ hfirst).trans hrepeat
  rw [← hruns] at hrun
  obtain ⟨fileList, hentry⟩ := readEntry_line (lineEnv line) [100] .initial e he (by decide) hname
    (by simp only [MAX_WORD_LEN, List.length_singleton]; omega) rfl
    (by rintro rfl; cases hlength) (fun h => absurd (hmem 0 h) (by decide))
    (fun h => absurd (hmem 10 h) (by decide)) (by omega) hrun
  have hboot := readDir_single hentry
  have hlines : doc.lines = List.replicate (n + 1) 1 := hdoc.lines
  refine ⟨_, _, hboot, List.mem_cons_self,
    (readDir_inv Alloc.exact_keeps hboot).posted List.mem_cons_self, ?_⟩
  rw [rendered_single Alloc.exact_keeps hboot he List.mem_cons_self rfl hval, hlines,
    List.flatMap_replicate]

/-- A word that occurs 1200 times has an answer that does not fit. -/
theorem rendering_overflows :
    ∃ b w, readDir (lineEnv (List.replicate 1200 [97, 32]).flatten) [100] [fileEntry] = .ok b ∧
      w ∈ b.index.words ∧ ∀ packet, render ⟨b.index, b.fileList, fileEntry.mem⟩ packet w =
        .error .outOfBounds := by
  obtain ⟨b, w, hboot, hw, hposted, htext⟩ := readDir_repeat (m := 1200) (e := fileEntry)
    (by decide) (by decide) (by decide) (by decide) (by decide)
  refine ⟨b, w, hboot, hw, fun packet => (render_spec packet hposted).2 ?_⟩
  rw [htext, List.length_flatten, List.map_replicate, List.sum_replicate_nat]
  decide

theorem readDir_append {done rest : List DirEntry}
    (h : readDir env absPath (done ++ rest) = .ok b) :
    ∃ b₀, readDir env absPath done = .ok b₀ := by
  rw [readDir, List.foldlM_append] at h
  obtain ⟨b₀, h₀, -⟩ := bind_eq_ok h
  exact ⟨b₀, h₀⟩

/-- At a later time, with `mem` in the memory of the directory stream, `file_list` names the files
under the numbers under which they have been indexed exactly if the memory of each entry still
holds its name. -/
theorem names_right (henv : env.Keeps) (h : readDir env absPath entries = .ok b)
    (mem : Nat → List UInt8) :
    (∀ docId name, IndexedUnder env absPath entries docId name →
        fileName ⟨b.index, b.fileList, mem⟩ docId = .ok name) ↔
      ∀ e ∈ entries, e.Listed → mem e.name = e.mem e.name := by
  constructor
  · intro hall e he hlisted
    obtain ⟨done, rest, rfl⟩ := List.append_of_mem he
    obtain ⟨b₀, h₀⟩ := readDir_append h
    have hname := hall _ _ ⟨done, e, rest, b₀, rfl, h₀, hlisted, rfl, rfl⟩
    rw [(readDir_inv henv h₀).docId, fileName_listed done henv h hlisted] at hname
    exact Except.ok.inj hname
  · rintro hall _ _ ⟨done, e, rest, b₀, rfl, h₀, hlisted, rfl, rfl⟩
    rw [(readDir_inv henv h₀).docId, fileName_listed done henv h hlisted]
    exact congrArg _ (hall e (List.mem_append_right _ List.mem_cons_self) hlisted)

theorem names_right_two :
    ∃ b, readDir twoFiles [100] twoEntries = .ok b ∧
      ((∀ docId name, IndexedUnder twoFiles [100] twoEntries docId name →
          fileName ⟨b.index, b.fileList, twoNames⟩ docId = .ok name) ↔
        ∀ e ∈ twoEntries, e.Listed → twoNames e.name = e.mem e.name) := by
  obtain ⟨fileList, hboot⟩ := twoFiles_boot
  exact ⟨_, hboot, names_right Alloc.exact_keeps hboot twoNames⟩

/-- The bootstrapping from an empty file adds its name and nothing else. -/
theorem readEntry_emptyFile {e : DirEntry} (b : Boot) (he : e.Listed) (hname : 0 ∉ e.mem e.name)
    (hlen : (e.mem e.name).length < MAX_PATH_LEN) :
    ∃ fileList, readEntry (lineEnv []) [100] b e = .ok ⟨b.index, fileList, b.docId + 1⟩ := by
  have htok : tokenizer (lineEnv []) b.index (e.mem e.name) [100] b.docId = .ok b.index := by
    rw [tokenizer_path (by decide) hname
      (by simp only [MAX_WORD_LEN, List.length_singleton]; omega)]
    rfl
  refine ⟨(insertDyn (lineEnv []).toAlloc b.fileList e.name b.fileList.lastIndex).2, ?_⟩
  rw [Server.readEntry, if_neg he]
  simp only [htok, ok_bind]

/-- Two empty files with the names `a` and `b`: the stream has one buffer for its entries. -/
theorem names_overwritten :
    ∃ b, readDir (lineEnv []) [100] [⟨0, DT_REG, fun _ => [97]⟩, ⟨0, DT_REG, fun _ => [98]⟩] =
        .ok b ∧
      ¬ ∀ docId name, IndexedUnder (lineEnv []) [100]
          [⟨0, DT_REG, fun _ => [97]⟩, ⟨0, DT_REG, fun _ => [98]⟩] docId name →
        fileName ⟨b.index, b.fileList, fun _ => [98]⟩ docId = .ok name := by
  obtain ⟨l₁, h₁⟩ := readEntry_emptyFile (e := ⟨0, DT_REG, fun _ => [97]⟩) .initial (by decide)
    (by decide) (by decide)
  obtain ⟨l₂, h₂⟩ := readEntry_emptyFile (e := ⟨0, DT_REG, fun _ => [98]⟩)
    ⟨Boot.initial.index, l₁, Boot.initial.docId + 1⟩ (by decide) (by decide) (by decide)
  obtain ⟨b, hboot⟩ : ∃ b, readDir (lineEnv []) [100]
      [⟨0, DT_REG, fun _ => [97]⟩, ⟨0, DT_REG, fun _ => [98]⟩] = .ok b := by
    rw [readDir, List.foldlM_cons, h₁, ok_bind, List.foldlM_cons, h₂]
    exact ⟨_, rfl⟩
  refine ⟨b, hboot, fun hall => ?_⟩
  have hname := hall 0 [97] ⟨[], _, _, .initial, rfl, rfl, by decide, rfl, rfl⟩
  have hfile := fileName_listed [] Alloc.exact_keeps hboot (by decide) fun _ => [98]
  cases hfile.symm.trans hname

end ReadDir

end SearchEngine.Server
