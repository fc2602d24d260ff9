import SearchEngine.Server.Verify.Boot
import SearchEngine.Server.Verify.Lines

/-!
# The words of a directory

The occurrences of the words in a file are its maximal runs of letters, each with the number of
its line. On files with short lines, in which the scans cut nothing off, `read_dir` hands exactly
these to the index, file by file and in their order (`readDir_occurrences`).
-/

namespace SearchEngine.Server

open Memory Outcome Segments

section File

variable {done rest file line : List UInt8} {k : Nat}

/-- The words of a file with the numbers of their lines. -/
def occurrences (file : List UInt8) : List (List UInt8 × Nat) :=
  (spans isalpha 0 file).map fun x => ((file.take x.2).drop x.1, 1 + (file.take x.1).count 10)

/-- The scans of `parse` cut nothing off the words of a line. -/
def LinesFit (file : List UInt8) : Prop :=
  ∀ p ∈ pieces 1 file, WordsFit DYN_SIZE p.1.length (spans isalpha 0 p.1)

theorem pieces_mem {p : List UInt8 × Nat} (h : p ∈ pieces k rest) :
    p.1.length < DYN_SIZE ∧ p.1.length ≤ rest.length ∧ ∀ b ∈ p.1, b ∈ rest := by
  induction hn : rest.length using Nat.strongRecOn generalizing k rest with
  | ind m ih =>
    by_cases hne : rest = []
    · subst hne
      rw [pieces_nil] at h
      cases h
    · obtain ⟨line, rest', hrun, hrest, hend⟩ := takeLine_spec (DYN_SIZE - 1) rest
      have hlt := takeLine_lt hne
      rw [hrun, hn] at hlt
      rw [pieces_cons hne hrun] at h
      rcases List.mem_cons.mp h with rfl | h
      · have hlength : line.length ≤ m := by
          rw [← hn, hrest, List.length_append]
          exact Nat.le_add_right _ _
        refine ⟨?_, hlength, fun b hb => hrest ▸ List.mem_append_left rest' hb⟩
        have hle : line.length ≤ DYN_SIZE - 1 := by
          rcases hend with ⟨a, rfl, -, hshort⟩ | ⟨-, hle, -⟩
          · rw [List.length_append]
            exact hshort
          · exact hle
        exact Nat.lt_of_le_of_lt hle (by decide)
      · obtain ⟨hlen, hle, hmem⟩ := ih _ hlt h rfl
        exact ⟨hlen, hle.trans hlt.le, fun b hb => hrest ▸ List.mem_append_right line (hmem b hb)⟩

/-- A file that is short as a whole. -/
theorem linesFit_short (h : 3 * file.length ≤ DYN_SIZE) : LinesFit file := by
  intro p hp
  obtain ⟨-, hle, -⟩ := pieces_mem hp
  exact wordsFit_short ((Nat.mul_le_mul_left 3 hle).trans h)

/-- The occurrences in a part of a file that is inside of a line. -/
theorem spans_line (done line rest : List UInt8) (h : 10 ∉ line) :
    (spans isalpha done.length line).map (fun x =>
        (((done ++ (line ++ rest)).take x.2).drop x.1,
          1 + ((done ++ (line ++ rest)).take x.1).count 10)) =
      (runs isalpha line).map fun w => (w, 1 + done.count 10) := by
  have hdrop : (done ++ (line ++ rest)).drop done.length = line ++ rest := List.drop_left
  rw [← spans_cut hdrop, List.map_map]
  refine List.map_congr_left fun x hx => ?_
  obtain ⟨hle, hlt, hle'⟩ := spans_bounds hx
  have hcount : ((done ++ (line ++ rest)).take x.1).count 10 = done.count 10 := by
    rw [List.take_append, List.take_of_length_le hle, List.take_append_of_le_length (by omega),
      List.count_append, List.count_eq_zero_of_not_mem fun hmem => h (List.mem_of_mem_take hmem),
      Nat.add_zero]
  rw [hcount]
  rfl

/-- The words of the pieces of a file are its occurrences, from the offset on that is reached. -/
theorem pieces_runs (done rest : List UInt8) (h : ShortLines rest) :
    (pieces (1 + done.count 10) rest).flatMap (fun p => (runs isalpha p.1).map fun w => (w, p.2)) =
      (spans isalpha done.length rest).map fun x =>
        (((done ++ rest).take x.2).drop x.1, 1 + ((done ++ rest).take x.1).count 10) := by
  have hsep : isalpha 10 = false := by decide
  induction hn : rest.length using Nat.strongRecOn generalizing done rest with
  | ind m ih =>
    by_cases hne : rest = []
    · subst hne
      rw [pieces_nil]
      rfl
    · obtain ⟨line, rest', hrun, hrest, hend⟩ := takeLine_spec (DYN_SIZE - 1) rest
      have hlt := takeLine_lt hne
      rw [hrun, hn] at hlt
      rw [pieces_cons hne hrun, List.flatMap_cons]
      rw [hrest] at h
      rcases hend with ⟨a, rfl, ha, hshort⟩ | ⟨hline, -, hend⟩
      · have hnext := ih _ hlt (done ++ (a ++ [10])) rest' ((shortLines_append hshort).mp h) rfl
        have hcount : 1 + (done ++ (a ++ [10])).count 10 = 1 + done.count 10 + 1 := by
          rw [List.count_append, List.count_append, List.count_eq_zero_of_not_mem ha]
          rfl
        have hsplit : rest = a ++ 10 :: rest' := by
          rw [hrest, List.append_assoc, List.singleton_append]
        have hfile : done ++ (a ++ [10]) ++ rest' = done ++ (a ++ 10 :: rest') := by
          rw [List.append_assoc, List.append_assoc, List.singleton_append]
        have hlength : (done ++ (a ++ [10])).length = done.length + a.length + 1 := by
          rw [List.length_append, List.length_append, List.length_singleton, Nat.add_assoc]
        rw [hcount, hfile, hlength] at hnext
        rw [hnext, hsplit, spans_split hsep, List.map_append, spans_line done a _ ha]
        simp only [runs_append_cons hsep, runs_nil, List.append_nil]
      · by_cases hnil : rest' = []
        · subst hnil
          rw [pieces_nil, List.flatMap_nil, List.append_nil, hrest, ← spans_line done line [] hline,
            List.append_nil]
        · exact absurd h (not_shortLines hline (hend.resolve_left hnil) hnil)

/-- The words that `tokenizer` finds in a file with short lines. -/
theorem occurrences_pieces (h : ShortLines file) :
    (pieces 1 file).flatMap (fun p => (runs isalpha p.1).map fun w => (w, p.2)) =
      occurrences file := pieces_runs [] file h

end File

/-! ## One word after the other -/

/-- A word of a file, with the number of the file and that of the line. -/
structure Occurrence where
  word : List UInt8
  docId : Nat
  lineNum : Nat
  deriving DecidableEq, Repr

section Handle

variable {env : Alloc} {ix ix' : Index} {xs ys : List Occurrence} {words : List (List UInt8)}
  {docId lineNum : Nat}

/-- The words come to the index one after the other. -/
def handleOccurrences (env : Alloc) (ix : Index) (xs : List Occurrence) : Except Fault Index :=
  xs.foldlM (fun ix x => (·.2) <$> parseWord env x.docId x.lineNum ix x.word) ix

theorem handleOccurrences_append (h : handleOccurrences env ix (xs ++ ys) = .ok ix') :
    ∃ ix₁, handleOccurrences env ix xs = .ok ix₁ ∧ handleOccurrences env ix₁ ys = .ok ix' := by
  rw [handleOccurrences, List.foldlM_append] at h
  exact bind_eq_ok h

theorem map_eq_ok {α β : Type} {x : Except Fault α} {f : α → β} {b : β} (h : f <$> x = .ok b) :
    ∃ a, x = .ok a ∧ f a = b := by
  cases x with
  | error e => cases h
  | ok a => exact ⟨a, rfl, Except.ok.inj h⟩

/-- The words of a line. -/
theorem handleWords_of (hnul : ∀ w ∈ words, 0 ∉ w)
    (h : handleOccurrences env ix (words.map (⟨·, docId, lineNum⟩)) = .ok ix') :
    handleWords env docId lineNum ix words = .ok (1, ix') := by
  induction words generalizing ix with
  | nil =>
    obtain rfl := Except.ok.inj h
    rfl
  | cons word words ih =>
    obtain ⟨ix₁, hword, h⟩ := bind_eq_ok h
    obtain ⟨⟨flag, ix₂⟩, hrun, rfl⟩ := map_eq_ok hword
    obtain ⟨rfl, -⟩ := parseWord_cases (hnul word List.mem_cons_self) hrun
    rw [handleWords_cons words hrun]
    exact ih (fun w hw => hnul w (List.mem_cons_of_mem word hw)) h

/-- The words of a piece of a file. -/
def pieceOccurrences (docId : Nat) (p : List UInt8 × Nat) : List Occurrence :=
  (runs isalpha p.1).map (⟨·, docId, p.2⟩)

theorem runs_nul {line : List UInt8} (h : 0 ∉ line) : ∀ w ∈ runs isalpha line, 0 ∉ w := by
  intro w hw hmem
  rw [← spans_cut (p := isalpha) (i := 0) (l := line) (m := line) (r := [])
    (List.append_nil line).symm] at hw
  obtain ⟨x, -, rfl⟩ := List.mem_map.mp hw
  exact h (List.mem_of_mem_take (List.mem_of_mem_drop hmem))

/-- `parse` hands the words of a piece to the index. -/
theorem parsePiece_of {p : List UInt8 × Nat} (buf : List UInt8) (hnul : 0 ∉ p.1)
    (hlen : p.1.length < DYN_SIZE) (hfit : WordsFit DYN_SIZE p.1.length (spans isalpha 0 p.1))
    (h : handleOccurrences env ix (pieceOccurrences docId p) = .ok ix') :
    ∃ buf', parsePiece env docId (ix, buf) p = .ok (ix', buf') := by
  obtain ⟨words, hwords, hiff⟩ := wordsOf_line p.1 (buf.drop (p.1.length + 1)) hnul hlen
  obtain rfl := hiff.mpr hfit
  obtain ⟨ret, buf', hrun⟩ := parse_of_handle hwords (handleWords_of (runs_nul hnul) h)
  refine ⟨buf', ?_⟩
  rw [parsePiece]
  simp only [hrun, ok_bind]

theorem parsePieces_of {ps : List (List UInt8 × Nat)} (buf : List UInt8)
    (hnul : ∀ p ∈ ps, 0 ∉ p.1) (hlen : ∀ p ∈ ps, p.1.length < DYN_SIZE)
    (hfit : ∀ p ∈ ps, WordsFit DYN_SIZE p.1.length (spans isalpha 0 p.1))
    (h : handleOccurrences env ix (ps.flatMap (pieceOccurrences docId)) = .ok ix') :
    ∃ buf', ps.foldlM (parsePiece env docId) (ix, buf) = .ok (ix', buf') := by
  induction ps generalizing ix buf with
  | nil =>
    obtain rfl := Except.ok.inj h
    exact ⟨buf, rfl⟩
  | cons p ps ih =>
    rw [List.flatMap_cons] at h
    obtain ⟨ix₁, hfirst, h⟩ := handleOccurrences_append h
    obtain ⟨buf₁, hrun⟩ := parsePiece_of buf (hnul p List.mem_cons_self)
      (hlen p List.mem_cons_self) (hfit p List.mem_cons_self) hfirst
    rw [List.foldlM_cons, hrun, ok_bind]
    exact ih buf₁ (fun q hq => hnul q (List.mem_cons_of_mem p hq))
      (fun q hq => hlen q (List.mem_cons_of_mem p hq))
      (fun q hq => hfit q (List.mem_cons_of_mem p hq)) h

/-- The occurrences in the file number `docId`. -/
def fileOccurrences (docId : Nat) (file : List UInt8) : List Occurrence :=
  (occurrences file).map fun o => ⟨o.1, docId, o.2⟩

/-- `tokenizer` hands the words of a file to the index. -/
theorem readLines_of {file buf : List UInt8} (hnul : 0 ∉ file) (hshort : ShortLines file)
    (hfit : LinesFit file)
    (h : handleOccurrences env ix (fileOccurrences docId file) = .ok ix') :
    readLines env docId (file.length + 1) buf 1 file ix = .ok ix' := by
  have hpieces : fileOccurrences docId file = (pieces 1 file).flatMap (pieceOccurrences docId) := by
    rw [fileOccurrences, ← occurrences_pieces hshort, List.map_flatMap]
    refine List.flatMap_congr fun p _ => ?_
    rw [List.map_map]
    rfl
  rw [hpieces] at h
  obtain ⟨buf', hrun⟩ := parsePieces_of buf
    (fun p hp hmem => hnul ((pieces_mem hp).2.2 0 hmem)) (fun p hp => (pieces_mem hp).1) hfit h
  rw [readLines_pieces buf ix (Nat.lt_succ_self _), hrun]
  rfl

end Handle

/-! ## The directory -/

section Directory

variable {env : Env} {absPath : List UInt8} {entries : List DirEntry} {files : List (List UInt8)}
  {ix : Index} {b : Boot}

/-- The occurrences in files, which are numbered from `d` on. -/
def occurrencesFrom (d : Nat) (files : List (List UInt8)) : List Occurrence :=
  (files.zipIdx d).flatMap fun x => fileOccurrences x.2 x.1

/-- The regular files of the directory are `files`, their paths have room in the buffer of
`tokenizer`, and nothing contains a NUL. -/
structure Directory (env : Env) (absPath : List UInt8) (entries : List DirEntry)
    (files : List (List UInt8)) : Prop where
  path : 0 ∉ absPath
  name : ∀ e ∈ entries, e.Listed → 0 ∉ e.mem e.name
  room : ∀ e ∈ entries, e.Listed →
    absPath.length + 1 + (e.mem e.name).length < MAX_WORD_LEN + MAX_PATH_LEN + 1
  opened : (entries.filter (·.Listed)).map (fun e => env.fopen (absPath ++ [47] ++ e.mem e.name)) =
    files.map some
  chars : ∀ file ∈ files, 0 ∉ file

/-- `tokenizer` reads the lines of the files as they are. -/
structure ReadsLines (files : List (List UInt8)) : Prop where
  short : ∀ file ∈ files, ShortLines file
  fit : ∀ file ∈ files, LinesFit file

theorem readEntries_of (hdir : Directory env absPath entries files) (hlines : ReadsLines files)
    (h : handleOccurrences env.toAlloc b.index (occurrencesFrom b.docId files) = .ok ix) :
    ∃ b', entries.foldlM (readEntry env absPath) b = .ok b' ∧ b'.index = ix := by
  induction entries generalizing b files with
  | nil =>
    obtain rfl : files = [] := List.map_eq_nil_iff.mp hdir.opened.symm
    exact ⟨b, rfl, Except.ok.inj h⟩
  | cons e entries ih =>
    have hname : ∀ e' ∈ entries, e'.Listed → 0 ∉ e'.mem e'.name :=
      fun e' he' => hdir.name e' (List.mem_cons_of_mem e he')
    have hroom : ∀ e' ∈ entries, e'.Listed →
        absPath.length + 1 + (e'.mem e'.name).length < MAX_WORD_LEN + MAX_PATH_LEN + 1 :=
      fun e' he' => hdir.room e' (List.mem_cons_of_mem e he')
    have hopened := hdir.opened
    rw [List.foldlM_cons, readEntry]
    by_cases he : e.Listed
    · rw [List.filter_cons_of_pos (by simpa using he), List.map_cons] at hopened
      cases files with
      | nil => cases hopened
      | cons file files =>
        obtain ⟨hopen, hopened⟩ := List.cons.inj hopened
        rw [occurrencesFrom, List.zipIdx_cons, List.flatMap_cons] at h
        obtain ⟨ix₁, hfile, h⟩ := handleOccurrences_append h
        have htok : tokenizer env b.index (e.mem e.name) absPath b.docId = .ok ix₁ := by
          rw [tokenizer_path hdir.path (hdir.name e List.mem_cons_self he)
            (hdir.room e List.mem_cons_self he), hopen]
          exact readLines_of (hdir.chars file List.mem_cons_self)
            (hlines.short file List.mem_cons_self) (hlines.fit file List.mem_cons_self) hfile
        rw [if_neg he]
        simp only [htok, ok_bind]
        refine ih (b := ⟨ix₁, _, b.docId + 1⟩) ?_ ?_ h
        · exact ⟨hdir.path, hname, hroom, hopened,
            fun f hf => hdir.chars f (List.mem_cons_of_mem file hf)⟩
        · exact ⟨fun f hf => hlines.short f (List.mem_cons_of_mem file hf),
            fun f hf => hlines.fit f (List.mem_cons_of_mem file hf)⟩
    · rw [List.filter_cons_of_neg (by simpa using he)] at hopened
      rw [if_pos (not_not.mp he), ok_bind]
      exact ih ⟨hdir.path, hname, hroom, hopened, hdir.chars⟩ hlines h

/-- `read_dir` hands the words of the directory to the index. -/
theorem readDir_occurrences (hdir : Directory env absPath entries files)
    (hlines : ReadsLines files)
    (h : handleOccurrences env.toAlloc .empty (occurrencesFrom 0 files) = .ok ix) :
    ∃ b, readDir env absPath entries = .ok b ∧ b.index = ix :=
  readEntries_of hdir hlines h

end Directory

end SearchEngine.Server
