import SearchEngine.Server.Verify.Occurrences
import SearchEngine.Server.Verify.Concat

/-!
# The calls of `parse`

`recorded` is `parse` with a list of its calls, and `tokenizerCalls` is a run of `tokenizer` with
it: the run is the same (`recorded_run`). Its calls have the numbers of the lines exactly if no line
of what is read is longer than the line buffer (`line_numbers`).
-/

namespace SearchEngine.Server

open Memory Outcome Segments

/-- `parse`, with a list of its calls: the string in the line buffer, and the number of the line.
Behind a fault nothing is called any more. -/
def recorded (env : Alloc) : LineParser (Except Fault Index × List (List UInt8 × Nat))
  | (.error e, calls), buf, _, _, _ => .ok (-1, (.error e, calls), buf)
  | (.ok ix, calls), buf, maxLen, docId, lineNum =>
    let calls := calls ++ [(buf.takeWhile (· ≠ 0), lineNum)]
    match parse env ix buf maxLen docId lineNum with
    | .error e => .ok (-1, (.error e, calls), buf)
    | .ok (ret, ix, buf) => .ok (ret, (.ok ix, calls), buf)

section Run

variable {env : Alloc} {docId k n : Nat} {buf rest : List UInt8} {calls : List (List UInt8 × Nat)}

/-- After a fault the list stays as it is. -/
theorem recorded_fault (e : Fault) (h : rest.length < n) :
    readLinesWith (recorded env) docId n buf k rest (.error e, calls) =
      .ok (.error e, calls) := by
  induction n generalizing buf k rest with
  | zero => exact absurd h (Nat.not_lt_zero _)
  | succ n ih =>
    rw [readLinesWith]
    by_cases hne : rest = []
    · rw [if_pos hne]
    · rw [if_neg hne]
      have hlt := takeLine_lt hne
      simp only [recorded, ok_bind]
      exact ih (by omega)

/-- The list changes nothing of the run, and holds what has been read of the file, piece by
piece. -/
theorem recorded_run (env : Alloc) (docId k : Nat) (buf : List UInt8)
    (calls : List (List UInt8 × Nat)) (ix : Index) (hnul : 0 ∉ rest) (h : rest.length < n) :
    ∃ made, readLinesWith (recorded env) docId n buf k rest (.ok ix, calls) =
        .ok (readLines env docId n buf k rest ix, calls ++ made) ∧
      made = pieces k (made.flatMap Prod.fst) ∧ made.flatMap Prod.fst <+: rest ∧
      ∀ ix', readLines env docId n buf k rest ix = .ok ix' → made.flatMap Prod.fst = rest := by
  induction n generalizing buf k rest ix calls with
  | zero => exact absurd h (Nat.not_lt_zero _)
  | succ n ih =>
    rw [readLines, readLinesWith, readLinesWith]
    by_cases hne : rest = []
    · subst hne
      rw [if_pos rfl, if_pos rfl]
      exact ⟨[], by rw [List.append_nil], (pieces_nil k).symm, List.prefix_rfl, fun _ _ => rfl⟩
    · rw [if_neg hne, if_neg hne]
      obtain ⟨line, rest', hrun, hrest, -⟩ := takeLine_spec (DYN_SIZE - 1) rest
      have hlt := takeLine_lt hne
      rw [hrun] at hlt
      simp only at hlt
      have hline : line ≠ [] := by
        rintro rfl
        rw [hrest, List.nil_append] at hlt
        exact absurd hlt (Nat.lt_irrefl _)
      have hchars : ∀ b ∈ line, decide (b ≠ 0) = true := by
        intro b hb
        refine decide_eq_true fun hzero => hnul ?_
        rw [hrest, ← hzero]
        exact List.mem_append_left rest' hb
      have hstr : (line ++ 0 :: buf.drop (line.length + 1)).takeWhile (· ≠ 0) = line := by
        rw [List.takeWhile_append_of_pos hchars, List.takeWhile_cons_of_neg (by decide),
          List.append_nil]
      simp only [hrun, recorded, hstr]
      cases parse env ix (line ++ 0 :: buf.drop (line.length + 1)) DYN_SIZE docId k with
      | error e =>
        refine ⟨[(line, k)], recorded_fault e (by omega), ?_, ?_, fun ix' hix => by cases hix⟩
        · rw [List.flatMap_singleton, ← List.append_nil line,
            pieces_prefix hline hrun (List.nil_prefix), pieces_nil, List.append_nil]
        · rw [List.flatMap_singleton, hrest]
          exact List.prefix_append line rest'
      | ok r =>
        obtain ⟨ret, ix₁, buf₁⟩ := r
        have hnul' : 0 ∉ rest' := fun hmem => hnul (hrest ▸ List.mem_append_right line hmem)
        obtain ⟨made, hmade, hpieces, hpre, hall⟩ := ih (k + 1) buf₁
          (calls ++ [(line, k)]) ix₁ hnul' (by omega)
        refine ⟨(line, k) :: made, ?_, ?_, ?_, fun ix' hix => ?_⟩
        · simp only [ok_bind]
          rw [hmade, List.append_assoc, List.singleton_append]
          rfl
        · rw [List.flatMap_cons, pieces_prefix hline hrun hpre, ← hpieces]
        · rw [List.flatMap_cons, hrest]
          exact (List.prefix_append_right_inj line).mpr hpre
        · rw [List.flatMap_cons, hrest, hall ix' hix]

end Run

section Tokenizer

variable {env : Env} {ix : Index} {docId : Nat} {filename absPath file : List UInt8}

/-- A run of `tokenizer`, and the calls of `parse` in it. -/
def tokenizerCalls (env : Env) (ix : Index) (filename absPath : List UInt8) (docId : Nat) :
    Except Fault (Except Fault Index × List (List UInt8 × Nat)) :=
  tokenizerWith (recorded env.toAlloc) env (.ok ix, []) filename absPath docId

/-- What `tokenizer` passes to `parse` of a file: as much as is read before a fault, and the whole
file if there is none. The line numbers are right, and no word is cut, exactly if there is no line
longer than the buffer. -/
theorem line_numbers (habs : 0 ∉ absPath) (hname : 0 ∉ filename)
    (hopen : env.fopen (absPath ++ [47] ++ filename) = some file) (hnul : 0 ∉ file) :
    tokenizer env ix filename absPath docId =
        (tokenizerCalls env ix filename absPath docId >>= Prod.fst) ∧
      ∀ r calls, tokenizerCalls env ix filename absPath docId = .ok (r, calls) →
        calls.flatMap Prod.fst <+: file ∧ (∀ ix', r = .ok ix' → calls.flatMap Prod.fst = file) ∧
          (TrueLines calls ↔ ShortLines (calls.flatMap Prod.fst)) ∧
            (ShortLines file → TrueLines calls) := by
  by_cases hroom : absPath.length + 1 + filename.length < MAX_WORD_LEN + MAX_PATH_LEN + 1
  · obtain ⟨made, hrun, hpieces, hpre, hall⟩ := recorded_run env.toAlloc docId 1
      (List.replicate (DYN_SIZE + 1) 0) [] ix hnul (Nat.lt_add_one file.length)
    rw [tokenizerCalls, tokenizer_path habs hname hroom, tokenizerWith_path habs hname hroom, hopen]
    simp only [hrun, ok_bind]
    refine ⟨trivial, ?_⟩
    rintro r calls ⟨⟩
    rw [List.nil_append]
    have hiff : TrueLines made ↔ ShortLines (made.flatMap Prod.fst) := by
      rw [← trueLines_iff, ← hpieces]
    exact ⟨hpre, hall, hiff, fun hshort => hiff.mpr (hshort.of_prefix hpre)⟩
  · have hroom' := Nat.le_of_not_lt hroom
    rw [tokenizerCalls, tokenizer, tokenizerWith_noRoom habs hname hroom',
      tokenizerWith_noRoom habs hname hroom']
    exact ⟨rfl, fun r calls h => by cases h⟩

/-- The file `d/f`, with the lines `get we` and `yo`. -/
theorem line_numbers_two :
    tokenizer (lineEnv [103, 101, 116, 32, 119, 101, 10, 121, 111]) .empty [102] [100] 0 =
        (tokenizerCalls (lineEnv [103, 101, 116, 32, 119, 101, 10, 121, 111]) .empty [102] [100] 0
          >>= Prod.fst) ∧
      ∀ r calls, tokenizerCalls (lineEnv [103, 101, 116, 32, 119, 101, 10, 121, 111]) .empty [102]
          [100] 0 = .ok (r, calls) →
        calls.flatMap Prod.fst <+: [103, 101, 116, 32, 119, 101, 10, 121, 111] ∧
          (∀ ix', r = .ok ix' →
            calls.flatMap Prod.fst = [103, 101, 116, 32, 119, 101, 10, 121, 111]) ∧
          (TrueLines calls ↔ ShortLines (calls.flatMap Prod.fst)) ∧
            (ShortLines [103, 101, 116, 32, 119, 101, 10, 121, 111] → TrueLines calls) :=
  line_numbers (by decide) (by decide) rfl (by decide)

/-- A first line of 10240 spaces, and a second one that is `b`. -/
def longLine : List UInt8 := List.replicate 10240 32 ++ [10, 98]

theorem spaces_notMem {b : UInt8} (n : Nat) (h : b ≠ 32) : b ∉ List.replicate n (32 : UInt8) :=
  fun hmem => h (List.mem_replicate.mp hmem).2

theorem longLine_pieces : pieces 1 longLine =
    [(List.replicate 10239 32, 1), ([32, 10], 2), ([98], 3)] := by
  have hsplit : longLine = List.replicate 10239 32 ++ [32, 10, 98] := by
    rw [longLine, List.replicate_succ', List.append_assoc]
    rfl
  have hfirst := takeLine_full (spaces_notMem 10239 (by decide : (10 : UInt8) ≠ 32)) [32, 10, 98]
  rw [List.length_replicate] at hfirst
  have hsecond : takeLine (DYN_SIZE - 1) [32, 10, 98] = ([32, 10], [98]) := rfl
  have hthird : takeLine (DYN_SIZE - 1) [98] = ([98], []) := rfl
  rw [hsplit, pieces_cons (List.append_ne_nil_of_right_ne_nil _ (by decide)) hfirst,
    pieces_cons (by decide) hsecond, pieces_cons (by decide) hthird, pieces_nil]

/-- Only the last piece has a word. -/
theorem longLine_returns (buf : List UInt8) :
    ∃ ix', readLines .exact 0 (longLine.length + 1) buf 1 longLine .empty = .ok ix' := by
  have hgap : ∀ a ∈ List.replicate 10239 (32 : UInt8), isalpha a = false := by
    intro a ha
    rw [List.eq_of_mem_replicate ha]
    rfl
  have hruns : runs isalpha (List.replicate 10239 (32 : UInt8)) = [] := by
    rw [← List.append_nil (List.replicate 10239 32), runs_gap hgap, runs_nil]
  have hspans : spans isalpha 0 (List.replicate 10239 (32 : UInt8)) = [] := by
    rw [← List.append_nil (List.replicate 10239 32), spans_gap hgap, spans_nil]
  obtain ⟨-, hword⟩ := parseWord_first .exact [98] 0 3 (by decide) (by decide)
  have hocc : handleOccurrences .exact .empty
      ([(List.replicate 10239 32, 1), ([32, 10], 2), ([98], 3)].flatMap (pieceOccurrences 0)) =
        .ok (Index.empty.add (hashFunction [98] % DYN_SIZE)
          ⟨hashFunction [98], [98], [firstPosting 0 3]⟩) := by
    rw [List.flatMap_cons, pieceOccurrences, hruns]
    show handleOccurrences .exact .empty [⟨[98], 0, 3⟩] = _
    rw [handleOccurrences, List.foldlM_cons, hword]
    rfl
  obtain ⟨buf', hrun⟩ := parsePieces_of buf (by
      intro p hp
      rcases List.mem_cons.mp hp with rfl | hp
      · exact spaces_notMem 10239 (by decide)
      · revert p
        decide) (by
      intro p hp
      rcases List.mem_cons.mp hp with rfl | hp
      · rw [List.length_replicate]
        decide
      · revert p
        decide) (by
      intro p hp
      rcases List.mem_cons.mp hp with rfl | hp
      · rw [hspans]
        exact WordsFit.nil
      · exact wordsFit_short (by revert p; decide)) hocc
  rw [readLines_pieces buf .empty (Nat.lt_succ_self _), longLine_pieces, hrun]
  exact ⟨_, rfl⟩

/-- `b` is passed to `parse` with the number 3. -/
theorem line_numbers_long :
    (∃ ix', tokenizerCalls (lineEnv longLine) .empty [102] [100] 0 =
      .ok (.ok ix', [(List.replicate 10239 32, 1), ([32, 10], 2), ([98], 3)])) ∧
      ¬ TrueLines [(List.replicate 10239 32, 1), ([32, 10], 2), ([98], 3)] := by
  constructor
  · have hnul : 0 ∉ longLine := nul_notMem_append (spaces_notMem 10240 (by decide)) (by decide)
    obtain ⟨ix', hreturns⟩ := longLine_returns (List.replicate (DYN_SIZE + 1) 0)
    obtain ⟨made, hrun, hpieces, -, hall⟩ := recorded_run .exact 0 1
      (List.replicate (DYN_SIZE + 1) 0) [] .empty hnul (Nat.lt_add_one longLine.length)
    rw [hall ix' hreturns, longLine_pieces] at hpieces
    subst hpieces
    refine ⟨ix', ?_⟩
    have hopen : (lineEnv longLine).fopen ([100] ++ [47] ++ [102]) = some longLine := rfl
    rw [hreturns, List.nil_append] at hrun
    rw [tokenizerCalls, tokenizerWith_path (by decide) (by decide) (by decide), hopen]
    exact hrun
  · have hlines : ∀ spaces : List UInt8, 10 ∉ spaces →
        ¬ TrueLines [(spaces, 1), ([32, 10], 2), ([98], 3)] := by
      intro spaces hspaces h
      have hnumber := (numbersFrom_cons.mp (numbersFrom_cons.mp h.numbers).2).1
      rw [List.count_eq_zero_of_not_mem hspaces] at hnumber
      exact absurd hnumber (by decide)
    exact hlines _ (spaces_notMem 10239 (by decide))

end Tokenizer

end SearchEngine.Server
