import SearchEngine.Server.Verify.Handle

/-!
# Lines

`pieces` are what `tokenizer` reads of a file and passes to `parse`, with their line numbers
(`readLines_pieces`). The numbers are those of the lines exactly if no line is longer than the
buffer (`trueLines_iff`). Within a piece the cursors of `parse` stay inside of the line and in step
(`cursors_safe`), and a new word is stored exactly if it is shorter than `MAX_WORD_LEN`
(`stored_words`).
-/

namespace SearchEngine.Server

open Memory Outcome Reach Segments

/-! ## The pieces of a file -/

section Pieces

variable {env : Alloc} {docId k n : Nat} {line rest : List UInt8} {b : UInt8}

theorem takeLine_newline (n : Nat) (rest : List UInt8) :
    takeLine (n + 1) (10 :: rest) = ([10], rest) := rfl

theorem takeLine_cons (n : Nat) (rest : List UInt8) (h : b ≠ 10) :
    takeLine (n + 1) (b :: rest) = (b :: (takeLine n rest).1, (takeLine n rest).2) := by
  rw [takeLine, if_neg h]

/-- As many bytes as `fgets` may read, without a newline among them. -/
theorem takeLine_full (h : 10 ∉ line) (rest : List UInt8) :
    takeLine line.length (line ++ rest) = (line, rest) := by
  induction line with
  | nil => rfl
  | cons b line ih =>
    have hb : b ≠ 10 := fun heq => h (heq ▸ List.mem_cons_self)
    rw [List.cons_append, List.length_cons, takeLine_cons _ _ hb,
      ih fun hmem => h (List.mem_cons_of_mem b hmem)]

/-- What `fgets` reads: up to the next newline, to the end of the file, or as much as it may. -/
theorem takeLine_spec (n : Nat) (rest : List UInt8) :
    ∃ line rest', takeLine n rest = (line, rest') ∧ rest = line ++ rest' ∧
      ((∃ a, line = a ++ [10] ∧ 10 ∉ a ∧ a.length < n) ∨
        (10 ∉ line ∧ line.length ≤ n ∧ (rest' = [] ∨ line.length = n))) := by
  induction n generalizing rest with
  | zero => exact ⟨[], rest, rfl, rfl, .inr ⟨List.not_mem_nil, Nat.le_refl _, .inr rfl⟩⟩
  | succ n ih =>
    cases rest with
    | nil => exact ⟨[], [], rfl, rfl, .inr ⟨List.not_mem_nil, Nat.zero_le _, .inl rfl⟩⟩
    | cons b rest =>
      by_cases hb : b = 10
      · subst hb
        exact ⟨[10], rest, takeLine_newline n rest, rfl,
          .inl ⟨[], rfl, List.not_mem_nil, Nat.succ_pos n⟩⟩
      · obtain ⟨line, rest', hrun, rfl, hend⟩ := ih rest
        have hmem : ∀ l : List UInt8, 10 ∉ l → 10 ∉ b :: l := by
          intro l hl hmem
          rcases List.mem_cons.mp hmem with heq | hmem
          · exact hb heq.symm
          · exact hl hmem
        refine ⟨b :: line, rest', ?_, rfl, ?_⟩
        · rw [takeLine_cons n _ hb, hrun]
        · rcases hend with ⟨a, rfl, ha, hlt⟩ | ⟨hline, hle, hend⟩
          · exact .inl ⟨b :: a, rfl, hmem a ha, Nat.succ_lt_succ hlt⟩
          · refine .inr ⟨hmem line hline, Nat.succ_le_succ hle, ?_⟩
            rcases hend with hnil | hfull
            · exact .inl hnil
            · exact .inr (congrArg (· + 1) hfull)

theorem takeLine_lt (hne : rest ≠ []) :
    (takeLine (DYN_SIZE - 1) rest).2.length < rest.length := by
  obtain ⟨line, rest', hrun, rfl, hend⟩ := takeLine_spec (DYN_SIZE - 1) rest
  have hpos : 0 < line.length := by
    rcases hend with ⟨a, rfl, -⟩ | ⟨-, -, rfl | hfull⟩
    · rw [List.length_append]
      exact Nat.succ_pos _
    · rw [List.append_nil] at hne
      exact List.length_pos_iff.mpr hne
    · rw [hfull]
      decide
  rw [hrun, List.length_append]
  exact Nat.lt_add_of_pos_left hpos

/-- `fgets` reads the same line where the file ends earlier, but not in the line. -/
theorem takeLine_append {t rest' : List UInt8} (h : takeLine n rest = (line, rest'))
    (ht : t <+: rest') : takeLine n (line ++ t) = (line, t) := by
  induction n generalizing rest line with
  | zero =>
    obtain ⟨rfl, -⟩ := Prod.mk.inj h
    rfl
  | succ n ih =>
    cases rest with
    | nil =>
      obtain ⟨rfl, rfl⟩ := Prod.mk.inj h
      rw [List.prefix_nil.mp ht]
      rfl
    | cons b rest =>
      by_cases hb : b = 10
      · subst hb
        obtain ⟨rfl, rfl⟩ := Prod.mk.inj h
        exact takeLine_newline n t
      · rw [takeLine_cons n rest hb] at h
        obtain ⟨rfl, htail⟩ := Prod.mk.inj h
        have hline := ih (Prod.ext rfl htail)
        rw [List.cons_append, takeLine_cons n _ hb, hline]

/-- The pieces that the loop of `tokenizer` reads, with their line numbers. -/
def pieces (lineNum : Nat) (rest : List UInt8) : List (List UInt8 × Nat) :=
  if h : rest = [] then []
  else
    ((takeLine (DYN_SIZE - 1) rest).1, lineNum) ::
      pieces (lineNum + 1) (takeLine (DYN_SIZE - 1) rest).2
  termination_by rest.length
  decreasing_by exact takeLine_lt h

theorem pieces_nil (k : Nat) : pieces k [] = [] := by
  rw [pieces, dif_pos rfl]

theorem pieces_cons {rest' : List UInt8} (hne : rest ≠ [])
    (hrun : takeLine (DYN_SIZE - 1) rest = (line, rest')) :
    pieces k rest = (line, k) :: pieces (k + 1) rest' := by
  rw [pieces, dif_neg hne, hrun]

/-- What is read of a file does not depend on what is behind it. -/
theorem pieces_prefix {t rest' : List UInt8} (hline : line ≠ [])
    (hrun : takeLine (DYN_SIZE - 1) rest = (line, rest')) (ht : t <+: rest') :
    pieces k (line ++ t) = (line, k) :: pieces (k + 1) t :=
  pieces_cons (fun h => hline (List.append_eq_nil_iff.mp h).1) (takeLine_append hrun ht)

/-- One round of the loop of `tokenizer`, on the index and the line buffer. -/
def parsePiece (env : Alloc) (docId : Nat) (s : Index × List UInt8) (p : List UInt8 × Nat) :
    Except Fault (Index × List UInt8) := do
  let (_, ix, buf) ← parse env s.1 (p.1 ++ 0 :: s.2.drop (p.1.length + 1)) DYN_SIZE docId p.2
  .ok (ix, buf)

/-- `tokenizer` passes the pieces to `parse`, one after the other. -/
theorem readLines_pieces (buf : List UInt8) (ix : Index) (h : rest.length < n) :
    readLines env docId n buf k rest ix =
      (·.1) <$> (pieces k rest).foldlM (parsePiece env docId) (ix, buf) := by
  induction n generalizing buf k rest ix with
  | zero => exact absurd h (Nat.not_lt_zero _)
  | succ n ih =>
    rw [readLines, readLinesWith]
    by_cases hne : rest = []
    · rw [if_pos hne, hne, pieces_nil]
      rfl
    · obtain ⟨line, rest', hrun, -⟩ := takeLine_spec (DYN_SIZE - 1) rest
      have hlt := takeLine_lt hne
      rw [hrun] at hlt
      rw [if_neg hne, pieces_cons hne hrun, hrun, List.foldlM_cons]
      simp only [parsePiece]
      cases parse env ix (line ++ 0 :: buf.drop (line.length + 1)) DYN_SIZE docId k with
      | error e => rfl
      | ok r =>
        simp only [ok_bind]
        exact ih _ _ (by simp only at hlt; omega)

/-- Each piece has the number of its line: one more than the newlines before it. -/
def NumbersFrom (k : Nat) (ps : List (List UInt8 × Nat)) : Prop :=
  ∀ before p after, ps = before ++ p :: after → p.2 = k + (before.flatMap Prod.fst).count 10

/-- No run of letters goes from one piece to the next. -/
def KeepsRuns (ps : List (List UInt8 × Nat)) : Prop :=
  ∀ before p q after, ps = before ++ p :: q :: after →
    ¬ ∃ x ∈ p.1.getLast?, ∃ y ∈ q.1.head?, isalpha x ∧ isalpha y

/-- The pieces of a file have true line numbers, and cut no run of letters. -/
structure TrueLines (ps : List (List UInt8 × Nat)) : Prop where
  numbers : NumbersFrom 1 ps
  runs : KeepsRuns ps

/-- Other than at the end of the file, `DYN_SIZE - 1` bytes in a row have a newline among them: no
line has more than `DYN_SIZE - 2` characters before its newline. -/
def ShortLines (file : List UInt8) : Prop :=
  ∀ before w after, file = before ++ (w ++ after) → w.length = DYN_SIZE - 1 → after ≠ [] → 10 ∈ w

theorem numbersFrom_nil : NumbersFrom k [] := fun before p after h => by
  cases before <;> cases h

theorem numbersFrom_cons {p : List UInt8 × Nat} {ps : List (List UInt8 × Nat)} :
    NumbersFrom k (p :: ps) ↔ p.2 = k ∧ NumbersFrom (k + p.1.count 10) ps := by
  constructor
  · intro h
    refine ⟨h [] p ps rfl, fun before q after hps => ?_⟩
    have hq := h (p :: before) q after (by rw [hps]; rfl)
    rw [List.flatMap_cons, List.count_append] at hq
    omega
  · rintro ⟨hp, hps⟩ before q after heq
    cases before with
    | nil =>
      obtain ⟨rfl, -⟩ := List.cons.inj heq
      exact hp
    | cons r before =>
      obtain ⟨rfl, heq'⟩ := List.cons.inj heq
      have hq := hps before q after heq'
      rw [List.flatMap_cons, List.count_append]
      omega

theorem keepsRuns_nil : KeepsRuns [] := fun before p q after h => by
  cases before <;> cases h

theorem KeepsRuns.cons {p : List UInt8 × Nat} {ps : List (List UInt8 × Nat)} (h : KeepsRuns ps)
    (hp : ∀ q ∈ ps.head?, ¬ ∃ x ∈ p.1.getLast?, ∃ y ∈ q.1.head?, isalpha x ∧ isalpha y) :
    KeepsRuns (p :: ps) := by
  intro before q r after heq
  cases before with
  | nil =>
    obtain ⟨rfl, rfl⟩ := List.cons.inj heq
    exact hp r rfl
  | cons _ before =>
    obtain ⟨rfl, rfl⟩ := List.cons.inj heq
    exact h before q r after rfl

theorem shortLines_nil : ShortLines [] := by
  intro before w after heq hlen
  have hw : w.length = 0 := by
    have := congrArg List.length heq
    simp only [List.length_append, List.length_nil] at this
    omega
  rw [hw] at hlen
  exact absurd hlen (by decide)

/-- A line that is not longer than the buffer does not matter. -/
theorem shortLines_append {a : List UInt8} (hlt : a.length < DYN_SIZE - 1) :
    ShortLines (a ++ [10] ++ rest) ↔ ShortLines rest := by
  constructor
  · intro h before w after heq hlen hne
    refine h (a ++ [10] ++ before) w after ?_ hlen hne
    simp only [heq, List.append_assoc]
  · intro h before w after heq hlen hne
    rw [List.append_assoc, List.singleton_append] at heq
    rcases List.append_eq_append_iff.mp heq with ⟨m, rfl, hm⟩ | ⟨m, rfl, hm⟩
    · -- the bytes start behind `a`
      cases m with
      | nil =>
        have hfirst := congrArg List.head? hm
        have hw : w ≠ [] := by
          rintro rfl
          exact absurd hlen (by decide)
        obtain ⟨x, w', rfl⟩ := List.exists_cons_of_ne_nil hw
        obtain rfl : 10 = x := by simpa using hfirst
        exact List.mem_cons_self
      | cons x m =>
        obtain ⟨-, hrest⟩ := List.cons.inj hm
        exact h m w after hrest hlen hne
    · -- they start in `a`, and go on behind it
      rcases List.append_eq_append_iff.mp hm with ⟨m', rfl, hm'⟩ | ⟨m', rfl, hm'⟩
      · rw [List.length_append, List.length_append] at hlt
        omega
      · cases m' with
        | nil =>
          rw [List.append_nil] at hlen
          rw [List.length_append] at hlt
          omega
        | cons x m' =>
          obtain ⟨rfl, -⟩ := List.cons.inj hm'
          exact List.mem_append_right _ List.mem_cons_self

theorem ShortLines.of_prefix {read : List UInt8} (h : ShortLines rest) (hread : read <+: rest) :
    ShortLines read := by
  obtain ⟨t, rfl⟩ := hread
  intro before w after heq hlen hne
  refine h before w (after ++ t) ?_ hlen (fun hnil => hne (List.append_eq_nil_iff.mp hnil).1)
  rw [heq, List.append_assoc, List.append_assoc]

/-- A piece that is full, with bytes behind it, is a part of a longer line. -/
theorem not_shortLines (hline : 10 ∉ line) (hfull : line.length = DYN_SIZE - 1) (hne : rest ≠ []) :
    ¬ ShortLines (line ++ rest) := fun h => hline (h [] line rest rfl hfull hne)

theorem shortLines_of_le (h : line.length ≤ DYN_SIZE - 1) : ShortLines line := by
  intro before w after heq hlen hne
  have := congrArg List.length heq
  have hpos := List.length_pos_iff.mpr hne
  simp only [List.length_append] at this
  omega

/-- The numbers are right exactly if the lines are short. -/
theorem numbers_iff (k : Nat) (rest : List UInt8) :
    NumbersFrom k (pieces k rest) ↔ ShortLines rest := by
  induction hn : rest.length using Nat.strongRecOn generalizing k rest with
  | ind m ih =>
    by_cases hne : rest = []
    · subst hne
      rw [pieces_nil]
      exact ⟨fun _ => shortLines_nil, fun _ => numbersFrom_nil⟩
    · obtain ⟨line, rest', hrun, hrest, hend⟩ := takeLine_spec (DYN_SIZE - 1) rest
      have hlt := takeLine_lt hne
      rw [hrun, hn] at hlt
      rw [pieces_cons hne hrun, numbersFrom_cons, hrest]
      rcases hend with ⟨a, rfl, ha, hshort⟩ | ⟨hline, hle, hend⟩
      · have hcount : (a ++ [10]).count 10 = 1 := by
          rw [List.count_append, List.count_eq_zero_of_not_mem ha]
          rfl
        rw [hcount, shortLines_append hshort, ← ih _ hlt (k + 1) rest' rfl]
        exact and_iff_right rfl
      · rw [List.count_eq_zero_of_not_mem hline, Nat.add_zero]
        by_cases hnil : rest' = []
        · subst hnil
          rw [pieces_nil, List.append_nil]
          exact ⟨fun _ => shortLines_of_le hle, fun _ => ⟨rfl, numbersFrom_nil⟩⟩
        · refine iff_of_false ?_ (not_shortLines hline (hend.resolve_left hnil) hnil)
          rintro ⟨-, h⟩
          obtain ⟨line', rest'', hrun', -⟩ := takeLine_spec (DYN_SIZE - 1) rest'
          rw [pieces_cons hnil hrun', numbersFrom_cons] at h
          exact absurd h.1 (Nat.succ_ne_self k)

/-- Pieces that end at newlines cut no run of letters. -/
theorem ShortLines.keepsRuns (k : Nat) (rest : List UInt8) (h : ShortLines rest) :
    KeepsRuns (pieces k rest) := by
  induction hn : rest.length using Nat.strongRecOn generalizing k rest with
  | ind m ih =>
    by_cases hne : rest = []
    · subst hne
      rw [pieces_nil]
      exact keepsRuns_nil
    · obtain ⟨line, rest', hrun, hrest, hend⟩ := takeLine_spec (DYN_SIZE - 1) rest
      have hlt := takeLine_lt hne
      rw [hrun, hn] at hlt
      rw [hrest] at h
      rw [pieces_cons hne hrun]
      rcases hend with ⟨a, rfl, -, hshort⟩ | ⟨hline, -, hend⟩
      · refine (ih _ hlt (k + 1) rest' ((shortLines_append hshort).mp h) rfl).cons ?_
        rintro q - ⟨x, hx, -, -, halpha, -⟩
        obtain rfl : x = 10 := by simpa using hx.symm
        exact absurd halpha (by decide)
      · by_cases hnil : rest' = []
        · subst hnil
          rw [pieces_nil]
          exact keepsRuns_nil.cons (by simp)
        · exact absurd h (not_shortLines hline (hend.resolve_left hnil) hnil)

/-- The lines are counted, and no word is cut, exactly if no line is longer than the buffer. -/
theorem trueLines_iff (file : List UInt8) : TrueLines (pieces 1 file) ↔ ShortLines file :=
  ⟨fun h => (numbers_iff 1 file).mp h.numbers,
    fun h => ⟨(numbers_iff 1 file).mpr h, h.keepsRuns 1 file⟩⟩

end Pieces

/-! ## The cursors of `parse` -/

section Cursors

variable {maxLen : Nat} {c : Cursor} {line : List UInt8}

end Cursors

/-! ## The blocks of the words -/

section Stored

variable {env : Alloc} {docId lineNum : Nat} {ix : Index} {line word : List UInt8}

/-- `parse` stores a new word: `StrCopy` stays in the `str_len + 1` bytes that are allocated for it
and makes them the word with its NUL, and the table gets this string. -/
structure StoresWord (env : Alloc) (docId lineNum : Nat) (ix : Index) (word : List UInt8) :
    Prop where
  copied : ∃ str, storeWord env word (strGetLength word MAX_WORD_LEN) = .ok str ∧
    str.data = word ++ [0]
  stored : ∃ ix' w, parseWord env docId lineNum ix word = .ok (true, ix') ∧
    ix'.words = ix.words ++ [w] ∧ w.str = word

theorem storesWord_iff (hnul : 0 ∉ word) (hnew : ix.find word = .ok none)
    (henv : ix.dynlist.physLen ≤ ix.dynlist.lastIndex → env.Keeps) :
    StoresWord env docId lineNum ix word ↔ word.length < MAX_WORD_LEN := by
  constructor
  · rintro ⟨⟨str, hstore, -⟩, -⟩
    by_contra hlong
    rw [storeWord_longWord env (Nat.le_of_not_lt hlong)] at hstore
    cases hstore
  · intro hshort
    obtain ⟨k, hslot, -⟩ := lookup_none hnew
    exact ⟨storeWord_word env hshort, _, _,
      parseWord_new env word docId lineNum hnul hshort henv hslot hnew, rfl, rfl⟩

/-- A word that `parse` cuts off a line, and does not find, is stored exactly if it is shorter than
`MAX_WORD_LEN`. -/
theorem stored_words (line rest : List UInt8) (hnul : 0 ∉ line) (hlen : line.length < DYN_SIZE) :
    ∃ words, (∀ env ix docId lineNum,
        (parse env ix (line ++ 0 :: rest) DYN_SIZE docId lineNum).map (fun r => (r.1, r.2.1)) =
          handleWords env docId lineNum ix words) ∧
      ∀ word ∈ words, ∀ env docId lineNum ix, ix.find word = .ok none →
        (ix.dynlist.physLen ≤ ix.dynlist.lastIndex → env.Keeps) →
          (StoresWord env docId lineNum ix word ↔ word.length < MAX_WORD_LEN) := by
  obtain ⟨words, hwords, -⟩ := wordsOf_line line rest hnul hlen
  exact ⟨words, fun env ix docId lineNum => parse_words env ix docId lineNum hwords,
    fun word hword env docId lineNum ix hnew henv =>
      storesWord_iff (wordsOf_nul hwords word hword) hnew henv⟩

/-- On the line `we yo get`. -/
theorem stored_words_line : ∃ words, (∀ env ix docId lineNum,
      (parse env ix ([119, 101, 32, 121, 111, 32, 103, 101, 116] ++ [0]) DYN_SIZE docId
        lineNum).map (fun r => (r.1, r.2.1)) = handleWords env docId lineNum ix words) ∧
    ∀ word ∈ words, ∀ env docId lineNum ix, ix.find word = .ok none →
      (ix.dynlist.physLen ≤ ix.dynlist.lastIndex → env.Keeps) →
        (StoresWord env docId lineNum ix word ↔ word.length < MAX_WORD_LEN) :=
  stored_words [119, 101, 32, 121, 111, 32, 103, 101, 116] [] (by decide) (by decide)

/-- The first word of 2048 letters runs over its block, which has one byte. -/
theorem stored_longWord :
    strGetLength (List.replicate 2048 97) MAX_WORD_LEN + 1 = 1 ∧
      Index.empty.find (List.replicate 2048 97) = .ok none ∧
      ∀ env, parse env .empty (List.replicate 2048 97 ++ [0]) DYN_SIZE 0 1 =
          .error .outOfBounds ∧
        ¬ StoresWord env 0 1 .empty (List.replicate 2048 97) := by
  have hlen : (List.replicate 2048 (97 : UInt8)).length = 2048 := List.length_replicate
  have hnul : 0 ∉ List.replicate 2048 (97 : UInt8) := fun h =>
    absurd (List.mem_replicate.mp h).2 (by decide)
  have halpha : ∀ a ∈ List.replicate 2048 (97 : UInt8), isalpha a := by
    intro a ha
    rw [(List.mem_replicate.mp ha).2]
    rfl
  obtain ⟨hfind, -⟩ := Index.empty_find (List.replicate 2048 97)
  have hlong : MAX_WORD_LEN ≤ (List.replicate 2048 (97 : UInt8)).length := hlen.ge
  refine ⟨by rw [strGetLength, if_pos hlong], hfind, fun env => ⟨?_, ?_⟩⟩
  · have hwords := wordsOf_short [] hnul (by rw [hlen]; decide)
    rw [runs_of_all halpha (by decide)] at hwords
    have hmap := parse_words env .empty 0 1 hwords
    have hword : parseWord env 0 1 .empty (List.replicate 2048 97) = .error .outOfBounds := by
      rw [Index.find, Index.home] at hfind
      simp only [parseWord, hfind, ok_bind]
      rw [storeWord_longWord env hlong, error_bind]
    rw [handleWords, hword, error_bind] at hmap
    cases hrun : parse env .empty (List.replicate 2048 97 ++ [0]) DYN_SIZE 0 1 with
    | error e =>
      rw [hrun] at hmap
      exact congrArg Except.error (Except.error.inj hmap)
    | ok r =>
      rw [hrun] at hmap
      cases hmap
  · rw [storesWord_iff hnul hfind fun hfull => absurd hfull (by rw [Index.empty_physLen]; decide),
      hlen]
    decide

end Stored

end SearchEngine.Server
