import SearchEngine.Client.Verify.Search

/-!
# An answer can be read back

A line of an answer ends with the number of a line of a file, which is behind the last `": line #"`
of the line; what is before is the name of the file. So the text of an answer tells the files, and
the lines in them, whatever the names are, as long as there is no newline in them
(`readListing_listing`): from the directory to the index and to the text of an answer nothing that
concerns the word is lost (`answers_read`).
-/

namespace SearchEngine.Client

open Memory Server Outcome

/-- `": line #"` -/
def lineMark : List UInt8 := [58, 32, 108, 105, 110, 101, 32, 35]

def isDigit (b : UInt8) : Bool := 48 ≤ b && b ≤ 57

/-- The number that the digits are. -/
def readDecimal (digits : List UInt8) : Nat :=
  digits.foldl (fun n b => 10 * n + (b.toNat - 48)) 0

/-- The name and the number of a line, without its newline. -/
def readLine (text : List UInt8) : Option (List UInt8 × Nat) :=
  let digits := (text.reverse.takeWhile isDigit).reverse
  let rest := text.reverse.dropWhile isDigit
  if lineMark.reverse <+: rest then
    some ((rest.drop lineMark.length).reverse, readDecimal digits)
  else none

/-- The names and numbers in a text. -/
def readListing (text : List UInt8) : List (List UInt8 × Nat) :=
  (text.splitOn 10).filterMap readLine

/-- The occurrences of a word, as an answer has them. -/
def foundIn (names files : List (List UInt8)) (word : List UInt8) : List (List UInt8 × Nat) :=
  (names.zip files).reverse.flatMap fun p => (linesIn word p.2).map fun line => (p.1, line)

section Line

variable {name : List UInt8} {n : Nat}

theorem digit_range {c : Char} (hc : c ∈ Nat.toDigits 10 n) : 48 ≤ c.toNat ∧ c.toNat ≤ 57 := by
  have hdigit := Nat.isDigit_of_mem_toDigits (by decide) (by decide) hc
  simp only [Char.isDigit, Bool.and_eq_true, decide_eq_true_eq] at hdigit
  exact ⟨UInt32.le_iff_toNat_le.mp hdigit.1, UInt32.le_iff_toNat_le.mp hdigit.2⟩

theorem toNat_digit {c : Char} (hc : c ∈ Nat.toDigits 10 n) :
    (UInt8.ofNat c.toNat).toNat = c.toNat := by
  have := digit_range hc
  rw [UInt8.toNat_ofNat']
  omega

theorem isDigit_of_mem_decimal {b : UInt8} (hb : b ∈ decimal n) : isDigit b = true := by
  obtain ⟨c, hc, rfl⟩ := List.mem_map.mp hb
  obtain ⟨h1, h2⟩ := digit_range hc
  have hb := toNat_digit hc
  simp only [isDigit, Bool.and_eq_true, decide_eq_true_eq, UInt8.le_iff_toNat_le, hb]
  exact ⟨h1, h2⟩

theorem readDecimal_decimal (n : Nat) : readDecimal (decimal n) = n := by
  have hdigits (l : List Char) (hl : ∀ c ∈ l, c ∈ Nat.toDigits 10 n) (k : Nat) :
      (l.map fun c => UInt8.ofNat c.toNat).foldl (fun n b => 10 * n + (b.toNat - 48)) k =
        Nat.ofDigitChars 10 l k := by
    induction l generalizing k with
    | nil => rfl
    | cons c l ih =>
      rw [List.map_cons, List.foldl_cons, toNat_digit (hl c List.mem_cons_self),
        ih (fun c' hc' => hl c' (List.mem_cons_of_mem c hc'))]
      rfl
  rw [readDecimal, decimal, hdigits _ (fun _ hc => hc), Nat.ofDigitChars_ten_toDigits]

/-- A line is read back. -/
theorem readLine_line : readLine (name ++ lineMark ++ decimal n) = some (name, n) := by
  have hdigits : ∀ b ∈ (decimal n).reverse, isDigit b = true := fun b hb =>
    isDigit_of_mem_decimal (List.mem_reverse.mp hb)
  have hrev : (name ++ lineMark ++ decimal n).reverse =
      (decimal n).reverse ++ (lineMark.reverse ++ name.reverse) := by
    rw [List.reverse_append, List.reverse_append]
  have htake : (lineMark.reverse ++ name.reverse).takeWhile isDigit = [] := rfl
  have hdrop : (lineMark.reverse ++ name.reverse).dropWhile isDigit =
      lineMark.reverse ++ name.reverse := rfl
  have hlen : lineMark.length = lineMark.reverse.length := List.length_reverse.symm
  simp only [readLine, hrev, List.takeWhile_append_of_pos hdigits,
    List.dropWhile_append_of_pos hdigits, htake, hdrop]
  rw [if_pos (List.prefix_append _ _), List.append_nil, List.reverse_reverse,
    readDecimal_decimal, hlen, List.drop_left,
    List.reverse_reverse]

theorem newline_not_mem (hname : 10 ∉ name) : 10 ∉ name ++ lineMark ++ decimal n := by
  intro hmem
  rcases List.mem_append.mp hmem with hmem | hmem
  · rcases List.mem_append.mp hmem with hmem | hmem
    · exact hname hmem
    · exact absurd hmem (by decide)
  · have := isDigit_of_mem_decimal hmem
    exact absurd this (by decide)

end Line

section Listing

variable {names files : List (List UInt8)} {word name text : List UInt8}

/-- The first line of a text is read. -/
theorem readListing_line {line : Nat} (hname : 10 ∉ name) :
    readListing (renderLine name line ++ text) = (name, line) :: readListing text := by
  have hline : renderLine name line ++ text = name ++ lineMark ++ decimal line ++ 10 :: text := by
    rw [renderLine, ← lineMark, List.append_assoc _ [10], List.singleton_append]
  rw [readListing, hline, List.splitOn_append_cons_self_of_not_mem (newline_not_mem hname),
    List.filterMap_cons_some readLine_line, ← readListing]

theorem readListing_lines (hname : 10 ∉ name) (lines : List Nat) :
    readListing (lines.flatMap (renderLine name) ++ text) =
      lines.map (fun line => (name, line)) ++ readListing text := by
  induction lines with
  | nil => rfl
  | cons line lines ih =>
    rw [List.flatMap_cons, List.append_assoc, readListing_line hname, ih]
    rfl

/-- The text of an answer says what was found. -/
theorem readListing_listing (hnames : ∀ name ∈ names, 10 ∉ name) :
    readListing (listing names files word) = foundIn names files word := by
  have hall (l : List (List UInt8 × List UInt8)) (hl : ∀ p ∈ l, 10 ∉ p.1) :
      readListing (l.flatMap fun p => (linesIn word p.2).flatMap (renderLine p.1)) =
        l.flatMap fun p => (linesIn word p.2).map fun line => (p.1, line) := by
    induction l with
    | nil => rfl
    | cons p l ih =>
      rw [List.flatMap_cons, readListing_lines (hl p List.mem_cons_self), List.flatMap_cons,
        ih fun q hq => hl q (List.mem_cons_of_mem p hq)]
  refine hall _ fun p hp => hnames _ ?_
  exact (List.of_mem_zip (List.mem_reverse.mp hp)).1

end Listing

section Directory

variable {env : Env} {absPath : List UInt8} {entries : List DirEntry} {files : List (List UInt8)}

/-- From the directory to the text of an answer, and back. -/
theorem answers_read (henv : env.Keeps) (hdir : Directory env absPath entries files)
    (hlines : ReadsLines files)
    (hwords : EachOccurrence env.toAlloc Placeable .empty (occurrencesFrom 0 files))
    (hnames : ∀ e ∈ entries, e.Listed → 10 ∉ e.mem e.name) :
    ∃ b, readDir env absPath entries = .ok b ∧
      ∀ (mem : Nat → List UInt8), (∀ e ∈ entries, e.Listed → mem e.name = e.mem e.name) →
        ∀ w ∈ b.index.words,
          readListing (rendered (tablesOf b mem) w) = foundIn (namesOf entries) files w.str := by
  obtain ⟨b, hboot, hix⟩ := boot_indexed henv hdir hlines hwords
  refine ⟨b, hboot, fun mem hmem w hw => ?_⟩
  obtain ⟨item, hitem⟩ := List.mem_iff_getElem?.mp hw
  have hn := names_of_boot henv hdir hboot hmem
  rw [rendered_eq_listing hn.length hn.name (hix.postings item w hitem)]
  refine readListing_listing fun name hname => ?_
  obtain ⟨e, he, rfl⟩ := List.mem_map.mp hname
  obtain ⟨hentry, hlisted⟩ := List.mem_filter.mp he
  exact hnames e hentry (of_decide_eq_true hlisted)

/-- The answer for the one word of the one file. -/
theorem answers_read_oneFile : ∃ b w, readDir (lineEnv [97]) [100] [fileEntry] = .ok b ∧
    w ∈ b.index.words ∧ readListing (rendered (tablesOf b fileEntry.mem) w) =
      foundIn (namesOf [fileEntry]) [[97]] w.str := by
  obtain ⟨hdir, hlines, hwords⟩ := oneFile_directory
  have hnames : ∀ e ∈ [fileEntry], e.Listed → 10 ∉ e.mem e.name := by
    intro e he _
    rw [List.mem_singleton.mp he]
    decide
  have hmem : ∀ e ∈ [fileEntry], e.Listed → fileEntry.mem e.name = e.mem e.name := by
    intro e he _
    rw [List.mem_singleton.mp he]
  obtain ⟨b, hboot, hix⟩ := boot_indexed Alloc.exact_keeps hdir hlines hwords
  obtain ⟨b', hboot', hread⟩ := answers_read Alloc.exact_keeps hdir hlines hwords hnames
  obtain rfl := Except.ok.inj (hboot.symm.trans hboot')
  obtain ⟨item, w, hw, -⟩ := hix.known ⟨[97], 0, 1⟩ (by decide)
  have hmemw := List.mem_of_getElem? hw
  exact ⟨b, w, hboot, hmemw, hread fileEntry.mem hmem w hmemw⟩

end Directory

end SearchEngine.Client
