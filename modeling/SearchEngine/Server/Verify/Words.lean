import SearchEngine.Server.Index
import SearchEngine.Server.Verify.Strings
import SearchEngine.Lib.Segments

/-!
# The words of a line

`wordsOf` is the sequence of the words that the loop of `parse` cuts off, and `parse` handles
exactly these, one after the other. The cursors only go forward, so that a word depends only on
the part of the line that is left (`cutWord`); from that follows when the words are the maximal
runs of letters of the line (`LineFits`).
-/

namespace SearchEngine.Server

open Memory Outcome Segments

section Handle

/-- The words that the loop of `parse` cuts off, in at most `n` rounds. -/
def wordsOf (maxLen : Nat) : Nat → Cursor → Except Fault (List (List UInt8))
  | 0, _ => .error .endless
  | n + 1, c => do
    match ← nextWord maxLen c with
    | none => .ok []
    | some (word, c) => do
      let words ← wordsOf maxLen n c
      .ok (word :: words)

/-- The words of a line are looked up or inserted, until one fails. -/
def handleWords (env : Alloc) (docId lineNum : Nat) :
    Index → List (List UInt8) → Except Fault (Int × Index)
  | ix, [] => .ok (1, ix)
  | ix, word :: words => do
    match ← parseWord env docId lineNum ix word with
    | (false, ix) => .ok (-1, ix)
    | (true, ix) => handleWords env docId lineNum ix words

variable {env : Alloc} {maxLen docId lineNum n : Nat} {c : Cursor} {ix : Index}
  {words : List (List UInt8)}

theorem parseLoop_words (h : wordsOf maxLen n c = .ok words) :
    (parseLoop env maxLen docId lineNum n c ix).map (fun r => (r.1, r.2.1)) =
      handleWords env docId lineNum ix words := by
  induction n generalizing c ix words with
  | zero => cases h
  | succ n ih =>
    rw [wordsOf] at h
    rw [parseLoop]
    cases hnext : nextWord maxLen c with
    | error e =>
      rw [hnext] at h
      cases h
    | ok next =>
      rw [hnext, ok_bind] at h
      rw [ok_bind]
      cases next with
      | none =>
        obtain rfl := Except.ok.inj h
        rfl
      | some next =>
        obtain ⟨word, c'⟩ := next
        obtain ⟨rest, hrest, h⟩ := bind_eq_ok h
        obtain rfl := Except.ok.inj h
        simp only [handleWords]
        cases parseWord env docId lineNum ix word with
        | error e => rfl
        | ok r =>
          obtain ⟨flag, ix'⟩ := r
          rw [ok_bind, ok_bind]
          cases flag with
          | false => rfl
          | true => exact ih hrest

/-- `parse` handles the words that it cuts off. -/
theorem parse_words (env : Alloc) (ix : Index) (docId lineNum : Nat) {buf : List UInt8}
    (h : wordsOf maxLen (maxLen + 2) ⟨buf, 0, 0⟩ = .ok words) :
    (parse env ix buf maxLen docId lineNum).map (fun r => (r.1, r.2.1)) =
      handleWords env docId lineNum ix words :=
  parseLoop_words h

end Handle

section Cut

variable {p : UInt8 → Bool} {buf l r : List UInt8} {ptr maxLen index i : Nat}

theorem subSize_of_le {a b : Nat} (h : b ≤ a) (ha : a < 2 ^ 64) : subSize a b = a - b := by
  rw [subSize, CInt.size]
  omega

theorem byteAt_of_drop {b : UInt8} (h : buf.drop ptr = b :: r) : byteAt buf ptr = .ok b := by
  have hb : buf[ptr]? = some b := by
    rw [← List.head?_drop, h]
    rfl
  rw [byteAt, hb]

theorem drop_succ_of_drop {b : UInt8} (h : buf.drop ptr = b :: r) : buf.drop (ptr + 1) = r := by
  rw [← List.drop_drop, h]
  rfl

/-- A scan goes over the characters that meet `p`, as far as it may. -/
theorem strScan_spec (p : UInt8 → Bool) (maxLen index : Nat) (h : buf.drop ptr = l ++ 0 :: r)
    (hl : 0 ∉ l) :
    strScan p buf ptr maxLen index =
      .ok (ptr + min (l.takeWhile p).length (maxLen - index),
        index + min (l.takeWhile p).length (maxLen - index)) := by
  induction l generalizing ptr index with
  | nil =>
    have hb : buf[ptr]? = some 0 := by
      rw [← List.head?_drop, h]
      rfl
    rw [strScan]
    split
    · split
      · next heq => cases heq.symm.trans hb
      · next b heq =>
        obtain rfl := Option.some.inj (heq.symm.trans hb)
        rw [if_neg fun hand => hand.1 rfl]
        simp
    · simp
  | cons a l ih =>
    have hb : buf[ptr]? = some a := by
      rw [← List.head?_drop, h]
      rfl
    have ha : a ≠ 0 := fun e => hl (e ▸ List.mem_cons_self)
    rw [strScan]
    split
    · next hlt =>
      split
      · next heq => cases heq.symm.trans hb
      · next b heq =>
        obtain rfl := Option.some.inj (heq.symm.trans hb)
        by_cases hp : p b
        · rw [if_pos ⟨ha, hp⟩, ih _ (drop_succ_of_drop h) fun h0 => hl (List.mem_cons_of_mem _ h0),
            List.takeWhile_cons_of_pos hp, List.length_cons]
          congr 2 <;> omega
        · rw [if_neg fun hand => hp hand.2, List.takeWhile_cons_of_neg hp]
          simp
    · next hge =>
      have hzero : maxLen - index = 0 := by omega
      rw [hzero, Nat.min_zero]
      rfl

/-- The number of characters that are not letters at the start of what is left. -/
def gap (l : List UInt8) : Nat := (l.takeWhile fun b => !isalpha b).length

/-- What `StrTok` and `StrSplit` make of `l`, which starts with the word at offset `s`: the word,
where the cursor is then, and what is left. -/
def takeWord (maxLen s : Nat) (l : List UInt8) : List UInt8 × Nat × List UInt8 :=
  let n := min (l.takeWhile isalpha).length (maxLen - s - s)
  let e := s + n
  match l.drop n with
  | [] => (l.take n, e, [])
  | _ :: l' =>
    if maxLen - s < e + 1 then (l.take n, e + 1, [])
    else
      let j := min (gap l') (maxLen - s - (e + 1) - (e + 1))
      (l.take n, e + 1 + j, l'.drop j)

/-- The word that is cut off next when `l` is left of the line, from offset `i` on. -/
def cutWord (maxLen i : Nat) (l : List UInt8) : Option (List UInt8 × Nat × List UInt8) :=
  let k := min (gap l) (maxLen - i - i)
  if l.drop k = [] then none else some (takeWord maxLen (i + k) (l.drop k))

/-- The cursor has `l` left of its line, from offset `i` on. -/
structure Cursor.At (maxLen i : Nat) (l : List UInt8) (c : Cursor) : Prop where
  line : ∃ r, c.buf.drop c.ptr = l ++ 0 :: r
  chars : 0 ∉ l
  place : l ≠ [] → c.ptr = i ∧ c.index = i ∧ i + l.length < maxLen

theorem nextWord_end {c : Cursor} (h : c.At maxLen i []) : nextWord maxLen c = .ok none := by
  obtain ⟨r, hline⟩ := h.line
  rw [nextWord]
  split
  · rw [byteAt_of_drop hline, ok_bind, if_pos rfl]
  · rfl

theorem gap_le (l : List UInt8) : gap l ≤ l.length :=
  (List.takeWhile_prefix _).length_le

theorem drop_add_of_drop {k : Nat} (h : buf.drop ptr = l ++ r) (hk : k ≤ l.length) :
    buf.drop (ptr + k) = l.drop k ++ r := by
  rw [← List.drop_drop, h, List.drop_append_of_le_length hk]

theorem notMem_drop {k : Nat} (h : 0 ∉ l) : 0 ∉ l.drop k :=
  fun hmem => h (List.mem_of_mem_drop hmem)

theorem cstring_drop {s n : Nat} (hl : 0 ∉ l) (h : buf.drop s = l.take n ++ 0 :: r) :
    cstring (buf.drop s) = .ok (l.take n) := by
  rw [h, cstring_append fun hmem => hl (List.mem_of_mem_take hmem)]

/-- The split of a line behind a word. -/
theorem drop_set {s n : Nat} {b : UInt8} {l' : List UInt8} (h : buf.drop s = l ++ r)
    (hn : l.drop n = b :: l') :
    (buf.set (s + n) 0).drop s = l.take n ++ 0 :: (l' ++ r) := by
  have hlt : n < l.length := by
    by_contra hge
    rw [List.drop_eq_nil_of_le (Nat.le_of_not_lt hge)] at hn
    cases hn
  have hl : l = l.take n ++ b :: l' := by rw [← hn, List.take_append_drop]
  have hlen : (l.take n).length = n := List.length_take_of_le hlt.le
  have hsplit : (l.take n ++ b :: (l' ++ r)).set n 0 = l.take n ++ 0 :: (l' ++ r) := by
    rw [List.set_append_right _ _ hlen.le, hlen, Nat.sub_self, List.set_cons_zero]
  rw [List.drop_set, if_neg (by omega), Nat.add_sub_cancel_left, h]
  calc (l ++ r).set n 0 = (l.take n ++ b :: (l' ++ r)).set n 0 := by
        rw [← List.cons_append, ← List.append_assoc, ← hl]
    _ = l.take n ++ 0 :: (l' ++ r) := hsplit

theorem strStrip_spec (maxLen index : Nat) (h : buf.drop ptr = l ++ 0 :: r) (hl : 0 ∉ l) :
    strStrip buf ptr maxLen index =
      .ok (ptr + min (gap l) (maxLen - index), index + min (gap l) (maxLen - index)) :=
  strScan_spec _ maxLen index h hl

theorem byteAt_end (h : buf.drop ptr = l ++ 0 :: r) (hl : 0 ∉ l) :
    ∃ b, byteAt buf ptr = .ok b ∧ (b = 0 ↔ l = []) := by
  cases l with
  | nil => exact ⟨0, byteAt_of_drop h, by simp⟩
  | cons b l =>
    have hb : b ≠ 0 := fun e => hl (e ▸ List.mem_cons_self)
    exact ⟨b, byteAt_of_drop h, by simpa using hb⟩

/-- The line behind a word of `n` letters at offset `s`. -/
theorem strSplit_spec {s n : Nat} {b : UInt8} {l' : List UInt8} (hmax : maxLen < 2 ^ 64)
    (hline : buf.drop s = l ++ 0 :: r) (hl : 0 ∉ l) (hlt : s + l.length < maxLen)
    (hn : l.drop n = b :: l') :
    ∃ buf' ptr' index', strSplit buf (s + n) (maxLen - s) (s + n) = .ok (buf', ptr', index') ∧
      cstring (buf'.drop s) = .ok (l.take n) ∧
      if maxLen - s < s + n + 1 then Cursor.At maxLen (s + n + 1) [] ⟨buf', ptr', index'⟩
      else
        let j := min (gap l') (maxLen - s - (s + n + 1) - (s + n + 1))
        Cursor.At maxLen (s + n + 1 + j) (l'.drop j) ⟨buf', ptr', index'⟩ := by
  have hnl : n < l.length := by
    by_contra hge
    rw [List.drop_eq_nil_of_le (Nat.le_of_not_lt hge)] at hn
    cases hn
  have hlen : (l.take n).length = n := List.length_take_of_le hnl.le
  have hl' : 0 ∉ l' := fun h => hl (List.mem_of_mem_drop (hn ▸ List.mem_cons_of_mem b h))
  have hlen' : l'.length + (n + 1) = l.length := by
    have h := congrArg List.length hn
    rw [List.length_drop, List.length_cons] at h
    omega
  obtain ⟨b', hbyte, -⟩ := byteAt_end (drop_add_of_drop hline hnl.le) (notMem_drop hl)
  have hset := drop_set hline hn
  have hword : cstring ((buf.set (s + n) 0).drop s) = .ok (l.take n) := cstring_drop hl hset
  have hzero : (buf.set (s + n) 0).drop (s + n) = 0 :: (l' ++ 0 :: r) := by
    have h := drop_add_of_drop (k := n) hset hlen.ge
    rwa [List.drop_eq_nil_of_le hlen.le] at h
  rw [strSplit, hbyte, ok_bind]
  by_cases hend : maxLen - s < s + n + 1
  · simp only [if_pos hend]
    exact ⟨_, _, _, rfl, hword, ⟨⟨_, hzero⟩, List.not_mem_nil, by simp⟩⟩
  · have hrest := drop_succ_of_drop hzero
    have hsub : subSize (maxLen - s) (s + n + 1) = maxLen - s - (s + n + 1) :=
      subSize_of_le (by omega) (by omega)
    have hj : min (gap l') (maxLen - s - (s + n + 1) - (s + n + 1)) ≤ l'.length :=
      Nat.le_trans (Nat.min_le_left _ _) (gap_le l')
    simp only [if_neg hend, hsub, strStrip_spec _ _ hrest hl', ok_bind]
    refine ⟨_, _, _, rfl, hword, ⟨⟨r, drop_add_of_drop hrest hj⟩, notMem_drop hl',
      fun _ => ⟨rfl, rfl, ?_⟩⟩⟩
    rw [List.length_drop]
    omega

/-- A round of the loop of `parse`. -/
theorem nextWord_spec {c : Cursor} (hmax : maxLen < 2 ^ 64) (h : c.At maxLen i l) (hne : l ≠ []) :
    match cutWord maxLen i l with
    | none => nextWord maxLen c = .ok none
    | some (word, i', l') =>
      ∃ c', nextWord maxLen c = .ok (some (word, c')) ∧ c'.At maxLen i' l' := by
  obtain ⟨r, hline⟩ := h.line
  have hchars := h.chars
  obtain ⟨hptr, hindex, hlt⟩ := h.place hne
  obtain ⟨buf, ptr, index⟩ := c
  simp only at hline hptr hindex
  subst hptr
  subst hindex
  obtain ⟨b₀, hbyte₀, hb₀⟩ := byteAt_end hline hchars
  have hk : min (gap l) (maxLen - index - index) ≤ l.length :=
    Nat.le_trans (Nat.min_le_left _ _) (gap_le l)
  have hstrip := strStrip_spec (maxLen - index) index hline hchars
  have hsub : subSize maxLen index = maxLen - index := subSize_of_le (by omega) hmax
  rw [cutWord]
  generalize min (gap l) (maxLen - index - index) = k at *
  have hstart := drop_add_of_drop hline hk
  have hchars' : 0 ∉ l.drop k := notMem_drop hchars
  have hlt' : index + k + (l.drop k).length < maxLen := by
    rw [List.length_drop]
    omega
  have hsub' : subSize maxLen (index + k) = maxLen - (index + k) :=
    subSize_of_le (by omega) hmax
  obtain ⟨b₁, hbyte₁, hb₁⟩ := byteAt_end hstart hchars'
  -- from here on `l₁` is what is left behind the characters that are no letters
  generalize l.drop k = l₁ at *
  generalize hs : index + k = s at *
  simp only [nextWord, if_pos (show index < maxLen by omega), hbyte₀, ok_bind,
    if_neg (mt hb₀.mp hne), hsub, hstrip, hbyte₁]
  by_cases hnil : l₁ = []
  · simp only [if_pos hnil, if_pos (hb₁.mpr hnil)]
  · have htok := strScan_spec isalpha (maxLen - s) s hstart hchars'
    simp only [if_neg hnil, if_neg (mt hb₁.mp hnil), takeWord, strTok, hsub', htok, ok_bind]
    have hn : min (l₁.takeWhile isalpha).length (maxLen - s - s) ≤ l₁.length :=
      Nat.le_trans (Nat.min_le_left _ _) (List.takeWhile_prefix _).length_le
    generalize min (l₁.takeWhile isalpha).length (maxLen - s - s) = n at *
    obtain ⟨b₂, hbyte₂, hb₂⟩ := byteAt_end (drop_add_of_drop hstart hn) (notMem_drop hchars')
    simp only [hbyte₂, ok_bind]
    cases hrest : l₁.drop n with
    | nil =>
      have hline' := drop_add_of_drop hstart hn
      rw [hrest] at hline'
      have hall : l₁.take n = l₁ := by
        rw [List.take_of_length_le (List.drop_eq_nil_iff.mp hrest)]
      have hword : cstring (buf.drop s) = .ok (l₁.take n) := by
        rw [hstart, hall, cstring_append hchars']
      simp only [if_neg (not_not.mpr (hb₂.mpr hrest)), hword, ok_bind]
      exact ⟨_, rfl, ⟨⟨r, hline'⟩, List.not_mem_nil, by simp⟩⟩
    | cons b l' =>
      have hb : b₂ ≠ 0 := mt hb₂.mp (by rw [hrest]; simp)
      obtain ⟨buf', ptr', index', hsplit, hword, hat⟩ :=
        strSplit_spec hmax hstart hchars' hlt' hrest
      simp only [if_pos hb, hsplit, ok_bind, hword]
      by_cases hend : maxLen - s < s + n + 1
      · rw [if_pos hend] at hat
        simp only [if_pos hend]
        exact ⟨_, rfl, hat⟩
      · rw [if_neg hend] at hat
        simp only [if_neg hend]
        exact ⟨_, rfl, hat⟩

theorem takeWord_fst (maxLen s : Nat) (l : List UInt8) :
    (takeWord maxLen s l).1 = l.take (min (l.takeWhile isalpha).length (maxLen - s - s)) := by
  rw [takeWord]
  split
  · rfl
  · split <;> rfl

/-- What is left gets shorter. -/
theorem length_takeWord_lt (maxLen s : Nat) (hne : l ≠ []) :
    (takeWord maxLen s l).2.2.length < l.length := by
  have hpos := List.length_pos_iff.mpr hne
  rw [takeWord]
  split
  · exact hpos
  · next b l' heq =>
    have hlen := congrArg List.length heq
    rw [List.length_drop, List.length_cons] at hlen
    split
    · exact hpos
    · rw [List.length_drop]
      omega

/-- The words that are cut off when `l` is left of the line, from offset `i` on. -/
inductive Cuts (maxLen : Nat) : Nat → List UInt8 → List (List UInt8) → Prop
  | stop {i : Nat} {l : List UInt8} (h : cutWord maxLen i l = none) : Cuts maxLen i l []
  | word {i i' : Nat} {l l' word : List UInt8} {words : List (List UInt8)}
      (h : cutWord maxLen i l = some (word, i', l')) (rest : Cuts maxLen i' l' words) :
      Cuts maxLen i l (word :: words)

theorem cutWord_nil : cutWord maxLen i [] = none := by
  rw [cutWord, List.drop_nil, if_pos rfl]

/-- The loop of `parse` ends. -/
theorem wordsOf_spec {c : Cursor} {n : Nat} (hmax : maxLen < 2 ^ 64) (h : c.At maxLen i l)
    (hn : l.length < n) : ∃ words, wordsOf maxLen n c = .ok words ∧ Cuts maxLen i l words := by
  induction n generalizing c i l with
  | zero => exact absurd hn (Nat.not_lt_zero _)
  | succ n ih =>
    rw [wordsOf]
    by_cases hne : l = []
    · subst hne
      rw [nextWord_end h, ok_bind]
      exact ⟨[], rfl, .stop cutWord_nil⟩
    · have hspec := nextWord_spec hmax h hne
      cases hcut : cutWord maxLen i l with
      | none =>
        rw [hcut] at hspec
        simp only at hspec
        rw [hspec, ok_bind]
        exact ⟨[], rfl, .stop hcut⟩
      | some next =>
        obtain ⟨word, i', l'⟩ := next
        rw [hcut] at hspec
        simp only at hspec
        obtain ⟨c', hrun, hat⟩ := hspec
        have hlt : l'.length < n := by
          rw [cutWord] at hcut
          split at hcut
          · cases hcut
          · next hdrop =>
            have hword := length_takeWord_lt maxLen (i + min (gap l) (maxLen - i - i)) hdrop
            rw [Option.some.inj hcut, List.length_drop] at hword
            exact Nat.lt_of_lt_of_le hword (Nat.le_trans (Nat.sub_le _ _) (Nat.le_of_lt_succ hn))
        obtain ⟨words, hwords, hcuts⟩ := ih hat hlt
        rw [hrun, ok_bind]
        simp only [hwords, ok_bind]
        exact ⟨word :: words, rfl, .word hcut hcuts⟩

end Cut

section Fits

variable {maxLen i : Nat} {l : List UInt8} {words : List (List UInt8)}

/-- The scans behind the last word come to the end of a line of `len` characters, when the word
starts at `x.1` and ends at `x.2`. -/
def TailFits (maxLen len : Nat) (x : Nat × Nat) : Prop :=
  len ≤ x.2 + 1 ∨ maxLen ≤ x.1 + x.2 ∨ x.1 + x.2 + 1 + len ≤ maxLen ∨
    (x.2 + 1 + len ≤ maxLen ∧ len ≤ x.1 + x.2 + 1)

/-- The limits that the loop of `parse` hands to its scans cut nothing off the words at `xs`, in
a line of `len` characters. -/
structure WordsFit (maxLen len : Nat) (xs : List (Nat × Nat)) : Prop where
  words : ∀ x ∈ xs, x.1 + x.2 ≤ maxLen
  tail : ∀ x ∈ xs.getLast?, TailFits maxLen len x

/-- They cut nothing off what is left of the line, from offset `i` on. -/
structure Fits (maxLen i : Nat) (l : List UInt8) : Prop where
  gap : spans isalpha i l = [] → l = [] ∨ i + (i + l.length) ≤ maxLen
  words : WordsFit maxLen (i + l.length) (spans isalpha i l)

theorem takeWhile_gap (l : List UInt8) :
    (∀ a ∈ l.take (gap l), isalpha a = false) ∧ l.take (gap l) ++ l.drop (gap l) = l := by
  have h : l.takeWhile (fun b => !isalpha b) = l.take (gap l) :=
    List.prefix_iff_eq_take.mp (List.takeWhile_prefix _)
  exact ⟨h ▸ gap_all isalpha l, List.take_append_drop _ _⟩

/-- A scan that stops before the first word cuts off an empty one. -/
theorem cuts_gap (h : Cuts maxLen i l words) (hgap : maxLen - i - i < gap l) :
    words ≠ runs isalpha l ∧ ¬ Fits maxLen i l := by
  have hk : min (gap l) (maxLen - i - i) = maxLen - i - i := Nat.min_eq_right hgap.le
  have hlen := gap_le l
  obtain ⟨b, l', hdrop, hb⟩ : ∃ b l', l.drop (maxLen - i - i) = b :: l' ∧ isalpha b = false := by
    have hlt : maxLen - i - i < l.length := Nat.lt_of_lt_of_le hgap hlen
    refine ⟨l[maxLen - i - i], _, List.drop_eq_getElem_cons hlt, (takeWhile_gap l).1 _ ?_⟩
    exact List.mem_take_iff_getElem.mpr ⟨maxLen - i - i, by omega, rfl⟩
  constructor
  · intro he
    cases h with
    | stop hcut =>
      rw [cutWord, hk, hdrop, if_neg (List.cons_ne_nil _ _)] at hcut
      cases hcut
    | word hcut hrest =>
      rw [cutWord, hk, hdrop, if_neg (List.cons_ne_nil _ _)] at hcut
      have hword := takeWord_fst maxLen (i + (maxLen - i - i)) (b :: l')
      rw [Option.some.inj hcut, List.takeWhile_cons_of_neg (by rw [hb]; exact Bool.false_ne_true),
        List.length_nil, Nat.zero_min, List.take_zero] at hword
      simp only at hword
      subst hword
      exact nil_notMem_runs (he ▸ List.mem_cons_self)
  · intro hfits
    cases hspans : spans isalpha i l with
    | nil =>
      rcases hfits.gap hspans with rfl | hle
      · exact Nat.not_lt_zero _ hgap
      · omega
    | cons x xs =>
      have hx : x ∈ spans isalpha i l := hspans ▸ List.mem_cons_self
      have hle := hfits.words.words x hx
      obtain ⟨hall, hsplit⟩ := takeWhile_gap l
      rw [← hsplit, spans_gap hall, List.length_take_of_le hlen] at hx
      have hbounds := spans_bounds hx
      omega

theorem Cuts.nil_iff (h : Cuts maxLen i [] words) : words = [] := by
  cases h with
  | stop hcut => rfl
  | word hcut hrest =>
    rw [cutWord_nil] at hcut
    cases hcut

theorem getLast?_cons_mem {α : Type} {x : α} {xs : List α} {P : α → Prop} :
    (∀ y ∈ (x :: xs).getLast?, P y) ↔ (xs = [] → P x) ∧ ∀ y ∈ xs.getLast?, P y := by
  cases xs with
  | nil => simp
  | cons y ys => simp [List.getLast?_cons_cons]

theorem WordsFit.nil {len : Nat} : WordsFit maxLen len [] := ⟨by simp, by simp⟩

theorem wordsFit_cons {len : Nat} {x : Nat × Nat} {xs : List (Nat × Nat)} :
    WordsFit maxLen len (x :: xs) ↔
      x.1 + x.2 ≤ maxLen ∧ (xs = [] → TailFits maxLen len x) ∧ WordsFit maxLen len xs := by
  constructor
  · intro h
    obtain ⟨hlast, htail⟩ := getLast?_cons_mem.mp h.tail
    exact ⟨h.words x List.mem_cons_self, hlast, fun y hy => h.words y (List.mem_cons_of_mem _ hy),
      htail⟩
  · rintro ⟨hx, hlast, hxs⟩
    refine ⟨fun y hy => ?_, getLast?_cons_mem.mpr ⟨hlast, hxs.tail⟩⟩
    rcases List.mem_cons.mp hy with rfl | hy
    · exact hx
    · exact hxs.words y hy

section FirstWord

variable {s i' j : Nat} {w l₂ l₃ word l' : List UInt8} {x : UInt8}

/-- A first word that is cut short is not a run of letters. -/
theorem shortWord_iff (hw : w ≠ []) (hwall : ∀ a ∈ w, isalpha a)
    (hl₂ : l₂ = [] ∨ ∃ x l₃, l₂ = x :: l₃ ∧ isalpha x = false)
    (hshort : maxLen < s + (s + w.length))
    (hword : word = w.take (min w.length (maxLen - s - s))) :
    word :: words = runs isalpha (w ++ l₂) ↔
      WordsFit maxLen (s + (w ++ l₂).length) (spans isalpha s (w ++ l₂)) := by
  have hpos := List.length_pos_iff.mpr hw
  constructor
  · intro he
    have hhead : word = w := by
      rcases hl₂ with rfl | ⟨x, l₃, rfl, hx⟩
      · rw [List.append_nil, runs_of_all hwall hw] at he
        exact (List.cons.inj he).1
      · rw [runs_append_cons hx, runs_of_all hwall hw] at he
        exact (List.cons.inj he).1
    have hlen := congrArg List.length (hhead.symm.trans hword)
    rw [List.length_take] at hlen
    omega
  · intro hfit
    have hmem : (s, s + w.length) ∈ spans isalpha s (w ++ l₂) := by
      rcases hl₂ with rfl | ⟨x, l₃, rfl, hx⟩
      · rw [List.append_nil, spans_of_all hwall hw]
        exact List.mem_cons_self
      · rw [spans_append_cons hwall hw hx]
        exact List.mem_cons_self
    exact absurd (hfit.words _ hmem) (Nat.not_le.mpr hshort)

/-- The loop ends behind the first word: the line has no other letters, or they do not fit. -/
theorem onlyWord_iff (hw : w ≠ []) (hwall : ∀ a ∈ w, isalpha a) (hx : isalpha x = false)
    (hfull : s + (s + w.length) ≤ maxLen) (hend : maxLen - s < s + w.length + 1) :
    [w] = runs isalpha (w ++ x :: l₃) ↔
      WordsFit maxLen (s + (w ++ x :: l₃).length) (spans isalpha s (w ++ x :: l₃)) := by
  rw [runs_append_cons hx, runs_of_all hwall hw, List.singleton_append,
    spans_append_cons hwall hw hx, wordsFit_cons, List.length_append, List.length_cons]
  constructor
  · intro he
    have hnil := spans_eq_nil (i := s + w.length + 1).mpr
      (runs_eq_nil.mp (List.cons.inj he).2.symm)
    rw [hnil]
    exact ⟨hfull, fun _ => .inr (.inl (by simp only; omega)), .nil⟩
  · rintro ⟨-, -, hfit⟩
    cases hspans : spans isalpha (s + w.length + 1) l₃ with
    | nil => rw [runs_eq_nil.mpr (spans_eq_nil.mp hspans)]
    | cons y ys =>
      have hy : y ∈ spans isalpha (s + w.length + 1) l₃ := hspans ▸ List.mem_cons_self
      have hbounds := spans_bounds hy
      have hle := hfit.words y hy
      omega

/-- The words of a line are those behind a part of its first gap. -/
theorem runs_drop_gap (hj : j ≤ gap l₃) : runs isalpha l₃ = runs isalpha (l₃.drop j) ∧
    spans isalpha i l₃ = spans isalpha (i + j) (l₃.drop j) := by
  have hgap := gap_le l₃
  have htake : ∀ a ∈ l₃.take j, isalpha a = false := by
    intro a ha
    refine (takeWhile_gap l₃).1 a ?_
    rw [← Nat.min_eq_left hj, ← List.take_take] at ha
    exact List.mem_of_mem_take ha
  have hlen : (l₃.take j).length = j := List.length_take_of_le (by omega)
  constructor
  · conv_lhs => rw [← List.take_append_drop j l₃, runs_gap htake]
  · conv_lhs => rw [← List.take_append_drop j l₃, spans_gap htake, hlen]

/-- The loop goes on with the line behind the first word and `j` bytes of the gap. -/
theorem nextWords_iff (hw : w ≠ []) (hwall : ∀ a ∈ w, isalpha a) (hx : isalpha x = false)
    (hfull : s + (s + w.length) ≤ maxLen) (hlt : s + (w ++ x :: l₃).length < maxLen)
    (hend : ¬ maxLen - s < s + w.length + 1)
    (hj : j = min (gap l₃) (maxLen - s - (s + w.length + 1) - (s + w.length + 1)))
    (hih : words = runs isalpha (l₃.drop j) ↔ Fits maxLen (s + w.length + 1 + j) (l₃.drop j)) :
    w :: words = runs isalpha (w ++ x :: l₃) ↔
      WordsFit maxLen (s + (w ++ x :: l₃).length) (spans isalpha s (w ++ x :: l₃)) := by
  rw [runs_append_cons hx, runs_of_all hwall hw, List.singleton_append,
    spans_append_cons hwall hw hx, wordsFit_cons]
  rw [List.length_append, List.length_cons] at hlt ⊢
  have hgap := gap_le l₃
  obtain ⟨hruns, hspans⟩ := runs_drop_gap (i := s + w.length + 1) (show j ≤ gap l₃ by omega)
  have hlen : s + w.length + 1 + j + (l₃.drop j).length = s + (w.length + (l₃.length + 1)) := by
    rw [List.length_drop]
    omega
  -- without another word, the loop has to see the end of the gap
  have htail : spans isalpha (s + w.length + 1 + j) (l₃.drop j) = [] →
      ((l₃.drop j = [] ∨ s + w.length + 1 + j +
        (s + w.length + 1 + j + (l₃.drop j).length) ≤ maxLen) ↔
        TailFits maxLen (s + (w.length + (l₃.length + 1))) (s, s + w.length)) := by
    intro hnil
    rw [← hspans, spans_eq_nil] at hnil
    have hall : gap l₃ = l₃.length := by
      rw [gap, List.takeWhile_eq_self_iff.mpr fun a ha => by rw [hnil a ha]; rfl]
    rw [List.drop_eq_nil_iff, TailFits, hlen]
    simp only
    omega
  rw [hruns, List.cons.injEq, hih, hspans]
  constructor
  · rintro ⟨-, hgap, hwords⟩
    exact ⟨hfull, fun hnil => (htail hnil).mp (hgap hnil), hlen ▸ hwords⟩
  · rintro ⟨-, hgap, hwords⟩
    exact ⟨rfl, fun hnil => (htail hnil).mpr (hgap hnil), hlen.symm ▸ hwords⟩

/-- The first word, at offset `s`, and what follows from it for the others. -/
theorem takeWord_iff (hw : w ≠ []) (hwall : ∀ a ∈ w, isalpha a)
    (hwtake : w = (w ++ l₂).takeWhile isalpha)
    (hl₂ : l₂ = [] ∨ ∃ x l₃, l₂ = x :: l₃ ∧ isalpha x = false)
    (hlt : s + (w ++ l₂).length < maxLen) (hcut : takeWord maxLen s (w ++ l₂) = (word, i', l'))
    (hrest : Cuts maxLen i' l' words)
    (ih : (l' ≠ [] → i' + l'.length < maxLen) → (words = runs isalpha l' ↔ Fits maxLen i' l')) :
    word :: words = runs isalpha (w ++ l₂) ↔
      WordsFit maxLen (s + (w ++ l₂).length) (spans isalpha s (w ++ l₂)) := by
  have hpos := List.length_pos_iff.mpr hw
  have hfst := takeWord_fst maxLen s (w ++ l₂)
  rw [hcut, ← hwtake] at hfst
  simp only at hfst
  by_cases hfull : s + (s + w.length) ≤ maxLen
  swap
  · refine shortWord_iff hw hwall hl₂ (Nat.not_le.mp hfull) ?_
    rw [hfst, List.take_append_of_le_length (Nat.min_le_left _ _)]
  have hn : min w.length (maxLen - s - s) = w.length := Nat.min_eq_left (by omega)
  obtain rfl : w = word := by rw [hfst, hn, List.take_left]
  rw [takeWord, ← hwtake, hn] at hcut
  simp only [List.drop_left, List.take_left] at hcut
  rcases hl₂ with rfl | ⟨x, l₃, rfl, hx⟩
  · -- the word ends the line
    obtain ⟨-, -, rfl⟩ := hcut
    rw [List.append_nil, runs_of_all hwall hw, spans_of_all hwall hw, hrest.nil_iff,
      wordsFit_cons]
    exact ⟨fun _ => ⟨hfull, fun _ => .inl (Nat.le_succ _), .nil⟩, fun _ => rfl⟩
  · by_cases hend : maxLen - s < s + w.length + 1
    · -- the split ends the loop
      simp only [if_pos hend, Prod.mk.injEq] at hcut
      obtain ⟨-, -, rfl⟩ := hcut
      rw [hrest.nil_iff]
      exact onlyWord_iff hw hwall hx hfull hend
    · simp only [if_neg hend, Prod.mk.injEq] at hcut
      obtain ⟨-, rfl, rfl⟩ := hcut
      have hlen := hlt
      rw [List.length_append, List.length_cons] at hlen
      have hgap := gap_le l₃
      refine nextWords_iff hw hwall hx hfull hlt hend rfl (ih fun _ => ?_)
      rw [List.length_drop]
      omega

end FirstWord

/-- The words that are cut off are the runs of letters exactly if the line fits. -/
theorem cuts_iff (h : Cuts maxLen i l words) (hlt : l ≠ [] → i + l.length < maxLen) :
    words = runs isalpha l ↔ Fits maxLen i l := by
  -- on the rounds of the loop
  induction h with
  | @stop i l hcut =>
    rw [cutWord] at hcut
    split at hcut
    · next hnil =>
      have hlen := List.drop_eq_nil_iff.mp hnil
      have hgap : gap l = l.length := by
        have := gap_le l
        omega
      obtain ⟨hall, -⟩ := takeWhile_gap l
      rw [hgap, List.take_length] at hall
      have hspans := spans_eq_nil (i := i).mpr hall
      rw [runs_eq_nil.mpr hall]
      refine ⟨fun _ => ⟨fun _ => ?_, hspans ▸ .nil⟩, fun _ => rfl⟩
      by_cases hne : l = []
      · exact .inl hne
      · have hpos := List.length_pos_iff.mpr hne
        exact .inr (by omega)
    · cases hcut
  | @word i i' l l' word words hcut hrest ih =>
    by_cases hgap : maxLen - i - i < gap l
    · obtain ⟨hne, hnot⟩ := cuts_gap (.word hcut hrest) hgap
      exact ⟨fun h => absurd h hne, fun h => absurd h hnot⟩
    · have hk : min (gap l) (maxLen - i - i) = gap l := Nat.min_eq_left (Nat.le_of_not_lt hgap)
      rw [cutWord, hk] at hcut
      obtain ⟨hall, hsplit⟩ := takeWhile_gap l
      have hlen := gap_le l
      have hlen₁ : i + gap l + (l.drop (gap l)).length = i + l.length := by
        rw [List.length_drop]
        omega
      have hruns : runs isalpha l = runs isalpha (l.drop (gap l)) := by
        conv_lhs => rw [← hsplit, runs_gap hall]
      have hspans : spans isalpha i l = spans isalpha (i + gap l) (l.drop (gap l)) := by
        conv_lhs => rw [← hsplit, spans_gap hall, List.length_take_of_le hlen]
      split at hcut
      · cases hcut
      · next hnil =>
        have hlne : l ≠ [] := by
          rintro rfl
          exact hnil (List.drop_nil)
        have hlt := hlt hlne
        rcases first_run isalpha l with hfirst | ⟨w, l₂, hdrop, hw, hwall, hwtake, hl₂⟩
        · exfalso
          refine hnil (List.drop_eq_nil_of_le ?_)
          rw [gap, hfirst]
        · rw [← gap] at hdrop
          rw [hdrop] at hcut hruns hspans hlen₁
          have hiff := takeWord_iff hw hwall hwtake hl₂ (by omega) (Option.some.inj hcut) hrest ih
          rw [hlen₁, ← hruns, ← hspans] at hiff
          rw [hiff]
          have hne : spans isalpha i l ≠ [] := by
            rw [hspans, Ne, spans_eq_nil]
            intro hnone
            obtain ⟨a, ha⟩ := List.exists_mem_of_ne_nil w hw
            have hfalse := hnone a (List.mem_append_left _ ha)
            rw [hwall a ha] at hfalse
            cases hfalse
          exact ⟨fun h => ⟨fun h' => absurd h' hne, h⟩, Fits.words⟩

theorem cursor_at (rest : List UInt8) {line : List UInt8} (h : 0 ∉ line)
    (hlen : line.length < maxLen) :
    Cursor.At maxLen 0 line ⟨line ++ 0 :: rest, 0, 0⟩ where
  line := ⟨rest, rfl⟩
  chars := h
  place := fun _ => ⟨rfl, rfl, by rw [Nat.zero_add]; exact hlen⟩

/-- The words of a line, where the cursors start. -/
theorem wordsOf_line (line rest : List UInt8) (h : 0 ∉ line) (hlen : line.length < DYN_SIZE) :
    ∃ words, wordsOf DYN_SIZE (DYN_SIZE + 2) ⟨line ++ 0 :: rest, 0, 0⟩ = .ok words ∧
      (words = runs isalpha line ↔ WordsFit DYN_SIZE line.length (spans isalpha 0 line)) := by
  obtain ⟨words, hrun, hcuts⟩ := wordsOf_spec (n := DYN_SIZE + 2) (by decide)
    (cursor_at rest h hlen) (Nat.lt_of_lt_of_le hlen (Nat.le_add_right _ 2))
  have hiff := cuts_iff hcuts fun _ => by rw [Nat.zero_add]; exact hlen
  refine ⟨words, hrun, hiff.trans ⟨fun hfit => ?_, fun hfit => ⟨fun _ => ?_, ?_⟩⟩⟩
  · have hwords := hfit.words
    rwa [Nat.zero_add] at hwords
  · rw [Nat.zero_add, Nat.zero_add]
    exact .inr hlen.le
  · rw [Nat.zero_add]
    exact hfit

/-- `parse` handles the words that it cuts off a line, and these are the maximal runs of letters
exactly if the limits of the scans cut nothing off. -/
theorem parse_line (line rest : List UInt8) (h : 0 ∉ line) (hlen : line.length < DYN_SIZE) :
    ∃ words, (∀ env ix docId lineNum,
        (parse env ix (line ++ 0 :: rest) DYN_SIZE docId lineNum).map (fun r => (r.1, r.2.1)) =
          handleWords env docId lineNum ix words) ∧
      wordsOf DYN_SIZE (DYN_SIZE + 2) ⟨line ++ 0 :: rest, 0, 0⟩ = .ok words ∧
      (words = runs isalpha line ↔ WordsFit DYN_SIZE line.length (spans isalpha 0 line)) := by
  obtain ⟨words, hrun, hiff⟩ := wordsOf_line line rest h hlen
  exact ⟨words, fun env ix docId lineNum => parse_words env ix docId lineNum hrun, hrun, hiff⟩

theorem parse_line_short : ∃ words, (∀ env ix docId lineNum,
      (parse env ix [97, 32, 98, 10, 0] DYN_SIZE docId lineNum).map (fun r => (r.1, r.2.1)) =
        handleWords env docId lineNum ix words) ∧
    wordsOf DYN_SIZE (DYN_SIZE + 2) ⟨[97, 32, 98, 10, 0], 0, 0⟩ = .ok words ∧
    (words = [[97], [98]] ↔ WordsFit DYN_SIZE 4 [(0, 1), (2, 3)]) :=
  parse_line [97, 32, 98, 10] [] (by decide) (by decide)

/-- A word that starts in the second half of the buffer is not cut off. -/
theorem parse_farWord :
    wordsOf DYN_SIZE (DYN_SIZE + 2) ⟨List.replicate 5120 32 ++ [97] ++ [0], 0, 0⟩ ≠
      .ok (runs isalpha (List.replicate 5120 32 ++ [97])) := by
  have hgap : ∀ a ∈ List.replicate 5120 (32 : UInt8), isalpha a = false := by
    intro a ha
    rw [List.eq_of_mem_replicate ha]
    rfl
  have hnul : 0 ∉ List.replicate 5120 (32 : UInt8) ++ [97] :=
    nul_notMem_append (fun h => absurd (List.mem_replicate.mp h).2 (by decide)) (by decide)
  have hlen : (List.replicate 5120 (32 : UInt8) ++ [97]).length < DYN_SIZE := by
    rw [List.length_append, List.length_replicate]
    decide
  obtain ⟨words, hrun, hiff⟩ := wordsOf_line _ [] hnul hlen
  have hspans : spans isalpha 0 (List.replicate 5120 (32 : UInt8) ++ [97]) = [(5120, 5121)] := by
    rw [spans_gap hgap, List.length_replicate, spans_of_all (List.all_eq_true.mp rfl) (by decide)]
    rfl
  intro he
  have hfit := hiff.mp (Except.ok.inj (hrun.symm.trans he))
  rw [hspans] at hfit
  exact absurd (hfit.words _ List.mem_cons_self) (by decide)

end Fits

end SearchEngine.Server
