import SearchEngine.Server.Verify.Strings
import SearchEngine.Server.Index

/-!
# Concatenation in a bounded buffer

`strConcat_bytes` says that `strConcat` is what the two loops of `helper.c` do byte by byte. The
counter that should end the first loop is not incremented, and the answer of `StrCopy` is not
used: `strConcat_iff` says for which buffers `StrConcat` still keeps to its limit. `tokenizer`
does not look at the answers; a path without room makes it read behind its buffer
(`tokenizerWith_noRoom`).
-/

namespace SearchEngine.Server

open Memory Outcome

/-! ## Byte by byte -/

/-- The loop of `StrCopy`: it copies from the bytes `src` to the offset `ptr` of a block, and
answers `cpy_size`. -/
def copyBytes {cap : Nat} (maxCpySize : Nat) :
    Block UInt8 cap → Nat → List UInt8 → Nat → Except Fault (Nat × Block UInt8 cap)
  | dest, _, [], cpySize =>
    if cpySize < maxCpySize then .error .outOfBounds else .ok (cpySize, dest)
  | dest, ptr, b :: src, cpySize =>
    if cpySize < maxCpySize then
      match dest.write ptr [b] with
      | none => .error .outOfBounds
      | some dest =>
        if b ≠ 0 then copyBytes maxCpySize dest (ptr + 1) src (cpySize + 1)
        else .ok (cpySize, dest)
    else .ok (cpySize, dest)

/-- The loop of `StrConcat`, from the offset `ptr` of `dest` on; `currLen` stays as it is. -/
def findEnd (maxLen currLen : Nat) : List UInt8 → Nat → Except Fault Nat
  | [], ptr => if currLen < maxLen then .error .outOfBounds else .ok ptr
  | b :: dest, ptr =>
    if currLen < maxLen ∧ b ≠ 0 then findEnd maxLen currLen dest (ptr + 1) else .ok ptr

/-- `StrConcat`, with its loops. -/
def concatBytes {cap : Nat} (dest : Block UInt8 cap) (src : List UInt8) (maxLen : Nat) :
    Except Fault (Bool × Block UInt8 cap) := do
  let currLen := 0
  let ptrDest ← findEnd maxLen currLen dest.data 0
  if maxLen ≤ currLen then .ok (false, dest)
  else do
    let (_, dest) ← copyBytes (subSize maxLen ptrDest) dest ptrDest src 0
    .ok (true, dest)

section Bytes

variable {cap n : Nat} {dest : Block UInt8 cap} {src : List UInt8}

/-- The loop stores the bytes of the string and its NUL, as far as the limit allows. -/
theorem copyBytes_eq {ptr cpySize : Nat} (hsrc : 0 ∉ src) (hptr : ptr ≤ cap) (hle : cpySize ≤ n) :
    copyBytes n dest ptr (src ++ [0]) cpySize =
      match dest.write ptr ((src ++ [0]).take (n - cpySize)) with
      | some dest => .ok (min (cpySize + src.length) n, dest)
      | none => .error .outOfBounds := by
  induction src generalizing dest ptr cpySize with
  | nil =>
    rw [List.nil_append, copyBytes]
    by_cases hlt : cpySize < n
    · have htake : [(0 : UInt8)].take (n - cpySize) = [0] :=
        List.take_of_length_le (by simp only [List.length_singleton]; omega)
      rw [if_pos hlt, htake]
      cases dest.write ptr [0] with
      | none => rfl
      | some dest' =>
        simp only [ne_eq, not_true_eq_false, if_false, List.length_nil, Nat.add_zero]
        rw [Nat.min_eq_left hle]
    · rw [if_neg hlt, Nat.sub_eq_zero_of_le (Nat.not_lt.mp hlt), List.take_zero,
        Block.write_nil hptr]
      simp only [List.length_nil, Nat.add_zero]
      rw [Nat.min_eq_left hle]
  | cons b src ih =>
    have hb : b ≠ 0 := fun e => hsrc (e ▸ List.mem_cons_self)
    rw [List.cons_append, copyBytes]
    by_cases hlt : cpySize < n
    · obtain ⟨k, hk⟩ : ∃ k, n - cpySize = k + 1 := ⟨n - cpySize - 1, by omega⟩
      have hk' : n - (cpySize + 1) = k := by omega
      have hrun := Block.write_append dest ptr [b] ((src ++ [0]).take k)
      rw [List.singleton_append, List.length_singleton] at hrun
      rw [if_pos hlt, hk, List.take_succ_cons, ← hrun]
      cases hwrite : dest.write ptr [b] with
      | none => rfl
      | some dest' =>
        have hroom : ptr + 1 ≤ cap := by
          by_contra hno
          have hnone : dest.write ptr [b] = none := Block.write_eq_none.mpr (.inr (by
            rw [Int.toNat_natCast, List.length_singleton]
            omega))
          rw [hnone] at hwrite
          cases hwrite
        simp only [if_pos hb, Option.bind_some]
        have hsum : cpySize + 1 + src.length = cpySize + (src.length + 1) := by omega
        rw [ih (fun h => hsrc (List.mem_cons_of_mem b h)) hroom
          (show cpySize + 1 ≤ n from hlt), hk',
          List.length_cons, hsum]
    · rw [if_neg hlt, Nat.sub_eq_zero_of_le (Nat.not_lt.mp hlt), List.take_zero,
        Block.write_nil hptr]
      simp only
      rw [Nat.min_eq_right (by omega), Nat.le_antisymm hle (Nat.not_lt.mp hlt)]

/-- `StrCopy` is its loop. -/
theorem strCopy_bytes {off : Nat} (hsrc : 0 ∉ src) (hoff : off ≤ cap) :
    strCopy dest off src n =
      (copyBytes n dest off (src ++ [0]) 0).map fun r => (decide (r.1 < n), r.2) := by
  rw [copyBytes_eq hsrc hoff (Nat.zero_le n), strCopy, Nat.sub_zero, Nat.zero_add]
  cases dest.write off ((src ++ [0]).take n) with
  | none => rfl
  | some dest' =>
    have hmin : min src.length n < n ↔ src.length < n := by omega
    simp only [Except.map, hmin]

/-- The loop runs to the first NUL, wherever it is. -/
theorem findEnd_eq (bytes : List UInt8) (ptr : Nat) (hn : 0 < n) :
    findEnd n 0 bytes ptr = (cstring bytes).map fun str => ptr + str.length := by
  induction bytes generalizing ptr with
  | nil =>
    rw [findEnd, if_pos hn]
    rfl
  | cons b bytes ih =>
    rw [findEnd]
    by_cases hb : b = 0
    · subst hb
      have hnil : cstring (0 :: bytes) = .ok [] := cstring_append (a := []) List.not_mem_nil bytes
      rw [if_neg (fun h => h.2 rfl), hnil]
      rfl
    · rw [if_pos ⟨hn, hb⟩, ih, cstring, cstring]
      have hmem : 0 ∈ b :: bytes ↔ 0 ∈ bytes := by
        rw [List.mem_cons]
        exact or_iff_right (Ne.symm hb)
      by_cases h0 : 0 ∈ bytes
      · rw [if_pos h0, if_pos (hmem.mpr h0), List.takeWhile_cons_of_pos (by simpa using hb)]
        simp only [Except.map, List.length_cons]
        rw [Nat.add_assoc, Nat.add_comm 1]
      · rw [if_neg h0, if_neg fun h => h0 (hmem.mp h)]
        rfl

/-- `StrConcat` is its loops. -/
theorem strConcat_bytes (hsrc : 0 ∉ src) :
    strConcat dest src n = concatBytes dest (src ++ [0]) n := by
  rw [strConcat, concatBytes]
  by_cases hn : n = 0
  · subst hn
    have hend : findEnd 0 0 dest.data 0 = .ok 0 := by
      cases dest.data <;> rfl
    simp only [hend, ok_bind, if_true, Nat.le_refl]
  · have hpos : 0 < n := Nat.pos_of_ne_zero hn
    rw [if_neg hn, findEnd_eq dest.data 0 hpos]
    cases hstr : cstring dest.data with
    | error e => rfl
    | ok str =>
      have hle : str.length ≤ cap := by
        have hlen := (List.takeWhile_prefix (fun b : UInt8 => decide (b ≠ 0))
          (l := dest.data)).length_le
        rw [cstring] at hstr
        split_ifs at hstr
        rw [← Except.ok.inj hstr]
        exact hlen.trans dest.length_eq.le
      simp only [ok_bind, Except.map, Nat.zero_add, if_neg (Nat.not_le.mpr hpos)]
      rw [strCopy_bytes hsrc hle]
      cases copyBytes (subSize n str.length) dest str.length (src ++ [0]) 0 <;> rfl

end Bytes

/-! ## A buffer of `max_len` bytes -/

/-- `dest` is terminated, and has room for `src` behind its string. -/
def RoomFor {maxLen : Nat} (dest : Block UInt8 maxLen) (src : List UInt8) : Prop :=
  0 ∈ dest.data ∧ (dest.data.takeWhile (· ≠ 0)).length + src.length < maxLen

/-- `StrConcat` on a buffer of `max_len` bytes accesses none behind them; it answers the buffer,
with the concatenation, if there is room for it, and `NULL` if not. -/
def ConcatBounded {maxLen : Nat} (dest : Block UInt8 maxLen) (src : List UInt8) : Prop :=
  ∃ ret dest', strConcat dest src maxLen = .ok (ret, dest') ∧ (ret = true ↔ RoomFor dest src) ∧
    (RoomFor dest src → cstring dest'.data = .ok (dest.data.takeWhile (· ≠ 0) ++ src))

section Buffer

variable {cap n : Nat} {dest : Block UInt8 cap} {a r src rest : List UInt8}

theorem roomFor_iff (src : List UInt8) (hdest : dest.data = a ++ 0 :: r) (ha : 0 ∉ a) :
    RoomFor dest src ↔ a.length + src.length < cap := by
  rw [RoomFor, hdest, takeWhile_ne_zero, takeWhile_self ha]
  exact and_iff_right (List.mem_append_right a List.mem_cons_self)

/-- `StrCopy` of a string that is too long fills the block, and stores no NUL. -/
theorem strCopy_over (dest : Block UInt8 cap) (hdest : dest.data = a ++ rest)
    (hcap : a.length + n = cap)
    (hsrc : n ≤ src.length) :
    ∃ dest', strCopy dest a.length src n = .ok (false, dest') ∧ dest'.data = a ++ src.take n := by
  have htake : (src ++ [0]).take n = src.take n := List.take_append_of_le_length hsrc
  have hlen : (src.take n).length = n := List.length_take_of_le hsrc
  obtain ⟨dest', hwrite, hdata⟩ := Block.write_natCast dest a.length (src.take n)
    (by rw [hlen]; exact hcap.le)
  refine ⟨dest', ?_, ?_⟩
  · simp only [strCopy, htake, hwrite, Nat.not_lt.mpr hsrc, decide_false]
  · have hdrop : dest.data.drop (a.length + (src.take n).length) = [] := by
      apply List.drop_eq_nil_of_le
      rw [hlen, hcap, dest.length_eq]
    rw [hdata, hdrop, List.append_nil, hdest, List.take_left]

/-- Without room, `StrConcat` answers the buffer all the same; the NUL in it is overwritten. -/
theorem strConcat_over (src : List UInt8) (hdest : dest.data = a ++ 0 :: r) (ha : 0 ∉ a)
    (hcap : cap < 2 ^ 64) (hover : cap ≤ a.length + src.length) :
    ∃ dest', strConcat dest src cap = .ok (true, dest') ∧
      dest'.data = a ++ src.take (cap - a.length) := by
  have hlt : a.length < cap := by
    have hlen := dest.length_eq
    rw [hdest, List.length_append, List.length_cons] at hlen
    omega
  have hsub : subSize cap a.length = cap - a.length := by
    rw [subSize, CInt.size]
    omega
  obtain ⟨dest', hcopy, hdata⟩ := strCopy_over (n := cap - a.length) dest hdest
    (Nat.add_sub_of_le hlt.le) (Nat.sub_le_iff_le_add'.mpr hover)
  refine ⟨dest', ?_, hdata⟩
  have hstr : cstring dest.data = .ok a := by rw [hdest, cstring_append ha]
  rw [strConcat, if_neg (Nat.ne_of_gt (Nat.zero_lt_of_lt hlt)), hstr, ok_bind, hsub, hcopy, ok_bind]

/-- Without a NUL in the buffer, `StrConcat` reads behind it. -/
theorem strConcat_unterminated (src : List UInt8) (hdest : 0 ∉ dest.data) (hn : 0 < n) :
    strConcat dest src n = .error .outOfBounds := by
  rw [strConcat, if_neg (Nat.ne_of_gt hn), cstring, if_neg hdest]
  rfl

/-- `StrConcat` keeps to its limit exactly if that is 0 or the buffer has room for the string. -/
theorem strConcat_iff {maxLen : Nat} (dest : Block UInt8 maxLen) (src : List UInt8)
    (hmax : maxLen < 2 ^ 64) (hsrc : 0 ∉ src) :
    ConcatBounded dest src ↔ maxLen = 0 ∨ RoomFor dest src := by
  by_cases h0 : maxLen = 0
  · have hno : ¬ RoomFor dest src := by
      rintro ⟨-, hlt⟩
      omega
    refine ⟨fun _ => .inl h0, fun _ => ⟨false, dest, ?_, ?_, fun h => absurd h hno⟩⟩
    · rw [strConcat, if_pos h0]
    · simp only [hno, Bool.false_eq_true]
  by_cases hterm : 0 ∈ dest.data
  · obtain ⟨a, r, hdest, ha⟩ := List.eq_append_cons_of_mem hterm
    have hroom := roomFor_iff src hdest ha
    rw [or_iff_right h0]
    by_cases hlen : a.length + src.length < maxLen
    · refine ⟨fun _ => hroom.mpr hlen, fun h => ?_⟩
      obtain ⟨dest', rest, hrun, hdata⟩ := strConcat_end src maxLen hdest ha hlen hmax hlen
      refine ⟨true, dest', hrun, ⟨fun _ => h, fun _ => rfl⟩, fun _ => ?_⟩
      rw [hdata, cstring_append (nul_notMem_append ha hsrc), hdest, takeWhile_ne_zero,
        takeWhile_self ha]
    · -- `StrConcat` answers the buffer, which has no room
      refine ⟨?_, fun h => absurd (hroom.mp h) hlen⟩
      rintro ⟨ret, dest', hrun, hret, -⟩
      obtain ⟨dest₁, hover, -⟩ := strConcat_over src hdest ha hmax (Nat.not_lt.mp hlen)
      rw [hover] at hrun
      obtain ⟨rfl, -⟩ := Prod.mk.inj (Except.ok.inj hrun)
      exact hret.mp rfl
  · constructor
    · rintro ⟨ret, dest', hrun, -⟩
      rw [strConcat_unterminated src hterm (Nat.pos_of_ne_zero h0)] at hrun
      cases hrun
    · rintro (h | h)
      · exact absurd h h0
      · exact absurd h.1 hterm

/-- The string "ab" behind "c", in a buffer of 4 bytes. -/
theorem strConcat_iff_word :
    ConcatBounded (⟨[99, 0, 7, 7], rfl⟩ : Block UInt8 4) [97, 98] :=
  (strConcat_iff (⟨[99, 0, 7, 7], rfl⟩ : Block UInt8 4) [97, 98] (by decide) (by decide)).mpr
    (.inr ⟨by decide, by decide⟩)

/-- In a buffer of 2 bytes: "b" behind "a" overwrites the NUL and is answered as a success; behind
the two letters of "ab", which has no NUL there, nothing ends the loop. -/
theorem strConcat_unbounded :
    ¬ ConcatBounded (⟨[97, 0], rfl⟩ : Block UInt8 2) [98] ∧
      ¬ ConcatBounded (⟨[97, 98], rfl⟩ : Block UInt8 2) [] := by
  constructor
  · rintro ⟨ret, dest', hrun, hret, -⟩
    have hover : strConcat (⟨[97, 0], rfl⟩ : Block UInt8 2) [98] 2 =
      .ok (true, ⟨[97, 98], rfl⟩) := rfl
    rw [hover] at hrun
    obtain ⟨rfl, -⟩ := Prod.mk.inj (Except.ok.inj hrun)
    exact absurd (hret.mp rfl).2 (by decide)
  · rintro ⟨ret, dest', hrun, -⟩
    have hend : strConcat (⟨[97, 98], rfl⟩ : Block UInt8 2) [] 2 = .error .outOfBounds := rfl
    rw [hend] at hrun
    cases hrun

end Buffer

/-! ## The path of a file -/

section Path

variable {env : Env} {filename absPath : List UInt8} {docId : Nat}

/-- `tokenizer` does not look at the answers of `StrCopy` and `StrConcat`: if the path has no room
in its buffer, the buffer has no NUL in the end, and it is read behind it. -/
theorem tokenizerWith_noRoom {σ : Type} {parse : LineParser σ} {s : σ} (habs : 0 ∉ absPath)
    (hname : 0 ∉ filename)
    (hlen : MAX_WORD_LEN + MAX_PATH_LEN + 1 ≤ absPath.length + 1 + filename.length) :
    tokenizerWith parse env s filename absPath docId = .error .outOfBounds := by
  have hcap : MAX_WORD_LEN + MAX_PATH_LEN + 1 < 2 ^ 64 := by decide
  obtain ⟨buf, hbuf⟩ : ∃ buf : Block UInt8 (MAX_WORD_LEN + MAX_PATH_LEN + 1), buf =
      ⟨List.replicate (MAX_WORD_LEN + MAX_PATH_LEN + 1) 0, List.length_replicate⟩ := ⟨_, rfl⟩
  have hslash : 0 ∉ absPath ++ [47] := nul_notMem_append habs (by decide)
  rw [tokenizerWith, ← hbuf]
  by_cases hfill : MAX_WORD_LEN + MAX_PATH_LEN + 1 ≤ absPath.length
  · -- the directory alone fills the buffer
    obtain ⟨f₁, h₁, hd₁⟩ := strCopy_over (a := []) buf rfl (Nat.zero_add _) hfill
    have hnul : 0 ∉ f₁.data := fun h => habs (List.mem_of_mem_take (hd₁ ▸ h))
    rw [List.length_nil] at h₁
    simp only [h₁, ok_bind, strConcat_unterminated [47] hnul (Nat.succ_pos _), error_bind]
  obtain ⟨f₁, r₁, h₁, hd₁⟩ := strCopy_end (a := []) buf absPath
    (MAX_WORD_LEN + MAX_PATH_LEN + 1) rfl (Nat.not_le.mp hfill)
    (by rw [List.length_nil, Nat.zero_add]; exact Nat.not_le.mp hfill)
  rw [List.length_nil] at h₁
  rw [List.nil_append] at hd₁
  by_cases hlast : absPath.length + 1 = MAX_WORD_LEN + MAX_PATH_LEN + 1
  · -- the slash takes the place of the NUL
    obtain ⟨f₂, h₂, hd₂⟩ := strConcat_over [47] hd₁ habs hcap hlast.ge
    have hnul : 0 ∉ f₂.data := by
      rw [hd₂]
      exact nul_notMem_append habs fun h => absurd (List.mem_of_mem_take h) (by decide)
    simp only [h₁, ok_bind, h₂, strConcat_unterminated filename hnul (Nat.succ_pos _), error_bind]
  obtain ⟨f₂, r₂, h₂, hd₂⟩ := strConcat_end [47] (MAX_WORD_LEN + MAX_PATH_LEN + 1) hd₁ habs
    (by rw [List.length_singleton]; omega) hcap (by rw [List.length_singleton]; omega)
  obtain ⟨f₃, h₃, hd₃⟩ := strConcat_over filename hd₂ hslash hcap
    (by rw [List.length_append, List.length_singleton]; exact hlen)
  have hnul : 0 ∉ f₃.data := by
    rw [hd₃]
    exact nul_notMem_append hslash fun h => hname (List.mem_of_mem_take h)
  simp only [h₁, ok_bind, h₂, h₃, cstring, if_neg hnul, error_bind]

end Path

end SearchEngine.Server
