import SearchEngine.Server.CString
import SearchEngine.Lib.Outcome
import Mathlib.Data.List.TakeWhile

/-!
# Strings in blocks

The string functions of `helper.c` on strings that are terminated inside of their blocks.
-/

namespace SearchEngine.Server

open Memory Outcome

section Strings

variable {a b l : List UInt8} {n : Nat}

theorem takeWhile_ne_zero {a b : List UInt8} :
    (a ++ 0 :: b).takeWhile (· ≠ 0) = a.takeWhile (· ≠ 0) := by
  induction a with
  | nil => simp
  | cons x a ih =>
    by_cases hx : x = 0
    · simp [hx]
    · rw [List.cons_append, List.takeWhile_cons_of_pos (by simpa using hx),
        List.takeWhile_cons_of_pos (by simpa using hx), ih]

theorem not_mem_takeWhile_zero (l : List UInt8) : 0 ∉ l.takeWhile (· ≠ 0) := by
  intro h
  simpa using List.mem_takeWhile_imp h

theorem takeWhile_self {l : List UInt8} (h : 0 ∉ l) : l.takeWhile (· ≠ 0) = l := by
  apply List.takeWhile_eq_self_iff.mpr
  intro x hx
  simpa using fun e : x = 0 => h (e ▸ hx)

theorem nul_notMem_append (ha : 0 ∉ a) (hb : 0 ∉ b) : 0 ∉ a ++ b := by
  intro h
  rcases List.mem_append.mp h with h | h
  · exact ha h
  · exact hb h

/-- The string of a block that starts with it. -/
theorem cstring_append (ha : 0 ∉ a) (b : List UInt8) : cstring (a ++ 0 :: b) = .ok a := by
  rw [cstring, if_pos (by simp), takeWhile_ne_zero, takeWhile_self ha]

theorem charValue_eq_zero {x : UInt8} : charValue x = 0 ↔ x = 0 := by
  have hlt := x.toNat_lt
  rw [charValue, ← UInt8.toNat_inj]
  split
  · simp
  · next h =>
    have hge : 128 ≤ x.toNat := Nat.le_of_not_lt h
    simp only [UInt8.toNat_zero]
    omega

theorem charValue_inj {x y : UInt8} (h : charValue x = charValue y) : x = y := by
  have hx := x.toNat_lt
  have hy := y.toNat_lt
  have hx' : x < 128 ↔ x.toNat < 128 := Iff.rfl
  have hy' : y < 128 ↔ y.toNat < 128 := Iff.rfl
  apply UInt8.toNat_inj.mp
  simp only [charValue, hx', hy'] at h
  split at h <;> split at h <;> omega

/-- `StrCompare` answers 0 for equal strings only, if its limit is not reached. -/
theorem strCompare_eq_zero (ha : 0 ∉ a) (hb : 0 ∉ b) (hn : a.length < n) :
    strCompare a b n = 0 ↔ a = b := by
  induction n generalizing a b with
  | zero => exact absurd hn (Nat.not_lt_zero _)
  | succ n ih =>
    cases a with
    | nil =>
      cases b with
      | nil => simp [strCompare]
      | cons y b =>
        have hy : y ≠ 0 := fun e => hb (e ▸ List.mem_cons_self)
        simp [strCompare, charValue_eq_zero, hy]
    | cons x a =>
      have hx : x ≠ 0 := fun e => ha (e ▸ List.mem_cons_self)
      cases b with
      | nil => simp [strCompare, charValue_eq_zero, hx]
      | cons y b =>
        rw [strCompare]
        split
        · next heq =>
          rw [ih (fun h => ha (List.mem_cons_of_mem _ h)) (fun h => hb (List.mem_cons_of_mem _ h))
            (Nat.lt_of_succ_lt_succ hn), heq, List.cons.injEq]
          exact (and_iff_right rfl).symm
        · next hne =>
          refine ⟨fun h => absurd (charValue_inj (Int.sub_eq_zero.mp h)) hne, fun h => ?_⟩
          exact absurd (List.cons.inj h).1 hne

section Blocks

variable {cap : Nat} {dest : Block UInt8 cap} {src rest : List UInt8}

/-- `StrCopy` to the end of the string that a block starts with. -/
theorem strCopy_end (dest : Block UInt8 cap) (src : List UInt8) (n : Nat)
    (hdest : dest.data = a ++ rest) (hsrc : src.length < n) (hcap : a.length + src.length < cap) :
    ∃ dest' rest', strCopy dest a.length src n = .ok (true, dest') ∧
      dest'.data = a ++ src ++ 0 :: rest' := by
  have hall : (src ++ [0]).take n = src ++ [0] := by
    apply List.take_of_length_le
    rw [List.length_append]
    exact hsrc
  obtain ⟨dest', hwrite, hdata⟩ := Block.write_natCast dest a.length
    (src ++ [0]) (by rw [List.length_append]; exact hcap)
  refine ⟨dest', dest.data.drop (a.length + (src ++ [0]).length), ?_, ?_⟩
  · simp only [strCopy, hall, hwrite, hsrc, decide_true]
  · rw [hdata, hdest, List.take_left]
    simp only [List.append_assoc, List.singleton_append]

/-- `StrConcat` to a string that has room for it. -/
theorem strConcat_end (src : List UInt8) (n : Nat) {r : List UInt8}
    (hdest : dest.data = a ++ 0 :: r) (ha : 0 ∉ a) (hlen : a.length + src.length < n)
    (hn : n < 2 ^ 64) (hcap : a.length + src.length < cap) :
    ∃ dest' rest', strConcat dest src n = .ok (true, dest') ∧
      dest'.data = a ++ src ++ 0 :: rest' := by
  have hsub : subSize n a.length = n - a.length := by
    rw [subSize, CInt.size]
    omega
  obtain ⟨dest', rest', hcopy, hdata⟩ := strCopy_end dest src (subSize n a.length) hdest
    (by rw [hsub]; omega) hcap
  refine ⟨dest', rest', ?_, hdata⟩
  have hstr : cstring dest.data = .ok a := by rw [hdest, cstring_append ha]
  rw [strConcat, if_neg (by omega), hstr, ok_bind, hcopy, ok_bind]

end Blocks

end Strings

end SearchEngine.Server
