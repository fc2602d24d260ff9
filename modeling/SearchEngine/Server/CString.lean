import SearchEngine.Lib.Block
import SearchEngine.Lib.CInt

/-!
# `helper.c`: strings

A string is the list of its characters without the terminating NUL; a line buffer, in which
NULs are written, is the list of its bytes, and a pointer into it is an offset. A read or a
write outside of a block is a `Fault`.
-/

namespace SearchEngine.Server

open Memory

abbrev DYN_SIZE : Nat := 10240
abbrev MAX_WORD_LEN : Nat := 2048
abbrev MAX_PATH_LEN : Nat := 4096

/-- What ends a function of the server or of a client other than its return. -/
inductive Fault where
  /-- memory outside of a block is accessed -/
  | outOfBounds
  /-- a null pointer is dereferenced -/
  | nullDeref
  /-- a loop does not end -/
  | endless
  deriving DecidableEq, Repr

/-- The value of a `char`, which is signed. -/
def charValue (b : UInt8) : Int := if b < 128 then b.toNat else b.toNat - 256

/-- `isalpha`, in the C locale. -/
def isalpha (b : UInt8) : Bool := (65 ≤ b ∧ b ≤ 90) ∨ (97 ≤ b ∧ b ≤ 122)

/-- The string that starts a block. -/
def cstring (bytes : List UInt8) : Except Fault (List UInt8) :=
  if 0 ∈ bytes then .ok (bytes.takeWhile (· ≠ 0)) else .error .outOfBounds

/-- The byte at an offset. -/
def byteAt (buf : List UInt8) (ptr : Nat) : Except Fault UInt8 :=
  match buf[ptr]? with
  | some b => .ok b
  | none => .error .outOfBounds

/-- Subtraction of `size_t`. -/
def subSize (a b : Nat) : Nat := CInt.size (a - b)

/-- `StrGetLength` -/
def strGetLength (src : List UInt8) (maxLen : Nat) : Nat :=
  if maxLen ≤ src.length then 0 else src.length

/-- `StrCopy`, to offset `off` of a block; the result is false for `NULL`. -/
def strCopy {cap : Nat} (dest : Block UInt8 cap) (off : Nat) (src : List UInt8)
    (maxCpySize : Nat) : Except Fault (Bool × Block UInt8 cap) :=
  match dest.write off ((src ++ [0]).take maxCpySize) with
  | some dest => .ok (src.length < maxCpySize, dest)
  | none => .error .outOfBounds

/-- `StrCompare` -/
def strCompare : List UInt8 → List UInt8 → Nat → Int
  | _, _, 0 => 0
  | [], [], _ => 0
  | c :: _, [], _ => charValue c
  | [], d :: _, _ => -charValue d
  | c :: s1, d :: s2, n + 1 => if c = d then strCompare s1 s2 n else charValue c - charValue d

/-- `StrConcat`; the result is false for `NULL`. The loop that looks for the end of `dest` does
not count, so that nothing bounds it. -/
def strConcat {cap : Nat} (dest : Block UInt8 cap) (src : List UInt8) (maxLen : Nat) :
    Except Fault (Bool × Block UInt8 cap) :=
  if maxLen = 0 then .ok (false, dest)
  else do
    let str ← cstring dest.data
    let (_, dest) ← strCopy dest str.length src (subSize maxLen str.length)
    .ok (true, dest)

/-- The loop of `StrTok` and `StrStrip`: it passes over the characters that meet `p`. -/
def strScan (p : UInt8 → Bool) (buf : List UInt8) (ptr maxLen index : Nat) :
    Except Fault (Nat × Nat) :=
  if index < maxLen then
    match h : buf[ptr]? with
    | none => .error .outOfBounds
    | some b =>
      if b ≠ 0 ∧ p b then strScan p buf (ptr + 1) maxLen (index + 1) else .ok (ptr, index)
  else .ok (ptr, index)
  termination_by buf.length - ptr
  decreasing_by
    have hlt := (List.getElem?_eq_some_iff.mp h).1
    omega

/-- `StrTok` -/
def strTok (buf : List UInt8) (start maxLen index : Nat) : Except Fault (Nat × Nat) :=
  strScan isalpha buf start maxLen index

/-- `StrStrip` -/
def strStrip (buf : List UInt8) (start maxLen index : Nat) : Except Fault (Nat × Nat) :=
  strScan (fun b => !isalpha b) buf start maxLen index

/-- `StrSplit` -/
def strSplit (buf : List UInt8) (fin maxLen index : Nat) :
    Except Fault (List UInt8 × Nat × Nat) := do
  let _ ← byteAt buf fin
  let buf := buf.set fin 0
  let index := index + 1
  if maxLen < index then .ok (buf, fin, index)
  else
    let (ptr, index) ← strStrip buf (fin + 1) (subSize maxLen index) index
    .ok (buf, ptr, index)

end SearchEngine.Server
