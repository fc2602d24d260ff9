import SearchEngine.Server.CString

/-!
# `helper.c`: postings and dynamic lists

`tc_realloc` is not part of the repository: `Alloc` is what it answers for the two kinds of
arrays that grow, and `Alloc.Keeps` what its callers rely on. `tc_calloc` and `tc_malloc`
return fresh memory, and what is in a block of `tc_malloc` is up to `Alloc` as well; the words
are numbered in the order of their creation, and the number of a word is its address.
-/

namespace SearchEngine.Server

open Memory

abbrev LIST_SIZE : Nat := 10
/-- The result of `insert` when the table has grown. -/
abbrev EXTEND : Int := 2

/-- `tc_realloc` of an array of pointers, and of an array of `size_t`: the array with the new
number of elements, or `none` for `NULL`. `malloc` is the block of a `tc_malloc`, with what is
in it. -/
structure Alloc where
  reallocPtrs : List (Option Nat) → Nat → Option (List (Option Nat))
  reallocSizes : List Nat → Nat → Option (List Nat)
  malloc : (nbytes : Nat) → Block UInt8 nbytes

/-- `tc_realloc` does not fail, keeps what the array holds and sets the rest to zero. -/
structure Alloc.Keeps (env : Alloc) : Prop where
  ptrs : ∀ l n, l.length ≤ n → env.reallocPtrs l n = some (l ++ List.replicate (n - l.length) none)
  sizes : ∀ l n, l.length ≤ n → env.reallocSizes l n = some (l ++ List.replicate (n - l.length) 0)

/-! ## Postings -/

/-- `struct LinkedList`, one document of a word; `list_len` is the length of `list`. -/
structure LinkedList where
  val : Nat
  list : List Nat
  lastIndex : Nat
  deriving DecidableEq, Repr

/-- `struct Word` -/
structure Word where
  hash : Nat
  str : List UInt8
  list : List LinkedList
  deriving DecidableEq, Repr

/-- `create_link` -/
def createLink (val : Nat) : LinkedList := ⟨val, List.replicate LIST_SIZE 0, 0⟩

/-- `lookup_link`: the place of the document. -/
def lookupLink (list : List LinkedList) (val : Nat) : Option Nat :=
  list.findIdx? fun l => l.val = val

/-- `resize` of a `LINKLIST` -/
def resizeLink (env : Alloc) (l : LinkedList) : Int × LinkedList :=
  match env.reallocSizes l.list (l.list.length + LIST_SIZE) with
  | none => (-1, l)
  | some list => (1, { l with list := list })

/-- `insert` into a `LINKLIST` -/
def insertLink (env : Alloc) (l : LinkedList) (val index : Nat) :
    Except Fault (Int × LinkedList) :=
  let l := if l.list.length ≤ l.lastIndex then (resizeLink env l).2 else l
  if index < l.list.length then
    .ok (1, { l with list := l.list.set index val, lastIndex := l.lastIndex + 1 })
  else .error .outOfBounds

/-! ## Dynamic lists -/

/-- `struct DynList`; `phys_len` is the length of `dyn_list`. -/
structure DynList where
  lastIndex : Nat
  dynList : List (Option Nat)
  deriving DecidableEq, Repr

def DynList.physLen (l : DynList) : Nat := l.dynList.length

/-- `create_list` -/
def createList (initSize : Nat) : DynList := ⟨0, List.replicate initSize none⟩

/-- The first empty slot from `index` on, or `phys_len`. -/
def firstEmpty (slots : List (Option Nat)) (index : Nat) : Nat :=
  if index < slots.length then
    if slots[index]? = some none then index else firstEmpty slots (index + 1)
  else slots.length
  termination_by slots.length - index

/-- `resize` of a `DYNLIST` -/
def resizeDyn (env : Alloc) (l : DynList) : Int × DynList :=
  match env.reallocPtrs l.dynList (l.physLen * 2) with
  | none => (-1, l)
  | some list => (1, { l with dynList := list })

/-- `insert` into a `DYNLIST`: an item goes to the first empty slot from `index` on. -/
def insertDyn (env : Alloc) (l : DynList) (item index : Nat) : Int × DynList :=
  let (ret, l) := if l.physLen ≤ l.lastIndex then (EXTEND, (resizeDyn env l).2) else (1, l)
  if l.physLen ≤ index then (-1, l)
  else
    let k := firstEmpty l.dynList index
    (ret, {
      dynList := l.dynList.set k (some item)
      lastIndex := if l.lastIndex < k then k + 1 else l.lastIndex })

/-- `lookup`. The loop of the source tests `index` before it is advanced, so that it can come to
the slot `phys_len`, which is not there. -/
def lookup (words : List Word) (l : DynList) (str : List UInt8) (index : Nat) :
    Except Fault (Option Nat) :=
  match _h : l.dynList[index]? with
  | none => .error .outOfBounds
  | some none => .ok none
  | some (some item) =>
    match words[item]? with
    | none => .error .outOfBounds
    | some word =>
      if strCompare word.str str DYN_SIZE = 0 then .ok (some item)
      else lookup words l str (index + 1)
  termination_by l.dynList.length - index
  decreasing_by
    have hlt := (List.getElem?_eq_some_iff.mp _h).1
    omega

end SearchEngine.Server
