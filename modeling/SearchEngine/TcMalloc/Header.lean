import Mathlib.Algebra.Ring.Int.Defs
import Mathlib.Algebra.Ring.Nat
import Mathlib.Data.List.Basic
import Mathlib.Logic.Function.Basic

/-!
# `tc_malloc.h`: the data, the span lists, the free lists, the size classes

Memory is modelled by component: a field of `struct Span` is a function from the
addresses of span records to the values of the field, so that a write to one field
of one record is an update of one function at one point. The free lists that the
allocator threads through free objects are the lists of the addresses they visit; an address is
a `Nat`.

The names follow the source; `Heap` is the state that all threads share.
-/

namespace SearchEngine.TcMalloc

/-- `span_t`: the address of a span record. -/
abbrev SpanPtr := Nat

abbrev PAGEHEAPSIZE : Nat := 256
/-- `1 << 23` -/
abbrev PAGEMAPSIZE : Nat := 8388608
/-- `32 * 1024` -/
abbrev THRESHALLOC : Nat := 32768
/-- `1 << 28` -/
abbrev SYSFETCHSIZE : Nat := 268435456
abbrev CLASSES : Nat := 159
abbrev BATCH : Nat := 128
abbrev SPANPOOLSIZE : Nat := 1440
abbrev MAXFETCHSIZE : Nat := 32
/-- `sizeof(_span)` -/
abbrev SPANBYTES : Nat := 64

/-- What ends a call of the allocator other than its return. -/
inductive Fault where
  /-- a null pointer is dereferenced -/
  | nullDeref
  /-- a negative index into `pgcache.list` or `threadlocal.list` -/
  | badIndex
  /-- `mp_obj.page_mapping` is accessed at or beyond `PAGEMAPSIZE` -/
  | pageMap
  /-- memory is written through the `(void *) -1` of a failed `sbrk` -/
  | badAddr
  /-- a loop does not end -/
  | endless
  deriving DecidableEq, Repr

/-- `spanLocation` -/
inductive SpanLocation where
  | pageheap
  | isolated
  | centralList
  | centralIdle
  deriving DecidableEq, Repr

/-- The part of the shared state that the span lists are made of: the two link fields
of the span records, and the list heads in `pgcache` and `centralcache`. -/
structure Links where
  prev : SpanPtr → Option SpanPtr
  next : SpanPtr → Option SpanPtr
  /-- `pgcache.list` -/
  pgList : Nat → Option SpanPtr
  /-- `centralcache.list` -/
  list : Nat → Option SpanPtr
  /-- `centralcache.idle` -/
  idle : Nat → Option SpanPtr
  /-- bookkeeping: some `remove_span` so far met a span that was not on the list of
  the head it was given -/
  stray : Prop

/-- The state the threads share: the links, the other fields of the span records,
`mp_obj`, `spanchunk`, and the program break behind `sbrk`. -/
structure Heap extends Links where
  objs : SpanPtr → List Nat
  objLen : SpanPtr → Nat
  loc : SpanPtr → SpanLocation
  start : SpanPtr → Nat
  objsSize : SpanPtr → Nat
  objRefcount : SpanPtr → Nat
  pageSize : SpanPtr → Nat
  pageId : SpanPtr → Nat
  iniBrkAddr : Nat
  /-- `mp_obj.page_mapping` -/
  pageMapping : Nat → Option SpanPtr
  /-- `spanchunk` -/
  chunk : Nat
  remBytes : Nat
  currInd : Nat
  /-- the program break -/
  brk : Nat
  sbrkCalls : Nat
  /-- bookkeeping: the chunks of span records obtained so far -/
  chunks : List Nat
  /-- bookkeeping: the sizes of the regions that `sbrk` returned so far -/
  regions : List Nat

/-! ## Span lists -/

/-- A `span_t *` that a list operation is given: the address of a list head, or the
address of the `prev` field of a span. -/
inductive HeadRef where
  | pgList (i : Nat)
  | centralList (i : Nat)
  | centralIdle (i : Nat)
  | prevOf (s : SpanPtr)
  deriving DecidableEq, Repr

namespace Links

def setPrev (s : SpanPtr) (v : Option SpanPtr) (l : Links) : Links :=
  { l with prev := Function.update l.prev s v }

def setNext (s : SpanPtr) (v : Option SpanPtr) (l : Links) : Links :=
  { l with next := Function.update l.next s v }

/-- `*head` -/
def head (l : Links) : HeadRef → Option SpanPtr
  | .pgList i => l.pgList i
  | .centralList i => l.list i
  | .centralIdle i => l.idle i
  | .prevOf s => l.prev s

/-- `*head = v` -/
def setHead (v : Option SpanPtr) (l : Links) : HeadRef → Links
  | .pgList i => { l with pgList := Function.update l.pgList i v }
  | .centralList i => { l with list := Function.update l.list i v }
  | .centralIdle i => { l with idle := Function.update l.idle i v }
  | .prevOf s => l.setPrev s v

end Links

/-- The second half of `spanlist_push`: `span` goes between `prev` and `ptr`, and
becomes the head. -/
def spanlistLink (head : HeadRef) (ptr prev span : SpanPtr) (l : Links) : Links :=
  let l := l.setNext span (some ptr)
  let l := l.setPrev span (some prev)
  let l := l.setPrev ptr (some span)
  let l := l.setNext prev (some span)
  l.setHead (some span) head

/-- `spanlist_push` -/
def spanlistPush (head : HeadRef) (span : SpanPtr) (l : Links) : Links :=
  match l.head head with
  | none => ((l.setHead (some span) head).setNext span (some span)).setPrev span (some span)
  | some ptr =>
    match l.prev ptr with
    -- "if here huge bug!!!": the head becomes a list of its own
    | none => spanlistLink head ptr ptr span ((l.setPrev ptr (some ptr)).setNext ptr (some ptr))
    | some prev => spanlistLink head ptr prev span l

/-- `spanlist_pop` -/
def spanlistPop (head : HeadRef) (span : SpanPtr) (l : Links) : Except Fault Links :=
  if l.next span = some span then .ok (l.setHead none head)
  else do
    let p := (l.prev span).getD span
    let n := (l.next span).getD span
    let l := l.setNext p (some n)
    let l := l.setPrev n (some p)
    let l ←
      if l.head head = some span then
        if l.next span = some span ∧ l.prev span = some span then
          .ok (l.setHead none head)
        else .ok (l.setHead (some n) head)
      else
        match l.head head with
        | some first => .ok (l.setNext first (some n))
        | none => .error .nullDeref
    .ok ((l.setNext span (some span)).setPrev span (some span))

/-- `spanlist_push` on the shared state. -/
def Heap.push (head : HeadRef) (span : SpanPtr) (h : Heap) : Heap :=
  { h with toLinks := spanlistPush head span h.toLinks }

def Heap.setLoc (s : SpanPtr) (v : SpanLocation) (h : Heap) : Heap :=
  { h with loc := Function.update h.loc s v }

/-! ## Free lists -/

/-- `freelist_push` -/
def freelistPush (span : SpanPtr) (ptr : Nat) (h : Heap) : Heap :=
  { h with
    objs := Function.update h.objs span (ptr :: h.objs span)
    objLen := Function.update h.objLen span (h.objLen span + 1) }

/-- `threadlist` -/
structure ThreadList where
  objs : List Nat
  objlen : Nat
  maxLength : Nat

/-- `freelist_pop` on the list of a thread. -/
def freelistPop (l : ThreadList) : Except Fault (Nat × ThreadList) :=
  match l.objs with
  | [] => .error .nullDeref
  | curr :: next => .ok (curr, { l with objs := next, objlen := l.objlen - 1 })

/-! ## Size classes -/

/-- The conversion of an unsigned value to `int`. -/
def toInt (n : Nat) : Int :=
  if n % 2 ^ 32 < 2 ^ 31 then (n % 2 ^ 32 : Nat) else (n % 2 ^ 32 : Nat) - 2 ^ 32

/-- `index_to_size` -/
def indexToSize (index : Nat) : Nat :=
  if index ≤ 7 then (index + 1) * 8
  else if index ≤ 38 then (index + 1 - 8) * 64 + 64
  else if index ≤ 158 then (index + 1 - 39) * 256 + 2048
  else index + 1

/-- `get_index`; the subtractions are those of `size_t`. -/
def getIndex (size : Nat) : Int :=
  if size ≤ 64 then toInt ((size + 2 ^ 64 - 1) % 2 ^ 64 / 8)
  else if size ≤ 2048 then toInt ((size - 65) / 64 + 8)
  else if size ≤ 32 * 1024 then toInt ((size - 2049) / 256 + 8 + 31)
  else -1

/-- The element of an array of `CLASSES` lists that `get_index(size)` selects. -/
def sizeClass (size : Nat) : Except Fault Nat :=
  let index := getIndex size
  if 0 ≤ index ∧ index < CLASSES then .ok index.toNat else .error .badIndex

end SearchEngine.TcMalloc
