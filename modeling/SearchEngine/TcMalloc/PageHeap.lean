import SearchEngine.TcMalloc.Header
import SearchEngine.Lib.Ring

/-!
# `tc_malloc.c`: span records, the page map and the page heap

Everything here runs under `pageheap_lock`. The operating system is the parameter
`Env`: it says where the heap begins and how each `sbrk` is answered.
-/

namespace SearchEngine.TcMalloc

open LinkedRing

/-- The operating system: `sbrk(0)` at `tc_central_init`, and for each later `sbrk`
the number of pages by which other users of the break have moved it since, or
`none` for a call that fails. -/
structure Env where
  ini : Nat
  answer : Nat → Option Nat
  ini_pos : 0 < ini
  ini_lt : ini < 2 ^ 47
  ini_page : 4096 ∣ ini
  answer_lt : ∀ {n g}, answer n = some g → g < 2 ^ 20

/-- Every `sbrk` succeeds. -/
def Env.Succeeds (env : Env) : Prop := ∀ n, env.answer n ≠ none

/-- What `sbrk` returns when it fails, `(void *) -1`. -/
def sbrkFailed : Nat := 2 ^ 64 - 1

/-- `sbrk` -/
def sbrk (env : Env) (nbytes : Nat) (h : Heap) : Nat × Heap :=
  match env.answer h.sbrkCalls with
  | none => (sbrkFailed, { h with sbrkCalls := h.sbrkCalls + 1 })
  | some g =>
    (h.brk + g * 4096, { h with
      brk := h.brk + g * 4096 + nbytes
      sbrkCalls := h.sbrkCalls + 1
      regions := nbytes :: h.regions })

/-- `pages_to_bytes` of a `size_t` -/
def pagesToBytes (npage : Nat) : Nat := npage * 4096 % 2 ^ 64

/-- `pages_to_bytes` of a `uint32_t`: the shift is done in 32 bits. -/
def pagesToBytes32 (npage : Nat) : Nat := npage * 4096 % 2 ^ 32

/-- `bytes_to_pages` -/
def bytesToPages (nbytes : Nat) : Nat := nbytes / 4096

/-- `addr_to_index` -/
def addrToIndex (fin start : Nat) : Nat :=
  (bytesToPages fin + 2 ^ 64 - bytesToPages start) % 2 ^ 64

/-- `MIN(PAGEHEAPSIZE - 1, npage - 1)`, with unsigned subtraction. -/
def bucket (npage : Nat) : Nat :=
  if npage = 0 then PAGEHEAPSIZE - 1 else min (PAGEHEAPSIZE - 1) (npage - 1)

/-! ## The page map -/

/-- The loop of `update_mapping`, with `n` rounds left from round `i`. -/
def updateMappingLoop (newSpan : SpanPtr) (pageId : Nat) :
    Nat → Nat → (Nat → Option SpanPtr) → Except Fault (Nat → Option SpanPtr)
  | 0, _, m => .ok m
  | n + 1, i, m =>
    let k := (pageId + i) % 2 ^ 32
    if k < PAGEMAPSIZE then
      updateMappingLoop newSpan pageId n (i + 1) (Function.update m k (some newSpan))
    else .error .pageMap

/-- `update_mapping`; its `curr_index` is never read and left out. -/
def updateMapping (newSpan : SpanPtr) (h : Heap) : Except Fault Heap := do
  let len := toInt (h.pageSize newSpan)
  let m ← updateMappingLoop newSpan (h.pageId newSpan) len.toNat 0 h.pageMapping
  .ok { h with pageMapping := m }

/-- `map_addr_to_span` -/
def mapAddrToSpan (ptr : Nat) (h : Heap) : Except Fault (Option SpanPtr) :=
  let pgid := addrToIndex ptr h.iniBrkAddr
  if pgid < PAGEMAPSIZE then .ok (h.pageMapping pgid) else .error .pageMap

/-! ## Span records -/

/-- `remove_span` -/
def removeSpan (head : HeadRef) (span : SpanPtr) (l : Links) : Except Fault Links :=
  let l := { l with stray := l.stray ∨ ¬ OnRing l.next (l.head head) span }
  if l.head head = some span then spanlistPop head span l
  else spanlistPop (.prevOf span) span l

/-- `remove_span` on the shared state. -/
def Heap.remove (head : HeadRef) (span : SpanPtr) (h : Heap) : Except Fault Heap := do
  let l ← removeSpan head span h.toLinks
  .ok { h with toLinks := l }

/-- `memset` of the records in a new chunk. -/
def zeroSpans (chunk : Nat) (nbytes : Nat) (h : Heap) : Heap :=
  let inside := fun s => chunk ≤ s ∧ s < chunk + nbytes
  { h with
    prev := fun s => if inside s then none else h.prev s
    next := fun s => if inside s then none else h.next s
    objs := fun s => if inside s then [] else h.objs s
    objLen := fun s => if inside s then 0 else h.objLen s
    loc := fun s => if inside s then .pageheap else h.loc s
    start := fun s => if inside s then 0 else h.start s
    objsSize := fun s => if inside s then 0 else h.objsSize s
    objRefcount := fun s => if inside s then 0 else h.objRefcount s
    pageSize := fun s => if inside s then 0 else h.pageSize s
    pageId := fun s => if inside s then 0 else h.pageId s }

/-- The first branch of `alloc_span`: a new chunk of records, whose first record
stands for the chunk in the page map. -/
def newChunk (env : Env) (h : Heap) : Except Fault Heap := do
  let nbytes := pagesToBytes SPANPOOLSIZE
  let (chunk, h) := sbrk env nbytes h
  if chunk = sbrkFailed then .error .badAddr
  else
    let h := zeroSpans chunk nbytes h
    let h :=
      { h with chunk := chunk, remBytes := nbytes, currInd := 0, chunks := chunk :: h.chunks }
    let h := { h with
      pageId := Function.update h.pageId chunk (addrToIndex chunk h.iniBrkAddr % 2 ^ 32)
      pageSize := Function.update h.pageSize chunk SPANPOOLSIZE }
    let h ← updateMapping chunk h
    .ok { h with remBytes := h.remBytes - SPANBYTES, currInd := h.currInd + 1 }

/-- The end of `alloc_span`: the next record of the chunk is taken. A `ptr` of `0` is
the null pointer. -/
def takeRecord (npages : Nat) (ptr : Nat) (h : Heap) : SpanPtr × Heap :=
  let newSpan := h.chunk + h.currInd * SPANBYTES
  (newSpan, { h with
    remBytes := h.remBytes - SPANBYTES
    currInd := h.currInd + 1
    pageSize := Function.update h.pageSize newSpan (npages % 2 ^ 32)
    pageId := if ptr = 0 then h.pageId
      else Function.update h.pageId newSpan (addrToIndex ptr h.iniBrkAddr % 2 ^ 32)
    next := Function.update h.next newSpan (some newSpan)
    prev := Function.update h.prev newSpan (some newSpan) })

/-- `alloc_span` -/
def allocSpan (env : Env) (npages : Nat) (ptr : Nat) (h : Heap) :
    Except Fault (SpanPtr × Heap) := do
  let h ← if h.remBytes < SPANBYTES then newChunk env h else .ok h
  .ok (takeRecord npages ptr h)

/-! ## The page heap -/

/-- `fetch_from_system`. The test of the result of `sbrk` against `NULL` only prints,
and never holds. -/
def fetchFromSystem (env : Env) (h : Heap) : Except Fault Heap := do
  let (ptr, h) := sbrk env SYSFETCHSIZE h
  let (newSpan, h) ← allocSpan env (bytesToPages SYSFETCHSIZE) ptr h
  let h := { h with start := Function.update h.start newSpan ptr }
  updateMapping newSpan (h.push (.pgList (bucket (h.pageSize newSpan))) newSpan)

/-- `split_spans`: the last `npage` pages of `tmp` become `new_span`. -/
def splitSpans (tmp newSpan : SpanPtr) (npage : Nat) (h : Heap) : Except Fault Heap :=
  let left := (h.pageSize tmp + 2 ^ 32 - npage % 2 ^ 32) % 2 ^ 32
  let h := { h with
    pageSize := Function.update h.pageSize tmp left
    start := Function.update h.start newSpan (h.start tmp + pagesToBytes32 left)
    next := Function.update h.next newSpan (some newSpan)
    prev := Function.update h.prev newSpan (some newSpan) }
  let h := if left ≠ 0 then h.push (.pgList (bucket left)) tmp else h
  updateMapping newSpan
    { h with pageId := Function.update h.pageId newSpan ((h.pageId tmp + left) % 2 ^ 32) }

/-- The `for` loop of `fetch_span`: the first bucket from `i` on that is not empty. -/
def firstFit (pgList : Nat → Option SpanPtr) (i : Nat) : Option (Nat × SpanPtr) :=
  if i < PAGEHEAPSIZE then
    match pgList i with
    | some tmp => some (i, tmp)
    | none => firstFit pgList (i + 1)
  else none
  termination_by PAGEHEAPSIZE - i

/-- `fetch_span` up to its last two lines; `again` stands for the recursive call. -/
def fetchSpanWith (env : Env) (again : Heap → Except Fault (SpanPtr × Heap)) (npage : Nat)
    (h : Heap) : Except Fault (SpanPtr × Heap) :=
  match h.pgList (bucket npage) with
  | some tmp => do
    let h ← h.remove (.pgList (bucket npage)) tmp
    .ok (tmp, h)
  | none => do
    let (newSpan, h) ← allocSpan env npage 0 h
    let h := if npage > 8 then h.setLoc newSpan .isolated else h
    -- `int i = npage`
    if toInt npage < 0 then .error .badIndex
    else match firstFit h.pgList (toInt npage).toNat with
    | some (i, tmp) => do
      let h ← h.remove (.pgList i) tmp
      let h ← splitSpans tmp newSpan npage h
      .ok (newSpan, h)
    | none =>
      let head := h.pgList (PAGEHEAPSIZE - 1)
      match scan h.next (fun tmp => npage ≤ h.pageSize tmp) head (h.brk + 1) head with
      | none => .error .endless
      | some (some tmp) => do
        let h ← h.remove (.pgList (PAGEHEAPSIZE - 1)) tmp
        let h ← splitSpans tmp newSpan npage h
        .ok (newSpan, h)
      | some none =>
        if npage > PAGEHEAPSIZE then do
          let (ptr, h) := sbrk env (pagesToBytes npage) h
          let (newSpan, h) ← allocSpan env npage ptr h
          let h := { h with start := Function.update h.start newSpan ptr }
          let h ← updateMapping newSpan h
          .ok (newSpan, h)
        else do
          let h ← fetchFromSystem env h
          again h

/-- `fetch_span`, with a bound on the depth of its recursion. -/
def fetchSpanDepth (env : Env) : Nat → Nat → Heap → Except Fault (SpanPtr × Heap)
  | 0, _, _ => .error .endless
  | depth + 1, npage, h => fetchSpanWith env (fetchSpanDepth env depth npage) npage h

/-- `fetch_span`: after `fetch_from_system` the last bucket is not empty, so the
second call makes no third (`fetchSpan_depth`). -/
def fetchSpan (env : Env) (npage : Nat) (h : Heap) : Except Fault (SpanPtr × Heap) :=
  fetchSpanDepth env 2 npage h

/-- `return_span_to_pgcache`. The coalescing is commented out in the source. The reads of
`page_mapping[prevId]` and `page_mapping[nextId]` are left out, as nothing uses their values;
`nextId` can be `PAGEMAPSIZE`, one behind the map, for a span that ends with it. -/
def returnSpanToPgcache (span : SpanPtr) (h : Heap) : Except Fault Heap :=
  let h := { h with
    objsSize := Function.update h.objsSize span 0
    objLen := Function.update h.objLen span 0
    objs := Function.update h.objs span []
    loc := Function.update h.loc span .pageheap }
  updateMapping span (h.push (.pgList (bucket (h.pageSize span))) span)

end SearchEngine.TcMalloc
