import SearchEngine.TcMalloc.PageHeap

/-!
# `tc_malloc.c`: the central cache

The functions of this section of the source run under `centralcache_lock`. Two of
them take `pageheap_lock` inside, so that other threads can change the page heap
between their parts; the parts are definitions of their own, which the steps of
`System` put together. `getSpanCentral` is the whole function, as `tc_central_init`
runs it before there are other threads.
-/

namespace SearchEngine.TcMalloc

open LinkedRing

/-- The search of `get_span_central` in `cache->list[index]`. -/
def scanCentral (index : Nat) (h : Heap) : Except Fault (Option SpanPtr) :=
  match scan h.next (fun s => h.objs s ≠ []) (h.list index) (h.brk + 1) (h.list index) with
  | none => .error .endless
  | some found => .ok found

/-- The carving loop of `get_span_central`. (With `size = 0` the loop of the source does
not end; it is never called so.) -/
def carveLoop (size : Nat) (fin : Nat) (newSpan : SpanPtr) (ptr : Nat) (h : Heap) : Heap :=
  if 0 < size ∧ ptr + size ≤ fin then
    carveLoop size fin newSpan (ptr + size) (freelistPush newSpan ptr h)
  else h
  termination_by fin - ptr
  decreasing_by omega

/-- The part of `get_span_central` after `fetch_span`. -/
def carveSpan (size index : Nat) (newSpan : SpanPtr) (h : Heap) : Heap :=
  let start := h.start newSpan
  let fin := start + pagesToBytes32 (h.pageSize newSpan)
  let h := { h with objsSize := Function.update h.objsSize newSpan (size % 2 ^ 32) }
  let h := carveLoop size fin newSpan start h
  (h.push (.centralList index) newSpan).setLoc newSpan .centralList

/-- `get_span_central` -/
def getSpanCentral (env : Env) (size : Nat) (h : Heap) : Except Fault (SpanPtr × Heap) := do
  let index ← sizeClass size
  match ← scanCentral index h with
  | some span => .ok (span, h)
  | none => do
    let (newSpan, h) ← fetchSpan env BATCH h
    .ok (newSpan, carveSpan size index newSpan h)

/-- The part of `fetch_objs` after `get_span_central`: the first objects of the list of
`span`, at most `num`. -/
def takeObjs (num index : Nat) (span : SpanPtr) (h : Heap) : Except Fault (List Nat × Heap) :=
  let avail :=
    if h.objRefcount span ≤ h.objLen span then h.objLen span - h.objRefcount span
    else h.objLen span + 2 ^ 64 - h.objRefcount span
  let maxIter := min num avail
  let batch := (h.objs span).take maxIter
  -- `(*end)->next = NULL`, where `*end` is the last object passed
  if batch = [] then .error .nullDeref
  else
    let h := { h with
      objs := Function.update h.objs span ((h.objs span).drop maxIter)
      objRefcount := Function.update h.objRefcount span
        ((h.objRefcount span + batch.length) % 2 ^ 32) }
    if h.objRefcount span = h.objLen span then do
      let h ← h.remove (.centralList index) span
      .ok (batch, (h.push (.centralIdle index) span).setLoc span .centralIdle)
    else .ok (batch, h)

/-- One round of the loop of `return_objs_to_centralcache`. -/
def returnObj (obj : Nat) (h : Heap) : Except Fault (SpanPtr × Heap) := do
  match ← mapAddrToSpan obj h with
  | none => .error .nullDeref
  | some span =>
    let h := freelistPush span obj h
    .ok (span, { h with
      objRefcount := Function.update h.objRefcount span
        ((h.objRefcount span + 2 ^ 32 - 1) % 2 ^ 32) })

/-- The loop of `return_objs_to_centralcache`, with the span of the last round. -/
def returnLoop : List Nat → Option SpanPtr → Heap → Except Fault (Option SpanPtr × Heap)
  | [], last, h => .ok (last, h)
  | obj :: next, _, h => do
    let (span, h) ← returnObj obj h
    returnLoop next (some span) h

/-- "after returning object check if it was in idle section; if it was return it to the
list" -/
def leaveIdle (index : Nat) (span : SpanPtr) (h : Heap) : Except Fault Heap :=
  if h.loc span = .centralIdle ∧ h.objRefcount span ≠ h.objLen span then do
    let h ← h.remove (.centralIdle index) span
    .ok (h.push (.centralList index) span)
  else .ok h

/-- `return_objs_to_centralcache` up to its call of `return_span_to_pgcache`, with the
span that the call is for, if there is one. -/
def returnObjs (start : List Nat) (nbytes : Nat) (h : Heap) :
    Except Fault (Option SpanPtr × Heap) := do
  let index ← sizeClass nbytes
  match ← returnLoop start none h with
  | (none, _) => .error .nullDeref
  | (some span, h) => do
    let h ← leaveIdle index span h
    if h.objRefcount span = 0 then do
      let h ← h.remove (.centralList index) span
      .ok (some span, { h with
        next := Function.update h.next span (some span)
        prev := Function.update h.prev span (some span)
        objsSize := Function.update h.objsSize span 0
        objLen := Function.update h.objLen span 0
        objs := Function.update h.objs span [] })
    else .ok (none, h)

end SearchEngine.TcMalloc
