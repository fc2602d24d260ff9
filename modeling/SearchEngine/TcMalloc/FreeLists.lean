import SearchEngine.TcMalloc.System
import SearchEngine.Lib.Memory

/-!
# `tc_malloc.c`: the free lists in memory

In `System` a free list is the list of the objects on it. Here it is what the program has: a
pointer to an object, whose first bytes are the `next` of `linkedlist_t`. The functions are those
of the source that follow or write these pointers; they decide by the pointers, and by the
counters, the tags and the page map of `System`, whose lists they do not read. A call that `System`
cuts at a lock is cut here at the same place.
-/

namespace SearchEngine.TcMalloc

open ByteMemory LinkedRing

/-- `sizeof(linkedlist_t)` -/
abbrev PTRBYTES : Nat := 8

/-- The bytes, and the variables of type `freelist`. -/
structure Image where
  mem : Memory
  /-- `span->objs` -/
  objs : SpanPtr → Option Nat
  /-- `threadlocal.list[i].objs` -/
  cache : Tid → Nat → Option Nat
  /-- the local variable of a thread that walks a list: `start` of `fetch_from_centralcache` and of
  `return_objs_to_centralcache`, `objs` of `insert_to_threadcache` -/
  hand : Tid → Option Nat
  /-- what the last call of `allocate` returned -/
  ret : Tid → Option Nat

namespace Image

def setNext (ptr : Nat) (v : Option Nat) (m : Image) : Image :=
  { m with mem := setLink PTRBYTES ptr v m.mem }

def setObjs (span : SpanPtr) (v : Option Nat) (m : Image) : Image :=
  { m with objs := Function.update m.objs span v }

def setCache (t : Tid) (index : Nat) (v : Option Nat) (m : Image) : Image :=
  { m with cache := Function.update m.cache t (Function.update (m.cache t) index v) }

def setHand (t : Tid) (v : Option Nat) (m : Image) : Image :=
  { m with hand := Function.update m.hand t v }

def setRet (t : Tid) (v : Nat) (m : Image) : Image :=
  { m with ret := Function.update m.ret t (some v) }

/-- `ptr->next` -/
def next (m : Image) (ptr : Nat) : Option Nat := link PTRBYTES m.mem ptr

/-! ## The header -/

/-- `freelist_push` -/
def freelistPush (span : SpanPtr) (ptr : Nat) (m : Image) : Image :=
  (m.setNext ptr (m.objs span)).setObjs span (some ptr)

/-- `freelist_pop` on the list of a thread. -/
def freelistPop (t : Tid) (index : Nat) (m : Image) : Except Fault (Nat × Image) :=
  match m.cache t index with
  | none => .error .nullDeref
  | some curr => .ok (curr, m.setCache t index (m.next curr))

/-! ## The central cache -/

/-- The search of `get_span_central` in `cache->list[index]`. -/
def scanCentral (index : Nat) (h : Heap) (m : Image) : Except Fault (Option SpanPtr) :=
  match scan h.next (fun s => m.objs s ≠ none) (h.list index) (h.brk + 1) (h.list index) with
  | none => .error .endless
  | some found => .ok found

/-- The carving loop of `get_span_central`. -/
def carveLoop (size : Nat) (fin : Nat) (newSpan : SpanPtr) (ptr : Nat) (m : Image) : Image :=
  if 0 < size ∧ ptr + size ≤ fin then
    carveLoop size fin newSpan (ptr + size) ((m.setNext ptr none).freelistPush newSpan ptr)
  else m
  termination_by fin - ptr
  decreasing_by omega

/-- The part of `get_span_central` after `fetch_span`. -/
def carveSpan (size : Nat) (newSpan : SpanPtr) (h : Heap) (m : Image) : Image :=
  let start := h.start newSpan
  m.carveLoop size (start + pagesToBytes32 (h.pageSize newSpan)) newSpan start

/-- `get_span_central` -/
def getSpanCentral (env : Env) (size : Nat) (h : Heap) (m : Image) : Except Fault Image := do
  let index ← sizeClass size
  match ← m.scanCentral index h with
  | some _ => .ok m
  | none => do
    let (newSpan, h) ← fetchSpan env BATCH h
    .ok (m.carveSpan size newSpan h)

/-- The loop of `fetch_objs`, with `n` rounds left: the last object passed, and the first one that
is not. -/
def passObjs (m : Image) : Nat → Option Nat → Option Nat → Option Nat × Option Nat
  | 0, prev, ptr => (prev, ptr)
  | _ + 1, prev, none => (prev, none)
  | n + 1, _, some ptr => m.passObjs n (some ptr) (m.next ptr)

/-- `max_iter` of `fetch_objs` -/
def maxIter (num : Nat) (span : SpanPtr) (h : Heap) : Nat :=
  let avail :=
    if h.objRefcount span ≤ h.objLen span then h.objLen span - h.objRefcount span
    else h.objLen span + 2 ^ 64 - h.objRefcount span
  min num avail

/-- The part of `fetch_objs` after `get_span_central`. -/
def fetchObjs (t : Tid) (num : Nat) (span : SpanPtr) (h : Heap) (m : Image) :
    Except Fault Image :=
  let (prev, ptr) := m.passObjs (maxIter num span h) none (m.objs span)
  match prev with
  -- `(*end)->next = NULL`
  | none => .error .nullDeref
  | some last => .ok (((m.setHand t (m.objs span)).setNext last none).setObjs span ptr)

/-- The loop of `return_objs_to_centralcache`, with the span of the last round. The bound on the
rounds stands for a list that ends. -/
def returnLoop (t : Tid) : Nat → Option SpanPtr → Heap → Image →
    Except Fault (Option SpanPtr × Heap × Image)
  | 0, last, h, m => if m.hand t = none then .ok (last, h, m) else .error .endless
  | n + 1, last, h, m =>
    match m.hand t with
    | none => .ok (last, h, m)
    | some start => do
      let next := m.next start
      let (span, h) ← returnObj start h
      returnLoop t n (some span) h ((m.freelistPush span start).setHand t next)

/-- `return_objs_to_centralcache` up to its call of `return_span_to_pgcache`; `leave_idle` changes
neither a count nor a list. -/
def returnObjs (t : Tid) (h : Heap) (m : Image) : Except Fault Image := do
  match ← m.returnLoop t (h.brk + 1) none h with
  | (none, _) => .error .nullDeref
  | (some span, h, m) =>
    if h.objRefcount span = 0 then .ok (m.setObjs span none) else .ok m

/-! ## The thread caches -/

/-- The loop of `insert_to_threadcache`, with a bound on the rounds. -/
def insertToThreadcache (t : Tid) (index : Nat) : Nat → Image → Except Fault Image
  | 0, m => if m.hand t = none then .ok m else .error .endless
  | n + 1, m =>
    match m.hand t with
    | none => .ok m
    | some objs =>
      let next := m.next objs
      let m := m.setNext objs (m.cache t index)
      insertToThreadcache t index n ((m.setCache t index (some objs)).setHand t next)

/-- `allocate(nbytes)` up to the lock of `fetch_from_centralcache`. -/
def allocate (t : Tid) (nbytes : Nat) (m : Image) : Except Fault Image := do
  let index ← sizeClass nbytes
  match m.cache t index with
  | none => .ok m
  | some _ => do
    let (pop, m) ← m.freelistPop t index
    .ok (m.setRet t pop)

/-- `deallocate(alloc_ptr, nbytes)` up to the lock of `return_objs_to_centralcache`. -/
def deallocate (t : Tid) (index : Nat) (l : ThreadList) (allocPtr : Nat) (m : Image) : Image :=
  let head := m.cache t index
  let m := m.setNext allocPtr head
  if l.objlen = l.maxLength then (m.setCache t index none).setHand t (some allocPtr)
  else m.setCache t index (some allocPtr)

/-- `tc_malloc`; a large block is not on a free list. -/
def tcMalloc (t : Tid) (size : Nat) (m : Image) : Except Fault Image :=
  if size ≤ THRESHALLOC then m.allocate t size else .ok m

/-- `tc_free` up to its first lock. -/
def tcFree (s : Sys) (t : Tid) (ptr : Nat) (m : Image) : Except Fault Image := do
  match ← mapAddrToSpan ptr s.heap with
  | none => .error .nullDeref
  | some span =>
    if 0 < s.heap.objsSize span ∧ s.heap.objsSize span ≤ THRESHALLOC then do
      let index ← sizeClass (s.heap.objsSize span)
      .ok (m.deallocate t index (s.cache t index) ptr)
    else .ok m

/-! ## Steps -/

/-- The call in progress goes on to its next cut. -/
def continueCall (s : Sys) (t : Tid) (m : Image) : Pc → Except Fault Image
  | .start | .ready | .refill .. => .ok m
  | .initLoop i => if i < CLASSES then .ok (m.setCache t i none) else .ok m
  | .fetch _ index num => do
    match ← m.scanCentral index s.heap with
    | some span => m.fetchObjs t num span s.heap
    | none => .ok m
  | .carve _ index num span =>
    (m.carveSpan (indexToSize index) span s.heap).fetchObjs t num span
      (TcMalloc.carveSpan (indexToSize index) index span s.heap)
  | .insert k index _ => do
    let m ← m.insertToThreadcache t index (s.heap.brk + 1)
    match k with
    | .threadInit _ => .ok m
    | .allocate _ => do
      let (pop, m) ← m.freelistPop t index
      .ok (m.setRet t pop)
  | .flush .. => m.returnObjs t s.heap
  | .recycle span | .freeLarge span => .ok (m.setObjs span none)

/-- The pointers after a step. -/
def step (s : Sys) (m : Image) : Event → Except Fault Image
  | (_, .init) => .ok m
  | (t, .malloc size) => m.tcMalloc t size
  | (t, .free ptr) => m.tcFree s t ptr
  | (t, .run) => m.continueCall s t (s.pc t)

/-- The loop of `tc_central_init` from round `i` on, with `n` rounds left. -/
def centralInitLoop (env : Env) : Nat → Nat → Heap → Image → Except Fault Image
  | 0, _, _, m => .ok m
  | n + 1, i, h, m => do
    let m ← m.getSpanCentral env (indexToSize i) h
    let (_, h) ← TcMalloc.getSpanCentral env (indexToSize i) h
    centralInitLoop env n (i + 1) h m

/-- The pointers are null before `tc_central_init`. -/
def initial (mem : Memory) : Image where
  mem := mem
  objs := fun _ => none
  cache := fun _ _ => none
  hand := fun _ => none
  ret := fun _ => none

end Image

end SearchEngine.TcMalloc
