import SearchEngine.TcMalloc.CentralCache
import SearchEngine.Lib.Reach

/-!
# `tc_malloc.c`: the thread caches, and the threads running together

A call of `tc_thread_init`, `tc_malloc` or `tc_free` is cut where it enters and
leaves the critical sections of `centralcache_lock` and `pageheap_lock`; `Pc` names
the cuts. `return_objs_to_centralcache` and `get_span_central` take `pageheap_lock`
while they hold `centralcache_lock`: other threads run between their parts, and
`centralLock` says who keeps them out of the central cache. What a thread does
between two cuts is one step (`next`), and a run is any sequence of enabled steps of
any threads.
-/

namespace SearchEngine.TcMalloc

open Reach

abbrev Tid := Nat

/-- What `fetch_from_centralcache` returns to: the loop of `tc_thread_init`, at its
round `i`, or `allocate(nbytes)`. -/
inductive Caller where
  | threadInit (i : Nat)
  | allocate (nbytes : Nat)
  deriving DecidableEq, Repr

/-- Where a thread is. -/
inductive Pc where
  /-- `tc_thread_init` is not called yet -/
  | start
  /-- round `i` of the loop of `tc_thread_init` -/
  | initLoop (i : Nat)
  /-- no call is in progress -/
  | ready
  /-- `fetch_from_centralcache(index)` takes `centralcache_lock`, to fetch `num` -/
  | fetch (k : Caller) (index num : Nat)
  /-- `get_span_central` found no span and takes `pageheap_lock` -/
  | refill (k : Caller) (index num : Nat)
  /-- `get_span_central` carves the span it fetched -/
  | carve (k : Caller) (index num : Nat) (span : SpanPtr)
  /-- `fetch_from_centralcache(index)` has released the lock, with the batch in hand -/
  | insert (k : Caller) (index : Nat) (batch : List Nat)
  /-- `return_objs_to_centralcache` takes `centralcache_lock` -/
  | flush (batch : List Nat) (nbytes : Nat)
  /-- `return_objs_to_centralcache` calls `return_span_to_pgcache` -/
  | recycle (span : SpanPtr)
  /-- `tc_free` calls `return_span_to_pgcache` -/
  | freeLarge (span : SpanPtr)

/-- A block in the hands of the user: its address, the size asked for, and the span it
was allocated from. -/
structure Block where
  ptr : Nat
  size : Nat
  span : SpanPtr
  deriving DecidableEq, Repr

/-- The process. `live` and `origin` are bookkeeping: the blocks returned by `tc_malloc`
and not passed to `tc_free` since, and the span from whose list each object was
fetched last. -/
structure Sys where
  heap : Heap
  cache : Tid → Nat → ThreadList
  pc : Tid → Pc
  centralLock : Option Tid
  live : List Block
  origin : Nat → SpanPtr

namespace Sys

def setPc (s : Sys) (t : Tid) (pc : Pc) : Sys := { s with pc := Function.update s.pc t pc }

def setCache (s : Sys) (t : Tid) (index : Nat) (l : ThreadList) : Sys :=
  { s with cache := Function.update s.cache t (Function.update (s.cache t) index l) }

end Sys

/-! ## The thread caches -/

/-- `init_threadlist` -/
def initThreadlist : ThreadList := ⟨[], 0, 1⟩

/-- The start of `fetch_from_centralcache(index)`: how many objects it asks for, and the
growth of `max_length`. -/
def fetchAmount (index : Nat) (l : ThreadList) : Nat × ThreadList :=
  let optSize := min MAXFETCHSIZE l.maxLength
  if optSize < MAXFETCHSIZE ∧ index ≤ 22 then (optSize, { l with maxLength := l.maxLength * 2 })
  else if optSize < MAXFETCHSIZE then (optSize, { l with maxLength := l.maxLength + 1 })
  else (optSize, l)

/-- `insert_to_threadcache` -/
def insertToThreadcache : List Nat → ThreadList → ThreadList
  | [], l => l
  | obj :: next, l =>
    insertToThreadcache next { l with objs := obj :: l.objs, objlen := l.objlen + 1 }

/-! ## Steps -/

/-- What a thread does in a step: it calls a function, or goes on with the call in
progress. -/
inductive Act where
  | init
  | malloc (size : Nat)
  | free (ptr : Nat)
  | run
  deriving DecidableEq, Repr

/-- An action of a thread. -/
abbrev Event := Tid × Act

/-- A thread can take a step: no call is in progress if it is to call, a size fits
`size_t`, a pointer it frees is live, and `centralcache_lock` is free if it is to take it. -/
def Enabled (s : Sys) : Event → Prop
  | (t, .init) => match s.pc t with
    | .start => True
    | _ => False
  | (t, .malloc size) => match s.pc t with
    | .ready => size < 2 ^ 64
    | _ => False
  | (t, .free ptr) => match s.pc t with
    | .ready => ∃ b ∈ s.live, b.ptr = ptr
    | _ => False
  | (t, .run) => match s.pc t with
    | .start | .ready => False
    | .fetch .. | .flush .. => s.centralLock = none
    | _ => True

/-- `allocate` and `tc_malloc` return the block at `ptr`. -/
def returnBlock (s : Sys) (t : Tid) (ptr : Nat) (size : Nat) (span : SpanPtr) : Sys :=
  { s with live := ⟨ptr, size, span⟩ :: s.live }.setPc t .ready

/-- `fetch_from_centralcache(index)` up to its lock. -/
def startFetch (s : Sys) (t : Tid) (k : Caller) (index : Nat) : Sys :=
  let (num, l) := fetchAmount index (s.cache t index)
  (s.setCache t index l).setPc t (.fetch k index num)

/-- `allocate(nbytes)` up to the lock of `fetch_from_centralcache`. -/
def allocate (s : Sys) (t : Tid) (nbytes : Nat) : Except Fault Sys := do
  let index ← sizeClass nbytes
  match (s.cache t index).objs with
  | [] => .ok (startFetch s t (.allocate nbytes) index)
  | _ :: _ => do
    let (pop, l) ← freelistPop (s.cache t index)
    .ok (returnBlock (s.setCache t index l) t pop nbytes (s.origin pop))

/-- `tc_malloc` -/
def tcMalloc (env : Env) (s : Sys) (t : Tid) (size : Nat) : Except Fault Sys :=
  if size ≤ THRESHALLOC then allocate s t size
  else do
    let (span, h) ← fetchSpan env (bytesToPages size) s.heap
    .ok (returnBlock { s with heap := h } t (h.start span) size span)

/-- `deallocate(alloc_ptr, nbytes)` up to the lock of `return_objs_to_centralcache`. -/
def deallocate (s : Sys) (t : Tid) (allocPtr : Nat) (nbytes : Nat) : Except Fault Sys := do
  let index ← sizeClass nbytes
  let l := s.cache t index
  if l.objlen = l.maxLength then
    .ok ((s.setCache t index { l with objs := [], objlen := 0 }).setPc t
      (.flush (allocPtr :: l.objs) nbytes))
  else
    .ok (s.setCache t index { l with objs := allocPtr :: l.objs, objlen := l.objlen + 1 })

/-- `tc_free` up to its first lock. -/
def tcFree (s : Sys) (t : Tid) (ptr : Nat) : Except Fault Sys := do
  let s := { s with live := s.live.eraseP (fun b => b.ptr = ptr) }
  match ← mapAddrToSpan ptr s.heap with
  | none => .error .nullDeref
  | some span =>
    if 0 < s.heap.objsSize span ∧ s.heap.objsSize span ≤ THRESHALLOC then
      deallocate s t ptr (s.heap.objsSize span)
    else .ok (s.setPc t (.freeLarge span))

/-- The end of `fetch_objs` and the release of `centralcache_lock`. -/
def endFetch (s : Sys) (t : Tid) (k : Caller) (index num : Nat) (span : SpanPtr) :
    Except Fault Sys := do
  let (batch, h) ← takeObjs num index span s.heap
  .ok ({ s with
    heap := h
    centralLock := none
    origin := fun obj => if obj ∈ batch then span else s.origin obj }.setPc t
      (.insert k index batch))

/-- The rest of `fetch_from_centralcache`, and of the function that called it. -/
def finishFetch (s : Sys) (t : Tid) (k : Caller) (index : Nat) (batch : List Nat) :
    Except Fault Sys := do
  let l := insertToThreadcache batch (s.cache t index)
  match k with
  | .threadInit i => .ok ((s.setCache t index l).setPc t (.initLoop (i + 1)))
  | .allocate nbytes => do
    let (pop, l) ← freelistPop l
    .ok (returnBlock (s.setCache t index l) t pop nbytes (s.origin pop))

/-- The call in progress goes on to its next cut. -/
def continueCall (env : Env) (s : Sys) (t : Tid) : Pc → Except Fault Sys
  | .start => .ok s
  | .ready => .ok s
  | .initLoop i =>
    if i < CLASSES then .ok (startFetch (s.setCache t i initThreadlist) t (.threadInit i) i)
    else .ok (s.setPc t .ready)
  | .fetch k index num => do
    match ← scanCentral index s.heap with
    | some span => endFetch s t k index num span
    | none => .ok ({ s with centralLock := some t }.setPc t (.refill k index num))
  | .refill k index num => do
    let (span, h) ← fetchSpan env BATCH s.heap
    .ok ({ s with heap := h }.setPc t (.carve k index num span))
  | .carve k index num span =>
    endFetch { s with heap := carveSpan (indexToSize index) index span s.heap } t k index num span
  | .insert k index batch => finishFetch s t k index batch
  | .flush batch nbytes => do
    match ← returnObjs batch nbytes s.heap with
    | (none, h) => .ok ({ s with heap := h }.setPc t .ready)
    | (some span, h) =>
      .ok ({ s with heap := h, centralLock := some t }.setPc t (.recycle span))
  | .recycle span => do
    let h ← returnSpanToPgcache span s.heap
    .ok ({ s with heap := h, centralLock := none }.setPc t .ready)
  | .freeLarge span => do
    let h ← returnSpanToPgcache span s.heap
    .ok ({ s with heap := h }.setPc t .ready)

/-- The state after a step. -/
def next (env : Env) (s : Sys) : Event → Except Fault Sys
  | (t, .init) => .ok (s.setPc t (.initLoop 0))
  | (t, .malloc size) => tcMalloc env s t size
  | (t, .free ptr) => tcFree s t ptr
  | (t, .run) => continueCall env s t (s.pc t)

/-- A step that a thread can take and that returns. -/
def Step (env : Env) (s : Sys) (e : Event) (s' : Sys) : Prop :=
  Enabled s e ∧ next env s e = .ok s'

/-! ## The start -/

/-- The heap after `init_globals` and `sbrk(0)`. -/
def initGlobals (env : Env) : Heap where
  prev := fun _ => none
  next := fun _ => none
  objs := fun _ => []
  objLen := fun _ => 0
  loc := fun _ => .pageheap
  start := fun _ => 0
  objsSize := fun _ => 0
  objRefcount := fun _ => 0
  pageSize := fun _ => 0
  pageId := fun _ => 0
  pgList := fun _ => none
  iniBrkAddr := env.ini
  pageMapping := fun _ => none
  chunk := 0
  remBytes := 0
  currInd := 0
  list := fun _ => none
  idle := fun _ => none
  brk := env.ini
  sbrkCalls := 0
  chunks := []
  regions := []
  stray := False

/-- The loop of `tc_central_init` from round `i` on, with `n` rounds left. -/
def centralInitLoop (env : Env) : Nat → Nat → Heap → Except Fault Heap
  | 0, _, h => .ok h
  | n + 1, i, h => do
    let (_, h) ← getSpanCentral env (indexToSize i) h
    centralInitLoop env n (i + 1) h

/-- `tc_central_init` -/
def tcCentralInit (env : Env) : Except Fault Heap :=
  centralInitLoop env CLASSES 0 (initGlobals env)

/-- The process after `tc_central_init`: no thread has called `tc_thread_init`, and the
thread-local lists are zero. -/
def Sys.initial (h : Heap) : Sys where
  heap := h
  cache := fun _ _ => ⟨[], 0, 0⟩
  pc := fun _ => .start
  centralLock := none
  live := []
  origin := fun _ => 0

/-- `s` is reached from the end of `tc_central_init` by a run whose steps all meet
`ok`. -/
def Reachable (env : Env) (ok : Sys → Event → Prop) (s : Sys) : Prop :=
  ∃ h₀, tcCentralInit env = .ok h₀ ∧ Reaches (Step env) ok (Sys.initial h₀) s

end SearchEngine.TcMalloc
