import SearchEngine.Lib.CInt
import SearchEngine.Lib.Path
import SearchEngine.Lib.Reach

/-!
# `thread_pool.c`

The job queue is a singly linked list of nodes with a separate counter. A node is its
address, and each field of `struct Job_Node` is a function of it. The threads take turns
at single statements: taking and releasing `_mutex_lock`, the test of a wait loop,
blocking in `pthread_cond_wait`, the queue operations and `pthread_cond_signal`. What the
operating system chooses (who goes next, which node `tc_calloc` returns, whom a
signal wakes, spurious wake-ups) is in the event.

`Job` is the type behind `job_t *`; `n` is the number of workers.
-/

namespace SearchEngine.ThreadPool

open Reach

/-- `struct Job_Node *`: the address of a node. -/
abbrev NodePtr := Nat

/-- What ends a thread other than its return. -/
inductive Fault where
  /-- a null pointer is dereferenced -/
  | nullDeref
  deriving DecidableEq, Repr

section Queue

variable {Job : Type}

/-- `struct Job_Queue`, with the fields of the nodes. -/
structure JobQueue (Job : Type) where
  size : Int
  head : Option NodePtr
  tail : Option NodePtr
  /-- the field `job` of a node -/
  job : NodePtr → Option Job
  /-- the field `next` of a node -/
  next : NodePtr → Option NodePtr

/-- `create_job_queue` -/
def createJobQueue : JobQueue Job where
  size := 0
  head := none
  tail := none
  job := fun _ => none
  next := fun _ => none

/-- `enqueue_job` -/
def enqueueJob (node : NodePtr) (q : JobQueue Job) : Except Fault (JobQueue Job) := do
  let q ← match q.head with
    | none => .ok { q with tail := some node, head := some node }
    | some _ =>
      match q.tail with
      | none => .error .nullDeref
      | some tail =>
        .ok { q with next := Function.update q.next tail (some node), tail := some node }
  .ok { q with size := CInt.int (q.size + 1) }

/-- `dequeue_job` -/
def dequeueJob (q : JobQueue Job) : Except Fault (Option Job × JobQueue Job) :=
  if q.size = 0 then .ok (none, q)
  else
    match q.head with
    | none => .error .nullDeref
    | some tmp => .ok (q.job tmp, { q with head := q.next tmp, size := CInt.int (q.size - 1) })

/-- The node that `tc_calloc` returns is zeroed. -/
def zeroNode (node : NodePtr) (q : JobQueue Job) : JobQueue Job :=
  { q with job := Function.update q.job node none, next := Function.update q.next node none }

/-- `job_node->job = job` -/
def setJob (node : NodePtr) (job : Job) (q : JobQueue Job) : JobQueue Job :=
  { q with job := Function.update q.job node (some job) }

end Queue

/-! ## The threads -/

/-- Where a worker is in `activate_workers`; `job` is its local variable. -/
inductive WorkerPc (Job : Type) where
  /-- `pthread_mutex_lock` at the top of the loop -/
  | lock (job : Option Job)
  /-- the test of the wait loop -/
  | test (job : Option Job)
  /-- blocked in `pthread_cond_wait` -/
  | asleep (job : Option Job)
  /-- woken in `pthread_cond_wait`, to take the mutex again -/
  | relock (job : Option Job)
  /-- behind the wait loop -/
  | take (job : Option Job)
  /-- `pthread_mutex_unlock` -/
  | unlock (job : Option Job)
  /-- "nothing to do" -/
  | check (job : Option Job)
  /-- in `exec_func` -/
  | exec (job : Job)
  deriving DecidableEq, Repr

def WorkerPc.isAsleep {Job : Type} : WorkerPc Job → Bool
  | .asleep _ => true
  | _ => false

/-- Where a thread is in `add_job_to_pool`. -/
inductive CallerPc (Job : Type) where
  /-- no call is in progress -/
  | idle
  | lock (job : Job)
  /-- `tc_calloc` -/
  | alloc (job : Job)
  /-- `enqueue_job` -/
  | enqueue (node : NodePtr) (job : Job)
  /-- `pthread_cond_signal` -/
  | signal
  | unlock
  deriving DecidableEq, Repr

/-- The threads that use the pool: `n` workers, and any number of callers of
`add_job_to_pool`. -/
inductive Thread (n : Nat) where
  | worker (i : Fin n)
  | caller (c : Nat)
  deriving DecidableEq, Repr

/-- The pool and its threads. `nodes`, `added` and `taken` are bookkeeping: the nodes
allocated, the jobs enqueued, and the jobs dequeued with the worker each went to. -/
structure Pool (n : Nat) (Job : Type) where
  queue : JobQueue Job
  /-- the holder of `_mutex_lock` -/
  mutex : Option (Thread n)
  worker : Fin n → WorkerPc Job
  caller : Nat → CallerPc Job
  nodes : List NodePtr
  added : List Job
  taken : List (Fin n × Job)

variable {n : Nat} {Job : Type}

namespace Pool

def setWorker (s : Pool n Job) (i : Fin n) (pc : WorkerPc Job) : Pool n Job :=
  { s with worker := Function.update s.worker i pc }

def setCaller (s : Pool n Job) (c : Nat) (pc : CallerPc Job) : Pool n Job :=
  { s with caller := Function.update s.caller c pc }

/-- The worker is blocked in `pthread_cond_wait`. -/
def Asleep (s : Pool n Job) (i : Fin n) : Prop := (s.worker i).isAsleep

instance (s : Pool n Job) (i : Fin n) : Decidable (s.Asleep i) :=
  inferInstanceAs (Decidable (_ = true))

/-- A worker that a signal or a spurious wake-up reaches leaves `pthread_cond_wait`. -/
def wake (woken : List (Fin n)) (s : Pool n Job) : Pool n Job :=
  { s with
    worker := fun i => match s.worker i with
      | .asleep job => if i ∈ woken then .relock job else .asleep job
      | pc => pc }

/-- After `init_pool`: the workers are at the top of their loops. -/
def initial : Pool n Job where
  queue := createJobQueue
  mutex := none
  worker := fun _ => .lock none
  caller := fun _ => .idle
  nodes := []
  added := []
  taken := []

end Pool

/-- The events. -/
inductive Event (n : Nat) (Job : Type) where
  /-- a thread calls `add_job_to_pool` -/
  | add (c : Nat) (job : Job)
  /-- a caller goes on; `tc_calloc` returns `node`, and a signal wakes `woken` -/
  | call (c : Nat) (node : Option NodePtr) (woken : List (Fin n))
  /-- a worker goes on, or its job ends -/
  | work (i : Fin n)
  /-- a spurious wake-up -/
  | spurious (i : Fin n)

/-- What the event is up to: a mutex is taken when it is free, memory that is allocated
is fresh, and a signal wakes workers that sleep, one at least if there is one. -/
def Enabled (s : Pool n Job) : Event n Job → Prop
  | .add c _ => s.caller c = .idle
  | .call c node woken => match s.caller c with
    | .idle => False
    | .lock _ => s.mutex = none
    | .alloc _ => ∀ p, node = some p → p ∉ s.nodes
    | .enqueue .. => True
    | .signal => (∀ i ∈ woken, s.Asleep i) ∧ ((∃ i, s.Asleep i) → woken ≠ [])
    | .unlock => True
  | .work i => match s.worker i with
    | .lock _ | .relock _ => s.mutex = none
    | .asleep _ => False
    | _ => True
  | .spurious i => s.Asleep i

/-- `add_job_to_pool`; when no node can be allocated it returns with the mutex. -/
def call (s : Pool n Job) (c : Nat) (node : Option NodePtr) (woken : List (Fin n)) :
    CallerPc Job → Except Fault (Pool n Job)
  | .idle => .ok s
  | .lock job => .ok ({ s with mutex := some (.caller c) }.setCaller c (.alloc job))
  | .alloc job =>
    match node with
    | none => .ok (s.setCaller c .idle)
    | some p =>
      .ok ({ s with
        queue := setJob p job (zeroNode p s.queue)
        nodes := p :: s.nodes }.setCaller c (.enqueue p job))
  | .enqueue p job => do
    let queue ← enqueueJob p s.queue
    .ok ({ s with queue := queue, added := s.added ++ [job] }.setCaller c .signal)
  | .signal => .ok ((s.wake woken).setCaller c .unlock)
  | .unlock => .ok ({ s with mutex := none }.setCaller c .idle)

/-- The loop of `activate_workers`. -/
def work (s : Pool n Job) (i : Fin n) : WorkerPc Job → Except Fault (Pool n Job)
  | .lock job => .ok ({ s with mutex := some (.worker i) }.setWorker i (.test job))
  | .test job =>
    if s.queue.size = 0 then .ok ({ s with mutex := none }.setWorker i (.asleep job))
    else .ok (s.setWorker i (.take job))
  | .asleep _ => .ok s
  | .relock job => .ok ({ s with mutex := some (.worker i) }.setWorker i (.test job))
  | .take job =>
    if s.queue.size ≠ 0 then do
      let (job, queue) ← dequeueJob s.queue
      .ok ({ s with
        queue := queue
        taken := s.taken ++ (job.map fun j => (i, j)).toList }.setWorker i (.unlock job))
    else .ok (s.setWorker i (.unlock job))
  | .unlock job => .ok ({ s with mutex := none }.setWorker i (.check job))
  | .check job =>
    match job with
    | none => .ok (s.setWorker i (.lock none))
    | some j => .ok (s.setWorker i (.exec j))
  | .exec j => .ok (s.setWorker i (.lock (some j)))

/-- The state after an event. -/
def next (s : Pool n Job) : Event n Job → Except Fault (Pool n Job)
  | .add c job => .ok (s.setCaller c (.lock job))
  | .call c node woken => call s c node woken (s.caller c)
  | .work i => work s i (s.worker i)
  | .spurious i => .ok (s.wake [i])

/-- An event that can happen and does not fault. -/
def Step (s : Pool n Job) (e : Event n Job) (s' : Pool n Job) : Prop :=
  Enabled s e ∧ next s e = .ok s'

/-- `tc_calloc` does not fail. -/
def Allocates (s : Pool n Job) : Event n Job → Prop
  | .call c node _ => ∀ job, s.caller c = .alloc job → node ≠ none
  | _ => True

/-- `s` is reached from `init_pool` in a run in which no allocation fails. -/
def Reachable (s : Pool n Job) : Prop := Reaches Step Allocates Pool.initial s

end SearchEngine.ThreadPool
