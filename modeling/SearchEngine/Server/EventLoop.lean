import SearchEngine.Server.CString
import SearchEngine.ThreadPool.Pool
import Mathlib.Data.Finset.Card

/-!
# `server.c`: the event loop of `main`

`main` and the workers take turns at single statements, those of `add_job_to_pool` and
`activate_workers` as in `ThreadPool`. Of `thread_job` the model has what it does with its
descriptor: it reads and writes, and closes it. `files` is the system's table of open
descriptors. What the system chooses (which descriptors are ready, the number of a new
connection, who goes next) is in the event.
-/

namespace SearchEngine.Server

open Reach
open ThreadPool (Pool NodePtr)

abbrev FD_SETSIZE : Nat := 1024

/-- `fd_set`: the descriptors whose bits are set. -/
abbrev FdSet := Finset Nat

/-- `FD_SET` -/
def fdSet (fd : Nat) (set : FdSet) : Except Fault FdSet :=
  if fd < FD_SETSIZE then .ok (insert fd set) else .error .outOfBounds

/-- `FD_CLR` -/
def fdClr (fd : Nat) (set : FdSet) : Except Fault FdSet :=
  if fd < FD_SETSIZE then .ok (set.erase fd) else .error .outOfBounds

/-- `FD_ISSET` -/
def fdIsset (fd : Nat) (set : FdSet) : Except Fault Bool :=
  if fd < FD_SETSIZE then .ok (fd ∈ set) else .error .outOfBounds

namespace EventLoop

/-- What a descriptor refers to. -/
inductive File where
  /-- a file that was open before the loop -/
  | other
  /-- the socket `listenfd` -/
  | listener
  /-- the `k`th connection that was accepted -/
  | conn (k : Nat)
  deriving DecidableEq, Repr

/-- `args`. The field `file` is bookkeeping: what `fd` referred to when the job was made. -/
structure Args where
  fd : Nat
  file : Option File
  deriving DecidableEq, Repr

/-- Where `main` is in its loop; `i` and `descReady` are its local variables. -/
inductive MainPc where
  /-- `memcpy(&readyfds, &currentfds, sizeof(currentfds))` -/
  | copy
  | select
  /-- the test of the `for` loop -/
  | scan (i : Nat) (descReady : Int)
  /-- `accept`, in the test of the `while` loop -/
  | accept (i : Nat) (descReady : Int)
  /-- in `add_job_to_pool`, and then at `FD_CLR` -/
  | handing (i : Nat) (descReady : Int)
  | exited
  deriving DecidableEq, Repr

/-- A use that a job makes of its descriptor, and what it reaches. -/
structure Access (n : Nat) where
  worker : Fin n
  job : Args
  reached : Option File
  deriving DecidableEq, Repr

/-- `main`, the pool and the descriptors. `snapshot`, `transfers` and `closes` are bookkeeping:
the table at the last `select`, and what the jobs did with their descriptors. -/
structure State (n : Nat) where
  pc : MainPc
  currentfds : FdSet
  readyfds : FdSet
  maxfd : Nat
  files : Nat → Option File
  /-- the number of connections accepted -/
  accepted : Nat
  pool : Pool n Args
  /-- the worker is in `thread_job`, behind `close(fd)` -/
  closed : Fin n → Bool
  snapshot : Nat → Option File
  transfers : List (Access n)
  closes : List (Access n)

/-- The process before the loop: `listenfd`, and the other descriptors that are open. -/
structure Setup where
  listenfd : Nat
  others : Finset Nat
  /-- the descriptor limit -/
  limit : Nat
  std : ∀ fd < 3, fd ∈ others
  distinct : listenfd ∉ others
  listenfd_lt : listenfd < limit
  limit_le : limit ≤ FD_SETSIZE

variable {n : Nat}

/-- `main` before the first round, with the workers at the top of their loops. -/
def initial (c : Setup) : State n where
  pc := .copy
  currentfds := {c.listenfd}
  readyfds := ∅
  maxfd := c.listenfd
  files := fun fd => if fd ∈ c.others then some .other
    else if fd = c.listenfd then some .listener else none
  accepted := 0
  pool := .initial
  closed := fun _ => false
  snapshot := fun _ => none
  transfers := []
  closes := []

/-- The events. -/
inductive Event (n : Nat) where
  /-- `main` goes on, other than in the cases below -/
  | main
  /-- `select` returns `ready`, or fails -/
  | select (ready : Option FdSet)
  /-- `accept` returns `newfd`, or fails -/
  | accept (newfd : Option Nat)
  /-- `main` goes on in `add_job_to_pool` -/
  | call (node : Option NodePtr) (woken : List (Fin n))
  /-- a worker goes on in `activate_workers`, or returns from `thread_job` -/
  | work (i : Fin n)
  | spurious (i : Fin n)
  /-- a worker reads or writes in `thread_job` -/
  | transfer (i : Fin n)
  /-- a worker is at `close(fd)` -/
  | close (i : Fin n)

/-- The job that a worker runs and has not come to the end of. -/
def running (s : State n) (i : Fin n) : Option Args :=
  match s.pool.worker i with
  | .exec j => if s.closed i then none else some j
  | _ => none

/-- What the event is up to: `select` leaves only bits that were set, a new connection gets a
descriptor that is not in use, and a worker returns from `thread_job` after the `close`. -/
def Enabled (c : Setup) (s : State n) : Event n → Prop
  | .main => match s.pc with
    | .copy | .scan .. => True
    | .handing .. => s.pool.caller 0 = .idle
    | _ => False
  | .select ready => s.pc = .select ∧
      ∀ r, ready = some r → ∀ fd ∈ r, fd ∈ s.readyfds ∧ fd ≤ s.maxfd
  | .accept newfd => (match s.pc with | .accept .. => True | _ => False) ∧
      ∀ fd, newfd = some fd → s.files fd = none ∧ fd < c.limit
  | .call node woken => ThreadPool.Enabled s.pool (.call 0 node woken)
  | .work i => ThreadPool.Enabled s.pool (.work i) ∧ running s i = none
  | .spurious i => ThreadPool.Enabled s.pool (.spurious i)
  | .transfer i | .close i => (running s i).isSome

/-- A null pointer in the pool is one in the server. -/
def ofPool {α : Type} : Except ThreadPool.Fault α → Except Fault α
  | .ok a => .ok a
  | .error .nullDeref => .error .nullDeref

/-- The statements of `main` that the system does not decide. -/
def main (c : Setup) (s : State n) : MainPc → Except Fault (State n)
  | .copy => .ok { s with readyfds := s.currentfds, pc := .select }
  | .scan i descReady =>
    if i ≤ s.maxfd ∧ 0 < descReady then do
      if ← fdIsset i s.readyfds then
        let descReady := descReady - 1
        if i = c.listenfd then .ok { s with pc := .accept i descReady }
        else do
          let pool ← ofPool (ThreadPool.next s.pool (.add 0 ⟨i, s.files i⟩))
          .ok { s with pool := pool, pc := .handing i descReady }
      else .ok { s with pc := .scan (i + 1) descReady }
    else .ok { s with pc := .copy }
  | .handing i descReady => do
    let currentfds ← fdClr i s.currentfds
    .ok { s with currentfds := currentfds, pc := .scan (i + 1) descReady }
  | .select | .accept .. | .exited => .ok s

/-- The return of `select`. -/
def select (s : State n) (ready : Option FdSet) : State n :=
  match ready with
  | none => { s with pc := .exited }
  | some r =>
    if r.card = 0 then { s with pc := .exited }
    else { s with readyfds := r, snapshot := s.files, pc := .scan 0 r.card }

/-- The return of `accept`, and the rest of the `while` loop's body. -/
def accept (s : State n) (newfd : Option Nat) : MainPc → Except Fault (State n)
  | .accept i descReady =>
    match newfd with
    | none => .ok { s with pc := .scan (i + 1) descReady }
    | some fd =>
      let s := { s with
        files := Function.update s.files fd (some (.conn s.accepted))
        accepted := s.accepted + 1 }
      if fd = 0 then .ok { s with pc := .scan (i + 1) descReady }
      else do
        let currentfds ← fdSet fd s.currentfds
        .ok { s with currentfds := currentfds, maxfd := max s.maxfd fd }
  | _ => .ok s

/-- A read or write of a job. -/
def transfer (s : State n) (i : Fin n) (j : Args) : State n :=
  { s with transfers := s.transfers ++ [⟨i, j, s.files j.fd⟩] }

/-- `close(fd)` at the end of a job. -/
def close (s : State n) (i : Fin n) (j : Args) : State n :=
  { s with
    files := Function.update s.files j.fd none
    closed := Function.update s.closed i true
    closes := s.closes ++ [⟨i, j, s.files j.fd⟩] }

/-- The state after an event. -/
def next (c : Setup) (s : State n) : Event n → Except Fault (State n)
  | .main => main c s s.pc
  | .select ready => .ok (select s ready)
  | .accept newfd => accept s newfd s.pc
  | .call node woken => do
    let pool ← ofPool (ThreadPool.next s.pool (.call 0 node woken))
    .ok { s with pool := pool }
  | .work i => do
    let pool ← ofPool (ThreadPool.next s.pool (.work i))
    .ok { s with pool := pool, closed := Function.update s.closed i false }
  | .spurious i => do
    let pool ← ofPool (ThreadPool.next s.pool (.spurious i))
    .ok { s with pool := pool }
  | .transfer i => .ok ((running s i).elim s (transfer s i))
  | .close i => .ok ((running s i).elim s (close s i))

/-- An event that can happen and does not fault. -/
def Step (c : Setup) (s : State n) (e : Event n) (s' : State n) : Prop :=
  Enabled c s e ∧ next c s e = .ok s'

/-- `tc_calloc` does not fail. -/
def Allocates (s : State n) : Event n → Prop
  | .call node woken => ThreadPool.Allocates s.pool (.call 0 node woken)
  | _ => True

/-- `s` is reached from the start of the loop in a run in which no allocation fails. -/
def Reachable (c : Setup) (s : State n) : Prop := Reaches (Step c) Allocates (initial c) s

end EventLoop

end SearchEngine.Server
