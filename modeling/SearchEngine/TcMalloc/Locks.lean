import SearchEngine.TcMalloc.System
import SearchEngine.Lib.LockOrder

/-!
# `tc_malloc.c`: the two locks

`System` runs what is under a lock in one step. Here `pthread_spin_lock` and
`pthread_spin_unlock` are steps of their own: `LockPc` names the places in the code where a
thread calls them, and the code between two such places. What that code does to the state is the
step of `System`.
-/

namespace SearchEngine.TcMalloc

open Reach LockOrder

inductive Lock where
  | centralcacheLock
  | pageheapLock
  deriving DecidableEq, Repr

/-- Where a thread is among the lock operations. -/
inductive LockPc where
  /-- outside of the locks -/
  | out
  /-- `fetch_from_centralcache` takes `centralcache_lock` -/
  | fetchLock
  /-- `fetch_objs` -/
  | fetchObjs
  /-- `get_span_central` takes `pageheap_lock` -/
  | spanLock
  /-- `fetch_span`, called by `get_span_central` -/
  | span
  | spanUnlock
  /-- the rest of `get_span_central` and of `fetch_objs` -/
  | carve
  | fetchUnlock
  /-- `return_objs_to_centralcache` takes `centralcache_lock` -/
  | flushLock
  /-- `return_objs_to_centralcache` up to its call of `return_span_to_pgcache` -/
  | flushObjs
  /-- `return_span_to_pgcache`, called by `return_objs_to_centralcache`, takes `pageheap_lock` -/
  | recycleLock
  | recycle
  | recycleUnlock
  | flushUnlock
  /-- `tc_malloc` takes `pageheap_lock` -/
  | mallocLock (size : Nat)
  | malloc (size : Nat)
  | mallocUnlock
  /-- `return_span_to_pgcache`, called by `tc_free`, takes `pageheap_lock` -/
  | freeLock
  | free
  | freeUnlock
  deriving DecidableEq, Repr

namespace LockPc

/-- The lock that the thread is to take, and where it is then. -/
def acquires : LockPc → Option (Lock × LockPc)
  | .fetchLock => some (.centralcacheLock, .fetchObjs)
  | .spanLock => some (.pageheapLock, .span)
  | .flushLock => some (.centralcacheLock, .flushObjs)
  | .recycleLock => some (.pageheapLock, .recycle)
  | .mallocLock size => some (.pageheapLock, .malloc size)
  | .freeLock => some (.pageheapLock, .free)
  | _ => none

/-- The lock that the thread is to release, and where it is then. -/
def releases : LockPc → Option (Lock × LockPc)
  | .spanUnlock => some (.pageheapLock, .carve)
  | .fetchUnlock => some (.centralcacheLock, .out)
  | .recycleUnlock => some (.pageheapLock, .flushUnlock)
  | .flushUnlock => some (.centralcacheLock, .out)
  | .mallocUnlock => some (.pageheapLock, .out)
  | .freeUnlock => some (.pageheapLock, .out)
  | _ => none

/-- The thread is in code that is a step of `System`: `act`, from where `System` has it. -/
def Runs : LockPc → Pc → Act → Prop
  | .out, .start, .init => True
  | .out, .ready, .malloc size => size ≤ THRESHALLOC
  | .out, .ready, .free _ => True
  | .out, .initLoop _, .run => True
  | .out, .insert .., .run => True
  | .fetchObjs, .fetch .., .run => True
  | .span, .refill .., .run => True
  | .carve, .carve .., .run => True
  | .flushObjs, .flush .., .run => True
  | .recycle, .recycle _, .run => True
  | .malloc size, .ready, .malloc size' => size' = size
  | .free, .freeLarge _, .run => True
  | _, _, _ => False

/-- Where the thread is after that step, by where `System` has it then. -/
def after : LockPc → Pc → LockPc
  | .out, .fetch .. => .fetchLock
  | .out, .flush .. => .flushLock
  | .out, .freeLarge _ => .freeLock
  | .fetchObjs, .refill .. => .spanLock
  | .fetchObjs, _ => .fetchUnlock
  | .span, _ => .spanUnlock
  | .carve, _ => .fetchUnlock
  | .flushObjs, .recycle _ => .recycleLock
  | .flushObjs, _ => .flushUnlock
  | .recycle, _ => .recycleUnlock
  | .malloc _, _ => .mallocUnlock
  | .free, _ => .freeUnlock
  | _, _ => .out

end LockPc

/-- The process with its locks. -/
structure LockSys where
  sys : Sys
  owner : Lock → Option Tid
  pos : Tid → LockPc

/-- `pthread_spin_lock` by a thread that finds the lock free. -/
def LockSys.lock (s : LockSys) (t : Tid) (l : Lock) (p : LockPc) : LockSys :=
  { s with owner := Function.update s.owner l (some t), pos := Function.update s.pos t p }

/-- `pthread_spin_unlock` -/
def LockSys.unlock (s : LockSys) (t : Tid) (l : Lock) (p : LockPc) : LockSys :=
  { s with owner := Function.update s.owner l none, pos := Function.update s.pos t p }

/-- A step of a thread. A thread whose lock is not free has none. -/
inductive LockStep (env : Env) : LockSys → Event → LockSys → Prop
  | lock {s : LockSys} {t : Tid} {l : Lock} {p : LockPc} (hpos : (s.pos t).acquires = some (l, p))
      (hfree : s.owner l = none) : LockStep env s (t, .run) (s.lock t l p)
  | unlock {s : LockSys} {t : Tid} {l : Lock} {p : LockPc}
      (hpos : (s.pos t).releases = some (l, p)) : LockStep env s (t, .run) (s.unlock t l p)
  /-- `tc_malloc` of a large size, up to its lock -/
  | large {s : LockSys} {t : Tid} {size : Nat} (hpos : s.pos t = .out) (hpc : s.sys.pc t = .ready)
      (hsize : THRESHALLOC < size) :
      LockStep env s (t, .malloc size) { s with pos := Function.update s.pos t (.mallocLock size) }
  | code {s : LockSys} {t : Tid} {act : Act} {sys : Sys} (hruns : (s.pos t).Runs (s.sys.pc t) act)
      (hnext : next env s.sys (t, act) = .ok sys) :
      LockStep env s (t, act)
        { s with sys := sys, pos := Function.update s.pos t ((s.pos t).after (sys.pc t)) }

/-- The process after `tc_central_init`, with both locks free. -/
def LockSys.initial (h : Heap) : LockSys where
  sys := .initial h
  owner := fun _ => none
  pos := fun _ => .out

/-- The thread is at a call of `pthread_spin_lock`. -/
def LockSys.Waits (s : LockSys) (t : Tid) (l : Lock) : Prop := ∃ p, (s.pos t).acquires = some (l, p)

/-- The thread has the lock. -/
def LockSys.Holds (s : LockSys) (t : Tid) (l : Lock) : Prop := s.owner l = some t

/-- A set of threads waits for itself. -/
def LockSys.Deadlocked (s : LockSys) (W : Set Tid) : Prop := CircularWait s.Holds s.Waits W

/-- `s` is reached from the end of `tc_central_init` by steps of any threads that meet `ok`. -/
def LockReachable (env : Env) (ok : LockSys → Event → Prop) (s : LockSys) : Prop :=
  ∃ h₀, tcCentralInit env = .ok h₀ ∧ Reaches (LockStep env) ok (.initial h₀) s

end SearchEngine.TcMalloc
