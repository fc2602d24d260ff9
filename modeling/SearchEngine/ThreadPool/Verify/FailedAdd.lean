import SearchEngine.ThreadPool.Verify.Fifo

/-!
# A failed allocation stops the pool

When `tc_calloc` returns `NULL`, `add_job_to_pool` returns between its `pthread_mutex_lock` and its
`pthread_mutex_unlock`. The mutex then belongs to a thread that is not in a critical section
(`Stopped`), and no step of any thread changes that (`Stopped.step`).
-/

namespace SearchEngine.ThreadPool

open Reach

section Failed

variable {n : Nat} {Job : Type} {s s' t t' : Pool n Job} {e : Event n Job} {c : Nat} {job : Job}

/-- Runs in which any of the allocations may fail. -/
abbrev Runs : Pool n Job → Pool n Job → Prop := Reaches Step fun _ _ => True

/-- The mutual exclusion does not depend on the allocations. -/
theorem Runs.locked (h : Runs .initial s) : Locked s := by
  refine Reaches.invariant (I := Locked) h initial_inv.locked ?_
  intro s e s' hs _ hstep
  exact hstep.move.locked hs

/-- A call of `add_job_to_pool` that fails in the step from `s` to `s'` leaves the queue unchanged
and the mutex free, so that the other threads get it, and the jobs on the list are dequeued. -/
structure Harmless (s s' : Pool n Job) : Prop where
  queue : s'.queue = s.queue
  free : s'.mutex = none
  enters : ∀ u, ∃ t, Runs s' t ∧ t.InSection u
  dequeues : ∀ j ∈ s.added, ∃ t, Runs s' t ∧ j ∈ t.taken.map Prod.snd

/-- The caller `c` has left with the mutex, in the state `s` of the queue. -/
structure Stopped (c : Nat) (s t : Pool n Job) : Prop where
  mutex : t.mutex = some (.caller c)
  outside : ∀ u, ¬ t.InSection u
  queue : t.queue = s.queue
  added : t.added = s.added
  taken : t.taken = s.taken

theorem Stopped.inside {u : Thread n} {P : Prop} (h : Stopped c s t) (hu : t.InSection u) : P :=
  (h.outside u hu).elim

theorem Stopped.held {P : Prop} (h : Stopped c s t) (hfree : t.mutex = none) : P := by
  rw [h.mutex] at hfree
  cases hfree

/-- A step of a worker that is not in its critical section, and does not enter it. -/
theorem Stopped.setWorker {i : Fin n} {pc : WorkerPc Job} (h : Stopped c s t)
    (hpc : ¬ (t.setWorker i pc).InSection (.worker i)) : Stopped c s (t.setWorker i pc) where
  mutex := h.mutex
  outside u hu := by
    by_cases hui : u = .worker i
    · subst hui
      exact hpc hu
    · exact h.outside u ((Pool.inSection_setWorker hui).mp hu)
  queue := h.queue
  added := h.added
  taken := h.taken

theorem Stopped.setCaller {d : Nat} {pc : CallerPc Job} (h : Stopped c s t)
    (hpc : ¬ (t.setCaller d pc).InSection (.caller d)) : Stopped c s (t.setCaller d pc) where
  mutex := h.mutex
  outside u hu := by
    by_cases hud : u = .caller d
    · subst hud
      exact hpc hu
    · exact h.outside u ((Pool.inSection_setCaller hud).mp hu)
  queue := h.queue
  added := h.added
  taken := h.taken

theorem Stopped.wake {woken : List (Fin n)} (h : Stopped c s t) : Stopped c s (t.wake woken) where
  mutex := h.mutex
  outside u hu := h.outside u (Pool.inSection_wake.mp hu)
  queue := h.queue
  added := h.added
  taken := h.taken

/-- No thread gets the mutex, and none gives it back. -/
theorem Stopped.step (h : Stopped c s t) (hstep : Step t e t') : Stopped c s t' := by
  cases hstep.move with
  | add pc => exact h.setCaller fun hu => Pool.inSection_caller.mp hu
  | lock pc free => exact h.held free
  | @fail d _ _ pc => exact h.inside (u := .caller d) (by simp only [Pool.InSection, pc])
  | @alloc d _ _ _ pc _ => exact h.inside (u := .caller d) (by simp only [Pool.InSection, pc])
  | @enqueue d _ _ _ _ _ pc _ => exact h.inside (u := .caller d) (by simp only [Pool.InSection, pc])
  | @signal d _ _ pc _ => exact h.inside (u := .caller d) (by simp only [Pool.InSection, pc])
  | @unlock d _ _ pc => exact h.inside (u := .caller d) (by simp only [Pool.InSection, pc])
  | enter pc free => exact h.held free
  | @sleep i _ pc _ => exact h.inside (u := .worker i) (by simp only [Pool.InSection, pc])
  | @leave i _ pc _ => exact h.inside (u := .worker i) (by simp only [Pool.InSection, pc])
  | @take i _ _ _ pc _ _ => exact h.inside (u := .worker i) (by simp only [Pool.InSection, pc])
  | @skip i _ pc _ => exact h.inside (u := .worker i) (by simp only [Pool.InSection, pc])
  | @release i _ pc => exact h.inside (u := .worker i) (by simp only [Pool.InSection, pc])
  | nothing pc => exact h.setWorker fun hu => Pool.inSection_worker.mp hu
  | exec pc => exact h.setWorker fun hu => Pool.inSection_worker.mp hu
  | done pc => exact h.setWorker fun hu => Pool.inSection_worker.mp hu
  | spurious => exact h.wake

theorem Stopped.run (h : Stopped c s t) (hrun : Runs t t') : Stopped c s t' := by
  refine Reaches.invariant (I := Stopped c s) hrun h ?_
  intro _ _ _ hs _ hstep
  exact hs.step hstep

/-- The call that fails keeps the mutex. -/
theorem Locked.stopped {woken : List (Fin n)} (h : Locked s) (hpc : s.caller c = .alloc job)
    (hstep : Step s (.call c none woken) s') : Stopped c s s' := by
  have hheld : s.mutex = some (.caller c) := h (.caller c) (by simp only [Pool.InSection, hpc])
  obtain rfl : s.setCaller c .idle = s' := by
    have hrun := hstep.2
    simp only [next, hpc] at hrun
    exact Except.ok.inj hrun
  refine ⟨hheld, ?_, rfl, rfl, rfl⟩
  intro u hu
  by_cases huc : u = .caller c
  · subst huc
    exact Pool.inSection_caller.mp hu
  · have hmutex := h u ((Pool.inSection_setCaller huc).mp hu)
    exact huc (Option.some.inj (hmutex.symm.trans hheld))

/-- After a call that fails the queue is as before, but no thread enters its critical section any
more, and nothing is enqueued or dequeued. -/
theorem failedAdd_stops {woken : List (Fin n)} (hs : Runs .initial s)
    (hpc : s.caller c = .alloc job) (hstep : Step s (.call c none woken) s') :
    ¬ Harmless s s' ∧ s'.queue = s.queue ∧ ∀ t, Runs s' t → Stopped c s t := by
  have hstop := hs.locked.stopped hpc hstep
  refine ⟨fun h => ?_, hstop.queue, fun t ht => hstop.run ht⟩
  exact hstop.held h.free

/-- The first call of `add_job_to_pool`, about to allocate its node. -/
def firstAdd : Pool 10 Nat :=
  { Pool.initial.setCaller 0 (.lock 7) with mutex := some (.caller 0) }.setCaller 0 (.alloc 7)

theorem firstAdd_caller : firstAdd.caller 0 = .alloc 7 := Pool.setCaller_self

theorem firstAdd_run : Runs .initial firstAdd := by
  have hadd : Step (Pool.initial : Pool 10 Nat) (.add 0 7) (Pool.initial.setCaller 0 (.lock 7)) :=
    ⟨rfl, rfl⟩
  have hpc : (Pool.setCaller (.initial : Pool 10 Nat) 0 (.lock 7)).caller 0 = .lock 7 :=
    Pool.setCaller_self
  refine (Reaches.single trivial hadd).tail (e := .call 0 none []) trivial ⟨?_, ?_⟩
  · simp only [Enabled, hpc]
    rfl
  · simp only [next, hpc]
    rfl

theorem firstAdd_fails : Step firstAdd (.call 0 none []) (firstAdd.setCaller 0 .idle) := by
  constructor
  · simp only [Enabled, firstAdd_caller]
    intro p hp
    cases hp
  · simp only [next, firstAdd_caller]
    rfl

theorem failedAdd_stops_first : ¬ Harmless firstAdd (firstAdd.setCaller 0 .idle) ∧
    (firstAdd.setCaller 0 .idle).queue = firstAdd.queue ∧
      ∀ t, Runs (firstAdd.setCaller 0 .idle) t → Stopped 0 firstAdd t :=
  failedAdd_stops firstAdd_run firstAdd_caller firstAdd_fails

/-- When the first allocation fails, the pool has stopped. -/
theorem firstAdd_stops : ∃ s : Pool 10 Nat, Runs .initial s ∧ s.caller 0 = .idle ∧
    s.mutex = some (.caller 0) ∧ ¬ Harmless firstAdd s := by
  refine ⟨firstAdd.setCaller 0 .idle, firstAdd_run.tail trivial firstAdd_fails, ?_, rfl,
    fun h => ?_⟩
  · exact Pool.setCaller_self
  · cases h.free

end Failed

end SearchEngine.ThreadPool
