import SearchEngine.Server.Verify.Service
import SearchEngine.ThreadPool.Verify.Drain

/-!
# At rest, every connection has been served

A job that was taken is in the hands of its worker until its descriptor is closed (`Finished`).
When the workers and `add_job_to_pool` have nothing left to do, the jobs of all connections that
`main` has handed over were taken (`ThreadPool.AtRest.empty`), and so they are closed, and as
`thread_job` alone leaves them.
-/

namespace SearchEngine.Server.Service

open Memory Outcome Reach
open EventLoop (Args File Setup LoopInv JobInv running)

variable {n : Nat} {c : Setup} {w : World}

section Loop

variable {l l' : EventLoop.State n} {e : EventLoop.Event n}

/-- What the threads of the server do to the pool is a run of the pool. -/
theorem pool_reachable (hr : EventLoop.Reachable c l) : ThreadPool.Reachable l.pool := by
  refine (hr.invariant (I := fun l => LoopInv c l ∧ ThreadPool.Reachable l.pool)
    ⟨EventLoop.initial_inv, .refl⟩ ?_).2
  rintro l e l' ⟨hl, h⟩ hall hstep
  refine ⟨hl.step hall hstep, ?_⟩
  cases hstep.move with
  | add pc ready conn =>
    have hidle := hl.watch.idle (by simp [pc])
    exact h.tail (e := .add 0 _) trivial ⟨hidle, rfl⟩
  | pool step goes alloc other => exact h.tail (alloc hall) step
  | _ => exact h

/-- A job that was taken is held by its worker, or has been closed. -/
structure Finished (l : EventLoop.State n) : Prop where
  ended : ∀ i j, l.pool.worker i = .exec j → l.closed i = true →
    j ∈ l.closes.map EventLoop.Access.job
  held : ∀ x ∈ l.pool.taken, EventLoop.Holds l x.1 x.2 ∨ x.2 ∈ l.closes.map EventLoop.Access.job

/-- The other threads of the pool leave a job where it is. -/
theorem holds_of_ne {pool : ThreadPool.Pool n Args} {pe : ThreadPool.Event n Args} {i : Fin n}
    {j : Args} (hstep : ThreadPool.Step l.pool pe pool) (hpe : pe ≠ .work i)
    (h : EventLoop.Holds l i j) : pool.worker i = l.pool.worker i := by
  refine awake_of_ne hstep.move hpe ?_
  rcases h with hw | hw | ⟨hw, -⟩ <;> rw [hw] <;> rfl

theorem Finished.outside (h : Finished l) (hstep : EventLoop.Step c l e l')
    (hwork : ∀ i, e ≠ .work i) (hclose : ∀ i, e ≠ .close i) : Finished l' := by
  rcases outside_cases hstep hwork hclose with hsame | ⟨pe, pool, hpool, hpe, rfl⟩
  · refine ⟨fun i j hw hc => ?_, fun x hx => ?_⟩
    · rw [hsame.closes]
      exact h.ended i j (hsame.worker ▸ hw) (hsame.closed ▸ hc)
    · rw [hsame.taken] at hx
      simpa only [EventLoop.Holds, hsame.worker, hsame.closed, hsame.closes] using h.held x hx
  · have htaken : pool.taken = l.pool.taken := by
      cases hpool.move with
      | take pc size run => exact absurd rfl (hpe _)
      | _ => rfl
    refine ⟨fun i j hw hc => h.ended i j ((exec_of_ne hpool.move (hpe i)).mp hw) hc, ?_⟩
    intro x hx
    rw [show ({ l with pool := pool } : EventLoop.State n).pool.taken = pool.taken from rfl,
      htaken] at hx
    refine (h.held x hx).imp_left fun hh => ?_
    simpa only [EventLoop.Holds, holds_of_ne hpool (hpe x.1) hh] using hh

/-- The worker keeps the job it has dequeued. -/
theorem holds_work {p p' : ThreadPool.Pool n Args} {i : Fin n} {j : Args}
    (hm : ThreadPool.Move p (.work i) p')
    (hw : p.worker i = .unlock (some j) ∨ p.worker i = .check (some j)) :
    p'.worker i = .check (some j) ∨ p'.worker i = .exec j := by
  cases hm with
  | @release i job pc =>
    rcases hw with hw | hw <;> rw [hw] at pc <;> cases pc
    exact .inl (Function.update_self ..)
  | @exec i j' pc =>
    rcases hw with hw | hw <;> rw [hw] at pc <;> cases pc
    exact .inr (Function.update_self ..)
  | enter pc => rcases hw with hw | hw <;> rcases pc with pc | pc <;> rw [hw] at pc <;> cases pc
  | sleep pc | leave pc | take pc | skip pc | nothing pc | done pc =>
    rcases hw with hw | hw <;> rw [hw] at pc <;> cases pc

/-- A job is taken by the worker that has it then. -/
theorem taken_work {p p' : ThreadPool.Pool n Args} {i : Fin n} {x : Fin n × Args}
    (hm : ThreadPool.Move p (.work i) p') (hx : x ∈ p'.taken) :
    x ∈ p.taken ∨ x.1 = i ∧ p'.worker i = .unlock (some x.2) := by
  cases hm with
  | @take i job job' queue pc size run =>
    rcases List.mem_append.mp hx with hx | hx
    · exact .inl hx
    · obtain ⟨j, rfl, rfl⟩ : ∃ j, job' = some j ∧ x = (i, j) := by
        cases job' with
        | none => cases hx
        | some j => exact ⟨j, rfl, by simpa using hx⟩
      exact .inr ⟨rfl, Function.update_self ..⟩
  | _ => exact .inl hx

/-- A step in `activate_workers`: the job in the hands of the worker goes on, or is new. -/
theorem Finished.work {i : Fin n} (h : Finished l)
    (hstep : EventLoop.Step c l (.work i) l') : Finished l' := by
  obtain ⟨hidle, -, hcl, hopen, pool, hpool, rfl⟩ := running_work hstep
  have hother {k : Fin n} (hk : k ≠ i) : l'.closed k = l.closed k := by
    obtain ⟨pool, -, hret⟩ := bind_eq_ok hstep.2
    obtain rfl := Except.ok.inj hret
    exact Function.update_of_ne hk ..
  have hne {k : Fin n} (hk : k ≠ i) : (.work i : ThreadPool.Event n Args) ≠ .work k :=
    fun he => hk (ThreadPool.Event.work.inj he).symm
  refine ⟨fun k j hw hc => ?_, fun x hx => ?_⟩
  · by_cases hk : k = i
    · rw [hk, hopen] at hc
      cases hc
    · rw [hcl]
      exact h.ended k j ((exec_of_ne hpool.move (hne hk)).mp hw) (hother hk ▸ hc)
  · rw [hcl]
    rcases taken_work hpool.move hx with hx | ⟨rfl, hw⟩
    · refine (h.held x hx).imp_left fun hh => ?_
      by_cases hk : x.1 = i
      · rw [EventLoop.Holds, hk] at hh ⊢
        rcases hh with hw | hw | ⟨hw, hc⟩
        · exact .inr ((holds_work hpool.move (.inl hw)).imp_right fun hw' => ⟨hw', hopen⟩)
        · exact .inr ((holds_work hpool.move (.inr hw)).imp_right fun hw' => ⟨hw', hopen⟩)
        · rw [running_eq_some.mpr ⟨hw, hc⟩] at hidle
          cases hidle
      · simpa only [EventLoop.Holds, holds_of_ne hpool (hne hk) hh, hother hk] using hh
    · exact .inl (.inl hw)

theorem Finished.close {i : Fin n} {j : Args} (h : Finished l) (hjobs : JobInv l)
    (hj : running l i = some j) : Finished (EventLoop.close l i j) := by
  obtain ⟨hwi, hci, -⟩ := hjobs.running hj
  have hcl : (EventLoop.close l i j).closes.map EventLoop.Access.job =
      l.closes.map EventLoop.Access.job ++ [j] := List.map_append
  refine ⟨fun k j' hw hc => ?_, fun x hx => ?_⟩
  · rw [hcl, List.mem_append]
    by_cases hk : k = i
    · subst hk
      obtain rfl : j = j' := by simpa using hwi.symm.trans hw
      exact .inr List.mem_cons_self
    · exact .inl (h.ended k j' hw ((Function.update_of_ne hk ..).symm.trans hc))
  · rw [hcl, List.mem_append]
    by_cases hk : x.1 = i
    · -- the worker has no other job
      rcases h.held x hx with hh | hh
      · rw [EventLoop.Holds, hk, hwi] at hh
        obtain rfl : j = x.2 := by simpa [hci] using hh
        exact .inr (.inr List.mem_cons_self)
      · exact .inr (.inl hh)
    · refine (h.held x hx).imp (fun hh => ?_) .inl
      have hc : (EventLoop.close l i j).closed x.1 = l.closed x.1 := Function.update_of_ne hk ..
      rw [EventLoop.Holds, hc]
      exact hh

theorem reachable_finished (hr : EventLoop.Reachable c l) : Finished l := by
  refine (hr.invariant (I := fun l => LoopInv c l ∧ Finished l)
    ⟨EventLoop.initial_inv, ⟨nofun, fun x hx => absurd hx List.not_mem_nil⟩⟩ ?_).2
  rintro l e l' ⟨hl, h⟩ hall hstep
  refine ⟨hl.step hall hstep, ?_⟩
  cases e with
  | work i => exact h.work hstep
  | close i =>
    obtain ⟨hen, hrun⟩ := hstep
    obtain ⟨j, hj⟩ := Option.isSome_iff_exists.mp hen
    rw [EventLoop.next, hj, Option.elim_some] at hrun
    obtain rfl := Except.ok.inj hrun
    exact h.close hl.jobs hj
  | _ => exact h.outside hstep (by simp) (by simp)

/-- Only `main` calls `add_job_to_pool`. -/
theorem reachable_idle (hr : EventLoop.Reachable c l) {d : Nat} (hd : d ≠ 0) :
    l.pool.caller d = .idle := by
  refine hr.invariant (I := fun l => l.pool.caller d = .idle) rfl ?_
  intro l e l' h hall hstep
  cases hstep.move with
  | add pc ready conn => exact (Function.update_of_ne hd ..).trans h
  | @pool pe pool closed e' step goes alloc other =>
    show pool.caller d = .idle
    cases step.move with
    | add pc => exact goes.elim
    | lock pc | alloc pc | enqueue pc | signal pc | unlock pc | fail pc =>
      obtain rfl := goes
      exact (Function.update_of_ne hd ..).trans h
    | _ => exact h
  | _ => exact h

/-- There are no more jobs than connections. -/
theorem length_made_le (h : JobInv l) : (EventLoop.made l).length ≤ l.accepted := by
  have hsub : (EventLoop.made l).map Args.file ⊆
      (List.range l.accepted).map fun k => some (.conn k) := by
    intro file hfile
    obtain ⟨j, hj, rfl⟩ := List.mem_map.mp hfile
    obtain ⟨k, hk, hconn⟩ := h.conn j hj
    exact List.mem_map.mpr ⟨k, List.mem_range.mpr hk, hconn.symm⟩
  have hle := (List.subperm_of_subset h.once hsub).length_le
  rwa [List.length_map, List.length_map, List.length_range] at hle

end Loop

section Rest

variable {s : State n}

/-- What the server does when nobody is in `add_job_to_pool` and no worker can go on: `main` is
in its loop, and sleeping workers may wake up. -/
def FromOutside : EventLoop.Event n → Prop
  | .main | .select _ | .accept _ | .spurious _ => True
  | .call .. | .work _ | .transfer _ | .close _ => False

def AtRest (c : Setup) (s : State n) : Prop :=
  ∀ e, Enabled c s e → Allocates s e → FromOutside e

/-- A worker can go on with its job. -/
theorem AtRest.running_none (h : AtRest c s) (i : Fin n) : running s.loop i = none := by
  cases hj : running s.loop i with
  | none => rfl
  | some j =>
    have hen : (running s.loop i).isSome := by rw [hj]; rfl
    by_cases hat : AtClose (s.rest i)
    · exact (h (.close i) ⟨hen, hat⟩ trivial).elim
    · exact (h (.transfer i) ⟨hen, hat⟩ trivial).elim

theorem AtRest.pool (h : AtRest c s) (hr : EventLoop.Reachable c s.loop) :
    ThreadPool.AtRest s.loop.pool := by
  intro e hen hall
  cases e with
  | add d job => exact .inl rfl
  | spurious i => exact .inr rfl
  | work i => exact (h (.work i) ⟨⟨hen, h.running_none i⟩, trivial⟩ trivial).elim
  | call d node woken =>
    by_cases hd : d = 0
    · subst hd
      exact (h (.call node woken) ⟨hen, trivial⟩ hall).elim
    · simp only [ThreadPool.Enabled, reachable_idle hr hd] at hen

/-- The connection of a job has been served as by `thread_job` alone, and closed. -/
structure ServedBy (w : World) (s : State n) (j : Args) (k : Nat) : Prop where
  file : j.file = some (.conn k)
  closed : j ∈ s.loop.closes.map EventLoop.Access.job
  alone : ∃ query, Server.threadJob w.tables (w.packet j) (w.client k) = .ok ⟨query, s.sockets k⟩

/-- When nothing but `main`'s loop is left to do, each connection that `main` has handed over has
been served, and none is used by anybody else. -/
theorem rest_served (hr : Reachable c w s) (hn : 0 < n) (hrest : AtRest c s)
    (hsize : s.loop.accepted < 2 ^ 32) : ∀ j ∈ EventLoop.made s.loop, ∃ k, ServedBy w s j k := by
  obtain ⟨hl, h⟩ := reachable_serviceInv hr
  have hloop := reachable_loop hr
  have hpool := pool_reachable hloop
  have hquiet := hrest.pool hloop
  have hmade : EventLoop.made s.loop = s.loop.pool.added := by
    have hidle := hquiet.idle (hquiet.mutex (ThreadPool.reachable_owned hpool))
      (ThreadPool.reachable_poolInv hpool).choose_spec.choose_spec.locked 0
    rw [EventLoop.made, ThreadPool.Pool.brought, hidle]
    exact List.append_nil _
  have hlen : s.loop.pool.added.length < 2 ^ 32 := by
    rw [← hmade]
    exact (length_made_le hl.jobs).trans_lt hsize
  have hempty := hquiet.empty hpool hn hlen
  intro j hj
  obtain ⟨k, -, hfile⟩ := hl.jobs.conn j hj
  rw [hmade, ← hempty.fifo, List.append_nil] at hj
  obtain ⟨⟨i, j⟩, hx, rfl⟩ := List.mem_map.mp hj
  -- its worker sleeps, so the job is behind its `close`
  have hclosed : j ∈ s.loop.closes.map EventLoop.Access.job := by
    refine ((reachable_finished hloop).held _ hx).resolve_left fun hh => ?_
    have hasleep := hquiet.asleep (hquiet.mutex (ThreadPool.reachable_owned hpool)) i
    rw [ThreadPool.Pool.Asleep] at hasleep
    rcases hh with hw | hw | ⟨hw, -⟩ <;> rw [hw] at hasleep <;> cases hasleep
  obtain ⟨a, ha, hajob⟩ := List.mem_map.mp hclosed
  obtain ⟨query, hquery⟩ := h.served a ha k (by rw [hajob]; exact hfile)
  rw [hajob] at hquery
  exact ⟨k, hfile, hclosed, query, hquery⟩

/-- The next step of a worker that is not in a job. -/
theorem reachable_work (i : Fin n) {pool : ThreadPool.Pool n Args} (hr : Reachable c w s)
    (hen : ThreadPool.Enabled s.loop.pool (.work i)) (hrun : running s.loop i = none)
    (hnext : ThreadPool.next s.loop.pool (.work i) = .ok pool) :
    ∃ s' : State n, Reachable c w s' ∧ s'.loop = { s.loop with
      pool := pool, closed := Function.update s.loop.closed i false } := by
  obtain ⟨s', hstep, hs'⟩ := step_of_loop (w := w) (e := .work i) trivial
    (show EventLoop.Step c s.loop _ _ from
      ⟨⟨hen, hrun⟩, by rw [EventLoop.next, hnext]; rfl⟩)
  exact ⟨s', hr.tail (e := .work i) trivial hstep, hs'⟩

/-- A worker behind its `close` returns, finds no other job and sleeps. -/
theorem worker_rests {i : Fin n} {j : Args} (hr : Reachable c w s)
    (hw : s.loop.pool.worker i = .exec j) (hc : s.loop.closed i = true)
    (hmutex : s.loop.pool.mutex = none) (hsize : s.loop.pool.queue.size = 0) :
    ∃ s' : State n, Reachable c w s' ∧ s'.loop.pool.worker i = .asleep (some j) ∧
      (∀ i', i' ≠ i → s'.loop.pool.worker i' = s.loop.pool.worker i' ∧
        s'.loop.closed i' = s.loop.closed i') ∧
      s'.loop.pool.mutex = none ∧ s'.loop.pool.queue.size = 0 ∧
      s'.loop.pool.caller = s.loop.pool.caller ∧ s'.loop.accepted = s.loop.accepted ∧
      s'.loop.closes = s.loop.closes := by
  obtain ⟨s₁, hr₁, hs₁⟩ := reachable_work i hr (by simp only [ThreadPool.Enabled, hw])
    (by simp only [running, hw, hc, if_true]) (by simp only [ThreadPool.next, hw]; rfl)
  have hw₁ : s₁.loop.pool.worker i = .lock (some j) := by
    rw [hs₁]
    exact ThreadPool.Pool.setWorker_self
  obtain ⟨s₂, hr₂, hs₂⟩ := reachable_work i hr₁
    (by simp only [ThreadPool.Enabled, hw₁]; rw [hs₁]; exact hmutex)
    (by simp only [running, hw₁]) (by simp only [ThreadPool.next, hw₁]; rfl)
  have hw₂ : s₂.loop.pool.worker i = .test (some j) := by
    rw [hs₂]
    exact ThreadPool.Pool.setWorker_self
  have hsize₂ : s₂.loop.pool.queue.size = 0 := by rw [hs₂, hs₁]; exact hsize
  obtain ⟨s₃, hr₃, hs₃⟩ := reachable_work i hr₂ (by simp only [ThreadPool.Enabled, hw₂])
    (by simp only [running, hw₂])
    (by simp only [ThreadPool.next, hw₂, ThreadPool.work, if_pos hsize₂]; rfl)
  refine ⟨s₃, hr₃, ?_, fun i' hi' => ?_, ?_, ?_, ?_, ?_, ?_⟩
  · rw [hs₃]
    exact ThreadPool.Pool.setWorker_self
  · rw [hs₃, hs₂, hs₁]
    exact ⟨by simp [ThreadPool.Pool.setWorker, hi'], by simp [hi']⟩
  · rw [hs₃]
    rfl
  · rw [hs₃]
    exact hsize₂
  · rw [hs₃, hs₂, hs₁]
    rfl
  · rw [hs₃, hs₂, hs₁]
  · rw [hs₃, hs₂, hs₁]

/-- Both workers of the two clients sleep. -/
theorem twoClients_rests : ∃ s : State 2, Reachable EventLoop.threeOpen .incomplete s ∧
    AtRest EventLoop.threeOpen s ∧ s.loop.accepted = 2 ∧
    s.loop.closes.map EventLoop.Access.job = [secondJob, firstJob] := by
  obtain ⟨v, hok, -⟩ := threadJob_incomplete
    ⟨List.replicate (DYN_SIZE + 1) 0, List.length_replicate⟩
  obtain ⟨s, hr, hcl, hw₀, hw₁, hc, hmutex, hsize, hidle, hacc⟩ :=
    twoClients_served (w := .incomplete) hok hok
  obtain ⟨s₁, hr₁, hasleep₀, hothers₁, hmutex₁, hsize₁, hcaller₁, hacc₁, hcloses₁⟩ :=
    worker_rests hr hw₀ (hc 0) hmutex hsize
  obtain ⟨hw₁', hc₁'⟩ := hothers₁ 1 (by decide)
  obtain ⟨s₂, hr₂, hasleep₁, hothers₂, -, -, hcaller₂, hacc₂, hcloses₂⟩ :=
    worker_rests hr₁ (hw₁'.trans hw₁) (hc₁'.trans (hc 1)) hmutex₁ hsize₁
  have hidle₂ : s₂.loop.pool.caller 0 = .idle := by rw [hcaller₂, hcaller₁, hidle]
  have hasleep (i : Fin 2) : ∃ j, s₂.loop.pool.worker i = .asleep j := by
    rcases (by omega : i = 0 ∨ i = 1) with rfl | rfl
    · exact ⟨_, (hothers₂ 0 (by decide)).1.trans hasleep₀⟩
    · exact ⟨_, hasleep₁⟩
  have hnone (i : Fin 2) : running s₂.loop i = none := by
    obtain ⟨j, hj⟩ := hasleep i
    simp only [running, hj]
  refine ⟨s₂, hr₂, fun e hen hall => ?_, ?_, ?_⟩
  · cases e with
    | call node woken =>
      have hen := hen.1
      simp only [EventLoop.Enabled, ThreadPool.Enabled, hidle₂] at hen
    | work i =>
      have hen := hen.1.1
      obtain ⟨j, hj⟩ := hasleep i
      simp only [ThreadPool.Enabled, hj] at hen
    | transfer i | close i => simp [Enabled, EventLoop.Enabled, hnone i] at hen
    | _ => trivial
  · rw [hacc₂, hacc₁, hacc]
  · rw [hcloses₂, hcloses₁, hcl]

theorem rest_served_twoClients : ∃ s : State 2, Reachable EventLoop.threeOpen .incomplete s ∧
    s.loop.closes.map EventLoop.Access.job = [secondJob, firstJob] ∧
    ∀ j ∈ EventLoop.made s.loop, ∃ k, ServedBy .incomplete s j k := by
  obtain ⟨s, hr, hrest, hacc, hcl⟩ := twoClients_rests
  exact ⟨s, hr, hcl, rest_served hr Nat.two_pos hrest (by rw [hacc]; decide)⟩

end Rest

end SearchEngine.Server.Service
