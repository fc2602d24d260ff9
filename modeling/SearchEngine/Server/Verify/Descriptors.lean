import SearchEngine.Server.EventLoop
import SearchEngine.ThreadPool.Verify.Hands

/-!
# The descriptor of a job

A connection goes into one job at most, and its descriptor stays open until the worker that
runs the job closes it (`JobInv`). A number that is free may be used again at once, so the
jobs are told apart by their connections, not by their descriptors.
-/

namespace SearchEngine.Server.EventLoop

open Reach Outcome
open ThreadPool (Pool PoolInv)

variable {n : Nat} {c : Setup} {s s' : State n} {e : Event n}

/-! ## What a step does -/

/-- The steps. -/
inductive Move (c : Setup) (s : State n) : Event n → State n → Prop
  | copy (pc : s.pc = .copy) : Move c s .main { s with readyfds := s.currentfds, pc := .select }
  | fail (pc : s.pc = .select) : Move c s (.select none) { s with pc := .exited }
  | timeout {r : FdSet} (pc : s.pc = .select) (none : r.card = 0) :
      Move c s (.select (some r)) { s with pc := .exited }
  | select {r : FdSet} (pc : s.pc = .select) (ready : ∀ fd ∈ r, fd ∈ s.readyfds ∧ fd ≤ s.maxfd) :
      Move c s (.select (some r))
        { s with readyfds := r, snapshot := s.files, pc := .scan 0 r.card }
  | leave {i : Nat} {d : Int} (pc : s.pc = .scan i d) (stop : ¬ (i ≤ s.maxfd ∧ 0 < d)) :
      Move c s .main { s with pc := .copy }
  | skip {i : Nat} {d : Int} (pc : s.pc = .scan i d) (clear : i ∉ s.readyfds) :
      Move c s .main { s with pc := .scan (i + 1) d }
  | listen {i : Nat} {d : Int} (pc : s.pc = .scan i d) (ready : i ∈ s.readyfds)
      (listener : i = c.listenfd) : Move c s .main { s with pc := .accept i (d - 1) }
  | add {i : Nat} {d : Int} (pc : s.pc = .scan i d) (ready : i ∈ s.readyfds)
      (conn : i ≠ c.listenfd) :
      Move c s .main { s with
        pool := s.pool.setCaller 0 (.lock ⟨i, s.files i⟩), pc := .handing i (d - 1) }
  | clear {i : Nat} {d : Int} (pc : s.pc = .handing i d) (idle : s.pool.caller 0 = .idle) :
      Move c s .main { s with currentfds := s.currentfds.erase i, pc := .scan (i + 1) d }
  | refuse {i : Nat} {d : Int} (pc : s.pc = .accept i d) :
      Move c s (.accept none) { s with pc := .scan (i + 1) d }
  | zero {i : Nat} {d : Int} (pc : s.pc = .accept i d) (free : s.files 0 = none) :
      Move c s (.accept (some 0)) { s with
        files := Function.update s.files 0 (some (.conn s.accepted))
        accepted := s.accepted + 1
        pc := .scan (i + 1) d }
  | accept {i fd : Nat} {d : Int} (pc : s.pc = .accept i d) (free : s.files fd = none)
      (lt : fd < c.limit) :
      Move c s (.accept (some fd)) { s with
        files := Function.update s.files fd (some (.conn s.accepted))
        accepted := s.accepted + 1
        currentfds := insert fd s.currentfds
        maxfd := max s.maxfd fd }
  | pool {e : ThreadPool.Event n Args} {pool : Pool n Args} {closed : Fin n → Bool}
      {e' : Event n} (step : ThreadPool.Step s.pool e pool) (goes : e.Goes)
      (alloc : Allocates s e' → ThreadPool.Allocates s.pool e)
      (other : ∀ i, closed i = s.closed i ∨ e = .work i) :
      Move c s e' { s with pool := pool, closed := closed }
  | transfer {i : Fin n} {j : Args} (run : running s i = some j) :
      Move c s (.transfer i) (transfer s i j)
  | close {i : Fin n} {j : Args} (run : running s i = some j) :
      Move c s (.close i) (close s i j)

theorem ofPool_eq_ok {α : Type} {x : Except ThreadPool.Fault α} {a : α} (h : ofPool x = .ok a) :
    x = .ok a := by
  cases x with
  | ok b => exact congrArg Except.ok (Except.ok.inj h)
  | error f => cases f; cases h

theorem main_move (h : Step c s .main s') : Move c s .main s' := by
  obtain ⟨hen, hrun⟩ := h
  simp only [Enabled] at hen
  simp only [next] at hrun
  cases hpc : s.pc with
  | copy =>
    rw [hpc] at hrun
    obtain rfl := Except.ok.inj hrun
    exact .copy hpc
  | scan i d =>
    rw [hpc, main] at hrun
    split at hrun
    · next hgo =>
      obtain ⟨b, hb, hrun⟩ := bind_eq_ok hrun
      rw [fdIsset] at hb
      split at hb
      · next hlt =>
        obtain rfl := Except.ok.inj hb
        split at hrun
        · next hset =>
          have hready := of_decide_eq_true hset
          split at hrun
          · next hl =>
            obtain rfl := Except.ok.inj hrun
            exact .listen hpc hready hl
          · next hl =>
            obtain rfl := Except.ok.inj hrun
            exact .add hpc hready hl
        · next hset =>
          obtain rfl := Except.ok.inj hrun
          exact .skip hpc fun hmem => hset (decide_eq_true hmem)
      · cases hb
    · next hstop =>
      obtain rfl := Except.ok.inj hrun
      exact .leave hpc hstop
  | handing i d =>
    rw [hpc] at hen hrun
    obtain ⟨currentfds, hclr, hrun⟩ := bind_eq_ok hrun
    rw [fdClr] at hclr
    split at hclr
    · obtain rfl := Except.ok.inj hclr
      obtain rfl := Except.ok.inj hrun
      exact .clear hpc hen
    · cases hclr
  | _ => rw [hpc] at hen; exact hen.elim

theorem select_move {ready : Option FdSet} (h : Step c s (.select ready) s') :
    Move c s (.select ready) s' := by
  obtain ⟨⟨hpc, hready⟩, hrun⟩ := h
  obtain rfl := Except.ok.inj hrun
  cases ready with
  | none => exact .fail hpc
  | some r =>
    simp only [select]
    split
    · next hnone => exact .timeout hpc hnone
    · exact .select hpc (hready r rfl)

theorem accept_move {newfd : Option Nat} (h : Step c s (.accept newfd) s') :
    Move c s (.accept newfd) s' := by
  obtain ⟨⟨hen, hnew⟩, hrun⟩ := h
  simp only [next] at hrun
  cases hpc : s.pc with
  | accept i d =>
    rw [hpc] at hrun
    cases newfd with
    | none =>
      obtain rfl := Except.ok.inj hrun
      exact .refuse hpc
    | some fd =>
      obtain ⟨hfree, hlt⟩ := hnew fd rfl
      simp only [accept] at hrun
      split at hrun
      · next hzero =>
        subst hzero
        obtain rfl := Except.ok.inj hrun
        exact .zero hpc hfree
      · obtain ⟨currentfds, hset, hrun⟩ := bind_eq_ok hrun
        rw [fdSet] at hset
        split at hset
        · obtain rfl := Except.ok.inj hset
          obtain rfl := Except.ok.inj hrun
          exact .accept hpc hfree hlt
        · cases hset
  | _ => rw [hpc] at hen; exact hen.elim

theorem Step.move (h : Step c s e s') : Move c s e s' := by
  cases e with
  | main => exact main_move h
  | select ready => exact select_move h
  | accept newfd => exact accept_move h
  | call node woken =>
    obtain ⟨hen, hrun⟩ := h
    obtain ⟨pool, hpool, hret⟩ := bind_eq_ok hrun
    obtain rfl := Except.ok.inj hret
    exact .pool (e := .call 0 node woken) ⟨hen, ofPool_eq_ok hpool⟩ rfl id fun _ => .inl rfl
  | work i =>
    obtain ⟨hen, hrun⟩ := h
    obtain ⟨pool, hpool, hret⟩ := bind_eq_ok hrun
    obtain rfl := Except.ok.inj hret
    refine .pool ⟨hen.1, ofPool_eq_ok hpool⟩ trivial (fun _ => trivial) fun k => ?_
    by_cases hk : k = i
    · exact .inr (congrArg ThreadPool.Event.work hk.symm)
    · exact .inl (Function.update_of_ne hk ..)
  | spurious i =>
    obtain ⟨hen, hrun⟩ := h
    obtain ⟨pool, hpool, hret⟩ := bind_eq_ok hrun
    obtain rfl := Except.ok.inj hret
    exact .pool (e := .spurious i) ⟨hen, ofPool_eq_ok hpool⟩ trivial (fun _ => trivial)
      fun _ => .inl rfl
  | transfer i =>
    obtain ⟨hen, hrun⟩ := h
    obtain ⟨j, hj⟩ := Option.isSome_iff_exists.mp hen
    rw [next, hj] at hrun
    obtain rfl := Except.ok.inj hrun
    exact .transfer hj
  | close i =>
    obtain ⟨hen, hrun⟩ := h
    obtain ⟨j, hj⟩ := Option.isSome_iff_exists.mp hen
    rw [next, hj] at hrun
    obtain rfl := Except.ok.inj hrun
    exact .close hj

/-! ## The jobs and the descriptors -/

/-- The jobs that `main` has made. -/
def made (s : State n) : List Args := s.pool.brought

/-- The worker has the job, and has not come to its `close`. -/
def Holds (s : State n) (i : Fin n) (j : Args) : Prop :=
  s.pool.worker i = .unlock (some j) ∨ s.pool.worker i = .check (some j) ∨
    s.pool.worker i = .exec j ∧ s.closed i = false

/-- The table of open descriptors. -/
structure FileInv (c : Setup) (s : State n) : Prop where
  other : ∀ fd ∈ c.others, s.files fd = some .other
  listener : s.files c.listenfd = some .listener
  conn : ∀ fd k, s.files fd = some (.conn k) → k < s.accepted
  unique : ∀ fd fd' k, s.files fd = some (.conn k) → s.files fd' = some (.conn k) → fd = fd'

/-- A job has a connection of its own, whose descriptor is open until the job closes it. -/
structure JobInv (s : State n) : Prop where
  pool : ∃ ns jobs, PoolInv s.pool ns jobs
  once : ((made s).map Args.file).Nodup
  conn : ∀ j ∈ made s, ∃ k < s.accepted, j.file = some (.conn k)
  owned : ∀ j ∈ made s, j ∉ s.closes.map Access.job → s.files j.fd = j.file
  held : ∀ i j, Holds s i j → j ∉ s.closes.map Access.job
  ran : ∀ a ∈ s.closes, (a.worker, a.job) ∈ s.pool.taken
  reached : ∀ a ∈ s.closes, a.reached = a.job.file
  closes : (s.closes.map Access.job).Nodup
  transfers : ∀ a ∈ s.transfers, a.reached = a.job.file

theorem JobInv.taken (h : JobInv s) : (s.pool.taken.map Prod.snd).Nodup ∧
    ∀ j ∈ s.pool.taken.map Prod.snd, j ∈ made s := by
  obtain ⟨ns, jobs, hp⟩ := h.pool
  have hmade : made s = s.pool.taken.map Prod.snd ++ (jobs ++ (s.pool.caller 0).pending) := by
    rw [made, Pool.brought, ← hp.fifo, List.append_assoc]
  have hnd : (made s).Nodup := h.once.of_map
  rw [hmade] at hnd ⊢
  exact ⟨hnd.of_append_left, fun j hj => List.mem_append_left _ hj⟩

/-- Two jobs with one connection are one. -/
theorem JobInv.unique {j j' : Args} (h : JobInv s) (hj : j ∈ made s) (hj' : j' ∈ made s)
    (hfile : j.file = j'.file) : j = j' :=
  List.inj_on_of_nodup_map h.once hj hj' hfile

/-- The job that a worker is in has its connection. -/
theorem JobInv.running {i : Fin n} {j : Args} (h : JobInv s) (hrun : running s i = some j) :
    s.pool.worker i = .exec j ∧ s.closed i = false ∧ (i, j) ∈ s.pool.taken ∧ j ∈ made s ∧
      j ∉ s.closes.map Access.job ∧ s.files j.fd = j.file := by
  obtain ⟨ns, jobs, hp⟩ := h.pool
  rw [EventLoop.running] at hrun
  cases hw : s.pool.worker i with
  | exec j' =>
    rw [hw] at hrun
    cases hc : s.closed i with
    | true => simp [hc] at hrun
    | false =>
      simp only [hc, Bool.false_eq_true, if_false, Option.some.injEq] at hrun
      subst hrun
      have htaken := hp.got i j' (.inr (.inr hw))
      have hmade := h.taken.2 j' (List.mem_map_of_mem htaken)
      have hopen := h.held i j' (.inr (.inr ⟨hw, hc⟩))
      exact ⟨rfl, rfl, htaken, hmade, hopen, h.owned j' hmade hopen⟩
  | _ => rw [hw] at hrun; cases hrun

/-- What `main` does to its own variables. -/
theorem JobInv.main {pc : MainPc} {currentfds readyfds : FdSet} {maxfd : Nat}
    {snapshot : Nat → Option File} (h : JobInv s) :
    JobInv { s with
      pc := pc, currentfds := currentfds, readyfds := readyfds, maxfd := maxfd
      snapshot := snapshot } :=
  ⟨h.pool, h.once, h.conn, h.owned, h.held, h.ran, h.reached, h.closes, h.transfers⟩

/-- The call of `add_job_to_pool`. -/
theorem JobInv.add {j : Args} {k : Nat} (h : JobInv s) (hidle : s.pool.caller 0 = .idle)
    (hk : k < s.accepted) (hfile : j.file = some (.conn k)) (hopen : s.files j.fd = j.file)
    (hnew : j.file ∉ (made s).map Args.file) :
    JobInv { s with pool := s.pool.setCaller 0 (.lock j) } where
  pool := by
    obtain ⟨ns, jobs, hp⟩ := h.pool
    exact hp.step (e := .add 0 j) trivial ⟨hidle, rfl⟩
  once := by
    rw [made, Pool.brought_add hidle, List.map_append]
    refine List.nodup_append.mpr ⟨h.once, List.nodup_singleton _, fun x hx y hy hxy => hnew ?_⟩
    rw [List.mem_singleton.mp hy] at hxy
    exact hxy ▸ hx
  conn j' hj' := by
    rw [made, Pool.brought_add hidle] at hj'
    rcases List.mem_append.mp hj' with hj' | hj'
    · exact h.conn j' hj'
    · rw [List.mem_singleton.mp hj']
      exact ⟨k, hk, hfile⟩
  owned j' hj' hclosed := by
    rw [made, Pool.brought_add hidle] at hj'
    rcases List.mem_append.mp hj' with hj' | hj'
    · exact h.owned j' hj' hclosed
    · rw [List.mem_singleton.mp hj']
      exact hopen
  held := h.held
  ran := h.ran
  reached := h.reached
  closes := h.closes
  transfers := h.transfers

/-- The threads of the pool go on. -/
theorem JobInv.step {e : ThreadPool.Event n Args} {pool : Pool n Args} {closed : Fin n → Bool}
    (h : JobInv s) (hstep : ThreadPool.Step s.pool e pool) (he : e.Goes)
    (hall : ThreadPool.Allocates s.pool e) (hclosed : ∀ i, closed i = s.closed i ∨ e = .work i) :
    JobInv { s with pool := pool, closed := closed } := by
  obtain ⟨ns, jobs, hp⟩ := h.pool
  obtain ⟨ns', jobs', hp'⟩ := hp.step hall hstep
  have hm := hstep.move
  have hmade : pool.brought = s.pool.brought := hm.brought hall he
  obtain ⟨xs, hxs⟩ := hm.taken
  refine ⟨⟨ns', jobs', hp'⟩, ?_, ?_, ?_, ?_, ?_, h.reached, h.closes, h.transfers⟩
  · rw [made, hmade]
    exact h.once
  · intro j hj
    rw [made, hmade] at hj
    exact h.conn j hj
  · intro j hj
    rw [made, hmade] at hj
    exact h.owned j hj
  · intro i j hj
    by_cases hei : e = .work i
    · subst hei
      have hhand := hm.hand hp (hj.imp_right (Or.imp_right And.left))
      rcases hhand with hw | hw | hnew
      · exact h.held i j (.inl hw)
      · exact h.held i j (.inr (.inl hw))
      · -- the job is dequeued now, and a job that has been closed was dequeued before
        intro hcl
        obtain ⟨a, ha, rfl⟩ := List.mem_map.mp hcl
        have hnd : (pool.taken.map Prod.snd).Nodup := by
          have hnd : (pool.taken.map Prod.snd ++ jobs').Nodup := by
            rw [hp'.fifo]
            have hmade' : pool.brought.Nodup := by
              rw [hmade]
              exact h.once.of_map
            exact hmade'.of_append_left
          exact hnd.of_append_left
        rw [hnew, List.map_append, List.nodup_append] at hnd
        exact hnd.2.2 _ (List.mem_map_of_mem (h.ran a ha)) _ List.mem_cons_self rfl
    · have hw : pool.worker i = s.pool.worker i := by
        rcases hm.worker_of_ne hei with hw | ⟨job, hw⟩
        · exact hw
        · simp [Holds, hw] at hj
      have hc : closed i = s.closed i := (hclosed i).resolve_right hei
      refine h.held i j ?_
      simpa only [Holds, hw, hc] using hj
  · intro a ha
    show (a.worker, a.job) ∈ pool.taken
    rw [hxs]
    exact List.mem_append_left _ (h.ran a ha)

/-- A new connection. -/
theorem JobInv.accept {fd : Nat} (h : JobInv s) (hfree : s.files fd = none) :
    JobInv { s with
      files := Function.update s.files fd (some (.conn s.accepted))
      accepted := s.accepted + 1 } where
  pool := h.pool
  once := h.once
  conn j hj := by
    obtain ⟨k, hk, hfile⟩ := h.conn j hj
    exact ⟨k, Nat.lt_succ_of_lt hk, hfile⟩
  owned j hj hclosed := by
    have hopen := h.owned j hj hclosed
    obtain ⟨k, hk, hfile⟩ := h.conn j hj
    have hne : j.fd ≠ fd := by
      rintro rfl
      rw [hopen, hfile] at hfree
      cases hfree
    exact (Function.update_of_ne hne ..).trans hopen
  held := h.held
  ran := h.ran
  reached := h.reached
  closes := h.closes
  transfers := h.transfers

theorem JobInv.transfer {i : Fin n} {j : Args} (h : JobInv s)
    (hrun : EventLoop.running s i = some j) :
    JobInv (transfer s i j) where
  pool := h.pool
  once := h.once
  conn := h.conn
  owned := h.owned
  held := h.held
  ran := h.ran
  reached := h.reached
  closes := h.closes
  transfers a ha := by
    rcases List.mem_append.mp ha with ha | ha
    · exact h.transfers a ha
    · obtain ⟨-, -, -, -, -, hopen⟩ := h.running hrun
      rw [List.mem_singleton.mp ha]
      exact hopen

/-- The `close` at the end of a job. -/
theorem JobInv.close {i : Fin n} {j : Args} (h : JobInv s) (hrun : EventLoop.running s i = some j) :
    JobInv (close s i j) := by
  obtain ⟨hw, hc, htaken, hmade, hnot, hopen⟩ := h.running hrun
  refine ⟨h.pool, h.once, h.conn, ?_, ?_, ?_, ?_, ?_, h.transfers⟩
  · intro j' hj' hclosed
    simp only [EventLoop.close, List.map_append, List.map_cons, List.map_nil, List.mem_append,
      List.mem_singleton, not_or] at hclosed
    have hopen' := h.owned j' hj' hclosed.1
    have hne : j'.fd ≠ j.fd := by
      intro hfd
      rw [hfd, hopen] at hopen'
      exact hclosed.2 (h.unique hj' hmade hopen'.symm)
    exact (Function.update_of_ne hne ..).trans hopen'
  · intro k j' hj'
    have hki : k ≠ i := by
      rintro rfl
      simp [Holds, EventLoop.close, hw] at hj'
    have hold : Holds s k j' := by
      simpa only [Holds, EventLoop.close, Function.update_of_ne hki] using hj'
    obtain ⟨ns, jobs, hp⟩ := h.pool
    have htaken' := hp.got k j' (hold.imp_right (Or.imp_right And.left))
    simp only [EventLoop.close, List.map_append, List.map_cons, List.map_nil, List.mem_append,
      List.mem_singleton, not_or]
    refine ⟨h.held k j' hold, fun hjj => hki ?_⟩
    subst hjj
    exact congrArg Prod.fst (List.inj_on_of_nodup_map h.taken.1 htaken' htaken rfl)
  · intro a ha
    rcases List.mem_append.mp ha with ha | ha
    · exact h.ran a ha
    · rw [List.mem_singleton.mp ha]
      exact htaken
  · intro a ha
    rcases List.mem_append.mp ha with ha | ha
    · exact h.reached a ha
    · rw [List.mem_singleton.mp ha]
      exact hopen
  · simp only [EventLoop.close, List.map_append, List.map_cons, List.map_nil]
    refine List.nodup_append.mpr ⟨h.closes, List.nodup_singleton _, fun x hx y hy hxy => hnot ?_⟩
    rw [List.mem_singleton.mp hy] at hxy
    exact hxy ▸ hx

theorem FileInv.accept {fd : Nat} (h : FileInv c s) (hfree : s.files fd = none) :
    FileInv c { s with
      files := Function.update s.files fd (some (.conn s.accepted))
      accepted := s.accepted + 1 } where
  other x hx := by
    have hne : x ≠ fd := by
      rintro rfl
      rw [h.other x hx] at hfree
      cases hfree
    exact (Function.update_of_ne hne ..).trans (h.other x hx)
  listener := by
    have hne : c.listenfd ≠ fd := by
      rintro rfl
      rw [h.listener] at hfree
      cases hfree
    exact (Function.update_of_ne hne ..).trans h.listener
  conn x k hx := by
    by_cases hxfd : x = fd
    · subst hxfd
      simp only [Function.update_self, Option.some.injEq, File.conn.injEq] at hx
      exact hx ▸ Nat.lt_succ_self _
    · simp only [Function.update_of_ne hxfd] at hx
      exact Nat.lt_succ_of_lt (h.conn x k hx)
  unique x y k hx hy := by
    by_cases hxfd : x = fd
    · by_cases hyfd : y = fd
      · rw [hxfd, hyfd]
      · simp only [hxfd, Function.update_self, Option.some.injEq, File.conn.injEq] at hx
        simp only [Function.update_of_ne hyfd] at hy
        exact absurd hx (h.conn y k hy).ne'
    · simp only [Function.update_of_ne hxfd] at hx
      by_cases hyfd : y = fd
      · simp only [hyfd, Function.update_self, Option.some.injEq, File.conn.injEq] at hy
        exact absurd hy (h.conn x k hx).ne'
      · simp only [Function.update_of_ne hyfd] at hy
        exact h.unique x y k hx hy

/-- A descriptor of a connection is closed. -/
theorem FileInv.close {fd k : Nat} (h : FileInv c s) (hfd : s.files fd = some (.conn k)) :
    FileInv c { s with files := Function.update s.files fd none } := by
  have hold (x : Nat) (f : File) (hx : Function.update s.files fd none x = some f) :
      s.files x = some f := by
    by_cases hxfd : x = fd
    · rw [hxfd, Function.update_self] at hx
      cases hx
    · rwa [Function.update_of_ne hxfd] at hx
  refine ⟨fun x hx => ?_, ?_, fun x k hx => ?_, fun x y k hx hy => ?_⟩
  · have hne : x ≠ fd := by
      rintro rfl
      rw [h.other x hx] at hfd
      cases hfd
    exact (Function.update_of_ne hne ..).trans (h.other x hx)
  · have hne : c.listenfd ≠ fd := by
      rintro rfl
      rw [h.listener] at hfd
      cases hfd
    exact (Function.update_of_ne hne ..).trans h.listener
  · exact h.conn x k (hold x _ hx)
  · exact h.unique x y k (hold x _ hx) (hold y _ hy)

end SearchEngine.Server.EventLoop
