import SearchEngine.Server.Service
import SearchEngine.Server.Verify.HandOver
import SearchEngine.Server.Verify.Request

/-!
# The jobs do not disturb each other

Held alone, the conversation of `Service.threadJob` is `thread_job` (`run_threadJob`). In the
server the worker of a connection is the only one that talks to it, so what is left of a job is
always on track (`ServiceInv`): every connection is served as if its job were alone.
-/

namespace SearchEngine.Server.Service

open Memory Outcome Reach
open EventLoop (Args File Setup LoopInv)

/-! ## A job alone -/

section Alone

variable {cap : Nat} {s : Socket}

/-- A round of the loop. -/
theorem recvLoop_round {buf : Block UInt8 cap} {rd rem : Nat} (hrem : rem ≠ 0) :
    Server.recvLoop s buf rd rem = match s.read rem with
      | (none, s') => .ok (-1, s', buf)
      | (some bytes, s') =>
        if bytes = [] then .ok (CInt.int rd, s', buf)
        else
          match buf.write rd bytes with
          | none => .error .outOfBounds
          | some buf => Server.recvLoop s' buf (rd + bytes.length) (rem - bytes.length) := by
  conv_lhs => rw [Server.recvLoop]
  rw [if_neg hrem]
  split
  · next h => rw [h]
  · next h =>
    rw [h]
    rfl

theorem sendLoop_round {sent : Nat} {bytes : List UInt8} (hne : bytes ≠ []) :
    Server.sendLoop s sent bytes = match s.write bytes with
      | (none, s') => (-1, s')
      | (some k, s') => Server.sendLoop s' (sent + k) (bytes.drop k) := by
  conv_lhs => rw [Server.sendLoop]
  rw [dif_neg hne]
  split
  · next h => rw [h]
  · next h => rw [h]

theorem run_read (n : Nat) {α : Type} (f : Option (List UInt8) → Program α) (s : Socket) :
    (read n >>= f).run socketCall s = (f (s.read n).1).run socketCall (s.read n).2 := rfl

/-- A `write` transfers what `Socket.write` does. -/
theorem run_write (bytes : List UInt8) (s : Socket) :
    ∃ k, (s.write bytes).1 = k.map Subtype.val ∧ ∀ {α : Type} (f : _ → Program α),
      (write bytes >>= f).run socketCall s = (f k).run socketCall (s.write bytes).2 := by
  refine ⟨(socketCall (.write bytes) s).1, ?_, fun f => ?_⟩
  · simp only [socketCall, Socket.write]
    cases s.writeSize s.writes with
    | none => rfl
    | some m => rfl
  · show (f (socketCall (.write bytes) s).1).run socketCall (socketCall (.write bytes) s).2 = _
    congr 1
    simp only [socketCall, Socket.write]
    cases s.writeSize s.writes with
    | none => rfl
    | some m => rfl

theorem run_recvLoop (s : Socket) (buf : Block UInt8 cap) (rd rem : Nat) :
    (recvLoop buf rd rem).run socketCall s =
      (Server.recvLoop s buf rd rem).map fun x => ((x.1, x.2.2), x.2.1) := by
  induction rem using Nat.strongRecOn generalizing s buf rd with
  | ind rem ih =>
    unfold recvLoop
    by_cases hrem : rem = 0
    · rw [dif_pos hrem, hrem, recvLoop_zero, Dialogue.run_pure, Except.map]
    · rw [dif_neg hrem, recvLoop_round hrem, run_read]
      rcases s.read rem with ⟨x, s'⟩
      cases x with
      | none => rfl
      | some bytes =>
        simp only
        by_cases hne : bytes = []
        · rw [dif_pos hne, if_pos hne, Dialogue.run_pure, Except.map]
        · rw [dif_neg hne, if_neg hne]
          have hpos := List.length_pos_iff.mpr hne
          cases buf.write rd bytes with
          | none => rfl
          | some buf => exact ih _ (by omega) s' buf _

theorem run_sendLoop (s : Socket) (sent : Nat) (bytes : List UInt8) :
    (sendLoop sent bytes).run socketCall s = .ok (Server.sendLoop s sent bytes) := by
  induction hn : bytes.length using Nat.strongRecOn generalizing s sent bytes with
  | ind n ih =>
    unfold sendLoop
    by_cases hne : bytes = []
    · rw [dif_pos hne, Server.sendLoop, dif_pos hne, Dialogue.run_pure]
    · rw [dif_neg hne, sendLoop_round hne]
      obtain ⟨k, hk, hrun⟩ := run_write bytes s
      rw [hrun]
      rcases hw : s.write bytes with ⟨x, s'⟩
      rw [hw] at hk
      obtain rfl : x = k.map Subtype.val := hk
      cases k with
      | none => rfl
      | some k =>
        have hpos := List.length_pos_iff.mpr hne
        have hkpos := k.2 hne
        exact ih _ (by rw [List.length_drop]; omega) s' _ _ rfl

theorem run_recvFromHost (s : Socket) (buf : Block UInt8 cap) (len : Int) :
    (recvFromHost buf len).run socketCall s =
      (Server.recvFromHost s buf len).map fun x => ((x.1, x.2.2), x.2.1) := run_recvLoop ..

theorem run_sendToHost (s : Socket) (bytes : List UInt8) :
    (sendToHost bytes).run socketCall s = .ok (Server.sendToHost s bytes) := run_sendLoop ..

theorem run_receiveRequest (packet : Packet) (s : Socket) :
    (receiveRequest packet).run socketCall s =
      (Server.receiveRequest packet s).map fun x => ((x.1, x.2.1), x.2.2) := by
  rw [receiveRequest, Dialogue.run_bind, run_recvFromHost, Server.receiveRequest]
  cases Server.recvFromHost s packet HDR_LEN with
  | error e => rfl
  | ok x =>
    obtain ⟨r, s, packet⟩ := x
    simp only [Except.map, ok_bind]
    by_cases hreq : (Hdr.at packet.data).msgType = htonl REQUEST
    · rw [if_pos hreq, if_pos hreq, Dialogue.run_bind, run_recvFromHost]
      cases Server.recvFromHost s packet
          (CInt.int (CInt.uint32 (ntohl (Hdr.at packet.data).totLen - HDR_LEN))) with
      | error e => rfl
      | ok x =>
        obtain ⟨tmp, s, packet⟩ := x
        simp only [Except.map, ok_bind]
        cases packet.write tmp [0] with
        | none => rfl
        | some packet =>
          simp only [Dialogue.run_bind, Dialogue.run_lift]
          cases cstring packet.data with
          | error e => rfl
          | ok word => rfl
    · rw [if_neg hreq, if_neg hreq]
      rfl

theorem run_answer (t : Tables) (query : List UInt8) (packet : Packet) (s : Socket) :
    (answer t query packet).run socketCall s =
      (Server.answer t query packet s).map fun s => ((), s) := by
  simp only [answer, Server.answer, Dialogue.run_bind, Dialogue.run_lift]
  cases lookup t.index.words t.index.dynlist query
      (hashFunction query % t.index.dynlist.physLen) with
  | error e => rfl
  | ok item =>
    simp only [Except.map, ok_bind]
    cases item with
    | none =>
      simp only [Dialogue.run_bind, run_sendToHost, ok_bind]
      rfl
    | some item =>
      simp only
      cases t.index.words[item]? with
      | none => rfl
      | some word =>
        simp only [Dialogue.run_bind, Dialogue.run_lift]
        cases render t packet word with
        | error e => rfl
        | ok out =>
          simp only [Except.map, ok_bind, run_sendToHost]
          rfl

/-- Alone, the conversation is `thread_job`. -/
theorem run_threadJob (t : Tables) (packet : Packet) (s : Socket) :
    Server.threadJob t packet s = ((threadJob t packet).run socketCall s).map
      fun x => ⟨x.1, { x.2 with closed := true }⟩ := by
  rw [threadJob, Dialogue.run_bind, run_receiveRequest, Server.threadJob]
  cases Server.receiveRequest packet s with
  | error e => rfl
  | ok x =>
    obtain ⟨query, packet, s⟩ := x
    simp only [Except.map, ok_bind]
    cases query with
    | none => rfl
    | some word =>
      simp only [Dialogue.run_bind, run_answer]
      cases Server.answer t word packet s with
      | error e => rfl
      | ok s => rfl

end Alone

/-! ## What a step does -/

variable {n : Nat} {c : Setup} {w : World} {s s' : State n} {e : EventLoop.Event n}

/-- Forgetting the conversations leaves a step of the event loop. -/
theorem Step.loop (h : Step c w s e s') : EventLoop.Step c s.loop e s'.loop := by
  obtain ⟨hen, hrun⟩ := h
  obtain ⟨loop, hloop, hrun⟩ := bind_eq_ok hrun
  have hs' : s'.loop = loop := by
    cases e with
    | work i =>
      obtain rfl := Except.ok.inj hrun
      simp only [start]
      split <;> rfl
    | transfer i =>
      simp only [transfer] at hrun
      split at hrun
      · obtain rfl := Except.ok.inj hrun
        rfl
      · cases hrun
      · split at hrun <;> obtain rfl := Except.ok.inj hrun <;> rfl
    | close i =>
      obtain rfl := Except.ok.inj hrun
      simp only [close]
      split <;> rfl
    | _ =>
      obtain rfl := Except.ok.inj hrun
      rfl
  rw [hs']
  exact ⟨hen.1, hloop⟩

theorem reachable_loop (hr : Reachable c w s) : EventLoop.Reachable c s.loop := by
  have h0 : EventLoop.Reachable c (initial c w : State n).loop := .refl
  refine Reaches.invariant (I := fun s => EventLoop.Reachable c s.loop) hr h0 ?_
  exact fun s e s' h hall hstep => h.tail hall hstep.loop

section Running

open EventLoop (running)

variable {l l' : EventLoop.State n} {i k : Fin n} {j : Args}

theorem running_eq_some : running l i = some j ↔ l.pool.worker i = .exec j ∧
    l.closed i = false := by
  rw [running]
  cases l.pool.worker i with
  | exec j' => cases l.closed i <;> simp
  | _ => simp

/-- A worker that does not sleep moves in its own steps only. -/
theorem awake_of_ne {p p' : ThreadPool.Pool n Args} {e : ThreadPool.Event n Args}
    (hm : ThreadPool.Move p e p') (he : e ≠ .work k) (hawake : (p.worker k).isAsleep = false) :
    p'.worker k = p.worker k := by
  have hwake (woken : List (Fin n)) : (p.wake woken).worker k = p.worker k := by
    simp only [ThreadPool.Pool.wake]
    cases hw : p.worker k with
    | asleep job => rw [hw] at hawake; cases hawake
    | _ => rfl
  cases hm with
  | signal pc wakes => exact hwake _
  | spurious => exact hwake _
  | add | lock | fail | alloc | enqueue | unlock => rfl
  | _ => exact Function.update_of_ne (fun hk => he (congrArg ThreadPool.Event.work hk.symm)) ..

/-- A worker comes to a job, and leaves it, in its own steps only. -/
theorem exec_of_ne {p p' : ThreadPool.Pool n Args} {e : ThreadPool.Event n Args}
    (hm : ThreadPool.Move p e p') (he : e ≠ .work k) :
    p'.worker k = .exec j ↔ p.worker k = .exec j := by
  constructor
  · intro hw
    rcases hm.worker_of_ne he with hsame | ⟨job, hwoken⟩
    · rw [← hsame, hw]
    · rw [hw] at hwoken
      cases hwoken
  · intro hw
    rw [awake_of_ne hm he (by rw [hw]; rfl), hw]

/-- The workers and their jobs are as before. -/
structure SameJobs (l l' : EventLoop.State n) : Prop where
  worker : l'.pool.worker = l.pool.worker
  taken : l'.pool.taken = l.pool.taken
  closed : l'.closed = l.closed
  closes : l'.closes = l.closes

theorem main_sameJobs {pc : EventLoop.MainPc} (h : EventLoop.main c l pc = .ok l') :
    SameJobs l l' := by
  cases pc with
  | scan i d =>
    simp only [EventLoop.main] at h
    split at h
    · obtain ⟨b, -, h⟩ := bind_eq_ok h
      split at h
      · split at h
        · obtain rfl := Except.ok.inj h
          exact ⟨rfl, rfl, rfl, rfl⟩
        · obtain ⟨pool, hpool, h⟩ := bind_eq_ok h
          obtain rfl := Except.ok.inj h
          obtain rfl := Except.ok.inj (EventLoop.ofPool_eq_ok hpool)
          exact ⟨rfl, rfl, rfl, rfl⟩
      · obtain rfl := Except.ok.inj h
        exact ⟨rfl, rfl, rfl, rfl⟩
    · obtain rfl := Except.ok.inj h
      exact ⟨rfl, rfl, rfl, rfl⟩
  | handing i d =>
    obtain ⟨currentfds, -, h⟩ := bind_eq_ok h
    obtain rfl := Except.ok.inj h
    exact ⟨rfl, rfl, rfl, rfl⟩
  | _ =>
    obtain rfl := Except.ok.inj h
    exact ⟨rfl, rfl, rfl, rfl⟩

theorem accept_sameJobs {newfd : Option Nat} {pc : EventLoop.MainPc}
    (h : EventLoop.accept l newfd pc = .ok l') : SameJobs l l' := by
  cases pc with
  | accept i d =>
    cases newfd with
    | none =>
      obtain rfl := Except.ok.inj h
      exact ⟨rfl, rfl, rfl, rfl⟩
    | some fd =>
      simp only [EventLoop.accept] at h
      split at h
      · obtain rfl := Except.ok.inj h
        exact ⟨rfl, rfl, rfl, rfl⟩
      · obtain ⟨currentfds, -, h⟩ := bind_eq_ok h
        obtain rfl := Except.ok.inj h
        exact ⟨rfl, rfl, rfl, rfl⟩
  | _ =>
    obtain rfl := Except.ok.inj h
    exact ⟨rfl, rfl, rfl, rfl⟩

theorem select_sameJobs {ready : Option FdSet} : SameJobs l (EventLoop.select l ready) := by
  simp only [EventLoop.select]
  split
  · exact ⟨rfl, rfl, rfl, rfl⟩
  · split <;> exact ⟨rfl, rfl, rfl, rfl⟩

theorem running_congr (hw : ∀ j, l'.pool.worker k = .exec j ↔ l.pool.worker k = .exec j)
    (hc : l'.closed k = l.closed k) : running l' k = running l k := by
  refine Option.ext fun j => ?_
  rw [running_eq_some, running_eq_some, hw, hc]

theorem SameJobs.running (h : SameJobs l l') : running l' k = running l k :=
  running_congr (fun j => by rw [h.worker]) (by rw [h.closed])

/-- What happens outside of `activate_workers` and `close`: nothing to the workers, or a step of
another thread of the pool. -/
theorem outside_cases (h : EventLoop.Step c l e l') (hwork : ∀ i, e ≠ .work i)
    (hclose : ∀ i, e ≠ .close i) : SameJobs l l' ∨
      ∃ pe pool, ThreadPool.Step l.pool pe pool ∧ (∀ k, pe ≠ .work k) ∧ l' =
      { l with pool := pool } := by
  obtain ⟨hen, hrun⟩ := h
  cases e with
  | main => exact .inl (main_sameJobs hrun)
  | select ready =>
    obtain rfl := Except.ok.inj hrun
    exact .inl select_sameJobs
  | accept newfd => exact .inl (accept_sameJobs hrun)
  | call node woken =>
    obtain ⟨pool, hpool, hret⟩ := bind_eq_ok hrun
    obtain rfl := Except.ok.inj hret
    exact .inr ⟨.call 0 node woken, pool, ⟨hen, EventLoop.ofPool_eq_ok hpool⟩, by simp, rfl⟩
  | spurious i =>
    obtain ⟨pool, hpool, hret⟩ := bind_eq_ok hrun
    obtain rfl := Except.ok.inj hret
    exact .inr ⟨.spurious i, pool, ⟨hen, EventLoop.ofPool_eq_ok hpool⟩, by simp, rfl⟩
  | transfer i =>
    obtain ⟨j, hj⟩ := Option.isSome_iff_exists.mp hen
    rw [EventLoop.next, hj] at hrun
    obtain rfl := Except.ok.inj hrun
    exact .inl ⟨rfl, rfl, rfl, rfl⟩
  | work i => exact absurd rfl (hwork i)
  | close i => exact absurd rfl (hclose i)

/-- Which jobs are running changes in the steps of `activate_workers` and at a `close` only. -/
theorem running_frame (h : EventLoop.Step c l e l') (hwork : ∀ i, e ≠ .work i)
    (hclose : ∀ i, e ≠ .close i) : (∀ k, running l' k = running l k) ∧ l'.closes = l.closes := by
  rcases outside_cases h hwork hclose with hsame | ⟨pe, pool, hstep, hpe, rfl⟩
  · exact ⟨fun k => hsame.running, hsame.closes⟩
  · exact ⟨fun k => running_congr (fun j => exec_of_ne hstep.move (hpe k)) rfl, rfl⟩

/-- A step in `activate_workers`. -/
theorem running_work (h : EventLoop.Step c l (.work i) l') :
    running l i = none ∧ (∀ k, k ≠ i → running l' k = running l k) ∧ l'.closes = l.closes ∧
      l'.closed i = false ∧ ∃ pool, ThreadPool.Step l.pool (.work i) pool ∧ l'.pool = pool := by
  obtain ⟨hen, hrun⟩ := h
  obtain ⟨pool, hpool, hret⟩ := bind_eq_ok hrun
  obtain rfl := Except.ok.inj hret
  have hstep : ThreadPool.Step l.pool (.work i) pool := ⟨hen.1, EventLoop.ofPool_eq_ok hpool⟩
  refine ⟨hen.2, fun k hk => ?_, rfl, Function.update_self .., pool, hstep, rfl⟩
  refine running_congr (fun j => exec_of_ne hstep.move fun he => ?_) (Function.update_of_ne hk ..)
  exact hk (ThreadPool.Event.work.inj he).symm

/-- The `close` of a job. -/
theorem running_close (h : EventLoop.Step c l (.close i) l') :
    ∃ j, running l i = some j ∧ running l' i = none ∧
      (∀ k, k ≠ i → running l' k = running l k) ∧
      l'.closes = l.closes ++ [⟨i, j, l.files j.fd⟩] := by
  obtain ⟨hen, hrun⟩ := h
  obtain ⟨j, hj⟩ := Option.isSome_iff_exists.mp hen
  rw [EventLoop.next, hj] at hrun
  obtain rfl := Except.ok.inj hrun
  refine ⟨j, hj, ?_, fun k hk => running_congr (fun _ => .rfl) (Function.update_of_ne hk ..), rfl⟩
  rw [running]
  obtain ⟨hw, -⟩ := running_eq_some.mp hj
  simp [EventLoop.close, hw]

/-- Two workers are never in jobs with one connection. -/
theorem running_file {j' : Args} (h : EventLoop.JobInv l) (hj : running l i = some j)
    (hj' : running l k = some j') (hfile : j.file = j'.file) : i = k := by
  obtain ⟨-, -, htaken, hmade, -⟩ := h.running hj
  obtain ⟨-, -, htaken', hmade', -⟩ := h.running hj'
  obtain rfl := h.unique hmade hmade' hfile
  exact congrArg Prod.fst (List.inj_on_of_nodup_map h.taken.1 htaken htaken' rfl)

/-- The connection of a job that is running has not been closed. -/
theorem running_open {a : EventLoop.Access n} (h : EventLoop.JobInv l) (hj : running l i = some j)
    (ha : a ∈ l.closes) : a.job.file ≠ j.file := by
  intro hfile
  obtain ⟨-, -, -, hmade, hopen, -⟩ := h.running hj
  have hmade' := h.taken.2 a.job (List.mem_map_of_mem (h.ran a ha))
  exact hopen (h.unique hmade' hmade hfile ▸ List.mem_map_of_mem ha)

end Running

/-! ## Every run -/

section Runs

open EventLoop (running)

variable {loop : EventLoop.State n}

/-- Every connection is as its job, alone, would have left it so far. -/
structure ServiceInv (w : World) (s : State n) : Prop where
  untouched : ∀ k, (∀ i j, running s.loop i = some j → j.file ≠ some (.conn k)) →
    (∀ a ∈ s.loop.closes, a.job.file ≠ some (.conn k)) → s.sockets k = w.client k
  onTrack : ∀ i j k, running s.loop i = some j → j.file = some (.conn k) →
    Dialogue.OnTrack socketCall (threadJob w.tables (w.packet j)) (w.client k)
      (s.rest i) (s.sockets k)
  served : ∀ a ∈ s.loop.closes, ∀ k, a.job.file = some (.conn k) → ∃ query,
    Server.threadJob w.tables (w.packet a.job) (w.client k) = .ok ⟨query, s.sockets k⟩

/-- A step that touches no job. -/
theorem ServiceInv.frame (h : ServiceInv w s) (hstep : EventLoop.Step c s.loop e loop)
    (hwork : ∀ i, e ≠ .work i) (hclose : ∀ i, e ≠ .close i) :
    ServiceInv w { s with loop := loop } := by
  obtain ⟨hrun, hcl⟩ := running_frame hstep hwork hclose
  refine ⟨fun k hno hncl => ?_, fun i j k hj hfile => ?_, fun a ha => ?_⟩
  · refine h.untouched k (fun i j hj => hno i j ((hrun i).trans hj)) fun a ha => hncl a ?_
    exact hcl ▸ ha
  · exact h.onTrack i j k ((hrun i).symm.trans hj) hfile
  · exact h.served a (hcl ▸ ha)

/-- A step of a worker in `activate_workers`, which may come to a job. -/
theorem ServiceInv.work {i : Fin n} (h : ServiceInv w s) (hjobs : EventLoop.JobInv loop)
    (hstep : EventLoop.Step c s.loop (.work i) loop) :
    ServiceInv w (start w { s with loop := loop } i) := by
  obtain ⟨hidle, hrun, hcl, -⟩ := running_work hstep
  have hloop : (start w { s with loop := loop } i).loop = loop := by
    simp only [start]
    split <;> rfl
  have hsockets : (start w { s with loop := loop } i).sockets = s.sockets := by
    simp only [start]
    split <;> rfl
  refine ⟨fun k hno hncl => ?_, fun i' j k hj hfile => ?_, fun a ha => ?_⟩
  · rw [hsockets]
    rw [hloop] at hno hncl
    refine h.untouched k (fun i' j hj => ?_) fun a ha => hncl a (hcl ▸ ha)
    have hne : i' ≠ i := by
      rintro rfl
      rw [hidle] at hj
      cases hj
    exact hno i' j ((hrun i' hne).trans hj)
  · rw [hloop] at hj
    rw [hsockets]
    by_cases hi : i' = i
    · -- the job begins, and nobody has used its connection
      subst hi
      obtain ⟨hw, -⟩ := running_eq_some.mp hj
      have hrest : (start w { s with loop := loop } i').rest i' =
          threadJob w.tables (w.packet j) := by
        simp only [start, hw, Function.update_self]
      have hclient : s.sockets k = w.client k := by
        refine h.untouched k (fun i j' hj' hfile' => ?_) fun a ha hfile' => ?_
        · have hne : i ≠ i' := by
            rintro rfl
            rw [hidle] at hj'
            cases hj'
          exact hne (running_file hjobs ((hrun i hne).trans hj') hj (hfile'.trans hfile.symm))
        · exact running_open hjobs hj (hcl ▸ ha) (hfile'.trans hfile.symm)
      rw [hrest, hclient]
      exact .start
    · have hrest : (start w { s with loop := loop } i).rest i' = s.rest i' := by
        simp only [start]
        split
        · exact Function.update_of_ne hi ..
        · rfl
      rw [hrest]
      exact h.onTrack i' j k ((hrun i' hi).symm.trans hj) hfile
  · rw [hloop, hcl] at ha
    rw [hsockets]
    exact h.served a ha

/-- A step of the job that has the connection `k`, and of nobody else. -/
theorem ServiceInv.own {i : Fin n} {j : Args} {k : Nat} (h : ServiceInv w s)
    (hjobs : EventLoop.JobInv s.loop) (hj : running s.loop i = some j)
    (hfile : j.file = some (.conn k)) (hsockets : ∀ k', k' ≠ k → s'.sockets k' = s.sockets k')
    (hrest : ∀ i', i' ≠ i → s'.rest i' = s.rest i')
    (hrun : ∀ i', i' ≠ i → running s'.loop i' = running s.loop i')
    (hkept : ∀ a ∈ s.loop.closes, a ∈ s'.loop.closes)
    (hmine : running s'.loop i = some j ∨ ∃ a ∈ s'.loop.closes, a.job = j)
    (honTrack : ∀ j', running s'.loop i = some j' → j' = j ∧
      Dialogue.OnTrack socketCall (threadJob w.tables (w.packet j)) (w.client k)
        (s'.rest i) (s'.sockets k))
    (hserved : ∀ a ∈ s'.loop.closes, a ∈ s.loop.closes ∨ a.job = j ∧ ∃ query,
      Server.threadJob w.tables (w.packet j) (w.client k) = .ok ⟨query, s'.sockets k⟩) :
    ServiceInv w s' where
  untouched k' hno hncl := by
    have hk : k' ≠ k := by
      rintro rfl
      rcases hmine with hmine | ⟨a, ha, rfl⟩
      · exact hno i j hmine hfile
      · exact hncl a ha hfile
    rw [hsockets k' hk]
    refine h.untouched k' (fun i' j' hj' hfile' => ?_) fun a ha => hncl a (hkept a ha)
    by_cases hi : i' = i
    · subst hi
      obtain rfl : j = j' := Option.some.inj (hj.symm.trans hj')
      exact hk (by simpa using hfile'.symm.trans hfile)
    · exact hno i' j' ((hrun i' hi).trans hj') hfile'
  onTrack i' j' k' hj' hfile' := by
    by_cases hi : i' = i
    · subst hi
      obtain ⟨rfl, htrack⟩ := honTrack j' hj'
      obtain rfl : k = k' := by simpa using hfile.symm.trans hfile'
      exact htrack
    · have hold := (hrun i' hi).symm.trans hj'
      have hk : k' ≠ k := by
        rintro rfl
        exact hi (running_file hjobs hold hj (hfile'.trans hfile.symm))
      rw [hrest i' hi, hsockets k' hk]
      exact h.onTrack i' j' k' hold hfile'
  served a ha k' hfile' := by
    rcases hserved a ha with ha | ⟨rfl, hdone⟩
    · have hk : k' ≠ k := by
        rintro rfl
        exact running_open hjobs hj ha (hfile'.trans hfile.symm)
      rw [hsockets k' hk]
      exact h.served a ha k' hfile'
    · obtain rfl : k = k' := by simpa using hfile.symm.trans hfile'
      exact hdone

/-- The next call of a job. -/
theorem ServiceInv.transfer {i : Fin n} {j : Args} (h : ServiceInv w s)
    (hjobs : EventLoop.JobInv s.loop) (hstep : EventLoop.Step c s.loop (.transfer i) loop)
    (hj : running s.loop i = some j) (hrest : ¬ AtClose (s.rest i))
    (hcall : Service.transfer { s with loop := loop } i (s.loop.files j.fd) = .ok s') :
    ServiceInv w s' := by
  obtain ⟨hrun, hcl⟩ := running_frame hstep (by simp) (by simp)
  obtain ⟨-, -, -, hmade, -, hopen⟩ := hjobs.running hj
  obtain ⟨k, -, hfile⟩ := hjobs.conn j hmade
  rw [hopen, hfile] at hcall
  have honTrack := h.onTrack i j k hj hfile
  simp only [Service.transfer] at hcall
  cases hask : s.rest i with
  | ret q => exact absurd (by rw [hask]; trivial) hrest
  | fail f => rw [hask] at hcall; cases hcall
  | ask op next =>
    rw [hask] at hcall honTrack
    obtain rfl := Except.ok.inj hcall
    refine h.own hjobs hj hfile (fun k' hk => Function.update_of_ne hk ..)
      (fun i' hi => Function.update_of_ne hi ..) (fun i' _ => hrun i') (fun a ha => ?_)
      (.inl ((hrun i).trans hj)) (fun j' hj' => ⟨?_, ?_⟩) fun a ha => .inl ?_
    · exact hcl ▸ ha
    · exact Option.some.inj (hj'.symm.trans ((hrun i).trans hj))
    · simp only [Function.update_self]
      exact honTrack.ask
    · exact hcl ▸ ha

/-- The `close` of a job that has nothing else to do. -/
theorem ServiceInv.close {i : Fin n} {j : Args} (h : ServiceInv w s)
    (hjobs : EventLoop.JobInv s.loop) (hstep : EventLoop.Step c s.loop (.close i) loop)
    (hj : running s.loop i = some j) (hrest : AtClose (s.rest i)) :
    ServiceInv w (Service.close { s with loop := loop } (s.loop.files j.fd)) := by
  obtain ⟨j', hj', hend, hrun, hcl⟩ := running_close hstep
  obtain rfl : j = j' := Option.some.inj (hj.symm.trans hj')
  obtain ⟨-, -, -, hmade, -, hopen⟩ := hjobs.running hj
  obtain ⟨k, -, hfile⟩ := hjobs.conn j hmade
  have honTrack := h.onTrack i j k hj hfile
  rw [hopen, hfile] at hcl ⊢
  refine h.own hjobs hj hfile (fun k' hk => Function.update_of_ne hk ..) (fun _ _ => rfl) hrun
    (fun a ha => ?_) (.inr ⟨⟨i, j, some (.conn k)⟩, ?_, rfl⟩) (fun j' hj' => ?_) fun a ha => ?_
  · show a ∈ loop.closes
    rw [hcl]
    exact List.mem_append_left _ ha
  · show _ ∈ loop.closes
    rw [hcl]
    exact List.mem_append_right _ List.mem_cons_self
  · exact absurd (hend.symm.trans hj') (by simp)
  · rw [show (Service.close { s with loop := loop } (some (.conn k))).loop.closes =
      loop.closes from rfl, hcl] at ha
    refine (List.mem_append.mp ha).imp_right fun ha => ?_
    obtain rfl := List.mem_singleton.mp ha
    refine ⟨rfl, ?_⟩
    cases hret : s.rest i with
    | ret query =>
      rw [hret] at honTrack
      refine ⟨query, ?_⟩
      rw [run_threadJob, honTrack.ret]
      simp only [Service.close, Function.update_self]
      rfl
    | _ => exact absurd hrest (by rw [hret]; exact id)

/-- Every step keeps the connections as they are alone. -/
theorem ServiceInv.step (h : ServiceInv w s) (hjobs : EventLoop.JobInv s.loop)
    (hjobs' : EventLoop.JobInv s'.loop) (hstep : Step c w s e s') : ServiceInv w s' := by
  have hl := hstep.loop
  obtain ⟨⟨hen, hat⟩, hrun⟩ := hstep
  obtain ⟨loop, hloop, hrun⟩ := bind_eq_ok hrun
  have hstep : EventLoop.Step c s.loop e loop := ⟨hen, hloop⟩
  have hloop' : s'.loop = loop := Except.ok.inj (hl.2.symm.trans hloop)
  rw [hloop'] at hjobs'
  cases e with
  | work i =>
    obtain rfl := Except.ok.inj hrun
    exact h.work hjobs' hstep
  | transfer i =>
    obtain ⟨j, hj⟩ := Option.isSome_iff_exists.mp hen
    refine h.transfer hjobs hstep hj hat ?_
    simpa only [fileOf, hj, Option.bind_some] using hrun
  | close i =>
    obtain ⟨j, hj⟩ := Option.isSome_iff_exists.mp hen
    obtain rfl := Except.ok.inj hrun
    simp only [fileOf, hj, Option.bind_some]
    exact h.close hjobs hstep hj hat
  | _ =>
    obtain rfl := Except.ok.inj hrun
    exact h.frame hstep (by simp) (by simp)

theorem initial_serviceInv : ServiceInv w (initial c w : State n) where
  untouched _ _ _ := rfl
  onTrack _ _ _ hj _ := by cases hj
  served _ ha := absurd ha List.not_mem_nil

theorem reachable_serviceInv (hr : Reachable c w s) : LoopInv c s.loop ∧ ServiceInv w s := by
  refine hr.invariant (I := fun s => LoopInv c s.loop ∧ ServiceInv w s)
    ⟨EventLoop.initial_inv, initial_serviceInv⟩ ?_
  rintro s e s' ⟨hl, h⟩ hall hstep
  have hl' := hl.step hall hstep.loop
  exact ⟨hl', h.step hl.jobs hl'.jobs hstep⟩

/-- Each connection is served as if its job were the only one. -/
structure ServesAlone (w : World) (s : State n) : Prop where
  /-- a connection that has been closed is as `thread_job` alone leaves it -/
  closed : ∀ a ∈ s.loop.closes, ∃ k query, a.job.file = some (.conn k) ∧
    Server.threadJob w.tables (w.packet a.job) (w.client k) = .ok ⟨query, s.sockets k⟩
  /-- a job that runs goes on as it does alone, to its end or to a fault -/
  goesOn : ∀ i j, running s.loop i = some j → ∃ k, j.file = some (.conn k) ∧
    (s.rest i).run socketCall (s.sockets k) =
      (threadJob w.tables (w.packet j)).run socketCall (w.client k)
  /-- nobody else uses a connection -/
  waiting : ∀ k, (∀ i j, running s.loop i = some j → j.file ≠ some (.conn k)) →
    (∀ a ∈ s.loop.closes, a.job.file ≠ some (.conn k)) → s.sockets k = w.client k

theorem serves_alone (hr : Reachable c w s) : ServesAlone w s := by
  obtain ⟨hl, h⟩ := reachable_serviceInv hr
  refine ⟨fun a ha => ?_, fun i j hj => ?_, h.untouched⟩
  · have hmade := hl.jobs.taken.2 a.job (List.mem_map_of_mem (hl.jobs.ran a ha))
    obtain ⟨k, -, hfile⟩ := hl.jobs.conn a.job hmade
    obtain ⟨query, hquery⟩ := h.served a ha k hfile
    exact ⟨k, query, hfile, hquery⟩
  · obtain ⟨-, -, -, hmade, -⟩ := hl.jobs.running hj
    obtain ⟨k, -, hfile⟩ := hl.jobs.conn j hmade
    exact ⟨k, hfile, h.onTrack i j k hj hfile⟩

/-! ## A job can be run to its end -/

/-- The next call of a job does not depend on the other threads. -/
theorem reachable_transfer {i : Fin n} {j : Args} {k : Nat} {op : Call}
    {ask : op.Answer → Program (Option (List UInt8))} (hr : Reachable c w s)
    (hj : running s.loop i = some j) (hfile : s.loop.files j.fd = some (.conn k))
    (hrest : s.rest i = .ask op ask) :
    Reachable c w { s with
      loop := EventLoop.transfer s.loop i j
      sockets := Function.update s.sockets k (socketCall op (s.sockets k)).2
      rest := Function.update s.rest i (ask (socketCall op (s.sockets k)).1) } := by
  refine hr.tail (e := .transfer i) trivial ⟨⟨?_, ?_⟩, ?_⟩
  · simp only [EventLoop.Enabled, hj, Option.isSome_some]
  · simp only [hrest]
    exact id
  · simp only [next, EventLoop.next, hj, Option.elim_some, ok_bind, fileOf, Option.bind_some,
      hfile, transfer, hrest]

theorem reachable_close {i : Fin n} {j : Args} {query : Option (List UInt8)}
    (hr : Reachable c w s) (hj : running s.loop i = some j) (hrest : s.rest i = .ret query) :
    Reachable c w (close { s with loop := EventLoop.close s.loop i j } (s.loop.files j.fd)) := by
  refine hr.tail (e := .close i) trivial ⟨⟨?_, ?_⟩, ?_⟩
  · simp only [EventLoop.Enabled, hj, Option.isSome_some]
  · simp only [hrest]
    trivial
  · simp only [next, EventLoop.next, hj, Option.elim_some, ok_bind, fileOf, Option.bind_some]

/-- A job that does not fault alone comes to its `close` when its worker goes on. -/
theorem finishes {i : Fin n} {j : Args} {k : Nat} {served : Served} (hr : Reachable c w s)
    (hj : running s.loop i = some j) (hfile : j.file = some (.conn k))
    (hok : Server.threadJob w.tables (w.packet j) (w.client k) = .ok served) :
    ∃ (s' : State n) (transfers : List (EventLoop.Access n)), Reachable c w s' ∧
      s'.loop = EventLoop.close { s.loop with transfers := transfers } i j ∧
      s'.sockets k = served.socket := by
  -- on what is left of the job
  induction hp : s.rest i generalizing s with
  | ret query =>
    have hr' := reachable_close hr hj hp
    have hcl : (close { s with loop := EventLoop.close s.loop i j }
        (s.loop.files j.fd)).loop = EventLoop.close s.loop i j := by
      simp only [close]
      split <;> rfl
    refine ⟨_, s.loop.transfers, hr', hcl, ?_⟩
    obtain ⟨-, h'⟩ := reachable_serviceInv hr'
    obtain ⟨query', hdone⟩ := h'.served ⟨i, j, s.loop.files j.fd⟩
      (by rw [hcl]; exact List.mem_append_right _ List.mem_cons_self) k hfile
    exact congrArg Served.socket (Except.ok.inj (hdone.symm.trans hok))
  | fail f =>
    obtain ⟨-, h⟩ := reachable_serviceInv hr
    have htrack := h.onTrack i j k hj hfile
    rw [hp] at htrack
    rw [run_threadJob, htrack.fail] at hok
    cases hok
  | ask op ask ih =>
    obtain ⟨hl, -⟩ := reachable_serviceInv hr
    obtain ⟨-, -, -, -, -, hopen⟩ := hl.jobs.running hj
    obtain ⟨s', xs, hr', hs', hsocket⟩ :=
      ih _ (reachable_transfer hr hj (hopen.trans hfile) hp) hj (Function.update_self ..)
    exact ⟨s', xs, hr', hs', hsocket⟩

/-! ## A run -/

/-- The event is none of a job. -/
def OutsideJobs : EventLoop.Event n → Prop
  | .transfer _ | .close _ => False
  | _ => True

/-- A step of the event loop outside of the jobs is one of the server. -/
theorem step_of_loop (he : OutsideJobs e) (h : EventLoop.Step c s.loop e loop) :
    ∃ s' : State n, Step c w s e s' ∧ s'.loop = loop := by
  obtain ⟨hen, hrun⟩ := h
  cases e with
  | transfer i | close i => exact he.elim
  | work i =>
    refine ⟨start w { s with loop := loop } i, ⟨⟨hen, trivial⟩, ?_⟩, ?_⟩
    · simp only [next, hrun, ok_bind]
    · simp only [start]
      split <;> rfl
  | _ =>
    refine ⟨{ s with loop := loop }, ⟨⟨hen, trivial⟩, ?_⟩, rfl⟩
    simp only [next, hrun, ok_bind]

theorem reachable_of_loop {es : List (EventLoop.Event n)} (hr : Reachable c w s)
    (hes : ∀ e ∈ es, OutsideJobs e) (hall : ∀ e ∈ es, ∀ l, EventLoop.Allocates l e)
    (h : EventLoop.run c es s.loop = some loop) : ∃ s', Reachable c w s' ∧ s'.loop = loop := by
  induction es generalizing s with
  | nil => exact ⟨s, hr, Option.some.inj h⟩
  | cons e es ih =>
    rw [EventLoop.run] at h
    split at h
    · next hen =>
      cases hnext : EventLoop.next c s.loop e with
      | ok l =>
        rw [hnext] at h
        obtain ⟨s', hstep, rfl⟩ := step_of_loop (hes e List.mem_cons_self) ⟨hen, hnext⟩
        exact ih (hr.tail (hall e List.mem_cons_self s.loop) hstep)
          (fun e he => hes e (List.mem_cons_of_mem _ he))
          (fun e he => hall e (List.mem_cons_of_mem _ he)) h
      | error f => rw [hnext] at h; cases h
    · cases h

/-- The first job of `oneClient`. -/
def firstJob : Args := ⟨4, some (.conn 0)⟩

/-- A job that does not fault alone has come to its `close`, and nobody else is in the pool. -/
theorem oneClient_served {served : Served}
    (hok : Server.threadJob w.tables (w.packet firstJob) (w.client 0) = .ok served) :
    ∃ s : State 1, Reachable EventLoop.threeOpen w s ∧
      s.loop.closes.map EventLoop.Access.job = [firstJob] ∧ s.loop.pool.worker 0 = .exec firstJob ∧
      s.loop.closed 0 = true ∧ s.loop.pool.mutex = none ∧ s.loop.pool.queue.size = 0 ∧
      s.loop.pool.caller 0 = .idle ∧ s.loop.accepted = 1 := by
  have h : (EventLoop.run EventLoop.threeOpen EventLoop.oneClient
      (EventLoop.initial EventLoop.threeOpen)).any
      (fun l => running l 0 = some ⟨4, some (.conn 0)⟩ ∧
        l.closes.map EventLoop.Access.job = [] ∧ l.pool.mutex = none ∧ l.pool.queue.size = 0 ∧
        l.pool.caller 0 = .idle ∧ l.accepted = 1) = true := by decide
  obtain ⟨l, hrun, hl⟩ := (Option.any_eq_true ..).mp h
  obtain ⟨hj, hcl, hmutex, hsize, hidle, hacc⟩ := of_decide_eq_true hl
  have hout : ∀ e ∈ EventLoop.oneClient, OutsideJobs e := by
    simp [EventLoop.oneClient, OutsideJobs]
  obtain ⟨s, hr, rfl⟩ := reachable_of_loop (w := w)
    (s := initial EventLoop.threeOpen w) .refl hout EventLoop.oneClient_allocates hrun
  obtain ⟨s', xs, hr', hs', -⟩ := finishes hr hj rfl hok
  obtain ⟨hw, -⟩ := running_eq_some.mp hj
  refine ⟨s', hr', ?_⟩
  rw [hs']
  refine ⟨?_, hw, by simp [EventLoop.close], hmutex, hsize, hidle, hacc⟩
  simp only [EventLoop.close, List.map_append, hcl]
  rfl

/-- Every client sends a request whose body stops early. -/
def World.incomplete : World where
  tables := .empty
  client := fun _ => .receiving Server.incomplete
  packet := fun _ => ⟨List.replicate (DYN_SIZE + 1) 0, List.length_replicate⟩

/-- The second job of `twoClients`. -/
def secondJob : Args := ⟨5, some (.conn 1)⟩

/-- While the first worker is in its job the second one comes to its `close`, and then the first
one does. -/
theorem twoClients_served {served₀ served₁ : Served}
    (hok₀ : Server.threadJob w.tables (w.packet firstJob) (w.client 0) = .ok served₀)
    (hok₁ : Server.threadJob w.tables (w.packet secondJob) (w.client 1) = .ok served₁) :
    ∃ s : State 2, Reachable EventLoop.threeOpen w s ∧
      s.loop.closes.map EventLoop.Access.job = [secondJob, firstJob] ∧
      s.loop.pool.worker 0 = .exec firstJob ∧ s.loop.pool.worker 1 = .exec secondJob ∧
      (∀ i, s.loop.closed i = true) ∧ s.loop.pool.mutex = none ∧ s.loop.pool.queue.size = 0 ∧
      s.loop.pool.caller 0 = .idle ∧ s.loop.accepted = 2 := by
  have h : (EventLoop.run EventLoop.threeOpen EventLoop.twoClients
      (EventLoop.initial EventLoop.threeOpen)).any
      (fun l => running l 0 = some ⟨4, some (.conn 0)⟩ ∧ running l 1 = some ⟨5, some (.conn 1)⟩ ∧
        l.closes.map EventLoop.Access.job = [] ∧ l.pool.mutex = none ∧ l.pool.queue.size = 0 ∧
        l.pool.caller 0 = .idle ∧ l.accepted = 2) = true := by decide
  obtain ⟨l, hrun, hl⟩ := (Option.any_eq_true ..).mp h
  obtain ⟨hj₀, hj₁, hcl, hmutex, hsize, hidle, hacc⟩ := of_decide_eq_true hl
  have hout : ∀ e ∈ EventLoop.twoClients, OutsideJobs e := by
    simp [EventLoop.twoClients, OutsideJobs]
  obtain ⟨s, hr, rfl⟩ := reachable_of_loop (w := w)
    (s := initial EventLoop.threeOpen w) .refl hout EventLoop.twoClients_allocates hrun
  obtain ⟨hw₀, hc₀⟩ := running_eq_some.mp hj₀
  obtain ⟨hw₁, -⟩ := running_eq_some.mp hj₁
  obtain ⟨s₁, xs₁, hr₁, hs₁, -⟩ := finishes hr hj₁ rfl hok₁
  have hstill : running s₁.loop 0 = some firstJob := by
    refine running_eq_some.mpr ⟨by rw [hs₁]; exact hw₀, ?_⟩
    rw [hs₁]
    simp [EventLoop.close, hc₀]
  obtain ⟨s₂, xs₂, hr₂, hs₂, -⟩ := finishes hr₁ hstill rfl hok₀
  refine ⟨s₂, hr₂, ?_⟩
  rw [hs₂, hs₁]
  refine ⟨?_, hw₀, hw₁, fun i => ?_, hmutex, hsize, hidle, hacc⟩
  · simp only [EventLoop.close, List.map_append, hcl]
    rfl
  · rcases (by omega : i = 0 ∨ i = 1) with rfl | rfl <;> simp [EventLoop.close]

theorem serves_alone_twoClients : ∃ s : State 2, Reachable EventLoop.threeOpen .incomplete s ∧
    s.loop.closes.map EventLoop.Access.job = [secondJob, firstJob] ∧
    ServesAlone .incomplete s := by
  obtain ⟨v, hok, -⟩ := threadJob_incomplete
    ⟨List.replicate (DYN_SIZE + 1) 0, List.length_replicate⟩
  obtain ⟨s, hr, hcl, -⟩ := twoClients_served (w := .incomplete) hok hok
  exact ⟨s, hr, hcl, serves_alone hr⟩

end Runs

end SearchEngine.Server.Service
