import SearchEngine.Server.Verify.Descriptors

/-!
# Each connection is handed over once

Between two rounds `currentfds` holds no descriptor of a job; inside `add_job_to_pool`, and
until `main` has come to `FD_CLR`, it still holds the one that is handed over (`WatchInv`).
The scan of a round has handed over what lies behind it, and what lies ahead is as `select`
found it (`ScanInv`).
-/

namespace SearchEngine.Server.EventLoop

open Reach Outcome
open ThreadPool (Pool)

variable {n : Nat} {c : Setup} {s s' : State n} {e : Event n}

/-! ## The loop of `main` -/

/-- The descriptor is the socket's, or that of a connection that has no job yet. -/
def Watched (c : Setup) (s : State n) (fd : Nat) : Prop :=
  fd = c.listenfd ∨ ∃ k, s.files fd = some (.conn k) ∧ some (.conn k) ∉ (made s).map Args.file

/-- What `currentfds` holds. -/
structure WatchInv (c : Setup) (s : State n) : Prop where
  idle : (∀ i d, s.pc ≠ .handing i d) → s.pool.caller 0 = .idle
  watched : ∀ fd ∈ s.currentfds, (∀ d, s.pc ≠ .handing fd d) → Watched c s fd
  le : ∀ fd ∈ s.currentfds, fd ≤ s.maxfd
  lt : s.maxfd < FD_SETSIZE
  handed : ∀ i d, s.pc = .handing i d → i ≤ s.maxfd

/-- The scan has yet to come to the descriptor. -/
def MainPc.Ahead : MainPc → Nat → Prop
  | .scan i _, fd => i ≤ fd
  | .accept i _, fd | .handing i _, fd => i < fd
  | .copy, _ | .select, _ | .exited, _ => False

/-- The scan of the round has come to the descriptor. -/
def MainPc.Behind : MainPc → Nat → Prop
  | .copy, _ => True
  | .scan i _, fd => fd < i
  | .accept i _, fd | .handing i _, fd => fd ≤ i
  | .select, _ | .exited, _ => False

/-- `desc_ready` counts the bits ahead. -/
def MainPc.Counts : MainPc → FdSet → Prop
  | .scan i d, r => d = (r.filter (i ≤ ·)).card
  | .accept i d, r | .handing i d, r => d = (r.filter (i < ·)).card
  | .copy, _ | .select, _ | .exited, _ => True

/-- How far the round is. -/
structure ScanInv (c : Setup) (s : State n) : Prop where
  copied : s.pc = .select → ∀ fd ∈ s.readyfds, fd ∈ s.currentfds
  ahead : ∀ fd ∈ s.readyfds, s.pc.Ahead fd → fd ∈ s.currentfds ∧ s.snapshot fd = s.files fd
  behind : ∀ fd ∈ s.readyfds, s.pc.Behind fd → fd = c.listenfd ∨
    ∃ j ∈ made s, j.fd = fd ∧ j.file = s.snapshot fd
  counts : s.pc.Counts s.readyfds

theorem Watched.open {fd : Nat} (h : Watched c s fd) (hf : FileInv c s) : s.files fd ≠ none := by
  rcases h with rfl | ⟨k, hk, -⟩
  · rw [hf.listener]
    exact Option.some_ne_none _
  · rw [hk]
    exact Option.some_ne_none _

/-- A job's descriptor is none of these. -/
theorem Watched.ne_job {fd : Nat} {j : Args} (h : Watched c s fd) (hf : FileInv c s)
    (hj : JobInv s) (hmade : j ∈ made s) (hopen : s.files j.fd = j.file) : fd ≠ j.fd := by
  rintro rfl
  obtain ⟨k, -, hfile⟩ := hj.conn j hmade
  rcases h with hl | ⟨k', hk', hnew⟩
  · rw [hl, hf.listener, hfile] at hopen
    cases hopen
  · rw [hk'] at hopen
    exact hnew (hopen ▸ List.mem_map_of_mem hmade)

theorem MainPc.Ahead.not_handing {pc : MainPc} {fd : Nat} (h : pc.Ahead fd) (d : Int) :
    pc ≠ .handing fd d := by
  rintro rfl
  exact absurd h (Nat.lt_irrefl fd)

/-- The bits ahead are of descriptors that nobody closes. -/
theorem ScanInv.watched {fd : Nat} (h : ScanInv c s) (hw : WatchInv c s) (hfd : fd ∈ s.readyfds)
    (ha : s.pc.Ahead fd) : Watched c s fd :=
  hw.watched fd (h.ahead fd hfd ha).1 ha.not_handing

theorem card_filter_skip {r : FdSet} {i : Nat} (h : i ∉ r) :
    r.filter (i ≤ ·) = r.filter (i + 1 ≤ ·) := by
  refine Finset.filter_congr fun x hx => ⟨fun hle => ?_, Nat.le_of_succ_le⟩
  exact Nat.lt_of_le_of_ne hle fun e => h (e ▸ hx)

theorem card_filter_take {r : FdSet} {i : Nat} (h : i ∈ r) :
    ((r.filter (i ≤ ·)).card : Int) - 1 = (r.filter (i < ·)).card := by
  have hins : r.filter (i ≤ ·) = insert i (r.filter (i < ·)) := by
    ext x
    rw [Finset.mem_filter, Finset.mem_insert, Finset.mem_filter]
    constructor
    · rintro ⟨hx, hle⟩
      rcases Nat.eq_or_lt_of_le hle with rfl | hlt
      · exact .inl rfl
      · exact .inr ⟨hx, hlt⟩
    · rintro (rfl | ⟨hx, hlt⟩)
      · exact ⟨h, Nat.le_refl _⟩
      · exact ⟨hx, hlt.le⟩
  rw [hins, Finset.card_insert_of_notMem (by simp)]
  simp

/-- `main` goes on outside of `add_job_to_pool`. -/
theorem WatchInv.goto {pc : MainPc} {readyfds : FdSet} {snapshot : Nat → Option File}
    (h : WatchInv c s) (hs : ∀ i d, s.pc ≠ .handing i d) (hpc : ∀ i d, pc ≠ .handing i d) :
    WatchInv c { s with pc := pc, readyfds := readyfds, snapshot := snapshot } where
  idle _ := h.idle hs
  watched fd hfd _ := h.watched fd hfd (hs fd)
  le := h.le
  lt := h.lt
  handed i d hi := absurd hi (hpc i d)

/-- A step that leaves the round where it is. -/
theorem ScanInv.keep {t : State n} (h : ScanInv c s) (hpc : t.pc = s.pc)
    (hready : t.readyfds = s.readyfds) (hsnap : t.snapshot = s.snapshot)
    (hcurrent : ∀ fd ∈ s.currentfds, fd ∈ t.currentfds)
    (hfiles : ∀ fd ∈ s.readyfds, s.pc.Ahead fd → t.files fd = s.files fd)
    (hmade : ∀ j ∈ made s, j ∈ made t) : ScanInv c t where
  copied hsel fd hfd := by
    rw [hpc] at hsel
    rw [hready] at hfd
    exact hcurrent fd (h.copied hsel fd hfd)
  ahead fd hfd ha := by
    rw [hpc] at ha
    rw [hready] at hfd
    obtain ⟨hcur, hseen⟩ := h.ahead fd hfd ha
    exact ⟨hcurrent fd hcur, by rw [hsnap, hseen, hfiles fd hfd ha]⟩
  behind fd hfd hb := by
    rw [hpc] at hb
    rw [hready] at hfd
    refine (h.behind fd hfd hb).imp_right fun ⟨j, hj, hjfd, hfile⟩ => ?_
    exact ⟨j, hmade j hj, hjfd, hfile.trans (congrFun hsnap.symm fd)⟩
  counts := by
    rw [hpc, hready]
    exact h.counts

/-- The four invariants together. -/
structure LoopInv (c : Setup) (s : State n) : Prop where
  jobs : JobInv s
  files : FileInv c s
  watch : WatchInv c s
  scan : ScanInv c s

theorem LoopInv.copy (h : LoopInv c s) (hpc : s.pc = .copy) :
    LoopInv c { s with readyfds := s.currentfds, pc := .select } where
  jobs := h.jobs.main
  files := ⟨h.files.other, h.files.listener, h.files.conn, h.files.unique⟩
  watch := h.watch.goto (by simp [hpc]) (by simp)
  scan := ⟨fun _ _ hfd => hfd, fun _ _ ha => ha.elim, fun _ _ hb => hb.elim, trivial⟩

theorem LoopInv.exit (h : LoopInv c s) (hpc : s.pc = .select) :
    LoopInv c { s with pc := .exited } where
  jobs := h.jobs.main
  files := ⟨h.files.other, h.files.listener, h.files.conn, h.files.unique⟩
  watch := h.watch.goto (by simp [hpc]) (by simp)
  scan := ⟨nofun, fun _ _ ha => ha.elim, fun _ _ hb => hb.elim, trivial⟩

theorem LoopInv.select {r : FdSet} (h : LoopInv c s) (hpc : s.pc = .select)
    (hr : ∀ fd ∈ r, fd ∈ s.readyfds ∧ fd ≤ s.maxfd) :
    LoopInv c { s with readyfds := r, snapshot := s.files, pc := .scan 0 r.card } where
  jobs := h.jobs.main
  files := ⟨h.files.other, h.files.listener, h.files.conn, h.files.unique⟩
  watch := h.watch.goto (by simp [hpc]) (by simp)
  scan := by
    refine ⟨nofun, fun fd hfd _ => ?_, fun _ _ hb => absurd hb (Nat.not_lt_zero _), ?_⟩
    · exact ⟨h.scan.copied hpc fd (hr fd hfd).1, rfl⟩
    · show (r.card : Int) = _
      rw [Finset.filter_true_of_mem fun x _ => Nat.zero_le x]

/-- The scan ends when nothing is ahead. -/
theorem LoopInv.leave {i : Nat} {d : Int} (h : LoopInv c s) (hpc : s.pc = .scan i d)
    (hstop : ¬ (i ≤ s.maxfd ∧ 0 < d)) : LoopInv c { s with pc := .copy } where
  jobs := h.jobs.main
  files := ⟨h.files.other, h.files.listener, h.files.conn, h.files.unique⟩
  watch := h.watch.goto (by simp [hpc]) (by simp)
  scan := by
    refine ⟨nofun, fun _ _ ha => ha.elim, fun fd hfd _ => ?_, trivial⟩
    apply h.scan.behind fd hfd
    rw [hpc]
    by_contra hge
    have hle : i ≤ fd := Nat.le_of_not_lt hge
    have hcur := (h.scan.ahead fd hfd (by rw [hpc]; exact hle)).1
    have hcount := h.scan.counts
    rw [hpc] at hcount
    have hpos : 0 < (s.readyfds.filter (i ≤ ·)).card :=
      Finset.card_pos.mpr ⟨fd, Finset.mem_filter.mpr ⟨hfd, hle⟩⟩
    refine hstop ⟨hle.trans (h.watch.le fd hcur), ?_⟩
    rw [show d = _ from hcount]
    exact Int.natCast_pos.mpr hpos

theorem LoopInv.skip {i : Nat} {d : Int} (h : LoopInv c s) (hpc : s.pc = .scan i d)
    (hclear : i ∉ s.readyfds) : LoopInv c { s with pc := .scan (i + 1) d } where
  jobs := h.jobs.main
  files := ⟨h.files.other, h.files.listener, h.files.conn, h.files.unique⟩
  watch := h.watch.goto (by simp [hpc]) (by simp)
  scan := by
    refine ⟨nofun, fun fd hfd ha => ?_, fun fd hfd hb => ?_, ?_⟩
    · exact h.scan.ahead fd hfd (by rw [hpc]; exact Nat.le_of_succ_le ha)
    · refine h.scan.behind fd hfd ?_
      rw [hpc]
      exact Nat.lt_of_le_of_ne (Nat.le_of_lt_succ hb) fun e => hclear (e ▸ hfd)
    · have hcount := h.scan.counts
      rw [hpc] at hcount
      show d = _
      rw [← card_filter_skip hclear]
      exact hcount

theorem ScanInv.take {i : Nat} {d : Int} (h : ScanInv c s) (hpc : s.pc = .scan i d)
    (hready : i ∈ s.readyfds) : d - 1 = (s.readyfds.filter (i < ·)).card := by
  have hcount := h.counts
  rw [hpc] at hcount
  rw [show d = _ from hcount]
  exact card_filter_take hready

theorem LoopInv.listen {i : Nat} {d : Int} (h : LoopInv c s) (hpc : s.pc = .scan i d)
    (hready : i ∈ s.readyfds) (hl : i = c.listenfd) :
    LoopInv c { s with pc := .accept i (d - 1) } where
  jobs := h.jobs.main
  files := ⟨h.files.other, h.files.listener, h.files.conn, h.files.unique⟩
  watch := h.watch.goto (by simp [hpc]) (by simp)
  scan := by
    refine ⟨nofun, fun fd hfd ha => ?_, fun fd hfd hb => ?_, h.scan.take hpc hready⟩
    · exact h.scan.ahead fd hfd (by rw [hpc]; exact Nat.le_of_lt ha)
    · rcases Nat.eq_or_lt_of_le (show fd ≤ i from hb) with rfl | hlt
      · exact .inl hl
      · exact h.scan.behind fd hfd (by rw [hpc]; exact hlt)

/-- A connection that is ready is handed over. -/
theorem LoopInv.add {i : Nat} {d : Int} (h : LoopInv c s) (hpc : s.pc = .scan i d)
    (hready : i ∈ s.readyfds) (hne : i ≠ c.listenfd) :
    LoopInv c { s with
      pool := s.pool.setCaller 0 (.lock ⟨i, s.files i⟩), pc := .handing i (d - 1) } := by
  have hahead : s.pc.Ahead i := by
    rw [hpc]
    exact Nat.le_refl i
  obtain ⟨k, hk, hnew⟩ := (h.scan.watched h.watch hready hahead).resolve_left hne
  obtain ⟨hcur, hseen⟩ := h.scan.ahead i hready hahead
  have hidle := h.watch.idle (by simp [hpc])
  have hmade : made { s with
      pool := s.pool.setCaller 0 (.lock ⟨i, s.files i⟩), pc := .handing i (d - 1) } =
      made s ++ [⟨i, s.files i⟩] := Pool.brought_add hidle
  have hjobs := h.jobs.add (j := ⟨i, s.files i⟩) hidle (h.files.conn i k hk) hk rfl
    (by rw [hk]; exact hnew)
  refine ⟨hjobs.main, ⟨h.files.other, h.files.listener, h.files.conn, h.files.unique⟩, ?_, ?_⟩
  · refine ⟨fun hno => absurd rfl (hno i (d - 1)), fun fd hfd hno => ?_, h.watch.le, h.watch.lt, ?_⟩
    · have hfdi : fd ≠ i := fun e => hno (d - 1) (by rw [e])
      refine (h.watch.watched fd hfd (by simp [hpc])).imp_right fun ⟨k', hk', hnew'⟩ => ?_
      refine ⟨k', hk', ?_⟩
      rw [hmade, List.map_append, List.mem_append, not_or]
      refine ⟨hnew', fun hmem => hfdi ?_⟩
      have hki : s.files i = some (.conn k') := (List.mem_singleton.mp hmem).symm
      exact h.files.unique fd i k' hk' hki
    · rintro i' d' heq
      cases heq
      exact h.watch.le i hcur
  · refine ⟨nofun, fun fd hfd ha => ?_, fun fd hfd hb => ?_, h.scan.take hpc hready⟩
    · exact h.scan.ahead fd hfd (by rw [hpc]; exact Nat.le_of_lt ha)
    · rw [hmade]
      rcases Nat.eq_or_lt_of_le (show fd ≤ i from hb) with rfl | hlt
      · exact .inr ⟨_, List.mem_append_right _ List.mem_cons_self, rfl, hseen.symm⟩
      · refine (h.scan.behind fd hfd (by rw [hpc]; exact hlt)).imp_right ?_
        exact fun ⟨j, hj, hjfd⟩ => ⟨j, List.mem_append_left _ hj, hjfd⟩

/-- `FD_CLR` -/
theorem LoopInv.clear {i : Nat} {d : Int} (h : LoopInv c s) (hpc : s.pc = .handing i d)
    (hidle : s.pool.caller 0 = .idle) :
    LoopInv c { s with currentfds := s.currentfds.erase i, pc := .scan (i + 1) d } where
  jobs := h.jobs.main
  files := ⟨h.files.other, h.files.listener, h.files.conn, h.files.unique⟩
  watch := by
    refine ⟨fun _ => hidle, fun fd hfd _ => ?_, fun fd hfd => ?_, h.watch.lt, nofun⟩
    · obtain ⟨hne, hfd⟩ := Finset.mem_erase.mp hfd
      refine h.watch.watched fd hfd fun d' he => hne ?_
      rw [hpc] at he
      cases he
      rfl
    · exact h.watch.le fd (Finset.mem_of_mem_erase hfd)
  scan := by
    have hcount := h.scan.counts
    rw [hpc] at hcount
    refine ⟨nofun, fun fd hfd ha => ?_, fun fd hfd hb => ?_, hcount⟩
    · obtain ⟨hcur, hseen⟩ := h.scan.ahead fd hfd (by rw [hpc]; exact ha)
      exact ⟨Finset.mem_erase.mpr ⟨(Nat.ne_of_lt ha).symm, hcur⟩, hseen⟩
    · exact h.scan.behind fd hfd (by rw [hpc]; exact Nat.le_of_lt_succ hb)

theorem LoopInv.refuse {i : Nat} {d : Int} (h : LoopInv c s) (hpc : s.pc = .accept i d) :
    LoopInv c { s with pc := .scan (i + 1) d } where
  jobs := h.jobs.main
  files := ⟨h.files.other, h.files.listener, h.files.conn, h.files.unique⟩
  watch := h.watch.goto (by simp [hpc]) (by simp)
  scan := by
    have hcount := h.scan.counts
    rw [hpc] at hcount
    refine ⟨nofun, fun fd hfd ha => ?_, fun fd hfd hb => ?_, hcount⟩
    · exact h.scan.ahead fd hfd (by rw [hpc]; exact ha)
    · exact h.scan.behind fd hfd (by rw [hpc]; exact Nat.le_of_lt_succ hb)

/-- A new connection. -/
theorem LoopInv.accept {i fd : Nat} {d : Int} (h : LoopInv c s) (hpc : s.pc = .accept i d)
    (hfree : s.files fd = none) (hlt : fd < c.limit) :
    LoopInv c { s with
      files := Function.update s.files fd (some (.conn s.accepted))
      accepted := s.accepted + 1
      currentfds := insert fd s.currentfds
      maxfd := max s.maxfd fd } := by
  have hfiles := h.files.accept hfree
  have hopen (x : Nat) (hx : Watched c s x) :
      Function.update s.files fd (some (.conn s.accepted)) x = s.files x :=
    Function.update_of_ne (fun heq => hx.open h.files (by rw [heq, hfree])) ..
  refine ⟨(h.jobs.accept hfree).main,
    ⟨hfiles.other, hfiles.listener, hfiles.conn, hfiles.unique⟩, ?_, ?_⟩
  · refine ⟨h.watch.idle, fun x hx hno => ?_, fun x hx => ?_, ?_, ?_⟩
    · rcases Finset.mem_insert.mp hx with rfl | hx
      · refine .inr ⟨s.accepted, Function.update_self .., fun hmem => ?_⟩
        obtain ⟨j, hj, hfile⟩ := List.mem_map.mp hmem
        obtain ⟨k, hk, hfile'⟩ := h.jobs.conn j hj
        rw [hfile, Option.some.injEq, File.conn.injEq] at hfile'
        exact hk.ne hfile'.symm
      · have hwatched := h.watch.watched x hx hno
        refine hwatched.imp_right fun ⟨k, hk, hnew⟩ => ⟨k, ?_, hnew⟩
        exact (hopen x hwatched).trans hk
    · rcases Finset.mem_insert.mp hx with rfl | hx
      · exact Nat.le_max_right ..
      · exact (h.watch.le x hx).trans (Nat.le_max_left ..)
    · exact Nat.max_lt.mpr ⟨h.watch.lt, hlt.trans_le c.limit_le⟩
    · intro i' d' he
      exact absurd (hpc.symm.trans he) (by simp)
  · refine h.scan.keep rfl rfl rfl (fun x hx => Finset.mem_insert_of_mem hx) ?_ fun _ hj => hj
    exact fun x hx ha => hopen x (h.scan.watched h.watch hx ha)

/-- The threads of the pool go on. -/
theorem LoopInv.pool {e : ThreadPool.Event n Args} {pool : Pool n Args} {closed : Fin n → Bool}
    (h : LoopInv c s) (hstep : ThreadPool.Step s.pool e pool) (he : e.Goes)
    (hall : ThreadPool.Allocates s.pool e) (hclosed : ∀ i, closed i = s.closed i ∨ e = .work i) :
    LoopInv c { s with pool := pool, closed := closed } := by
  have hmade : pool.brought = s.pool.brought := hstep.move.brought hall he
  refine ⟨h.jobs.step hstep he hall hclosed,
    ⟨h.files.other, h.files.listener, h.files.conn, h.files.unique⟩, ?_, ?_⟩
  · refine ⟨fun hno => hstep.move.idle he (h.watch.idle hno), fun fd hfd hno => ?_, h.watch.le,
      h.watch.lt, h.watch.handed⟩
    refine (h.watch.watched fd hfd hno).imp_right fun ⟨k, hk, hnew⟩ => ⟨k, hk, ?_⟩
    rw [made, hmade]
    exact hnew
  · refine h.scan.keep rfl rfl rfl (fun _ hx => hx) (fun _ _ _ => rfl) fun j hj => ?_
    rw [made, hmade]
    exact hj

theorem LoopInv.transfer {i : Fin n} {j : Args} (h : LoopInv c s) (hrun : running s i = some j) :
    LoopInv c (transfer s i j) where
  jobs := h.jobs.transfer hrun
  files := ⟨h.files.other, h.files.listener, h.files.conn, h.files.unique⟩
  watch := ⟨h.watch.idle, h.watch.watched, h.watch.le, h.watch.lt, h.watch.handed⟩
  scan := h.scan.keep rfl rfl rfl (fun _ hx => hx) (fun _ _ _ => rfl) fun _ hj => hj

/-- The `close` at the end of a job. -/
theorem LoopInv.close {i : Fin n} {j : Args} (h : LoopInv c s) (hrun : running s i = some j) :
    LoopInv c (close s i j) := by
  obtain ⟨-, -, -, hmade, -, hopen⟩ := h.jobs.running hrun
  obtain ⟨k, -, hfile⟩ := h.jobs.conn j hmade
  have hfiles := h.files.close (hopen.trans hfile)
  have hkept (x : Nat) (hx : Watched c s x) : Function.update s.files j.fd none x = s.files x :=
    Function.update_of_ne (hx.ne_job h.files h.jobs hmade hopen) ..
  refine ⟨h.jobs.close hrun, ⟨hfiles.other, hfiles.listener, hfiles.conn, hfiles.unique⟩, ?_, ?_⟩
  · refine ⟨h.watch.idle, fun x hx hno => ?_, h.watch.le, h.watch.lt, h.watch.handed⟩
    have hwatched := h.watch.watched x hx hno
    refine hwatched.imp_right fun ⟨k, hk, hnew⟩ => ⟨k, ?_, hnew⟩
    exact (hkept x hwatched).trans hk
  · refine h.scan.keep rfl rfl rfl (fun _ hx => hx) (fun x hx ha => ?_) fun _ hj => hj
    exact hkept x (h.scan.watched h.watch hx ha)

/-- Every step keeps the invariants. -/
theorem LoopInv.step (h : LoopInv c s) (hall : Allocates s e) (hstep : Step c s e s') :
    LoopInv c s' := by
  cases hstep.move with
  | copy pc => exact h.copy pc
  | fail pc => exact h.exit pc
  | timeout pc none => exact h.exit pc
  | select pc ready => exact h.select pc ready
  | leave pc stop => exact h.leave pc stop
  | skip pc clear => exact h.skip pc clear
  | listen pc ready listener => exact h.listen pc ready listener
  | add pc ready conn => exact h.add pc ready conn
  | clear pc idle => exact h.clear pc idle
  | refuse pc => exact h.refuse pc
  | zero pc free =>
    -- descriptor 0 is open
    have hopen := h.files.other 0 (c.std 0 (by decide))
    rw [free] at hopen
    cases hopen
  | accept pc free lt => exact h.accept pc free lt
  | pool step goes alloc other => exact h.pool step goes (alloc hall) other
  | transfer run => exact h.transfer run
  | close run => exact h.close run

theorem initial_inv : LoopInv c (initial c : State n) where
  jobs := by
    refine ⟨⟨[], [], ThreadPool.initial_inv⟩, List.nodup_nil, ?_, ?_, ?_, ?_, ?_,
      List.nodup_nil, ?_⟩
    · exact fun j hj => absurd hj List.not_mem_nil
    · exact fun j hj => absurd hj List.not_mem_nil
    · exact fun i j _ => List.not_mem_nil
    · exact fun a ha => absurd ha List.not_mem_nil
    · exact fun a ha => absurd ha List.not_mem_nil
    · exact fun a ha => absurd ha List.not_mem_nil
  files := by
    refine ⟨fun fd hfd => if_pos hfd, (if_neg c.distinct).trans (if_pos rfl), ?_, ?_⟩
    · intro fd k hfd
      simp only [initial] at hfd
      split at hfd
      · cases hfd
      · split at hfd <;> cases hfd
    · intro fd fd' k hfd
      simp only [initial] at hfd
      split at hfd
      · cases hfd
      · split at hfd <;> cases hfd
  watch := by
    refine ⟨fun _ => rfl, fun fd hfd _ => ?_, fun fd hfd => ?_, ?_, nofun⟩
    · exact .inl (Finset.mem_singleton.mp hfd)
    · exact (Finset.mem_singleton.mp hfd).le
    · exact c.listenfd_lt.trans_le c.limit_le
  scan := by
    refine ⟨nofun, fun _ _ ha => ha.elim, fun fd hfd _ => ?_, trivial⟩
    exact absurd hfd (Finset.notMem_empty fd)

theorem reachable_inv (hr : Reachable c s) : LoopInv c s :=
  hr.invariant initial_inv fun _ _ _ h hall hstep => h.step hall hstep

/-! ## Every run -/

theorem fdIsset_ok {fd : Nat} {set : FdSet} (h : fd < FD_SETSIZE) :
    fdIsset fd set = .ok (decide (fd ∈ set)) := if_pos h

theorem fdClr_ok {fd : Nat} {set : FdSet} (h : fd < FD_SETSIZE) :
    fdClr fd set = .ok (set.erase fd) := if_pos h

theorem fdSet_ok {fd : Nat} {set : FdSet} (h : fd < FD_SETSIZE) :
    fdSet fd set = .ok (insert fd set) := if_pos h

theorem JobInv.next_ok {e : ThreadPool.Event n Args} (h : JobInv s)
    (hen : ThreadPool.Enabled s.pool e) : ∃ pool, ofPool (ThreadPool.next s.pool e) = .ok pool := by
  obtain ⟨ns, jobs, hp⟩ := h.pool
  obtain ⟨pool, hpool⟩ := hp.next_ok hen
  exact ⟨pool, by rw [hpool]; rfl⟩

/-- No descriptor is beyond the sets, and no thread runs into a null pointer. -/
theorem next_ok (hr : Reachable c s) (hen : Enabled c s e) : ∃ s', next c s e = .ok s' := by
  obtain ⟨hjobs, -, hwatch, -⟩ := reachable_inv hr
  cases e with
  | main =>
    simp only [next]
    cases hpc : s.pc with
    | scan i d =>
      rw [main]
      by_cases hgo : i ≤ s.maxfd ∧ 0 < d
      · have hlt : i < FD_SETSIZE := hgo.1.trans_lt hwatch.lt
        rw [if_pos hgo, fdIsset_ok hlt, ok_bind]
        by_cases hset : i ∈ s.readyfds
        · rw [if_pos (decide_eq_true hset)]
          by_cases hl : i = c.listenfd
          · exact ⟨_, if_pos hl⟩
          · exact ⟨_, if_neg hl⟩
        · exact ⟨_, if_neg fun h => hset (of_decide_eq_true h)⟩
      · exact ⟨_, if_neg hgo⟩
    | handing i d =>
      have hlt : i < FD_SETSIZE := (hwatch.handed i d hpc).trans_lt hwatch.lt
      exact ⟨_, by rw [main, fdClr_ok hlt, ok_bind]⟩
    | _ => exact ⟨_, rfl⟩
  | select ready => exact ⟨_, rfl⟩
  | accept newfd =>
    simp only [next]
    cases hpc : s.pc with
    | accept i d =>
      cases newfd with
      | none => exact ⟨_, rfl⟩
      | some fd =>
        have hlt : fd < FD_SETSIZE := (hen.2 fd rfl).2.trans_le c.limit_le
        simp only [accept]
        split
        · exact ⟨_, rfl⟩
        · exact ⟨_, by rw [fdSet_ok hlt, ok_bind]⟩
    | _ => exact ⟨_, rfl⟩
  | call node woken =>
    obtain ⟨pool, hpool⟩ := hjobs.next_ok (e := .call 0 node woken) hen
    exact ⟨_, by rw [next, hpool, ok_bind]⟩
  | work i =>
    obtain ⟨pool, hpool⟩ := hjobs.next_ok (e := .work i) hen.1
    exact ⟨_, by rw [next, hpool, ok_bind]⟩
  | spurious i =>
    obtain ⟨pool, hpool⟩ := hjobs.next_ok (e := .spurious i) hen
    exact ⟨_, by rw [next, hpool, ok_bind]⟩
  | transfer i => exact ⟨_, rfl⟩
  | close i => exact ⟨_, rfl⟩

/-- The job is the pool's, and no worker has closed its descriptor. -/
def Owned (s : State n) (j : Args) : Prop :=
  j ∈ s.pool.added ∧ j ∉ s.closes.map Access.job

/-- Each connection is handed over once. -/
structure HandedOver (c : Setup) (s : State n) : Prop where
  /-- the jobs queued are for connections, each for another one -/
  once : (s.pool.added.map Args.file).Nodup
  conn : ∀ j ∈ s.pool.added, ∃ k < s.accepted, j.file = some (.conn k)
  /-- a job's descriptor is the connection's, and `main` watches it until its `FD_CLR` -/
  opened : ∀ j, Owned s j → s.files j.fd = j.file
  unwatched : ∀ j, Owned s j → (∀ d, s.pc ≠ .handing j.fd d) → j.fd ∉ s.currentfds
  alone : ∀ j j', Owned s j → Owned s j' → j.fd = j'.fd → j = j'
  /-- at the end of a round every connection that `select` found ready is queued -/
  round : s.pc = .copy → ∀ fd ∈ s.readyfds, fd ≠ c.listenfd →
    ∃ j ∈ s.pool.added, j.fd = fd ∧ j.file = s.snapshot fd
  /-- a connection is closed once, by the worker that ran its job -/
  closes : (s.closes.map Access.reached).Nodup
  ran : ∀ a ∈ s.closes, a.reached = a.job.file ∧ (a.worker, a.job) ∈ s.pool.taken
  /-- a job reads and writes its connection only -/
  transfers : ∀ a ∈ s.transfers, a.reached = a.job.file

theorem added_made {j : Args} (h : j ∈ s.pool.added) : j ∈ made s := List.mem_append_left _ h

theorem handed_over (hr : Reachable c s) : HandedOver c s := by
  obtain ⟨hjobs, hfiles, hwatch, hscan⟩ := reachable_inv hr
  have hopen (j : Args) (hj : Owned s j) : s.files j.fd = j.file :=
    hjobs.owned j (added_made hj.1) hj.2
  have hinj := List.inj_on_of_nodup_map hjobs.once
  have honce : (s.pool.added.map Args.file).Nodup := by
    have h := hjobs.once
    rw [made, Pool.brought, List.map_append] at h
    exact h.of_append_left
  refine ⟨honce, fun j hj => hjobs.conn j (added_made hj), hopen, ?_, ?_, ?_, ?_, ?_,
    hjobs.transfers⟩
  · intro j hj hno hcur
    exact (hwatch.watched j.fd hcur hno).ne_job hfiles hjobs (added_made hj.1) (hopen j hj) rfl
  · intro j j' hj hj' hfd
    have hfile : j.file = j'.file := by rw [← hopen j hj, ← hopen j' hj', hfd]
    exact hinj (added_made hj.1) (added_made hj'.1) hfile
  · intro hpc fd hfd hne
    obtain ⟨j, hj, hjfd⟩ := (hscan.behind fd hfd (by rw [hpc]; trivial)).resolve_left hne
    have hidle := hwatch.idle (by simp [hpc])
    rw [made, Pool.brought, hidle] at hj
    exact ⟨j, by simpa only [ThreadPool.CallerPc.pending, List.append_nil] using hj, hjfd⟩
  · have hmap : s.closes.map Access.reached = (s.closes.map Access.job).map Args.file := by
      rw [List.map_map]
      exact List.map_congr_left fun a ha => hjobs.reached a ha
    rw [hmap]
    refine hjobs.closes.map_on fun j hj j' hj' hfile => ?_
    obtain ⟨a, ha, rfl⟩ := List.mem_map.mp hj
    obtain ⟨a', ha', rfl⟩ := List.mem_map.mp hj'
    have hmade (a : Access n) (ha : a ∈ s.closes) : a.job ∈ made s :=
      hjobs.taken.2 _ (List.mem_map_of_mem (hjobs.ran a ha))
    exact hjobs.unique (hmade a ha) (hmade a' ha') hfile
  · exact fun a ha => ⟨hjobs.reached a ha, hjobs.ran a ha⟩

/-! ## A run -/

instance (p : Pool n Args) (e : ThreadPool.Event n Args) : Decidable (ThreadPool.Enabled p e) := by
  cases e with
  | add k j => exact inferInstanceAs (Decidable (p.caller k = .idle))
  | call k node woken =>
    dsimp only [ThreadPool.Enabled]
    cases p.caller k with
    | alloc job => exact inferInstanceAs (Decidable (∀ q ∈ node, q ∉ p.nodes))
    | signal => exact @instDecidableAnd _ _ (List.decidableBAll _ woken) inferInstance
    | _ => infer_instance
  | work i =>
    dsimp only [ThreadPool.Enabled]
    cases p.worker i <;> infer_instance
  | spurious i => exact inferInstanceAs (Decidable (p.Asleep i))

instance (c : Setup) (s : State n) (e : Event n) : Decidable (Enabled c s e) := by
  cases e with
  | main =>
    dsimp only [Enabled]
    cases s.pc <;> infer_instance
  | select ready =>
    exact inferInstanceAs (Decidable (s.pc = .select ∧
      ∀ r ∈ ready, ∀ fd ∈ r, fd ∈ s.readyfds ∧ fd ≤ s.maxfd))
  | accept newfd =>
    dsimp only [Enabled]
    refine @instDecidableAnd _ _ ?_
      (inferInstanceAs (Decidable (∀ fd ∈ newfd, s.files fd = none ∧ fd < c.limit)))
    cases s.pc <;> infer_instance
  | call node woken =>
    exact inferInstanceAs (Decidable (ThreadPool.Enabled s.pool (.call 0 node woken)))
  | work i =>
    exact inferInstanceAs (Decidable (ThreadPool.Enabled s.pool (.work i) ∧ running s i = none))
  | spurious i => exact inferInstanceAs (Decidable (ThreadPool.Enabled s.pool (.spurious i)))
  | transfer i => exact inferInstanceAs (Decidable ((running s i).isSome = true))
  | close i => exact inferInstanceAs (Decidable ((running s i).isSome = true))

/-- The state after the events, if they can happen one after the other. -/
def run (c : Setup) : List (Event n) → State n → Option (State n)
  | [], s => some s
  | e :: es, s =>
    if Enabled c s e then
      match next c s e with
      | .ok s' => run c es s'
      | .error _ => none
    else none

theorem run_reachable {es : List (Event n)} (hr : Reachable c s)
    (hall : ∀ e ∈ es, ∀ t, Allocates t e) (h : run c es s = some s') : Reachable c s' := by
  induction es generalizing s with
  | nil =>
    obtain rfl := Option.some.inj h
    exact hr
  | cons e es ih =>
    rw [run] at h
    split at h
    · next hen =>
      cases hnext : next c s e with
      | ok t =>
        rw [hnext] at h
        have hr' : Reachable c t := hr.tail (hall e List.mem_cons_self s) ⟨hen, hnext⟩
        exact ih hr' (fun e he => hall e (List.mem_cons_of_mem _ he)) h
      | error f => rw [hnext] at h; cases h
    · cases h

/-- Descriptors 0, 1 and 2 are open, and `listenfd` is 3. -/
def threeOpen : Setup where
  listenfd := 3
  others := {0, 1, 2}
  limit := 1024
  std := by decide
  distinct := by decide
  listenfd_lt := by decide
  limit_le := by decide

/-- One client connects and sends a request; a worker takes the job before `FD_CLR`. -/
def oneClient : List (Event 1) :=
  [.main, .select (some {3}), .main, .main, .main, .main, .accept (some 4), .accept none,
    .main, .main, .select (some {4}), .main, .main, .main, .main, .main,
    .call (some 0) [], .call (some 0) [], .call (some 0) [], .call (some 0) [],
    .call (some 0) [], .work 0, .work 0, .work 0, .work 0, .work 0]

/-- Two clients connect and send requests; each of two workers takes a job. -/
def twoClients : List (Event 2) :=
  [.main, .select (some {3}), .main, .main, .main, .main, .accept (some 4), .accept (some 5),
    .accept none, .main, .main, .select (some {4, 5}), .main, .main, .main, .main, .main,
    .call (some 0) [], .call (some 0) [], .call (some 0) [], .call (some 0) [],
    .call (some 0) [], .main, .main, .work 0, .work 0, .work 0, .work 0, .call (some 1) [],
    .call (some 1) [], .work 0, .call (some 1) [], .call (some 1) [], .call (some 1) [], .work 1,
    .work 1, .work 1, .work 1, .work 1]

theorem twoClients_allocates : ∀ e ∈ twoClients, ∀ t, Allocates t e := by
  simp [twoClients, Allocates, ThreadPool.Allocates]

/-- The job and the round come to their ends. -/
def oneRound : List (Event 1) := oneClient ++ [.transfer 0, .main, .close 0, .main]

theorem oneRound_allocates : ∀ e ∈ oneRound, ∀ t, Allocates t e := by
  simp [oneRound, oneClient, Allocates, ThreadPool.Allocates]

theorem oneClient_allocates : ∀ e ∈ oneClient, ∀ t, Allocates t e :=
  fun e he => oneRound_allocates e (List.mem_append_left _ he)

theorem handed_over_oneRound : ∃ s : State 1, Reachable threeOpen s ∧ s.pc = .copy ∧
    s.closes.length = 1 ∧ HandedOver threeOpen s := by
  have h : (run threeOpen oneRound (initial threeOpen)).any
      (fun s => s.pc = .copy ∧ s.closes.length = 1) = true := by decide
  obtain ⟨s, hrun, hs⟩ := (Option.any_eq_true ..).mp h
  have hr : Reachable threeOpen s := run_reachable .refl oneRound_allocates hrun
  obtain ⟨hpc, hclosed⟩ := of_decide_eq_true hs
  exact ⟨s, hr, hpc, hclosed, handed_over hr⟩

/-- Behind `add_job_to_pool` the bit is still set while a worker runs the job. -/
theorem handing_watched : ∃ s : State 1, Reachable threeOpen s ∧ ∃ j,
    s.pool.worker 0 = .exec j ∧ Owned s j ∧ j.fd ∈ s.currentfds := by
  have h : (run threeOpen oneClient (initial threeOpen)).any (fun s =>
      s.pool.worker 0 = .exec ⟨4, some (.conn 0)⟩ ∧ ⟨4, some (.conn 0)⟩ ∈ s.pool.added ∧
        s.closes.map Access.job = [] ∧ 4 ∈ s.currentfds) = true := by decide
  obtain ⟨s, hrun, hs⟩ := (Option.any_eq_true ..).mp h
  have hr : Reachable threeOpen s := run_reachable .refl oneClient_allocates hrun
  obtain ⟨hw, hadded, hclosed, hcur⟩ := of_decide_eq_true hs
  exact ⟨s, hr, _, hw, ⟨hadded, by rw [hclosed]; exact List.not_mem_nil⟩, hcur⟩

end SearchEngine.Server.EventLoop
