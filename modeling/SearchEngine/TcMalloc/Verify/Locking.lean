import SearchEngine.TcMalloc.Locks
import SearchEngine.TcMalloc.Verify.Scene

/-!
# The locks are taken in an order

A thread that waits for `pageheap_lock` may hold `centralcache_lock`, a thread that waits for
`centralcache_lock` holds nothing, and who holds what is told by the places of the threads
(`LockInv`). So no set of threads waits for itself (`no_deadlock`).

While the locks are held other threads change nothing that the code under them sees: a run of
`LockStep` is a run of `Step` (`LockReachable.refines`), so that what is proved of the runs of
`System` holds with the locks as steps of their own.
-/

namespace SearchEngine.TcMalloc

open Reach LockOrder Outcome

/-! ## Who holds what -/

/-- The locks that a thread holds at a place. -/
def LockPc.holds : LockPc → Lock → Prop
  | .fetchObjs, .centralcacheLock => True
  | .spanLock, .centralcacheLock => True
  | .span, _ => True
  | .spanUnlock, _ => True
  | .carve, .centralcacheLock => True
  | .fetchUnlock, .centralcacheLock => True
  | .flushObjs, .centralcacheLock => True
  | .recycleLock, .centralcacheLock => True
  | .recycle, _ => True
  | .recycleUnlock, _ => True
  | .flushUnlock, .centralcacheLock => True
  | .malloc _, .pageheapLock => True
  | .mallocUnlock, .pageheapLock => True
  | .free, .pageheapLock => True
  | .freeUnlock, .pageheapLock => True
  | _, _ => False

/-- `pageheap_lock` is taken inside of `centralcache_lock`. -/
def Lock.Inside : Lock → Lock → Prop
  | .pageheapLock, .centralcacheLock => True
  | _, _ => False

theorem Lock.inside_wf : WellFounded Lock.Inside := by
  refine ⟨fun l => ⟨l, fun l' h => ⟨l', fun l'' h' => ?_⟩⟩⟩
  cases l <;> cases l' <;> cases l'' <;> cases h <;> cases h'

section LockPc

variable {p q : LockPc} {l : Lock}

theorem LockPc.holds_acquires (h : p.acquires = some (l, q)) (l' : Lock) :
    q.holds l' ↔ l' = l ∨ p.holds l' := by
  cases p <;> cases h <;> cases l' <;> simp [LockPc.holds]

theorem LockPc.holds_releases (h : p.releases = some (l, q)) (l' : Lock) :
    q.holds l' ↔ l' ≠ l ∧ p.holds l' := by
  cases p <;> cases h <;> cases l' <;> simp [LockPc.holds]

theorem LockPc.holds_after {pc : Pc} {act : Act} (h : p.Runs pc act) (pc' : Pc) (l' : Lock) :
    (p.after pc').holds l' ↔ p.holds l' := by
  cases p <;> first | exact h.elim | (cases pc' <;> cases l' <;> simp [LockPc.holds, LockPc.after])

/-- The lock that a thread waits for is inside of those that it holds. -/
theorem LockPc.inside_of_acquires (h : p.acquires = some (l, q)) {l' : Lock} (hl : p.holds l') :
    l.Inside l' := by
  cases p <;> cases h <;> cases l' <;> trivial

end LockPc

/-- A lock is held by the thread whose place says so. -/
def LockInv (s : LockSys) : Prop := ∀ t l, s.owner l = some t ↔ (s.pos t).holds l

section Inv

variable {env : Env} {s s' : LockSys} {e : Event} {ok : LockSys → Event → Prop}

theorem LockInv.lock (hi : LockInv s) {t : Tid} {l : Lock} {p : LockPc}
    (hpos : (s.pos t).acquires = some (l, p)) (hfree : s.owner l = none) :
    LockInv (s.lock t l p) := by
  intro t' l'
  by_cases ht : t' = t
  · subst ht
    rw [LockSys.lock]
    simp only [Function.update_self]
    rw [LockPc.holds_acquires hpos, ← hi]
    by_cases hl : l' = l
    · subst hl
      simp
    · simp [hl]
  · rw [LockSys.lock]
    simp only [Function.update_of_ne ht]
    rw [← hi]
    by_cases hl : l' = l
    · subst hl
      simp [hfree, Ne.symm ht]
    · simp [hl]

theorem LockInv.unlock (hi : LockInv s) {t : Tid} {l : Lock} {p : LockPc}
    (hpos : (s.pos t).releases = some (l, p)) (hheld : (s.pos t).holds l) :
    LockInv (s.unlock t l p) := by
  intro t' l'
  by_cases ht : t' = t
  · subst ht
    rw [LockSys.unlock]
    simp only [Function.update_self]
    rw [LockPc.holds_releases hpos, ← hi]
    by_cases hl : l' = l
    · subst hl
      simp
    · simp [hl]
  · rw [LockSys.unlock]
    simp only [Function.update_of_ne ht]
    rw [← hi]
    by_cases hl : l' = l
    · subst hl
      have hown := (hi t l').mpr hheld
      simp [hown, Ne.symm ht]
    · simp [hl]

/-- A thread that is to release a lock holds it. -/
theorem LockPc.holds_of_releases {p q : LockPc} {l : Lock} (h : p.releases = some (l, q)) :
    p.holds l := by
  cases p <;> cases h <;> trivial

theorem LockInv.pos (hi : LockInv s) {t : Tid} {p : LockPc} {sys : Sys}
    (hp : ∀ l, p.holds l ↔ (s.pos t).holds l) :
    LockInv { s with sys := sys, pos := Function.update s.pos t p } := by
  intro t' l
  by_cases ht : t' = t
  · subst ht
    simp only [Function.update_self]
    rw [hp, ← hi]
  · simp only [Function.update_of_ne ht]
    exact hi t' l

theorem LockInv.step (hi : LockInv s) (h : LockStep env s e s') : LockInv s' := by
  cases h with
  | lock hpos hfree => exact hi.lock hpos hfree
  | unlock hpos => exact hi.unlock hpos (LockPc.holds_of_releases hpos)
  | large hpos hpc hsize =>
    refine hi.pos fun l => ?_
    rw [hpos]
    exact Iff.rfl
  | code hruns hnext => exact hi.pos fun l => LockPc.holds_after hruns _ l

theorem lockReachable_inv (h : LockReachable env ok s) : LockInv s := by
  obtain ⟨h₀, -, hrun⟩ := h
  refine hrun.invariant (fun t l => ?_) fun _ _ _ hi _ hstep => hi.step hstep
  simp [LockSys.initial, LockPc.holds]

/-- No set of threads waits for itself, and a thread outside of the critical sections holds no
lock, so every call returns without one. -/
theorem no_deadlock (h : LockReachable env (fun _ _ => True) s) :
    (∀ W, ¬ s.Deadlocked W) ∧ ∀ t, s.pos t = .out → ∀ l, ¬ s.Holds t l := by
  have hi := lockReachable_inv h
  constructor
  · refine Ordered.not_circularWait Lock.inside_wf fun t l l' hl hwait => ?_
    obtain ⟨p, hp⟩ := hwait
    exact LockPc.inside_of_acquires hp ((hi t l).mp hl)
  · intro t hpos l hl
    have hheld := (hi t l).mp hl
    rw [hpos] at hheld
    exact hheld

/-- A thread begins, and comes to its first lock. -/
theorem begin_locks (env : Env) (s : LockSys) (t : Tid) (hpos : s.pos t = .out)
    (hpc : s.sys.pc t = .start) :
    ∃ s', Reaches (LockStep env) (fun _ _ => True) s s' ∧ s'.pos t = .fetchLock ∧
      s'.owner = s.owner ∧ ∀ t', t' ≠ t → s'.pos t' = s.pos t' ∧ s'.sys.pc t' = s.sys.pc t' := by
  obtain ⟨sys₁, hsys₁⟩ : ∃ sys₁, sys₁ = s.sys.setPc t (.initLoop 0) := ⟨_, rfl⟩
  have hpc₁ : sys₁.pc t = .initLoop 0 := by rw [hsys₁, setPc_pc]
  have hnext₁ : next env s.sys (t, .init) = .ok sys₁ := by rw [hsys₁]; rfl
  have step₁ : LockStep env s (t, .init) _ := .code (by rw [hpos, hpc]; trivial) hnext₁
  rw [hpos, hpc₁] at step₁
  obtain ⟨sys₂, hsys₂⟩ : ∃ sys₂, sys₂ = startFetch (sys₁.setCache t 0 initThreadlist) t
    (.threadInit 0) 0 := ⟨_, rfl⟩
  have hpc₂ : ∃ k i n, sys₂.pc t = .fetch k i n := ⟨_, _, _, by rw [hsys₂, startFetch, setPc_pc]⟩
  obtain ⟨k, i, n, hpc₂⟩ := hpc₂
  have hnext₂ : next env sys₁ (t, .run) = .ok sys₂ := by
    show continueCall env sys₁ t (sys₁.pc t) = _
    rw [hpc₁, hsys₂]
    rfl
  have step₂ : LockStep env ⟨sys₁, s.owner, Function.update s.pos t .out⟩ (t, .run) _ :=
    .code (by simp only [Function.update_self, hpc₁]; trivial) hnext₂
  simp only [Function.update_self, hpc₂, Function.update_idem] at step₂
  refine ⟨_, (Reaches.single trivial step₁).tail trivial step₂, Function.update_self _ _ _, rfl,
    fun t' ht => ⟨Function.update_of_ne ht _ _, ?_⟩⟩
  show sys₂.pc t' = s.sys.pc t'
  rw [hsys₂, startFetch, setPc_pc_of_ne _ _ ht, setCache_pc, setCache_pc, hsys₁,
    setPc_pc_of_ne _ _ ht]

/-- Two threads, one of which waits for the other. -/
theorem no_deadlock_waiting : ∃ s, LockReachable machine (fun _ _ => True) s ∧
    s.Holds 0 .centralcacheLock ∧ s.Waits 1 .centralcacheLock ∧
    (∀ W, ¬ s.Deadlocked W) ∧ ∀ t, s.pos t = .out → ∀ l, ¬ s.Holds t l := by
  obtain ⟨h₀, hinit, -⟩ := tcCentralInit_machine
  obtain ⟨s₁, hrun₁, hpos₁, hown₁, hother₁⟩ := begin_locks machine (.initial h₀) 0 rfl rfl
  obtain ⟨hpos, hpc⟩ := hother₁ 1 (by decide)
  obtain ⟨s₂, hrun₂, hpos₂, hown₂, hother₂⟩ := begin_locks machine s₁ 1 hpos hpc
  have hlock : LockStep machine s₂ (0, .run) (s₂.lock 0 .centralcacheLock .fetchObjs) := .lock
    (by rw [(hother₂ 0 (by decide)).1, hpos₁]; rfl) (by rw [hown₂, hown₁]; rfl)
  have hreach : LockReachable machine (fun _ _ => True) (s₂.lock 0 .centralcacheLock .fetchObjs) :=
    ⟨h₀, hinit, (hrun₁.trans hrun₂).tail trivial hlock⟩
  refine ⟨_, hreach, ?_, ⟨.fetchObjs, ?_⟩, no_deadlock hreach⟩
  · simp [LockSys.Holds, LockSys.lock]
  · have hne : (1 : Tid) ≠ 0 := by decide
    simp only [LockSys.lock, Function.update_of_ne hne, hpos₂]
    rfl

end Inv

/-! ## Runs of `System` -/

/-- Where a thread can be among the lock operations, by where `System` has it. -/
def LockPc.Fits : LockPc → Pc → Prop
  | .out, .start => True
  | .out, .initLoop _ => True
  | .out, .ready => True
  | .out, .insert .. => True
  | .fetchLock, .fetch .. => True
  | .fetchObjs, .fetch .. => True
  | .spanLock, .refill .. => True
  | .span, .refill .. => True
  | .spanUnlock, .carve .. => True
  | .carve, .carve .. => True
  | .fetchUnlock, .insert .. => True
  | .flushLock, .flush .. => True
  | .flushObjs, .flush .. => True
  | .recycleLock, .recycle _ => True
  | .recycle, .recycle _ => True
  | .recycleUnlock, .ready => True
  | .flushUnlock, .ready => True
  | .mallocLock size, .ready => THRESHALLOC < size
  | .malloc size, .ready => THRESHALLOC < size
  | .mallocUnlock, .ready => True
  | .freeLock, .freeLarge _ => True
  | .free, .freeLarge _ => True
  | .freeUnlock, .ready => True
  | _, _ => False

/-- A thread that keeps others out of the central cache holds its lock. -/
theorem LockPc.Fits.holds {p : LockPc} {pc : Pc} (h : p.Fits pc) (hpc : HoldsLock pc) :
    p.holds .centralcacheLock := by
  cases p <;> cases pc <;> first | exact h.elim | exact hpc.elim | trivial

theorem LockPc.Fits.acquires {p q : LockPc} {l : Lock} {pc : Pc} (h : p.Fits pc)
    (hp : p.acquires = some (l, q)) : q.Fits pc := by
  cases p <;> cases hp <;> cases pc <;> first | exact h.elim | exact h

theorem LockPc.Fits.releases {p q : LockPc} {l : Lock} {pc : Pc} (h : p.Fits pc)
    (hp : p.releases = some (l, q)) : q.Fits pc := by
  cases p <;> cases hp <;> cases pc <;> first | exact h.elim | trivial

/-! ## What a step does to the places -/

/-- Where an action of `t` leads from a place and a `centralLock`. -/
inductive Goes (t : Tid) : Act → Pc → Option Tid → Pc → Option Tid → Prop
  | init {l : Option Tid} : Goes t .init .start l (.initLoop 0) l
  | pops {size : Nat} {l : Option Tid} : Goes t (.malloc size) .ready l .ready l
  | fetches {size index num : Nat} {l : Option Tid} (small : size ≤ THRESHALLOC) :
      Goes t (.malloc size) .ready l (.fetch (.allocate size) index num) l
  | pushes {ptr : Nat} {l : Option Tid} : Goes t (.free ptr) .ready l .ready l
  | overflows {ptr nbytes : Nat} {batch : List Nat} {l : Option Tid} :
      Goes t (.free ptr) .ready l (.flush batch nbytes) l
  | freesLarge {ptr : Nat} {span : SpanPtr} {l : Option Tid} :
      Goes t (.free ptr) .ready l (.freeLarge span) l
  | round {i num : Nat} {l : Option Tid} (lt : i < CLASSES) :
      Goes t .run (.initLoop i) l (.fetch (.threadInit i) i num) l
  | lastRound {i : Nat} {l : Option Tid} : Goes t .run (.initLoop i) l .ready l
  | takes {k : Caller} {index num : Nat} {batch : List Nat} {l : Option Tid} :
      Goes t .run (.fetch k index num) l (.insert k index batch) none
  | misses {k : Caller} {index num : Nat} {l : Option Tid} :
      Goes t .run (.fetch k index num) l (.refill k index num) (some t)
  | refills {k : Caller} {index num : Nat} {span : SpanPtr} {l : Option Tid} :
      Goes t .run (.refill k index num) l (.carve k index num span) l
  | carves {k : Caller} {index num : Nat} {span : SpanPtr} {batch : List Nat} {l : Option Tid} :
      Goes t .run (.carve k index num span) l (.insert k index batch) none
  | nextRound {i index : Nat} {batch : List Nat} {l : Option Tid} :
      Goes t .run (.insert (.threadInit i) index batch) l (.initLoop (i + 1)) l
  | allocates {nbytes index : Nat} {batch : List Nat} {l : Option Tid} :
      Goes t .run (.insert (.allocate nbytes) index batch) l .ready l
  | returns {batch : List Nat} {nbytes : Nat} {l : Option Tid} :
      Goes t .run (.flush batch nbytes) l .ready l
  | empties {batch : List Nat} {nbytes : Nat} {span : SpanPtr} {l : Option Tid} :
      Goes t .run (.flush batch nbytes) l (.recycle span) (some t)
  | recycles {span : SpanPtr} {l : Option Tid} : Goes t .run (.recycle span) l .ready none
  | releases {span : SpanPtr} {l : Option Tid} : Goes t .run (.freeLarge span) l .ready l

/-- The action can be taken at the place. -/
def Pc.Admits : Pc → Act → Prop
  | .start, .init => True
  | .ready, .malloc _ => True
  | .ready, .free _ => True
  | .start, _ => False
  | .ready, _ => False
  | _, .run => True
  | _, _ => False

/-- The other threads stay where they are. -/
structure GoesAlone (t : Tid) (act : Act) (s s' : Sys) : Prop where
  goes : Goes t act (s.pc t) s.centralLock (s'.pc t) s'.centralLock
  others : ∀ t', t' ≠ t → s'.pc t' = s.pc t'

section Goes

variable {env : Env} {s s' s₁ : Sys} {t : Tid} {act : Act} {pc pc' : Pc}

theorem LockPc.Runs.admits {p : LockPc} (h : p.Runs pc act) : pc.Admits act := by
  cases p <;> cases pc <;> cases act <;> first | exact h.elim | trivial

theorem Enabled.admits (h : Enabled s (t, act)) : (s.pc t).Admits act := by
  cases act <;> simp only [Enabled] at h <;> cases hpc : s.pc t <;> rw [hpc] at h <;> first
    | exact h.elim
    | trivial

theorem GoesAlone.setPc {pc' : Pc} (hpc : s₁.pc = s.pc)
    (hgoes : Goes t act (s.pc t) s.centralLock pc' s₁.centralLock) :
    GoesAlone t act s (s₁.setPc t pc') where
  goes := by rw [setPc_pc]; exact hgoes
  others := fun t' ht => by rw [setPc_pc_of_ne _ _ ht, hpc]

theorem allocate_goes {size : Nat} (hpc : s.pc t = .ready) (hsize : size ≤ THRESHALLOC)
    (h : allocate s t size = .ok s') : GoesAlone t (.malloc size) s s' := by
  obtain ⟨i, -, h⟩ := bind_eq_ok h
  split at h
  · obtain rfl := Except.ok.inj h
    exact .setPc rfl (by rw [hpc]; exact .fetches hsize)
  · obtain ⟨⟨pop, l⟩, -, h⟩ := bind_eq_ok h
    obtain rfl := Except.ok.inj h
    exact .setPc rfl (by rw [hpc]; exact .pops)

theorem tcMalloc_goes {size : Nat} (hpc : s.pc t = .ready) (h : tcMalloc env s t size = .ok s') :
    GoesAlone t (.malloc size) s s' := by
  rw [tcMalloc] at h
  split at h
  · next hle => exact allocate_goes hpc hle h
  · obtain ⟨⟨span, heap⟩, -, h⟩ := bind_eq_ok h
    obtain rfl := Except.ok.inj h
    exact .setPc rfl (by rw [hpc]; exact .pops)

theorem tcFree_goes {ptr : Nat} (hpc : s.pc t = .ready) (h : tcFree s t ptr = .ok s') :
    GoesAlone t (.free ptr) s s' := by
  obtain ⟨o, -, h⟩ := bind_eq_ok h
  cases o with
  | none => cases h
  | some span =>
    simp only at h
    split at h
    · obtain ⟨i, -, h⟩ := bind_eq_ok h
      simp only at h
      split at h
      · obtain rfl := Except.ok.inj h
        exact .setPc rfl (by rw [hpc]; exact .overflows)
      · obtain rfl := Except.ok.inj h
        refine ⟨?_, fun _ _ => rfl⟩
        show Goes t _ (s.pc t) s.centralLock (s.pc t) s.centralLock
        rw [hpc]
        exact .pushes
    · obtain rfl := Except.ok.inj h
      exact .setPc rfl (by rw [hpc]; exact .freesLarge)

/-- The batch is taken, and the lock is released. -/
theorem endFetch_goes {k : Caller} {index num : Nat} {span : SpanPtr}
    (h : endFetch s₁ t k index num span = .ok s') (hpc : s₁.pc = s.pc)
    (hgoes : ∀ batch, Goes t act (s.pc t) s.centralLock (.insert k index batch) none) :
    GoesAlone t act s s' := by
  obtain ⟨⟨batch, heap⟩, -, h⟩ := bind_eq_ok h
  obtain rfl := Except.ok.inj h
  exact .setPc hpc (hgoes batch)

theorem continueCall_goes (h : continueCall env s t (s.pc t) = .ok s')
    (hpc : (s.pc t).Admits .run) : GoesAlone t .run s s' := by
  cases hs : s.pc t with
  | start => rw [hs] at hpc; exact hpc.elim
  | ready => rw [hs] at hpc; exact hpc.elim
  | initLoop i =>
    rw [hs] at h
    simp only [continueCall] at h
    split at h
    · next hlt =>
      obtain rfl := Except.ok.inj h
      exact .setPc rfl (by rw [hs]; exact .round hlt)
    · obtain rfl := Except.ok.inj h
      exact .setPc rfl (by rw [hs]; exact .lastRound)
  | fetch k index num =>
    rw [hs] at h
    obtain ⟨o, -, h⟩ := bind_eq_ok h
    cases o with
    | some span => exact endFetch_goes h rfl fun batch => by rw [hs]; exact .takes
    | none =>
      obtain rfl := Except.ok.inj h
      exact .setPc rfl (by rw [hs]; exact .misses)
  | refill k index num =>
    rw [hs] at h
    obtain ⟨⟨span, heap⟩, -, h⟩ := bind_eq_ok h
    obtain rfl := Except.ok.inj h
    exact .setPc rfl (by rw [hs]; exact .refills)
  | carve k index num span =>
    rw [hs] at h
    exact endFetch_goes h rfl fun batch => by rw [hs]; exact .carves
  | insert k index batch =>
    rw [hs] at h
    simp only [continueCall, finishFetch] at h
    cases k with
    | threadInit i =>
      obtain rfl := Except.ok.inj h
      exact .setPc rfl (by rw [hs]; exact .nextRound)
    | allocate nbytes =>
      obtain ⟨⟨pop, l⟩, -, h⟩ := bind_eq_ok h
      obtain rfl := Except.ok.inj h
      exact .setPc rfl (by rw [hs]; exact .allocates)
  | flush batch nbytes =>
    rw [hs] at h
    obtain ⟨⟨o, heap⟩, -, h⟩ := bind_eq_ok h
    cases o with
    | none =>
      obtain rfl := Except.ok.inj h
      exact .setPc rfl (by rw [hs]; exact .returns)
    | some span =>
      obtain rfl := Except.ok.inj h
      exact .setPc rfl (by rw [hs]; exact .empties)
  | recycle span =>
    rw [hs] at h
    obtain ⟨heap, -, h⟩ := bind_eq_ok h
    obtain rfl := Except.ok.inj h
    exact .setPc rfl (by rw [hs]; exact .recycles)
  | freeLarge span =>
    rw [hs] at h
    obtain ⟨heap, -, h⟩ := bind_eq_ok h
    obtain rfl := Except.ok.inj h
    exact .setPc rfl (by rw [hs]; exact .releases)

/-- A step leads where its action leads. -/
theorem next_goes (hadm : (s.pc t).Admits act) (h : next env s (t, act) = .ok s') :
    GoesAlone t act s s' := by
  cases act with
  | init =>
    have hpc : s.pc t = .start := by
      cases hs : s.pc t <;> rw [hs] at hadm <;> exact hadm.elim
    obtain rfl := Except.ok.inj h
    exact .setPc rfl (by rw [hpc]; exact .init)
  | malloc size =>
    have hpc : s.pc t = .ready := by
      cases hs : s.pc t <;> rw [hs] at hadm <;> exact hadm.elim
    exact tcMalloc_goes hpc h
  | free ptr =>
    have hpc : s.pc t = .ready := by
      cases hs : s.pc t <;> rw [hs] at hadm <;> exact hadm.elim
    exact tcFree_goes hpc h
  | run => exact continueCall_goes h hadm

end Goes

/-- Where a step of `System` leads. -/
def Pc.Leads : Pc → Pc → Prop
  | .start, .initLoop _ => True
  | .initLoop _, .fetch .. => True
  | .initLoop _, .ready => True
  | .ready, .ready => True
  | .ready, .fetch .. => True
  | .ready, .flush .. => True
  | .ready, .freeLarge _ => True
  | .fetch .., .insert .. => True
  | .fetch .., .refill .. => True
  | .refill .., .carve .. => True
  | .carve .., .insert .. => True
  | .insert .., .initLoop _ => True
  | .insert .., .ready => True
  | .flush .., .ready => True
  | .flush .., .recycle _ => True
  | .recycle _, .ready => True
  | .freeLarge _, .ready => True
  | _, _ => False

/-- What a step of `System` does to the places of the threads and to `centralLock`. -/
structure Moved (t : Tid) (s s' : Sys) : Prop where
  others : ∀ t', t' ≠ t → s'.pc t' = s.pc t'
  leads : (s.pc t).Leads (s'.pc t)
  lock : (s'.centralLock = s.centralLock ∧ (HoldsLock (s.pc t) → HoldsLock (s'.pc t))) ∨
    s'.centralLock = none ∨ (s'.centralLock = some t ∧ HoldsLock (s'.pc t))

section Moved

variable {s s' : Sys} {t : Tid} {act : Act} {pc pc' : Pc}

theorem Goes.leads {l l' : Option Tid} (h : Goes t act pc l pc' l') : pc.Leads pc' := by
  cases h <;> trivial

theorem Goes.lock {l l' : Option Tid} (h : Goes t act pc l pc' l') :
    (l' = l ∧ (HoldsLock pc → HoldsLock pc')) ∨ l' = none ∨ (l' = some t ∧ HoldsLock pc') := by
  cases h with
  | takes | carves | recycles => exact .inr (.inl rfl)
  | misses | empties => exact .inr (.inr ⟨rfl, trivial⟩)
  | refills => exact .inl ⟨rfl, fun _ => trivial⟩
  | _ => exact .inl ⟨rfl, False.elim⟩

theorem GoesAlone.moved (h : GoesAlone t act s s') : Moved t s s' :=
  ⟨h.others, h.goes.leads, h.goes.lock⟩

/-- A large block is returned in the same step. -/
theorem Goes.large {l l' : Option Tid} {size : Nat} (h : Goes t (.malloc size) .ready l pc' l')
    (hlarge : THRESHALLOC < size) : pc' = .ready := by
  cases h with
  | pops => rfl
  | fetches hsmall => exact absurd hsmall (Nat.not_le.mpr hlarge)

end Moved

section Refines

variable {env : Env} {s s' : LockSys} {e : Event} {t : Tid} {act : Act}

/-- What a caller of `tc_malloc` and `tc_free` promises. -/
def LockSys.Legal (s : LockSys) : Event → Prop
  | (_, .malloc size) => size < 2 ^ 64
  | (_, .free ptr) => ∃ b ∈ s.sys.live, b.ptr = ptr
  | _ => True

/-- The places fit those in `System`, where `centralLock` is a thread that keeps the others out of
the central cache. -/
structure RefineInv (s : LockSys) : Prop where
  owner : LockInv s
  fits : ∀ t, (s.pos t).Fits (s.sys.pc t)
  central : ∀ t, s.sys.centralLock = some t → HoldsLock (s.sys.pc t)

/-- A thread that has `centralcache_lock` and is to look into the central cache finds it in the
state in which `System` lets it. -/
theorem RefineInv.free (hi : RefineInv s) (hheld : (s.pos t).holds .centralcacheLock)
    (hno : ¬ HoldsLock (s.sys.pc t)) : s.sys.centralLock = none := by
  cases hl : s.sys.centralLock with
  | none => rfl
  | some t' =>
    have hpc := hi.central t' hl
    have hown := (hi.owner t' .centralcacheLock).mpr ((hi.fits t').holds hpc)
    rw [(hi.owner t .centralcacheLock).mpr hheld] at hown
    obtain rfl := Option.some.inj hown
    exact absurd hpc hno

/-- The code between two lock operations is a step of `System`. -/
theorem RefineInv.enabled (hi : RefineInv s) (hlegal : s.Legal (t, act))
    (hruns : (s.pos t).Runs (s.sys.pc t) act) : Enabled s.sys (t, act) := by
  cases hp : s.pos t <;> cases hs : s.sys.pc t <;> cases act <;> rw [hp, hs] at hruns <;>
    first
    | exact hruns.elim
    | (simp only [Enabled, hs]; first | trivial | exact hlegal | skip)
  · exact hi.free (by rw [hp]; trivial) (by rw [hs]; exact id)
  · exact hi.free (by rw [hp]; trivial) (by rw [hs]; exact id)

theorem next_moved {s s' : Sys} {p : LockPc} (hfits : p.Fits (s.pc t)) (hruns : p.Runs (s.pc t) act)
    (h : next env s (t, act) = .ok s') : Moved t s s' ∧ (p.after (s'.pc t)).Fits (s'.pc t) := by
  have hgoes := next_goes hruns.admits h
  have hready : ∀ size, p = .malloc size → s'.pc t = .ready := by
    rintro size rfl
    have hg := hgoes.goes
    cases hs : s.pc t with
    | ready =>
      rw [hs] at hruns hfits hg
      cases act with
      | malloc size' =>
        obtain rfl : size' = size := hruns
        exact hg.large hfits
      | _ => exact hruns.elim
    | _ =>
      rw [hs] at hruns
      exact hruns.elim
  refine ⟨hgoes.moved, ?_⟩
  have hleads := hgoes.moved.leads
  cases p <;> cases hs : s.pc t <;> rw [hs] at hruns hleads <;> first
    | exact hruns.elim
    | (cases hs' : s'.pc t <;> rw [hs'] at hleads hready <;> first
        | exact hleads.elim
        | trivial
        | cases hready _ rfl)

/-- A step with locks is a step of `System`, or changes nothing that `System` has. -/
theorem RefineInv.step (hi : RefineInv s) (hlegal : s.Legal e) (h : LockStep env s e s') :
    RefineInv s' ∧ (s'.sys = s.sys ∨
      ((s.pos e.1).Runs (s.sys.pc e.1) e.2 ∧ Step env s.sys e s'.sys)) := by
  have howner := hi.owner.step h
  cases h with
  | @lock t l p hpos hfree =>
    refine ⟨⟨howner, fun t' => ?_, hi.central⟩, .inl rfl⟩
    by_cases ht : t' = t
    · subst ht
      rw [LockSys.lock]
      simp only [Function.update_self]
      exact (hi.fits t').acquires hpos
    · rw [LockSys.lock]
      simp only [Function.update_of_ne ht]
      exact hi.fits t'
  | @unlock t l p hpos =>
    refine ⟨⟨howner, fun t' => ?_, hi.central⟩, .inl rfl⟩
    by_cases ht : t' = t
    · subst ht
      rw [LockSys.unlock]
      simp only [Function.update_self]
      exact (hi.fits t').releases hpos
    · rw [LockSys.unlock]
      simp only [Function.update_of_ne ht]
      exact hi.fits t'
  | @large t size hpos hpc hsize =>
    refine ⟨⟨howner, fun t' => ?_, hi.central⟩, .inl rfl⟩
    by_cases ht : t' = t
    · subst ht
      simp only [Function.update_self, hpc]
      exact hsize
    · simp only [Function.update_of_ne ht]
      exact hi.fits t'
  | @code t act sys hruns hnext =>
    obtain ⟨hmoved, hfits⟩ := next_moved (hi.fits t) hruns hnext
    refine ⟨⟨howner, fun t' => ?_, fun t' hl => ?_⟩,
      .inr ⟨hruns, hi.enabled hlegal hruns, hnext⟩⟩
    · by_cases ht : t' = t
      · subst ht
        simp only [Function.update_self]
        exact hfits
      · simp only [Function.update_of_ne ht, hmoved.others t' ht]
        exact hi.fits t'
    · simp only at hl ⊢
      by_cases ht : t' = t
      · subst ht
        rcases hmoved.lock with ⟨heq, hkeep⟩ | hnone | ⟨-, hh⟩
        · exact hkeep (hi.central t' (heq ▸ hl))
        · rw [hnone] at hl
          cases hl
        · exact hh
      · rw [hmoved.others t' ht]
        rcases hmoved.lock with ⟨heq, -⟩ | hnone | ⟨hsome, -⟩
        · exact hi.central t' (heq ▸ hl)
        · rw [hnone] at hl
          cases hl
        · rw [hsome] at hl
          exact absurd (Option.some.inj hl).symm ht

theorem initial_refineInv (h₀ : Heap) : RefineInv (.initial h₀) := by
  refine ⟨fun t l => ?_, fun t => trivial, fun t hl => by cases hl⟩
  simp [LockSys.initial, LockPc.holds]

/-- The caller keeps its promises, and the code between the operations on the locks meets `ok`. -/
def LockSys.Meets (ok : Sys → Event → Prop) (s : LockSys) (e : Event) : Prop :=
  s.Legal e ∧ ((s.pos e.1).Runs (s.sys.pc e.1) e.2 → ok s.sys e)

/-- A run with locks is a run of `System`. -/
theorem LockReachable.refines {ok : Sys → Event → Prop}
    (h : LockReachable env (LockSys.Meets ok) s) :
    RefineInv s ∧ Reachable env ok s.sys := by
  obtain ⟨h₀, hinit, hrun⟩ := h
  have hrefine : RefineInv s ∧ Reaches (Step env) ok (Sys.initial h₀) s.sys := by
    refine hrun.invariant (I := fun s => RefineInv s ∧ Reaches (Step env) ok (Sys.initial h₀) s.sys)
      ⟨initial_refineInv h₀, .refl⟩ ?_
    rintro s e s' ⟨hi, hreach⟩ ⟨hlegal, hok⟩ hstep
    obtain ⟨hi', hsame | ⟨hruns, hnext⟩⟩ := hi.step hlegal hstep
    · exact ⟨hi', hsame ▸ hreach⟩
    · exact ⟨hi', hreach.tail (hok hruns) hnext⟩
  exact ⟨hrefine.1, h₀, hinit, hrefine.2⟩

end Refines

end SearchEngine.TcMalloc
