import SearchEngine.Lib.Potential
import SearchEngine.TcMalloc.Verify.Atomic
import SearchEngine.TcMalloc.Verify.Steps

/-!
# Every call returns

A call in progress owes a number of steps that depends on where the thread is (`LockPc.owes`): a
round of `tc_thread_init`, or a call of `tc_malloc`, takes both locks at most once. Each step pays,
so threads that are given no new calls do not go on for ever (`steps_paid`). A call that has not
returned is blocked, goes on, or has run off the page map (`calls_return`).
-/

namespace SearchEngine.TcMalloc

open Reach Outcome

/-! ## What is owed -/

/-- What is owed after a fetch has ended. -/
def Caller.owes : Caller → Nat
  | .threadInit i => 9 * (CLASSES - (i + 1)) + 1
  | .allocate _ => 0

/-- The steps that a thread makes at most before its call returns. -/
def LockPc.owes : LockPc → Pc → Nat
  | .out, .initLoop i => 9 * (CLASSES - i) + 1
  | .out, .insert k _ _ => k.owes + 1
  | .fetchLock, .fetch k _ _ => k.owes + 8
  | .fetchObjs, .fetch k _ _ => k.owes + 7
  | .spanLock, .refill k _ _ => k.owes + 6
  | .span, .refill k _ _ => k.owes + 5
  | .spanUnlock, .carve k _ _ _ => k.owes + 4
  | .carve, .carve k _ _ _ => k.owes + 3
  | .fetchUnlock, .insert k _ _ => k.owes + 2
  | .flushLock, _ => 6
  | .flushObjs, _ => 5
  | .recycleLock, _ => 4
  | .recycle, _ => 3
  | .recycleUnlock, _ => 2
  | .flushUnlock, _ => 1
  | .freeLock, _ => 3
  | .free, _ => 2
  | .freeUnlock, _ => 1
  | .mallocLock _, _ => 1
  | .mallocUnlock, _ => 1
  | _, _ => 0

/-- What an event brings with it. `tc_malloc` of a large size is two events: the call, and the code
under the lock. -/
def Event.owes : Event → Nat
  | (_, .init) => 9 * CLASSES + 2
  | (_, .malloc size) => if size ≤ THRESHALLOC then 9 else 2
  | (_, .free _) => 7
  | (_, .run) => 0

section Bounded

variable {env : Env} {s s' : LockSys} {t : Tid} {act : Act} {e : Event} {es : List Event}
    {p q : LockPc}
  {pc pc' : Pc} {l l' : Option Tid} {k : Lock}

theorem owes_acquires (h : p.acquires = some (k, q)) (hfits : p.Fits pc) :
    q.owes pc + 1 = p.owes pc := by
  cases p <;> cases h <;> cases pc <;> first | exact hfits.elim | rfl

theorem owes_releases (h : p.releases = some (k, q)) (hfits : p.Fits pc) :
    q.owes pc + 1 = p.owes pc := by
  cases p <;> cases h <;> cases pc <;> first | exact hfits.elim | rfl

/-- The code between two operations on the locks. -/
theorem owes_code (hgoes : Goes t act pc l pc' l') (hruns : p.Runs pc act) (hfits : p.Fits pc) :
    (p.after pc').owes pc' + 1 ≤ p.owes pc + Event.owes (t, act) := by
  cases hgoes with
  | @pops size =>
    cases p with
    | out =>
      have hsize : size ≤ THRESHALLOC := hruns
      simp [LockPc.after, LockPc.owes, Event.owes, hsize]
    | malloc size' =>
      have hsize : ¬ size ≤ THRESHALLOC := by
        obtain rfl : size = size' := hruns
        exact Nat.not_le.mpr hfits
      simp [LockPc.after, LockPc.owes, Event.owes, hsize]
    | _ => exact hruns.elim
  | fetches small =>
    cases p with
    | out => simp [LockPc.after, LockPc.owes, Caller.owes, Event.owes, small]
    | malloc size' => simp [LockPc.after, LockPc.owes, Event.owes, small]
    | _ => exact hruns.elim
  | round lt =>
    cases p with
    | out =>
      simp only [LockPc.after, LockPc.owes, Caller.owes, Event.owes]
      omega
    | _ => exact hruns.elim
  | _ =>
    cases p <;> first
      | exact hruns.elim
      | (simp only [LockPc.after, LockPc.owes, Caller.owes, Event.owes]; omega)

/-- The steps that the thread owes. -/
def LockSys.owesAt (s : LockSys) (t : Tid) : Nat := (s.pos t).owes (s.sys.pc t)

/-- What the calls of the threads in `T` owe. -/
def LockSys.owes (T : Finset Tid) (s : LockSys) : Nat := ∑ t ∈ T, s.owesAt t

/-- A thread of `T` goes on, and the others stay. -/
theorem LockSys.owes_move {T : Finset Tid} (s s' : LockSys) (ht : t ∈ T)
    (hothers : ∀ t', t' ≠ t → s'.owesAt t' = s.owesAt t') {credit : Nat}
    (hpay : s'.owesAt t + 1 ≤ s.owesAt t + credit) : s'.owes T + 1 ≤ s.owes T + credit := by
  have hsum := sum_move (w := id) (f := s.owesAt) (g := s'.owesAt) ht hothers
  simp only [id] at hsum
  simp only [LockSys.owes]
  omega

/-- Every step pays. -/
theorem LockStep.pays {T : Finset Tid} (h : LockStep env s e s') (hi : RefineInv s) (ht : e.1 ∈ T) :
    s'.owes T + 1 ≤ s.owes T + e.owes := by
  cases h with
  | @lock t l p hpos hfree =>
    have hpay := owes_acquires hpos (hi.fits t)
    refine s.owes_move _ ht (fun t' ht' => ?_) ?_
    · simp only [LockSys.owesAt, LockSys.lock, Function.update_of_ne ht']
    · simp only [LockSys.owesAt, LockSys.lock, Function.update_self, Event.owes]
      omega
  | @unlock t l p hpos =>
    have hpay := owes_releases hpos (hi.fits t)
    refine s.owes_move _ ht (fun t' ht' => ?_) ?_
    · simp only [LockSys.owesAt, LockSys.unlock, Function.update_of_ne ht']
    · simp only [LockSys.owesAt, LockSys.unlock, Function.update_self, Event.owes]
      omega
  | @large t size hpos hpc hsize =>
    have hcredit : Event.owes (t, .malloc size) = 2 := if_neg (Nat.not_le.mpr hsize)
    refine s.owes_move _ ht (fun t' ht' => ?_) ?_
    · simp only [LockSys.owesAt, Function.update_of_ne ht']
    · simp only [LockSys.owesAt, Function.update_self, hcredit]
      exact Nat.le_add_left 2 _
  | @code t act sys hruns hnext =>
    have hgoes := next_goes hruns.admits hnext
    have hpay := owes_code hgoes.goes hruns (hi.fits t)
    refine s.owes_move _ ht (fun t' ht' => ?_) ?_
    · simp only [LockSys.owesAt, Function.update_of_ne ht', hgoes.others t' ht']
    · simp only [LockSys.owesAt, Function.update_self]
      exact hpay

/-- The threads do not go on for ever: a run is no longer than its calls pay for, whatever the order
of the steps. -/
theorem steps_paid {h₀ : Heap} (h : Trace (LockStep env) LockSys.Legal (.initial h₀) es s) :
    es.length ≤ (es.map Event.owes).sum := by
  let T : Finset Tid := (es.map Prod.fst).toFinset
  have hT : ∀ e ∈ es, e.1 ∈ T := fun e he => List.mem_toFinset.mpr (List.mem_map_of_mem he)
  have hrun : Trace (LockStep env) (fun s e => s.Legal e ∧ e.1 ∈ T) (.initial h₀) es s :=
    h.mono fun s e he hlegal => ⟨hlegal, hT e he⟩
  obtain ⟨-, hle⟩ :=
    hrun.length_le RefineInv (LockSys.owes T) Event.owes (initial_refineInv h₀) <| by
    rintro s e t hi ⟨hlegal, hin⟩ hstep
    exact ⟨(hi.step hlegal hstep).1, hstep.pays hi hin⟩
  have hzero : (LockSys.initial h₀).owes T = 0 := Finset.sum_eq_zero fun _ _ => rfl
  omega

/-- The code that a thread runs outside of the locks. -/
theorem exists_lockStep (env : Env) (act : Act) {sys : Sys} (hpos : s.pos t = .out)
    (hruns : LockPc.Runs .out (s.sys.pc t) act)
    (hnext : next env s.sys (t, act) = .ok sys) :
    ∃ s', LockStep env s (t, act) s' ∧ s'.sys = sys ∧ s'.pos t = LockPc.after .out (sys.pc t) ∧
      s'.owner = s.owner ∧ ∀ t', t' ≠ t → s'.pos t' = s.pos t' :=
  ⟨_, .code (by rw [hpos]; exact hruns) hnext, rfl, by rw [← hpos]; exact Function.update_self ..,
    rfl, fun _ ht' => Function.update_of_ne ht' ..⟩

/-- The events of a thread that takes a block off its list, and frees it. -/
theorem steps_paid_freed : ∃ (h₀ : Heap) (es : List Event) (s : LockSys),
    [(0, .malloc 32768), (0, .free 191467520)] <:+ es ∧
    Trace (LockStep machine) LockSys.Legal (.initial h₀) es s ∧
    es.length ≤ (es.map Event.owes).sum := by
  obtain ⟨s, s₁, s₂, hr, hs, hmalloc, hpc, hlive, hfree⟩ := machine_freed
  obtain ⟨h₀, -, hreach⟩ := hr.between
  obtain ⟨es, hbegun⟩ := Trace.exists_of_reaches
    (hreach.mono fun _ _ h => h.1 : Reaches _ LockSys.Legal _ _)
  have hpos : (LockSys.between s).pos 0 = .out := by
    show (s.pc 0).begins = .out
    rw [hs.pc]
    rfl
  have hruns : LockPc.Runs .out ((LockSys.between s).sys.pc 0) (.malloc 32768) := by
    rw [LockSys.between, hs.pc]
    exact Nat.le_refl THRESHALLOC
  obtain ⟨l₁, hcall, hsys₁, hpos₁, -⟩ := exists_lockStep machine _ hpos hruns hmalloc.2
  rw [hpc] at hpos₁
  have hruns₁ : LockPc.Runs .out (l₁.sys.pc 0) (.free 191467520) := by
    rw [hsys₁, hpc]
    trivial
  have hnext₁ : next machine l₁.sys (0, .free 191467520) = .ok s₂ := by
    rw [hsys₁]
    exact hfree.2
  obtain ⟨l₂, hback, -⟩ := exists_lockStep machine _ hpos₁ hruns₁ hnext₁
  have hlegal : l₁.Legal (0, .free 191467520) := by
    rw [LockSys.Legal, hsys₁, hlive]
    exact ⟨_, List.mem_cons_self, rfl⟩
  have hlegal₀ : (LockSys.between s).Legal (0, .malloc 32768) := by
    rw [LockSys.Legal]
    decide
  have hrun := (hbegun.tail hlegal₀ hcall).tail hlegal hback
  refine ⟨h₀, _, l₂, ⟨es, ?_⟩, hrun, steps_paid hrun⟩
  rw [List.append_assoc]
  rfl

end Bounded

/-! ## Who goes on -/

/-- No call of the thread is in progress. -/
def LockSys.Idle (s : LockSys) (t : Tid) : Prop :=
  s.pos t = .out ∧ (s.sys.pc t = .start ∨ s.sys.pc t = .ready)

/-- The thread is in `fetch_span(npage)`. -/
def LockPc.asks : LockPc → Option Nat
  | .span => some BATCH
  | .malloc size => some (bytesToPages size)
  | _ => none

/-- `fetch_span` of the thread runs off the page map. -/
def LockSys.RunsOff (env : Env) (s : LockSys) (t : Tid) : Prop :=
  ∃ npage, (s.pos t).asks = some npage ∧ fetchSpan env npage s.sys.heap = .error .pageMap

/-- Who is in `fetch_span` asks for a number of pages that is not negative as an `int`, and that
meets the condition of the run. -/
def LockSys.AsksFit (s : LockSys) : Prop :=
  ∀ t npage, (s.pos t).asks = some npage → 0 ≤ toInt npage ∧ FetchOk s.sys.heap npage

/-- The thread is at a lock that another one has. -/
def LockSys.Blocked (s : LockSys) (t : Tid) : Prop := ∃ l t', s.Waits t l ∧ s.Holds t' l

/-- The call that is in progress can go on. -/
def LockSys.GoesOn (env : Env) (s : LockSys) (t : Tid) : Prop :=
  ¬ s.Idle t ∧ ∃ act s', LockStep env s (t, act) s'

section Progress

variable {env : Env} {s : LockSys} {t : Tid} {f : SpanPlace → List SpanPtr}

theorem fetchMet_run {s : Sys} (h : ∀ k i num, s.pc t ≠ .refill k i num) :
    FetchMet s (t, .run) := by
  simp only [FetchMet]

/-- The code of a call, but for `fetch_span`. -/
theorem exists_code (hs : env.Succeeds) (hi : RefineInv s) (hsys : SysInv .base env s.sys f)
    (hruns : (s.pos t).Runs (s.sys.pc t) .run) (hpc : ∀ k i num, s.sys.pc t ≠ .refill k i num) :
    ∃ s', LockStep env s (t, .run) s' := by
  have hlegal : s.Legal (t, .run) := trivial
  have hmet : StepMet .base s.sys (t, .run) := stepMet_base (fetchMet_run hpc)
  have hsat := continueCall_sat hs hsys (hi.enabled hlegal hruns) hmet
  cases hnext : continueCall env s.sys t (s.sys.pc t) with
  | ok sys => exact ⟨_, .code hruns hnext⟩
  | error e =>
    obtain ⟨-, k, i, num, hrefill⟩ := hsat.of_error hnext
    exact absurd hrefill (hpc k i num)

theorem asks_pos {npage : Nat} (hi : RefineInv s) (hasks : (s.pos t).asks = some npage) :
    0 < npage := by
  have hfits := hi.fits t
  cases hp : s.pos t with
  | span =>
    rw [hp] at hasks
    obtain rfl := Option.some.inj hasks
    decide
  | malloc size =>
    rw [hp] at hasks hfits
    obtain rfl := Option.some.inj hasks
    have hlarge : THRESHALLOC < size := by
      cases hpc : s.sys.pc t <;> rw [hpc] at hfits <;> first | exact hfits | exact hfits.elim
    simp only [THRESHALLOC] at hlarge
    simp only [bytesToPages]
    omega
  | _ =>
    rw [hp] at hasks
    cases hasks

/-- `fetch_span` faults at the page map only. -/
theorem fetchSpan_runsOff {npage : Nat} {e : Fault} (hs : env.Succeeds) (hi : RefineInv s)
    (hsys : SysInv .base env s.sys f) (hfit : s.AsksFit) (hasks : (s.pos t).asks = some npage)
    (hrun : fetchSpan env npage s.sys.heap = .error e) : s.RunsOff env t := by
  obtain ⟨hint, hok⟩ := hfit t npage hasks
  have hsat := fetchSpan_sat hs hsys.heap hsys.inMap (asks_pos hi hasks) hok
    (show SpanPlace.user.Loose from trivial)
  rcases hsat.of_error hrun with rfl | ⟨-, hneg⟩
  · exact ⟨npage, hasks, hrun⟩
  · exact absurd hint (Int.not_le.mpr hneg)

/-- `fetch_span` under way, which ends. -/
theorem exists_fetch {npage : Nat} {r : SpanPtr × Heap} (hi : RefineInv s)
    (hasks : (s.pos t).asks = some npage) (hrun : fetchSpan env npage s.sys.heap = .ok r) :
    ∃ act s', LockStep env s (t, act) s' := by
  have hfits := hi.fits t
  cases hp : s.pos t with
  | span =>
    rw [hp] at hasks hfits
    obtain rfl := Option.some.inj hasks
    cases hpc : s.sys.pc t with
    | refill k i num =>
      have hruns : (s.pos t).Runs (s.sys.pc t) .run := by rw [hp, hpc]; trivial
      have hnext : next env s.sys (t, .run) =
          .ok ({ s.sys with heap := r.2 }.setPc t (.carve k i num r.1)) := by
        show continueCall env s.sys t (s.sys.pc t) = _
        rw [hpc, continueCall, hrun, ok_bind]
      exact ⟨_, _, .code hruns hnext⟩
    | _ =>
      rw [hpc] at hfits
      exact hfits.elim
  | malloc size =>
    rw [hp] at hasks hfits
    obtain rfl := Option.some.inj hasks
    cases hpc : s.sys.pc t with
    | ready =>
      rw [hpc] at hfits
      have hlarge : THRESHALLOC < size := hfits
      have hruns : (s.pos t).Runs (s.sys.pc t) (.malloc size) := by rw [hp, hpc]; rfl
      have hnext : next env s.sys (t, .malloc size) =
          .ok (returnBlock { s.sys with heap := r.2 } t (r.2.start r.1) size r.1) := by
        show tcMalloc env s.sys t size = _
        rw [tcMalloc, if_neg (Nat.not_le.mpr hlarge), hrun, ok_bind]
      exact ⟨_, _, .code hruns hnext⟩
    | _ =>
      rw [hpc] at hfits
      exact hfits.elim
  | _ =>
    rw [hp] at hasks
    cases hasks

/-- What a thread does next. -/
theorem LockPc.Fits.cases {p : LockPc} {pc : Pc} (h : p.Fits pc) :
    (p = .out ∧ (pc = .start ∨ pc = .ready)) ∨ (∃ l q, p.acquires = some (l, q)) ∨
      (∃ l q, p.releases = some (l, q)) ∨
      (p.Runs pc .run ∧ ∀ k i num, pc ≠ .refill k i num) ∨ ∃ npage, p.asks = some npage := by
  cases p <;> cases pc <;> first
    | exact h.elim
    | simp [LockPc.acquires, LockPc.releases, LockPc.Runs, LockPc.asks]

/-- Each call is blocked, goes on, or runs off the page map. -/
theorem goesOn_or (hs : env.Succeeds) (hi : RefineInv s) (hsys : SysInv .base env s.sys f)
    (hfit : s.AsksFit) (ht : ¬ s.Idle t) : s.Blocked t ∨ s.GoesOn env t ∨ s.RunsOff env t := by
  rcases (hi.fits t).cases with hidle | ⟨l, q, hlock⟩ | ⟨l, q, hunlock⟩ | ⟨hruns, hpc⟩ |
    ⟨npage, hasks⟩
  · exact absurd hidle ht
  · cases howner : s.owner l with
    | none => exact .inr (.inl ⟨ht, .run, _, .lock hlock howner⟩)
    | some t' => exact .inl ⟨l, t', ⟨q, hlock⟩, howner⟩
  · exact .inr (.inl ⟨ht, .run, _, .unlock hunlock⟩)
  · exact .inr (.inl ⟨ht, .run, exists_code hs hi hsys hruns hpc⟩)
  · cases hrun : fetchSpan env npage s.sys.heap with
    | ok r => exact .inr (.inl ⟨ht, exists_fetch hi hasks hrun⟩)
    | error e => exact .inr (.inr (fetchSpan_runsOff hs hi hsys hfit hasks hrun))

/-- Who holds `pageheap_lock` waits for nothing. -/
theorem LockPc.acquires_of_pageheap {p : LockPc} (h : p.holds .pageheapLock) :
    p.acquires = none := by
  cases p <;> first | exact h.elim | rfl

/-- Who holds `centralcache_lock` waits for `pageheap_lock` at most. -/
theorem LockPc.acquires_of_central {p q : LockPc} {l : Lock} (h : p.holds .centralcacheLock)
    (hp : p.acquires = some (l, q)) : l = .pageheapLock := by
  cases p <;> cases hp <;> first | exact h.elim | rfl

theorem LockSys.Idle.not_holds {l : Lock} (h : s.Idle t) : ¬ (s.pos t).holds l := by
  rw [h.1]
  exact id

/-- Who is blocked waits for a thread that is not, or for one that waits for such a thread. -/
theorem exists_unblocked (hi : RefineInv s) (hblocked : s.Blocked t) :
    ∃ t', ¬ s.Idle t' ∧ ¬ s.Blocked t' := by
  -- who holds `pageheap_lock` is not blocked
  have hpage : ∀ {t'}, s.Holds t' .pageheapLock → ¬ s.Idle t' ∧ ¬ s.Blocked t' := by
    intro t' hholds
    have hheld := (hi.owner t' .pageheapLock).mp hholds
    refine ⟨fun hidle => hidle.not_holds hheld, ?_⟩
    rintro ⟨l, -, ⟨q, hlock⟩, -⟩
    rw [LockPc.acquires_of_pageheap hheld] at hlock
    cases hlock
  obtain ⟨l, t', -, hholds⟩ := hblocked
  cases l with
  | pageheapLock => exact ⟨t', hpage hholds⟩
  | centralcacheLock =>
    have hheld := (hi.owner t' .centralcacheLock).mp hholds
    by_cases hblocked' : s.Blocked t'
    · obtain ⟨l, t'', ⟨q, hlock⟩, hholds'⟩ := hblocked'
      rw [LockPc.acquires_of_central hheld hlock] at hholds'
      exact ⟨t'', hpage hholds'⟩
    · exact ⟨t', fun hidle => hidle.not_holds hheld, hblocked'⟩

/-- Each call in progress is blocked, goes on, or has run off the page map; and as long as a call
has not returned, there is one that is not blocked. -/
theorem calls_return (hs : env.Succeeds) (hr : LockReachable env (LockSys.Meets FetchMet) s)
    (hfit : s.AsksFit) :
    (∀ t, ¬ s.Idle t → s.Blocked t ∨ s.GoesOn env t ∨ s.RunsOff env t) ∧
      ((∃ t, s.GoesOn env t ∨ s.RunsOff env t) ∨ (∀ t, s.Idle t) ∧ ∀ l, s.owner l = none) := by
  obtain ⟨hi, hsysr⟩ := hr.refines
  obtain ⟨f, hsys⟩ := reachable_base hs hsysr
  have heach : ∀ t, ¬ s.Idle t → s.Blocked t ∨ s.GoesOn env t ∨ s.RunsOff env t :=
    fun t ht => goesOn_or hs hi hsys hfit ht
  refine ⟨heach, or_iff_not_imp_left.mpr fun hstuck => ?_⟩
  have hidle : ∀ t, s.Idle t := by
    intro t
    by_contra ht
    have hfree : ∀ t', ¬ s.Idle t' → ¬ s.Blocked t' → False := by
      intro t' ht' hblocked
      exact hstuck ⟨t', (heach t' ht').resolve_left hblocked⟩
    rcases heach t ht with hblocked | hgoes
    · obtain ⟨t', ht', hblocked'⟩ := exists_unblocked hi hblocked
      exact hfree t' ht' hblocked'
    · exact hstuck ⟨t, hgoes⟩
  refine ⟨hidle, fun l => ?_⟩
  cases howner : s.owner l with
  | none => rfl
  | some t => exact ((hidle t).not_holds ((hi.owner t l).mp howner)).elim

/-- A thread begins, and comes to its first lock. -/
theorem exists_begun (env : Env) (s : LockSys) (t : Tid) (hpos : s.pos t = .out)
    (hpc : s.sys.pc t = .start) :
    ∃ s', Reaches (LockStep env) (LockSys.Meets FetchMet) s s' ∧ s'.pos t = .fetchLock ∧
      s'.owner = s.owner ∧ ∀ t', t' ≠ t → s'.pos t' = s.pos t' ∧ s'.sys.pc t' = s.sys.pc t' := by
  obtain ⟨s₁, hinit, hsys₁, hpos₁, howner₁, hothers₁⟩ := exists_lockStep env .init hpos
    (by rw [hpc]; trivial) rfl
  have hpc₁ : s₁.sys.pc t = .initLoop 0 := by rw [hsys₁, setPc_pc]
  rw [setPc_pc] at hpos₁
  have hnext : next env s₁.sys (t, .run) =
      .ok (startFetch (s₁.sys.setCache t 0 initThreadlist) t (.threadInit 0) 0) := by
    simp only [next, hpc₁, continueCall]
    rfl
  obtain ⟨s₂, hrun, hsys₂, hpos₂, howner₂, hothers₂⟩ := exists_lockStep env .run hpos₁
    (by rw [hpc₁]; trivial) hnext
  have hmet : LockSys.Meets FetchMet s₁ (t, .run) :=
    ⟨trivial, fun _ => fetchMet_run fun k i num h => by rw [hpc₁] at h; cases h⟩
  refine ⟨s₂, (Reaches.refl.tail ⟨trivial, fun _ => trivial⟩ hinit).tail hmet hrun, ?_,
    howner₂.trans howner₁, fun t' ht' => ⟨(hothers₂ t' ht').trans (hothers₁ t' ht'), ?_⟩⟩
  · rw [hpos₂, startFetch, setPc_pc]
    rfl
  · rw [hsys₂, startFetch, setPc_pc_of_ne _ _ ht', hsys₁]
    exact setPc_pc_of_ne _ _ ht'

/-- Two threads begin; the first one is in the central cache. -/
theorem calls_return_two : ∃ s, LockReachable machine (LockSys.Meets FetchMet) s ∧
    s.Holds 0 .centralcacheLock ∧ s.Waits 1 .centralcacheLock ∧
    (∀ t, ¬ s.Idle t → s.Blocked t ∨ s.GoesOn machine t ∨ s.RunsOff machine t) ∧
      ((∃ t, s.GoesOn machine t ∨ s.RunsOff machine t) ∨
        (∀ t, s.Idle t) ∧ ∀ l, s.owner l = none) := by
  obtain ⟨-, ⟨h₀, hinit, -⟩, -⟩ := machine_ready
  obtain ⟨s₁, hrun₁, hpos₁, howner₁, hothers₁⟩ := exists_begun machine (.initial h₀) 0 rfl rfl
  obtain ⟨s₂, hrun₂, hpos₂, howner₂, hothers₂⟩ := exists_begun machine s₁ 1
    (hothers₁ 1 (by decide)).1 (hothers₁ 1 (by decide)).2
  have hpos₀ : s₂.pos 0 = .fetchLock := (hothers₂ 0 (by decide)).1.trans hpos₁
  have howner : s₂.owner .centralcacheLock = none := by rw [howner₂, howner₁]; rfl
  have hlock : LockStep machine s₂ (0, .run) (s₂.lock 0 .centralcacheLock .fetchObjs) :=
    .lock (by rw [hpos₀]; rfl) howner
  have hr : LockReachable machine (LockSys.Meets FetchMet)
      (s₂.lock 0 .centralcacheLock .fetchObjs) := by
    have hmet : LockSys.Meets FetchMet s₂ (0, .run) := by
      refine ⟨trivial, fun hruns => ?_⟩
      rw [hpos₀] at hruns
      exact hruns.elim
    exact ⟨h₀, hinit, (hrun₁.trans hrun₂).tail hmet hlock⟩
  have hpos : (s₂.lock 0 .centralcacheLock .fetchObjs).pos = Function.update s₂.pos 0 .fetchObjs :=
    rfl
  have hwaits : (s₂.lock 0 .centralcacheLock .fetchObjs).pos 1 = .fetchLock := by
    rw [hpos, Function.update_of_ne (by decide), hpos₂]
  have hholds : (s₂.lock 0 .centralcacheLock .fetchObjs).Holds 0 .centralcacheLock := by
    simp only [LockSys.Holds, LockSys.lock, Function.update_self]
  refine ⟨_, hr, hholds, ⟨.fetchObjs, by rw [hwaits]; rfl⟩,
    calls_return machine_succeeds hr fun t npage hasks => ?_⟩
  -- nobody is in `fetch_span`
  rw [hpos] at hasks
  by_cases h0 : t = 0
  · rw [h0, Function.update_self] at hasks
    cases hasks
  · rw [Function.update_of_ne h0] at hasks
    by_cases h1 : t = 1
    · rw [h1, hpos₂] at hasks
      cases hasks
    · rw [(hothers₂ t h1).1, (hothers₁ t h0).1] at hasks
      cases hasks

end Progress

end SearchEngine.TcMalloc
