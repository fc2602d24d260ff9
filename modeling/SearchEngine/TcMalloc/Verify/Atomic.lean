import SearchEngine.TcMalloc.Verify.Locking

/-!
# A critical section is one step

`System` takes what is under a lock in one step, and `LockStep` takes the operations on the locks
one by one. A step of `System` is a run with locks, from a state in which every thread is at the
beginning of its next step to another one (`Step.between`), and a run with locks leads where a run
of `System` leads (`LockReachable.refines`): the states that the process can reach are the same
(`lockReachable_iff`).
-/

namespace SearchEngine.TcMalloc

open Reach

/-- Where a thread is at the beginning of its next step. -/
def Pc.begins : Pc → LockPc
  | .fetch .. => .fetchLock
  | .refill .. => .spanLock
  | .carve .. => .carve
  | .flush .. => .flushLock
  | .recycle _ => .recycleLock
  | .freeLarge _ => .freeLock
  | .start | .initLoop _ | .ready | .insert .. => .out

/-- The owners of the locks then. -/
def Sys.owner (s : Sys) : Lock → Option Tid
  | .centralcacheLock => s.centralLock
  | .pageheapLock => none

def Sys.places (s : Sys) (t : Tid) : LockPc := (s.pc t).begins

/-- Every thread is at the beginning of its next step. -/
def LockSys.between (s : Sys) : LockSys := ⟨s, s.owner, s.places⟩

/-- The thread `t` is at `p`. -/
def LockSys.focus (s : Sys) (owner : Lock → Option Tid) (pos : Tid → LockPc) (t : Tid)
    (p : LockPc) :
    LockSys := ⟨s, owner, Function.update pos t p⟩

section Between

variable {env : Env} {ok : Sys → Event → Prop} {s s' : Sys} {t : Tid} {act : Act} {k : Lock}
  {p q : LockPc} {owner : Lock → Option Tid} {pos : Tid → LockPc}

theorem LockPc.not_runs_of_acquires (h : p.acquires = some (k, q)) {pc : Pc} : ¬ p.Runs pc act := by
  cases p <;> cases h <;> exact id

theorem LockPc.not_runs_of_releases (h : p.releases = some (k, q)) {pc : Pc} : ¬ p.Runs pc act := by
  cases p <;> cases h <;> exact id

theorem Enabled.legal (h : Enabled s (t, act)) :
    (LockSys.focus s owner pos t p).Legal (t, act) := by
  cases act with
  | init | run => trivial
  | malloc size =>
    simp only [Enabled] at h
    cases hpc : s.pc t <;> rw [hpc] at h <;> first | exact h.elim | exact h
  | free ptr =>
    simp only [Enabled] at h
    cases hpc : s.pc t <;> rw [hpc] at h <;> first | exact h.elim | exact h

theorem focus_pos : (LockSys.focus s owner pos t p).pos t = p := Function.update_self ..

/-- `pthread_spin_lock` -/
theorem focus_lock (env : Env) (ok : Sys → Event → Prop) (s : Sys) (pos : Tid → LockPc) (t : Tid)
    (hp : p.acquires = some (k, q)) (hfree : owner k = none) :
    Reaches (LockStep env) (LockSys.Meets ok) (.focus s owner pos t p)
      (.focus s (Function.update owner k (some t)) pos t q) := by
  have hstep : LockStep env (.focus s owner pos t p) (t, .run)
      ((LockSys.focus s owner pos t p).lock t k q) := .lock (by rw [focus_pos, hp]) hfree
  have hnext : (LockSys.focus s owner pos t p).lock t k q =
      .focus s (Function.update owner k (some t)) pos t q := by
    rw [LockSys.lock, LockSys.focus, LockSys.focus, Function.update_idem]
  have hlegal : (LockSys.focus s owner pos t p).Legal (t, .run) := trivial
  rw [hnext] at hstep
  refine .single ⟨hlegal, fun hruns => ?_⟩ hstep
  rw [focus_pos] at hruns
  exact absurd hruns (LockPc.not_runs_of_acquires hp)

/-- `pthread_spin_unlock` -/
theorem focus_unlock (env : Env) (ok : Sys → Event → Prop) (s : Sys) (owner : Lock → Option Tid)
    (pos : Tid → LockPc) (t : Tid) (hp : p.releases = some (k, q)) :
    Reaches (LockStep env) (LockSys.Meets ok) (.focus s owner pos t p)
      (.focus s (Function.update owner k none) pos t q) := by
  have hstep : LockStep env (.focus s owner pos t p) (t, .run)
      ((LockSys.focus s owner pos t p).unlock t k q) := .unlock (by rw [focus_pos, hp])
  have hnext : (LockSys.focus s owner pos t p).unlock t k q =
      .focus s (Function.update owner k none) pos t q := by
    rw [LockSys.unlock, LockSys.focus, LockSys.focus, Function.update_idem]
  have hlegal : (LockSys.focus s owner pos t p).Legal (t, .run) := trivial
  rw [hnext] at hstep
  refine .single ⟨hlegal, fun hruns => ?_⟩ hstep
  rw [focus_pos] at hruns
  exact absurd hruns (LockPc.not_runs_of_releases hp)

/-- The code between two operations. -/
theorem focus_code (owner : Lock → Option Tid) (pos : Tid → LockPc) (hruns : p.Runs (s.pc t) act)
    (h : Step env s (t, act) s') (hok : ok s (t, act)) :
    Reaches (LockStep env) (LockSys.Meets ok) (.focus s owner pos t p)
      (.focus s' owner pos t (p.after (s'.pc t))) := by
  have hstep : LockStep env (.focus s owner pos t p) (t, act) _ :=
    .code (by rw [focus_pos]; exact hruns) h.2
  rw [focus_pos] at hstep
  have hnext : (⟨s', owner, Function.update (Function.update pos t p) t (p.after (s'.pc t))⟩ :
    LockSys) =
      .focus s' owner pos t (p.after (s'.pc t)) := by
    rw [LockSys.focus, Function.update_idem]
  exact .single ⟨h.1.legal, fun _ => hok⟩ (hnext ▸ hstep)

/-- A large block is asked for. -/
theorem focus_large (env : Env) (ok : Sys → Event → Prop) (owner : Lock → Option Tid)
    (pos : Tid → LockPc) {size : Nat} (hen : Enabled s (t, .malloc size)) (hpc : s.pc t = .ready)
    (hsize : THRESHALLOC < size) :
    Reaches (LockStep env) (LockSys.Meets ok) (.focus s owner pos t .out)
      (.focus s owner pos t (.mallocLock size)) := by
  have hstep : LockStep env (.focus s owner pos t .out) (t, .malloc size) _ :=
    .large focus_pos hpc hsize
  have hnext : (⟨s, owner, Function.update (Function.update pos t .out) t (.mallocLock size)⟩ :
    LockSys) =
      .focus s owner pos t (.mallocLock size) := by
    rw [LockSys.focus, Function.update_idem]
  refine .single ⟨hen.legal, fun hruns => ?_⟩ (hnext ▸ hstep)
  have hruns : LockPc.Runs ((LockSys.focus s owner pos t .out).pos t) (s.pc t)
    (.malloc size) := hruns
  rw [focus_pos, hpc] at hruns
  exact absurd hruns (Nat.not_le.mpr hsize)

theorem between_focus : LockSys.between s = .focus s s.owner s.places t (s.pc t).begins := by
  have hsame : s.places = Function.update s.places t (s.pc t).begins :=
    (Function.update_eq_self t s.places).symm
  rw [LockSys.focus, ← hsame, LockSys.between]

/-- Every thread but `t` is where it was. -/
theorem focus_between (howner : owner = s'.owner) (hothers : ∀ t', t' ≠ t → s'.pc t' = s.pc t')
    (hp : p = (s'.pc t).begins) : LockSys.focus s' owner s.places t p = .between s' := by
  subst howner
  rw [LockSys.focus, LockSys.between]
  congr 1
  funext t'
  by_cases ht : t' = t
  · subst ht
    rw [Function.update_self, hp, Sys.places]
  · rw [Function.update_of_ne ht, Sys.places, Sys.places, hothers t' ht]

theorem owner_update {o : Option Tid} (hl : s'.centralLock = o) :
    Function.update s.owner .centralcacheLock o = s'.owner := by
  funext k
  cases k
  · rw [Function.update_self]
    exact hl.symm
  · rfl

theorem owner_same (hl : s'.centralLock = s.centralLock) : s.owner = s'.owner := by
  funext k
  cases k
  · exact hl.symm
  · rfl

/-- The lock is taken, and released again. -/
theorem owner_back (hfree : s.owner k = none) (hl : s'.centralLock = s.centralLock) :
    Function.update (Function.update s.owner k (some t)) k none = s'.owner := by
  rw [Function.update_idem, ← hfree, Function.update_eq_self, owner_same hl]

/-- A step that needs no lock. -/
theorem Step.between_code (h : Step env s (t, act) s') (hok : ok s (t, act))
    (hothers : ∀ t', t' ≠ t → s'.pc t' = s.pc t') (hruns : (s.pc t).begins.Runs (s.pc t) act)
    (hafter : (s.pc t).begins.after (s'.pc t) = (s'.pc t).begins)
    (hl : s'.centralLock = s.centralLock) :
    Reaches (LockStep env) (LockSys.Meets ok) (.between s) (.between s') := by
  have hcode := focus_code s.owner s.places hruns h hok
  rw [focus_between (owner_same hl) hothers hafter, ← between_focus] at hcode
  exact hcode

/-- A step that takes a lock and keeps it. -/
theorem Step.between_lock (h : Step env s (t, act) s') (hok : ok s (t, act))
    (hothers : ∀ t', t' ≠ t → s'.pc t' = s.pc t')
    (hlock : (s.pc t).begins.acquires = some (k, q)) (hfree : s.owner k = none)
    (hruns : q.Runs (s.pc t) act) (hafter : q.after (s'.pc t) = (s'.pc t).begins)
    (howner : Function.update s.owner k (some t) = s'.owner) :
    Reaches (LockStep env) (LockSys.Meets ok) (.between s) (.between s') := by
  have henter := focus_lock env ok s s.places t hlock hfree
  have hcode := focus_code (Function.update s.owner k (some t)) s.places hruns h hok
  rw [← between_focus] at henter
  rw [focus_between howner hothers hafter] at hcode
  exact henter.trans hcode

/-- A step that takes a lock and releases it. -/
theorem Step.between_section (h : Step env s (t, act) s') (hok : ok s (t, act))
    (hothers : ∀ t', t' ≠ t → s'.pc t' = s.pc t')
    (hlock : (s.pc t).begins.acquires = some (k, q)) (hfree : s.owner k = none)
    (hruns : q.Runs (s.pc t) act)
    (hrelease : (q.after (s'.pc t)).releases = some (k, (s'.pc t).begins))
    (hl : s'.centralLock = s.centralLock) :
    Reaches (LockStep env) (LockSys.Meets ok) (.between s) (.between s') := by
  have henter := focus_lock env ok s s.places t hlock hfree
  have hcode := focus_code (Function.update s.owner k (some t)) s.places hruns h hok
  have hleave := focus_unlock env ok s' (Function.update s.owner k (some t)) s.places t hrelease
  rw [← between_focus] at henter
  rw [focus_between (owner_back hfree hl) hothers rfl] at hleave
  exact (henter.trans hcode).trans hleave

/-- The rest of `get_span_central`, under the lock that `t` has. -/
theorem Step.between_release (h : Step env s (t, act) s') (hok : ok s (t, act))
    (hothers : ∀ t', t' ≠ t → s'.pc t' = s.pc t') (hruns : (s.pc t).begins.Runs (s.pc t) act)
    (hrelease : ((s.pc t).begins.after (s'.pc t)).releases =
      some (.centralcacheLock, (s'.pc t).begins))
    (hl : s'.centralLock = none) :
    Reaches (LockStep env) (LockSys.Meets ok) (.between s) (.between s') := by
  have hcode := focus_code s.owner s.places hruns h hok
  have hleave := focus_unlock env ok s' s.owner s.places t hrelease
  rw [← between_focus] at hcode
  rw [focus_between (owner_update hl) hothers rfl] at hleave
  exact hcode.trans hleave

/-- A large block is returned. -/
theorem Step.between_large {size : Nat} (h : Step env s (t, .malloc size) s')
    (hok : ok s (t, .malloc size)) (hothers : ∀ t', t' ≠ t → s'.pc t' = s.pc t')
    (hpc : s.pc t = .ready) (hpc' : s'.pc t = .ready) (hsize : THRESHALLOC < size)
    (hl : s'.centralLock = s.centralLock) :
    Reaches (LockStep env) (LockSys.Meets ok) (.between s) (.between s') := by
  have hlock : (LockPc.mallocLock size).acquires = some (.pageheapLock, .malloc size) := rfl
  have hfree : s.owner .pageheapLock = none := rfl
  have hruns : (LockPc.malloc size).Runs (s.pc t) (.malloc size) := by rw [hpc]; rfl
  have hrelease : ((LockPc.malloc size).after (s'.pc t)).releases =
      some (.pageheapLock, (s'.pc t).begins) := by rw [hpc']; rfl
  have hcall := focus_large env ok s.owner s.places h.1 hpc hsize
  have henter := focus_lock env ok s s.places t hlock hfree
  have hcode := focus_code (Function.update s.owner .pageheapLock (some t)) s.places hruns h hok
  have hleave := focus_unlock env ok s' (Function.update s.owner .pageheapLock (some t)) s.places t
    hrelease
  have hout : LockPc.out = (s.pc t).begins := by rw [hpc]; rfl
  rw [hout, ← between_focus] at hcall
  rw [focus_between (owner_back hfree hl) hothers rfl] at hleave
  exact ((hcall.trans henter).trans hcode).trans hleave

/-- A span goes back to the page heap, and both locks are released. -/
theorem Step.between_recycle (h : Step env s (t, .run) s')
    (hok : ok s (t, .run)) (hothers : ∀ t', t' ≠ t → s'.pc t' = s.pc t')
    {span : SpanPtr} (hpc : s.pc t = .recycle span) (hpc' : s'.pc t = .ready)
    (hl : s'.centralLock = none) :
    Reaches (LockStep env) (LockSys.Meets ok) (.between s) (.between s') := by
  have hlock : (s.pc t).begins.acquires = some (.pageheapLock, .recycle) := by rw [hpc]; rfl
  have hfree : s.owner .pageheapLock = none := rfl
  have hruns : LockPc.recycle.Runs (s.pc t) .run := by rw [hpc]; trivial
  have hrelease : (LockPc.recycle.after (s'.pc t)).releases =
    some (.pageheapLock, .flushUnlock) := by
    rw [hpc']
    rfl
  have hrelease' : LockPc.flushUnlock.releases = some (.centralcacheLock, (s'.pc t).begins) := by
    rw [hpc']
    rfl
  have henter := focus_lock env ok s s.places t hlock hfree
  have hcode := focus_code (Function.update s.owner .pageheapLock (some t)) s.places hruns h hok
  have hleave := focus_unlock env ok s' (Function.update s.owner .pageheapLock (some t)) s.places t
    hrelease
  rw [owner_back hfree rfl] at hleave
  have hleave' := focus_unlock env ok s' s.owner s.places t hrelease'
  rw [← between_focus] at henter
  rw [focus_between (owner_update hl) hothers rfl] at hleave'
  exact ((henter.trans hcode).trans hleave).trans hleave'

/-- A step of `System` is a run with locks. -/
theorem Step.between {e : Event} (h : Step env s e s') (hok : ok s e) :
    Reaches (LockStep env) (LockSys.Meets ok) (.between s) (.between s') := by
  obtain ⟨t, act⟩ := e
  have hen := h.1
  obtain ⟨hg, hothers⟩ := next_goes h.1.admits h.2
  generalize hpc : s.pc t = pc, hl : s.centralLock = l, hpc' : s'.pc t = pc',
    hl' : s'.centralLock = l' at hg
  cases hg with
  | init | fetches small | pushes | overflows | freesLarge | round lt | lastRound | nextRound
  | allocates =>
    exact h.between_code hok hothers (by rw [hpc]; trivial) (by rw [hpc, hpc']; rfl)
      (hl'.trans hl.symm)
  | @pops size =>
    by_cases hsize : size ≤ THRESHALLOC
    · exact h.between_code hok hothers (by rw [hpc]; exact hsize) (by rw [hpc, hpc']; rfl)
        (hl'.trans hl.symm)
    · exact h.between_large hok hothers hpc hpc' (not_le.mp hsize) (hl'.trans hl.symm)
  | takes | returns =>
    have hfree : s.centralLock = none := by simpa only [Enabled, hpc] using hen
    refine h.between_section (k := .centralcacheLock) hok hothers (by rw [hpc]; rfl) hfree
      (by rw [hpc]; trivial) (by rw [hpc']; rfl) ?_
    first | exact hl'.trans hfree.symm | exact hl'.trans hl.symm
  | misses | empties =>
    have hfree : s.centralLock = none := by simpa only [Enabled, hpc] using hen
    exact h.between_lock (k := .centralcacheLock) hok hothers (by rw [hpc]; rfl) hfree
      (by rw [hpc]; trivial) (by rw [hpc']; rfl) (owner_update hl')
  | refills | releases =>
    exact h.between_section (k := .pageheapLock) hok hothers (by rw [hpc]; rfl) rfl
      (by rw [hpc]; trivial) (by rw [hpc']; rfl) (hl'.trans hl.symm)
  | carves =>
    exact h.between_release hok hothers (by rw [hpc]; trivial) (by rw [hpc, hpc']; rfl) hl'
  | recycles => exact h.between_recycle hok hothers hpc hpc' hl'

/-- A run of `System` is a run with locks. -/
theorem Reachable.between (h : Reachable env ok s) :
    LockReachable env (LockSys.Meets ok) (.between s) := by
  obtain ⟨h₀, hinit, hrun⟩ := h
  refine ⟨h₀, hinit, ?_⟩
  have hstart : LockSys.initial h₀ = .between (Sys.initial h₀) := by
    rw [LockSys.initial, LockSys.between]
    congr 1
    funext k
    cases k <;> rfl
  rw [hstart]
  induction hrun with
  | refl => exact .refl
  | tail _ met last ih => exact ih.trans (last.between met)

/-- The states that the process reaches are those of `System`. -/
theorem lockReachable_iff :
    (∃ l, LockReachable env (LockSys.Meets ok) l ∧ l.sys = s) ↔ Reachable env ok s := by
  constructor
  · rintro ⟨l, hr, rfl⟩
    exact hr.refines.2
  · exact fun hr => ⟨.between s, hr.between, rfl⟩

end Between

end SearchEngine.TcMalloc
