import SearchEngine.ThreadPool.Verify.WakeUp
import SearchEngine.Lib.Potential

/-!
# The pool comes to rest, with every job done

Each thread owes a number of steps that depends on where it is, and each job on the list the
steps of the worker that takes it: a signal wakes any number of workers, so a call of
`add_job_to_pool` pays for all of them (`CallerPc.weight`). A step lowers what is owed
(`Move.potential`), hence the threads cannot go on for ever without new jobs
(`steps_bounded`). When none of them can go on, no job is left behind (`rest_done`).
-/

namespace SearchEngine.ThreadPool

open LinkedPath Reach Outcome

section Drain

variable {n : Nat} {Job : Type} {s s' : Pool n Job} {e : Event n Job} {es : List (Event n Job)}
  {ns : List NodePtr} {jobs : List Job} {C : Finset Nat}

/-! ## What is owed -/

/-- The steps of a worker before it sleeps, or takes the next job. -/
def WorkerPc.weight : WorkerPc Job → Nat
  | .asleep _ => 0
  | .take _ => 1
  | .test _ => 2
  | .lock _ | .relock _ => 3
  | .exec _ => 4
  | .check _ => 5
  | .unlock _ => 6

/-- The steps that a call of `add_job_to_pool` makes, or makes the `n` workers make. -/
def CallerPc.weight (n : Nat) : CallerPc Job → Nat
  | .idle => 0
  | .unlock => 1
  | .signal => 3 * n + 2
  | .enqueue .. => 3 * n + 9
  | .alloc _ => 3 * n + 10
  | .lock _ => 3 * n + 11

/-- What the workers, the callers in `C` and the jobs on the list owe. -/
def Pool.potential (C : Finset Nat) (s : Pool n Job) : Nat :=
  (∑ i, (s.worker i).weight) + (∑ c ∈ C, (s.caller c).weight n) +
    6 * (s.added.length - s.taken.length)

/-- A new call and a spurious wake-up come from outside the pool. -/
def Event.isAdd : Event n Job → Bool
  | .add .. => true
  | _ => false

def Event.isSpurious : Event n Job → Bool
  | .spurious _ => true
  | _ => false

/-- The caller that the event is about. -/
def Event.caller : Event n Job → Option Nat
  | .add c _ | .call c .. => some c
  | .work _ | .spurious _ => none

/-- What an event from outside adds to the potential, and the step itself. -/
def Event.credit : Event n Job → Nat
  | .add .. => 3 * n + 12
  | .spurious _ => 4
  | _ => 0

/-- A worker goes on, and the counters of jobs stay. -/
theorem Pool.pays_worker {i : Fin n} {pc : WorkerPc Job} {m : Option (Thread n)}
    (h : pc.weight < (s.worker i).weight) :
    ({ s with mutex := m }.setWorker i pc).potential C + 1 ≤ s.potential C := by
  have hsum := sum_update_add (S := Finset.univ) (f := s.worker) (w := WorkerPc.weight) (a := pc)
    (Finset.mem_univ i)
  simp only [potential, setWorker]
  omega

theorem Pool.potential_mutex {m : Option (Thread n)} :
    Pool.potential C { s with mutex := m } = s.potential C := rfl

/-- A caller goes from one statement to the next. -/
theorem Pool.potential_setCaller {c : Nat} (s : Pool n Job) (pc : CallerPc Job) (hc : c ∈ C) :
    (s.setCaller c pc).potential C + (s.caller c).weight n = s.potential C + pc.weight n := by
  have hsum := sum_update_add (f := s.caller) (w := CallerPc.weight n) (a := pc) hc
  simp only [potential, setCaller]
  omega

theorem Pool.wake_weight {woken : List (Fin n)} (i : Fin n) :
    ((s.wake woken).worker i).weight ≤ (s.worker i).weight + 3 := by
  simp only [wake]
  cases s.worker i with
  | asleep job => by_cases h : i ∈ woken <;> simp [h, WorkerPc.weight]
  | _ => exact Nat.le_add_right _ 3

theorem Pool.wake_worker {woken : List (Fin n)} {i : Fin n} (h : i ∉ woken) :
    (s.wake woken).worker i = s.worker i := by
  simp only [wake]
  cases s.worker i with
  | asleep job => exact if_neg h
  | _ => rfl

/-- A worker that is woken tests the counter again. -/
theorem Pool.potential_wake (s : Pool n Job) (woken : List (Fin n)) :
    (s.wake woken).potential C ≤ s.potential C + 3 * woken.toFinset.card := by
  have hsum := sum_le_add_card_mul (f := s.worker) (g := (s.wake woken).worker)
    (w := WorkerPc.weight) (Finset.subset_univ woken.toFinset) (fun i _ => wake_weight i)
    fun i _ hi => wake_worker fun h => hi (List.mem_toFinset.mpr h)
  show (∑ i, ((s.wake woken).worker i).weight) + _ + _ ≤ _
  simp only [potential]
  show _ + (∑ c ∈ C, (s.caller c).weight n) + 6 * (s.added.length - s.taken.length) ≤ _
  omega

/-- Every step pays. -/
theorem Move.potential (hm : Move s e s') (hi : PoolInv s ns jobs) (hall : Allocates s e)
    (hC : ∀ c, e.caller = some c → c ∈ C) :
    s'.potential C + 1 ≤ s.potential C + e.credit := by
  have hcount : s.added.length = s.taken.length + jobs.length := by
    rw [← hi.fifo, List.length_append, List.length_map]
  cases hm with
  | @add c job pc =>
    have h := Pool.potential_setCaller s (.lock job) (hC c rfl)
    simp only [pc, CallerPc.weight] at h
    simp only [Event.credit]
    omega
  | @lock c node woken job pc free =>
    have h := Pool.potential_setCaller { s with mutex := some (.caller c) } (.alloc job)
      (hC c rfl)
    simp only [pc, CallerPc.weight, Pool.potential_mutex] at h
    omega
  | fail pc => exact absurd rfl (hall _ pc)
  | @alloc c p woken job pc fresh =>
    have h := Pool.potential_setCaller s (.enqueue p job) (hC c rfl)
    simp only [pc, CallerPc.weight] at h
    show (s.setCaller c (.enqueue p job)).potential C + 1 ≤ _
    omega
  | @enqueue c p node woken job queue pc run =>
    -- the new job on the list owes what the caller pays
    have h := Pool.potential_setCaller { s with queue := queue, added := s.added ++ [job] } .signal
      (hC c rfl)
    have hjob : Pool.potential C { s with queue := queue, added := s.added ++ [job] } =
        s.potential C + 6 := by
      simp only [Pool.potential, List.length_append, List.length_singleton]
      omega
    simp only [pc, CallerPc.weight, hjob] at h
    omega
  | @signal c node woken pc wakes =>
    have h := Pool.potential_setCaller (s.wake woken) .unlock (hC c rfl)
    have hwake := s.potential_wake (C := C) woken
    have hcard := woken.toFinset.card_le_univ
    rw [Fintype.card_fin] at hcard
    have hpc : (s.wake woken).caller c = .signal := pc
    simp only [hpc, CallerPc.weight] at h
    omega
  | @unlock c node woken pc =>
    have h := Pool.potential_setCaller { s with mutex := none } .idle (hC c rfl)
    simp only [pc, CallerPc.weight, Pool.potential_mutex] at h
    omega
  | @enter i job pc free =>
    refine Pool.pays_worker ?_
    rcases pc with pc | pc <;> simp [pc, WorkerPc.weight]
  | @sleep i job pc empty => exact Pool.pays_worker (by simp [pc, WorkerPc.weight])
  | @leave i job pc size => exact Pool.pays_worker (m := s.mutex) (by simp [pc, WorkerPc.weight])
  | @take i job job' queue pc size run =>
    obtain ⟨x, xs, j, rest, q', -, rfl, hq', -⟩ := dequeueJob_spec hi.rep size
    obtain ⟨rfl, rfl⟩ : some j = job' ∧ q' = queue := by simpa using hq'.symm.trans run
    have hsum := sum_update_add (S := Finset.univ) (f := s.worker) (w := WorkerPc.weight)
      (a := .unlock (some j)) (Finset.mem_univ i)
    rw [List.length_cons] at hcount
    simp only [pc, WorkerPc.weight] at hsum
    simp only [Pool.potential, Pool.setWorker, Option.map_some, Option.toList_some,
      List.length_append, List.length_singleton, WorkerPc.weight]
    omega
  | skip pc empty => exact absurd empty (hi.left _ _ pc)
  | @release i job pc => exact Pool.pays_worker (by simp [pc, WorkerPc.weight])
  | @nothing i pc => exact Pool.pays_worker (m := s.mutex) (by simp [pc, WorkerPc.weight])
  | @exec i j pc => exact Pool.pays_worker (m := s.mutex) (by simp [pc, WorkerPc.weight])
  | @done i j pc => exact Pool.pays_worker (m := s.mutex) (by simp [pc, WorkerPc.weight])
  | @spurious i =>
    have h := s.potential_wake (C := C) [i]
    simp only [List.toFinset_cons, List.toFinset_nil, insert_empty_eq, Finset.card_singleton] at h
    simp only [Event.credit]
    omega

/-- What the events of a run bring with them. -/
theorem sum_credit : (es.map Event.credit).sum =
    (3 * n + 12) * es.countP Event.isAdd + 4 * es.countP Event.isSpurious := by
  induction es with
  | nil => rfl
  | cons e es ih =>
    rw [List.map_cons, List.sum_cons, ih, List.countP_cons, List.countP_cons]
    cases e <;> simp [Event.credit, Event.isAdd, Event.isSpurious, Nat.mul_add] <;> omega

theorem initial_potential : (Pool.initial : Pool n Job).potential C = 3 * n := by
  have hworkers : ∑ i : Fin n, ((Pool.initial : Pool n Job).worker i).weight = n * 3 :=
    (Finset.sum_const_nat fun _ _ => rfl).trans (by rw [Finset.card_univ, Fintype.card_fin])
  have hcallers : ∑ c ∈ C, ((Pool.initial : Pool n Job).caller c).weight n = 0 :=
    Finset.sum_eq_zero fun _ _ => rfl
  rw [Pool.potential, hworkers, hcallers]
  show n * 3 + 0 + 6 * (0 - 0) = 3 * n
  omega

/-- The threads do not go on for ever: a run is no longer than the calls of `add_job_to_pool` and
the spurious wake-ups pay for, whatever the order of the steps and whomever a signal wakes. -/
theorem steps_bounded (h : Trace Step Allocates (Pool.initial : Pool n Job) es s) :
    es.length ≤ 3 * n + (3 * n + 12) * es.countP Event.isAdd + 4 * es.countP Event.isSpurious := by
  let C : Finset Nat := (es.filterMap Event.caller).toFinset
  have hC : ∀ e ∈ es, ∀ c, e.caller = some c → c ∈ C := fun e he c hc =>
    List.mem_toFinset.mpr (List.mem_filterMap.mpr ⟨e, he, hc⟩)
  have hrun : Trace Step (fun s e => Allocates s e ∧ ∀ c, e.caller = some c → c ∈ C)
      .initial es s := h.mono fun s e he hok => ⟨hok, hC e he⟩
  obtain ⟨-, hle⟩ := hrun.length_le (fun s => ∃ ns jobs, PoolInv s ns jobs) (Pool.potential C)
    Event.credit ⟨[], [], initial_inv⟩ <| by
      rintro s e t ⟨ns, jobs, hi⟩ ⟨hall, hin⟩ hstep
      exact ⟨hi.step hall hstep, hstep.move.potential hi hall hin⟩
  rw [initial_potential, sum_credit] at hle
  omega

/-! ## At rest -/

/-- The mutex is held by a thread in its critical section only. -/
def Owned (s : Pool n Job) : Prop := ∀ t, s.mutex = some t → s.InSection t

/-- A step of the thread `t`. -/
theorem Owned.step (h : Owned s) (t : Thread n)
    (hother : ∀ u, u ≠ t → s.InSection u → s'.InSection u)
    (hmutex : ∀ u, u ≠ t → s'.mutex = some u → s.mutex = some u)
    (hself : s'.mutex = some t → s'.InSection t) : Owned s' := by
  intro u hu
  by_cases hut : u = t
  · subst hut
    exact hself hu
  · exact hother u hut (h u (hmutex u hut hu))

/-- A thread outside its critical section goes on without the mutex. -/
theorem Owned.outside {t : Thread n} (h : Owned s) (ht : ¬ s.InSection t) {P : Prop}
    (hm : s.mutex = some t) : P :=
  absurd (h t hm) ht

theorem Move.owned (hm : Move s e s') (hall : Allocates s e) (h : Owned s) : Owned s' := by
  cases hm with
  | @add c job pc =>
    refine h.step (.caller c) (fun u hu => (Pool.inSection_setCaller hu).mpr) (fun _ _ hu => hu) ?_
    exact h.outside (by simp only [Pool.InSection, pc, not_false_eq_true])
  | @lock c node woken job pc free =>
    refine h.step (.caller c) (fun u hu => (Pool.inSection_setCaller hu).mpr) ?_
      fun _ => Pool.inSection_caller.mpr trivial
    exact fun u hu hu' => absurd (Option.some.inj hu').symm hu
  | fail pc => exact absurd rfl (hall _ pc)
  | @alloc c p woken job pc fresh =>
    exact h.step (.caller c) (fun u hu => (Pool.inSection_setCaller hu).mpr) (fun _ _ hu => hu)
      fun _ => Pool.inSection_caller.mpr trivial
  | @enqueue c p node woken job queue pc run =>
    exact h.step (.caller c) (fun u hu => (Pool.inSection_setCaller hu).mpr) (fun _ _ hu => hu)
      fun _ => Pool.inSection_caller.mpr trivial
  | @signal c node woken pc wakes =>
    refine h.step (.caller c) (fun u hu hs => ?_) (fun _ _ hu => hu)
      fun _ => Pool.inSection_caller.mpr trivial
    exact (Pool.inSection_setCaller hu).mpr (Pool.inSection_wake.mpr hs)
  | @unlock c node woken pc => exact fun u hu => absurd hu (by simp [Pool.setCaller])
  | @enter i job pc free =>
    refine h.step (.worker i) (fun u hu => (Pool.inSection_setWorker hu).mpr) ?_
      fun _ => Pool.inSection_worker.mpr trivial
    exact fun u hu hu' => absurd (Option.some.inj hu').symm hu
  | @sleep i job pc empty => exact fun u hu => absurd hu (by simp [Pool.setWorker])
  | @leave i job pc size =>
    exact h.step (.worker i) (fun u hu => (Pool.inSection_setWorker hu).mpr) (fun _ _ hu => hu)
      fun _ => Pool.inSection_worker.mpr trivial
  | @take i job job' queue pc size run =>
    exact h.step (.worker i) (fun u hu => (Pool.inSection_setWorker hu).mpr) (fun _ _ hu => hu)
      fun _ => Pool.inSection_worker.mpr trivial
  | @skip i job pc empty =>
    exact h.step (.worker i) (fun u hu => (Pool.inSection_setWorker hu).mpr) (fun _ _ hu => hu)
      fun _ => Pool.inSection_worker.mpr trivial
  | @release i job pc => exact fun u hu => absurd hu (by simp [Pool.setWorker])
  | @nothing i pc | @exec i j pc | @done i j pc =>
    refine h.step (.worker i) (fun u hu => (Pool.inSection_setWorker hu).mpr) (fun _ _ hu => hu) ?_
    exact h.outside (by simp only [Pool.InSection, pc, not_false_eq_true])
  | @spurious i => exact fun u hu => Pool.inSection_wake.mpr (h u hu)

theorem reachable_owned (hr : Reachable s) : Owned s := by
  refine hr.invariant (I := Owned) (fun t ht => by cases ht) ?_
  exact fun s e s' h hall hstep => hstep.move.owned hall h

/-- No thread of the pool, and no call of `add_job_to_pool`, can go on. -/
def AtRest (s : Pool n Job) : Prop := ∀ e, Enabled s e → Allocates s e → e.isAdd ∨ e.isSpurious

/-- Everything is done: each job that was enqueued went to a worker, in order, and the workers
wait for the next one. -/
structure Done (s : Pool n Job) : Prop where
  workers : ∀ i, s.Asleep i
  callers : ∀ c, s.caller c = .idle
  mutex : s.mutex = none
  queue : s.queue.size = 0 ∧ s.queue.head = none
  jobs : s.taken.map Prod.snd = s.added

theorem AtRest.no_work {i : Fin n} (h : AtRest s) : ¬ Enabled s (.work i) := by
  intro hen
  rcases h _ hen trivial with h | h <;> cases h

theorem AtRest.no_call {c : Nat} {node : Option NodePtr} {woken : List (Fin n)} (h : AtRest s)
    (hall : Allocates s (.call c node woken)) (hen : Enabled s (.call c node woken)) : False := by
  rcases h _ hen hall with h | h <;> cases h

/-- A caller in its critical section can go on. -/
theorem enabled_call {c : Nat} (h : s.InSection (.caller c)) :
    ∃ node woken, Enabled s (.call c node woken) ∧ Allocates s (.call c node woken) := by
  simp only [Pool.InSection] at h
  simp only [Enabled, Allocates]
  cases hpc : s.caller c with
  | idle | lock job => rw [hpc] at h; exact h.elim
  | alloc job =>
    obtain ⟨p, hp⟩ : ∃ p, p ∉ s.nodes.toFinset := Infinite.exists_notMem_finset _
    refine ⟨some p, [], ?_, by simp⟩
    rintro _ ⟨⟩ hmem
    exact hp (List.mem_toFinset.mpr hmem)
  | signal =>
    refine ⟨none, (Finset.univ.filter fun i => s.Asleep i).toList, ⟨fun i hi => ?_, ?_⟩, by simp⟩
    · exact (Finset.mem_filter.mp (Finset.mem_toList.mp hi)).2
    · rintro ⟨i, hi⟩ hnil
      have hmem : i ∈ (Finset.univ.filter fun i => s.Asleep i).toList := by simpa using hi
      rw [hnil] at hmem
      cases hmem
  | _ => exact ⟨none, [], trivial, by simp⟩

theorem AtRest.mutex (h : AtRest s) (ho : Owned s) : s.mutex = none := by
  cases hm : s.mutex with
  | none => rfl
  | some t =>
    have hin := ho t hm
    cases t with
    | caller c =>
      obtain ⟨node, woken, hen, hall⟩ := enabled_call hin
      exact (h.no_call hall hen).elim
    | worker i =>
      refine absurd ?_ (h.no_work (i := i))
      simp only [Pool.InSection] at hin
      simp only [Enabled]
      cases hpc : s.worker i <;> rw [hpc] at hin <;> trivial

theorem AtRest.asleep (h : AtRest s) (hm : s.mutex = none) (i : Fin n) : s.Asleep i := by
  have hno := h.no_work (i := i)
  simp only [Enabled] at hno
  cases hpc : s.worker i with
  | asleep job => rw [Pool.Asleep, hpc]; rfl
  | lock job | relock job => rw [hpc] at hno; exact absurd hm hno
  | _ => rw [hpc] at hno; exact absurd trivial hno

theorem AtRest.idle (h : AtRest s) (hm : s.mutex = none) (hl : Locked s) (c : Nat) :
    s.caller c = .idle := by
  have hout : ¬ s.InSection (.caller c) := fun hin => by simpa [hm] using hl _ hin
  cases hpc : s.caller c with
  | idle => rfl
  | lock job =>
    have hen : Enabled s (.call c none []) := by simpa only [Enabled, hpc] using hm
    exact (h.no_call (fun job' => by simp [hpc]) hen).elim
  | _ => exact absurd (by simp only [Pool.InSection, hpc]) hout

/-- No job is left on the list, unless the counter has come to `2 ^ 32`. -/
theorem AtRest.empty (h : AtRest s) (hr : Reachable s) (hn : 0 < n)
    (hsize : s.added.length < 2 ^ 32) : PoolInv s [] [] := by
  obtain ⟨⟨ns, jobs, hi⟩, hwake⟩ := reachable_wakeInv hr
  have hm := h.mutex (reachable_owned hr)
  have hshown : s.shown = 0 := by
    have hle := hwake.enough fun c hc => by simp [h.idle hm hi.locked c] at hc
    have hzero : s.awake = 0 := by
      rw [Pool.awake, Finset.card_eq_zero, Finset.filter_eq_empty_iff]
      exact fun i _ ha => ha (h.asleep hm i)
    omega
  have hlen : ns.length = jobs.length := by
    have hjob := congrArg List.length hi.rep.job
    rwa [List.length_map, List.length_map] at hjob
  obtain rfl : ns = [] := by
    have hcount := congrArg List.length hi.fifo
    rw [List.length_append, List.length_map] at hcount
    rw [hi.rep.shown] at hshown
    exact List.length_eq_zero_iff.mp (by omega)
  obtain rfl : jobs = [] := List.length_eq_zero_iff.mp hlen.symm
  exact hi

/-- A pool of at least one worker that is at rest has nothing left to do. -/
theorem rest_done (hr : Reachable s) (hn : 0 < n) (hrest : AtRest s)
    (hsize : s.added.length < 2 ^ 32) : Done s := by
  have hi := hrest.empty hr hn hsize
  have hm := hrest.mutex (reachable_owned hr)
  exact ⟨hrest.asleep hm, hrest.idle hm hi.locked, hm, ⟨hi.rep.size, hi.rep.path⟩,
    by simpa using hi.fifo⟩

/-- A pool of one worker, which sleeps. -/
def onceAsleep : Pool 1 Nat := { Pool.initial with worker := fun _ => .asleep none }

/-- The pool after the call `add_job_to_pool` that wakes the worker. -/
def onceWoken : Pool 1 Nat :=
  { Pool.initial with
    queue :=
      { setJob 0 7 (zeroNode 0 createJobQueue) with
        size := 1
        head := some 0
        tail := some 0 }
    worker := fun _ => .relock none
    nodes := [0]
    added := [7] }

theorem Pool.setWorker_one (s : Pool 1 Job) (pc : WorkerPc Job) :
    s.setWorker 0 pc = { s with worker := fun _ => pc } := by
  have hw : Function.update s.worker 0 pc = fun _ => pc := by
    funext i
    rw [Subsingleton.elim i 0, Function.update_self]
  rw [setWorker, hw]

theorem Trace.next {s₀ s t : Pool n Job} {es : List (Event n Job)} (e : Event n Job)
    (h : Trace Step Allocates s₀ es s) (hen : Enabled s e) (hall : Allocates s e)
    (hrun : next s e = .ok t) : Trace Step Allocates s₀ (es ++ [e]) t :=
  h.tail hall ⟨hen, hrun⟩

theorem eq_onceWoken {s : Pool 1 Nat} (hqueue : s.queue = onceWoken.queue)
    (hmutex : s.mutex = none) (hworker : s.worker 0 = .relock none)
    (hcaller : ∀ c, s.caller c = .idle) (hnodes : s.nodes = [0]) (hadded : s.added = [7])
    (htaken : s.taken = []) : s = onceWoken := by
  have hw : s.worker = fun _ => .relock none := by
    funext i
    rw [Subsingleton.elim i 0, hworker]
  have hc : s.caller = fun _ => .idle := funext hcaller
  obtain ⟨queue, mutex, worker, caller, nodes, added, taken⟩ := s
  subst hqueue hmutex hw hc hnodes hadded htaken
  rfl

/-- The worker finds no job. -/
theorem once_sleeps : Trace Step Allocates .initial [.work 0, .work 0] onceAsleep := by
  have h : Trace Step Allocates (Pool.initial : Pool 1 Nat) [] .initial := .refl
  have h := Trace.next (.work 0) h rfl trivial rfl
  exact Trace.next (.work 0) h trivial trivial (congrArg Except.ok (Pool.setWorker_one ..))

/-- The call `add_job_to_pool`. -/
theorem once_added {es : List (Event 1 Nat)} (h : Trace Step Allocates .initial es onceAsleep) :
    ∃ es' s, es'.length = 6 ∧ Trace Step Allocates .initial (es ++ es') s ∧ s = onceWoken := by
  have h := Trace.next (.add 0 7) h rfl trivial rfl
  have h := Trace.next (.call 0 none []) h rfl (fun _ h => by cases h) rfl
  have h := Trace.next (.call 0 (some 0) []) h
    (fun _ _ => by simp [onceAsleep, Pool.initial, Pool.setCaller]) (fun _ _ => by simp) rfl
  have h := Trace.next (.call 0 none []) h trivial (fun _ h => by cases h) rfl
  have h := Trace.next (.call 0 none [0]) h ⟨by decide, fun _ => by simp⟩
    (fun _ h => by cases h) rfl
  have h := Trace.next (.call 0 none []) h trivial (fun _ h => by cases h) rfl
  simp only [List.append_assoc] at h
  refine ⟨_, _, rfl, h, eq_onceWoken rfl rfl rfl (fun c => ?_) rfl rfl rfl⟩
  simp [Pool.setCaller, Pool.wake, onceAsleep, Pool.initial]

/-- The worker takes the job, ends it and sleeps again. -/
theorem once_done {es : List (Event 1 Nat)} (h : Trace Step Allocates .initial es onceWoken) :
    ∃ es' s, es'.length = 8 ∧ Trace Step Allocates .initial (es ++ es') s ∧ s.added = [7] ∧
      AtRest s := by
  have h := Trace.next (.work 0) h rfl trivial rfl
  have h := Trace.next (.work 0) h trivial trivial rfl
  have h := Trace.next (.work 0) h trivial trivial rfl
  have h := Trace.next (.work 0) h trivial trivial rfl
  have h := Trace.next (.work 0) h trivial trivial rfl
  have h := Trace.next (.work 0) h trivial trivial rfl
  have h := Trace.next (.work 0) h rfl trivial rfl
  have h := Trace.next (.work 0) h trivial trivial rfl
  simp only [List.append_assoc] at h
  refine ⟨_, _, rfl, h, rfl, ?_⟩
  intro e hen hall
  cases e with
  | add c job => exact .inl rfl
  | spurious i => exact .inr rfl
  | work i =>
    obtain rfl := Subsingleton.elim i 0
    exact hen.elim
  | call c node woken => exact hen.elim

/-- One worker, which sleeps when the first job comes. -/
theorem one_job : ∃ (es : List (Event 1 Nat)) (s : Pool 1 Nat),
    Trace Step Allocates .initial es s ∧ es.length = 16 ∧ s.added = [7] ∧ AtRest s := by
  obtain ⟨es, _, hlen, h, rfl⟩ := once_added once_sleeps
  obtain ⟨es', s, hlen', h', hadd, hrest⟩ := once_done h
  refine ⟨_, s, h', ?_, hadd, hrest⟩
  rw [List.length_append, List.length_append, hlen, hlen']
  rfl

theorem steps_bounded_once : ∃ (es : List (Event 1 Nat)) (s : Pool 1 Nat),
    Trace Step Allocates .initial es s ∧ es.length = 16 ∧ es.length ≤ 3 * 1 +
      (3 * 1 + 12) * es.countP Event.isAdd + 4 * es.countP Event.isSpurious := by
  obtain ⟨es, s, h, hlen, -⟩ := one_job
  exact ⟨es, s, h, hlen, steps_bounded h⟩

theorem rest_done_once : ∃ s : Pool 1 Nat, Reachable s ∧ s.added = [7] ∧ Done s := by
  obtain ⟨es, s, h, -, hadd, hrest⟩ := one_job
  refine ⟨s, h.reaches, hadd, rest_done h.reaches Nat.one_pos hrest ?_⟩
  rw [hadd]
  decide

end Drain

end SearchEngine.ThreadPool
