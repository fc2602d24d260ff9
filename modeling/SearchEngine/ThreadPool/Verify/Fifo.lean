import SearchEngine.ThreadPool.Pool
import SearchEngine.Lib.Outcome
import Mathlib.Data.Finset.Dedup
import Mathlib.Data.Fintype.EquivFin

/-!
# The job queue delivers every job once, in order

`QueueRep q ns jobs` says that the queue is the list of the nodes `ns` with the `jobs` in
them, that `tail` is its last node and `size` counts them. The two queue operations keep
it (`enqueueJob_spec`, `dequeueJob_spec`), and since the threads come to them one at a
time (`Locked`) every state reached has it: the jobs dequeued and the jobs on the list
are together the jobs enqueued.
-/

namespace SearchEngine.ThreadPool

open LinkedPath Reach Outcome

section Queue

variable {Job : Type} {q : JobQueue Job} {ns : List NodePtr} {jobs : List Job} {p : NodePtr}
  {j : Job}

/-- The queue is the list of the nodes `ns`, which hold `jobs`. -/
structure QueueRep (q : JobQueue Job) (ns : List NodePtr) (jobs : List Job) : Prop where
  path : Path q.next q.head ns
  nodup : ns.Nodup
  job : ns.map q.job = jobs.map some
  size : q.size = CInt.int ns.length
  tail : ns ≠ [] → q.tail = ns.getLast?

theorem createJobQueue_rep : QueueRep (createJobQueue : JobQueue Job) [] [] where
  path := rfl
  nodup := List.nodup_nil
  job := rfl
  size := rfl
  tail h := absurd rfl h

/-- A node off the list may change. -/
theorem QueueRep.congr {q' : JobQueue Job} (h : QueueRep q ns jobs) (hhead : q'.head = q.head)
    (htail : q'.tail = q.tail) (hsize : q'.size = q.size)
    (hnext : ∀ x ∈ ns, q'.next x = q.next x) (hjob : ∀ x ∈ ns, q'.job x = q.job x) :
    QueueRep q' ns jobs where
  path := by
    rw [hhead]
    exact h.path.congr hnext
  nodup := h.nodup
  job := by
    rw [← h.job]
    exact List.map_congr_left hjob
  size := hsize.trans h.size
  tail hne := htail.trans (h.tail hne)

theorem enqueueJob_empty (h : q.head = none) :
    enqueueJob p q = .ok { q with
      tail := some p, head := some p, size := CInt.int (q.size + 1) } := by
  rw [enqueueJob, h]
  rfl

theorem enqueueJob_append {x t : NodePtr} (h : q.head = some x) (ht : q.tail = some t) :
    enqueueJob p q = .ok { q with
      next := Function.update q.next t (some p), tail := some p
      size := CInt.int (q.size + 1) } := by
  rw [enqueueJob, h, ht]
  rfl

theorem dequeueJob_head {x : NodePtr} (hsize : q.size ≠ 0) (h : q.head = some x) :
    dequeueJob q =
      .ok (q.job x, { q with head := q.next x, size := CInt.int (q.size - 1) }) := by
  rw [dequeueJob, if_neg hsize, h]

/-- `enqueue_job` puts the node at the end of the list. -/
theorem enqueueJob_spec (h : QueueRep q ns jobs) (hp : p ∉ ns) (hnull : q.next p = none)
    (hjob : q.job p = some j) :
    ∃ q', enqueueJob p q = .ok q' ∧ QueueRep q' (ns ++ [p]) (jobs ++ [j]) := by
  have hsize : CInt.int (q.size + 1) = CInt.int (ns ++ [p]).length := by
    rw [h.size, CInt.int_int_add, List.length_append]
    rfl
  have hnd : (ns ++ [p]).Nodup :=
    List.nodup_append.mpr ⟨h.nodup, List.nodup_singleton p,
      fun x hx y hy e => hp (by rwa [← List.mem_singleton.mp hy, ← e])⟩
  have hjobs : (ns ++ [p]).map q.job = (jobs ++ [j]).map some := by
    rw [List.map_append, List.map_append, h.job]
    simp only [List.map_cons, hjob, List.map_nil]
  cases hns : ns with
  | nil =>
    subst hns
    have hhead : q.head = none := h.path
    exact ⟨_, enqueueJob_empty hhead, ⟨rfl, hnull⟩, hnd, hjobs, hsize, fun _ => rfl⟩
  | cons x xs =>
    rw [← hns]
    have hne : ns ≠ [] := by rw [hns]; exact List.cons_ne_nil x xs
    have hhead : q.head = some x := by
      have hpath := h.path
      rw [hns] at hpath
      exact hpath.1
    obtain ⟨t, ht⟩ : ∃ t, ns.getLast? = some t := ⟨_, List.getLast?_eq_some_getLast hne⟩
    have htail : q.tail = some t := (h.tail hne).trans ht
    refine ⟨_, enqueueJob_append hhead htail, ?_, hnd, hjobs, hsize, fun _ => ?_⟩
    · exact h.path.snoc h.nodup hp hnull ht
    · exact List.getLast?_concat.symm

/-- `dequeue_job` takes the first job when there is one. -/
theorem dequeueJob_spec (h : QueueRep q ns jobs) (hsize : q.size ≠ 0) :
    ∃ x xs j rest q', ns = x :: xs ∧ jobs = j :: rest ∧ dequeueJob q = .ok (some j, q') ∧
      QueueRep q' xs rest ∧ q'.next = q.next ∧ q'.job = q.job := by
  cases ns with
  | nil => exact absurd h.size hsize
  | cons x xs =>
    cases jobs with
    | nil => exact absurd h.job (by simp)
    | cons j rest =>
      obtain ⟨hj, hrest⟩ := List.cons.inj h.job
      have hrun := dequeueJob_head hsize h.path.1
      rw [hj] at hrun
      refine ⟨x, xs, j, rest, _, rfl, rfl, hrun,
        ⟨h.path.2, h.nodup.of_cons, hrest, ?_, ?_⟩, rfl, rfl⟩
      · show CInt.int (q.size - 1) = _
        rw [h.size, Int.sub_eq_add_neg, CInt.int_int_add, List.length_cons]
        congr 1
        omega
      · intro hne
        rw [h.tail (List.cons_ne_nil x xs)]
        cases xs with
        | nil => exact absurd rfl hne
        | cons y ys => exact List.getLast?_cons_cons

end Queue

/-! ## What a step does -/

/-- The steps, by the statement that is run. -/
inductive Move {n : Nat} {Job : Type} (s : Pool n Job) : Event n Job → Pool n Job → Prop
  | add {c : Nat} {job : Job} (pc : s.caller c = .idle) :
      Move s (.add c job) (s.setCaller c (.lock job))
  | lock {c : Nat} {node : Option NodePtr} {woken : List (Fin n)} {job : Job}
      (pc : s.caller c = .lock job) (free : s.mutex = none) :
      Move s (.call c node woken) ({ s with mutex := some (.caller c) }.setCaller c (.alloc job))
  | fail {c : Nat} {woken : List (Fin n)} {job : Job} (pc : s.caller c = .alloc job) :
      Move s (.call c none woken) (s.setCaller c .idle)
  | alloc {c : Nat} {p : NodePtr} {woken : List (Fin n)} {job : Job}
      (pc : s.caller c = .alloc job) (fresh : p ∉ s.nodes) :
      Move s (.call c (some p) woken) ({ s with
        queue := setJob p job (zeroNode p s.queue)
        nodes := p :: s.nodes }.setCaller c (.enqueue p job))
  | enqueue {c : Nat} {p : NodePtr} {node : Option NodePtr} {woken : List (Fin n)} {job : Job}
      {queue : JobQueue Job} (pc : s.caller c = .enqueue p job)
      (run : enqueueJob p s.queue = .ok queue) :
      Move s (.call c node woken)
        ({ s with queue := queue, added := s.added ++ [job] }.setCaller c .signal)
  | signal {c : Nat} {node : Option NodePtr} {woken : List (Fin n)} (pc : s.caller c = .signal)
      (wakes : (∃ i, s.Asleep i) → ∃ i ∈ woken, s.Asleep i) :
      Move s (.call c node woken) ((s.wake woken).setCaller c .unlock)
  | unlock {c : Nat} {node : Option NodePtr} {woken : List (Fin n)} (pc : s.caller c = .unlock) :
      Move s (.call c node woken) ({ s with mutex := none }.setCaller c .idle)
  | enter {i : Fin n} {job : Option Job} (pc : s.worker i = .lock job ∨ s.worker i = .relock job)
      (free : s.mutex = none) :
      Move s (.work i) ({ s with mutex := some (.worker i) }.setWorker i (.test job))
  | sleep {i : Fin n} {job : Option Job} (pc : s.worker i = .test job) (empty : s.queue.size = 0) :
      Move s (.work i) ({ s with mutex := none }.setWorker i (.asleep job))
  | leave {i : Fin n} {job : Option Job} (pc : s.worker i = .test job)
      (size : s.queue.size ≠ 0) : Move s (.work i) (s.setWorker i (.take job))
  | take {i : Fin n} {job job' : Option Job} {queue : JobQueue Job} (pc : s.worker i = .take job)
      (size : s.queue.size ≠ 0) (run : dequeueJob s.queue = .ok (job', queue)) :
      Move s (.work i) ({ s with
        queue := queue
        taken := s.taken ++ (job'.map fun j => (i, j)).toList }.setWorker i (.unlock job'))
  | skip {i : Fin n} {job : Option Job} (pc : s.worker i = .take job)
      (empty : s.queue.size = 0) : Move s (.work i) (s.setWorker i (.unlock job))
  | release {i : Fin n} {job : Option Job} (pc : s.worker i = .unlock job) :
      Move s (.work i) ({ s with mutex := none }.setWorker i (.check job))
  | nothing {i : Fin n} (pc : s.worker i = .check none) :
      Move s (.work i) (s.setWorker i (.lock none))
  | exec {i : Fin n} {j : Job} (pc : s.worker i = .check (some j)) :
      Move s (.work i) (s.setWorker i (.exec j))
  | done {i : Fin n} {j : Job} (pc : s.worker i = .exec j) :
      Move s (.work i) (s.setWorker i (.lock (some j)))
  | spurious {i : Fin n} : Move s (.spurious i) (s.wake [i])

section Moves

variable {n : Nat} {Job : Type} {s s' : Pool n Job} {e : Event n Job}

theorem call_move {c : Nat} {node : Option NodePtr} {woken : List (Fin n)}
    (h : Step s (.call c node woken) s') : Move s (.call c node woken) s' := by
  obtain ⟨hen, hrun⟩ := h
  simp only [Enabled] at hen
  simp only [next] at hrun
  cases hpc : s.caller c with
  | idle => rw [hpc] at hen; exact hen.elim
  | lock job =>
    rw [hpc] at hen hrun
    obtain rfl := Except.ok.inj hrun
    exact .lock hpc hen
  | alloc job =>
    rw [hpc] at hen hrun
    cases node with
    | none =>
      obtain rfl := Except.ok.inj hrun
      exact .fail hpc
    | some p =>
      obtain rfl := Except.ok.inj hrun
      exact .alloc hpc (hen p rfl)
  | enqueue p job =>
    rw [hpc] at hrun
    obtain ⟨queue, hq, hret⟩ := bind_eq_ok hrun
    obtain rfl := Except.ok.inj hret
    exact .enqueue hpc hq
  | signal =>
    rw [hpc] at hen hrun
    obtain rfl := Except.ok.inj hrun
    refine .signal hpc fun hex => ?_
    obtain ⟨i, hi⟩ := List.exists_mem_of_ne_nil _ (hen.2 hex)
    exact ⟨i, hi, hen.1 i hi⟩
  | unlock =>
    rw [hpc] at hrun
    obtain rfl := Except.ok.inj hrun
    exact .unlock hpc

theorem work_move {i : Fin n} (h : Step s (.work i) s') : Move s (.work i) s' := by
  obtain ⟨hen, hrun⟩ := h
  simp only [Enabled] at hen
  simp only [next] at hrun
  cases hpc : s.worker i with
  | lock job =>
    rw [hpc] at hen hrun
    obtain rfl := Except.ok.inj hrun
    exact .enter (.inl hpc) hen
  | test job =>
    rw [hpc, work] at hrun
    split at hrun
    · next hsize =>
      obtain rfl := Except.ok.inj hrun
      exact .sleep hpc hsize
    · next hsize =>
      obtain rfl := Except.ok.inj hrun
      exact .leave hpc hsize
  | asleep job => rw [hpc] at hen; exact hen.elim
  | relock job =>
    rw [hpc] at hen hrun
    obtain rfl := Except.ok.inj hrun
    exact .enter (.inr hpc) hen
  | take job =>
    rw [hpc, work] at hrun
    split at hrun
    · next hsize =>
      obtain ⟨⟨job', queue⟩, hq, hret⟩ := bind_eq_ok hrun
      obtain rfl := Except.ok.inj hret
      exact .take hpc hsize hq
    · next hsize =>
      obtain rfl := Except.ok.inj hrun
      exact .skip hpc (not_not.mp hsize)
  | unlock job =>
    rw [hpc] at hrun
    obtain rfl := Except.ok.inj hrun
    exact .release hpc
  | check job =>
    rw [hpc] at hrun
    cases job with
    | none =>
      obtain rfl := Except.ok.inj hrun
      exact .nothing hpc
    | some j =>
      obtain rfl := Except.ok.inj hrun
      exact .exec hpc
  | exec j =>
    rw [hpc] at hrun
    obtain rfl := Except.ok.inj hrun
    exact .done hpc

theorem Step.move (h : Step s e s') : Move s e s' := by
  cases e with
  | add c job =>
    obtain rfl := Except.ok.inj h.2
    exact .add h.1
  | call c node woken => exact call_move h
  | work i => exact work_move h
  | spurious i =>
    obtain rfl := Except.ok.inj h.2
    exact .spurious

end Moves

/-! ## Critical sections -/

section Mutex

variable {n : Nat} {Job : Type} {s s' : Pool n Job} {e : Event n Job}

/-- The thread is between its `pthread_mutex_lock` and its `pthread_mutex_unlock`. -/
def Pool.InSection (s : Pool n Job) : Thread n → Prop
  | .worker i => match s.worker i with
    | .test _ | .take _ | .unlock _ => True
    | _ => False
  | .caller c => match s.caller c with
    | .alloc _ | .enqueue .. | .signal | .unlock => True
    | _ => False

/-- A thread in its critical section holds the mutex. -/
def Locked (s : Pool n Job) : Prop := ∀ t, s.InSection t → s.mutex = some t

/-- A step of the thread `t`: it may take or release the mutex, and no other thread
enters its critical section. -/
theorem Locked.step (h : Locked s) (t : Thread n)
    (hother : ∀ u, u ≠ t → s'.InSection u → s.InSection u)
    (hmutex : ∀ u, u ≠ t → s.mutex = some u → s'.mutex = some u)
    (hself : s'.InSection t → s'.mutex = some t) : Locked s' := by
  intro u hu
  by_cases hut : u = t
  · subst hut
    exact hself hu
  · exact hmutex u hut (h u (hother u hut hu))

@[simp] theorem Pool.setWorker_self {i : Fin n} {pc : WorkerPc Job} :
    (s.setWorker i pc).worker i = pc := Function.update_self ..

@[simp] theorem Pool.setCaller_self {c : Nat} {pc : CallerPc Job} :
    (s.setCaller c pc).caller c = pc := Function.update_self ..

theorem Pool.inSection_setWorker {i : Fin n} {pc : WorkerPc Job} {u : Thread n}
    (hu : u ≠ .worker i) : (s.setWorker i pc).InSection u ↔ s.InSection u := by
  cases u with
  | caller c => rfl
  | worker j =>
    have hj : j ≠ i := fun e => hu (congrArg Thread.worker e)
    simp only [InSection, setWorker, Function.update_of_ne hj]

theorem Pool.inSection_setCaller {c : Nat} {pc : CallerPc Job} {u : Thread n}
    (hu : u ≠ .caller c) : (s.setCaller c pc).InSection u ↔ s.InSection u := by
  cases u with
  | worker i => rfl
  | caller d =>
    have hd : d ≠ c := fun e => hu (congrArg Thread.caller e)
    simp only [InSection, setCaller, Function.update_of_ne hd]

theorem Pool.inSection_wake {woken : List (Fin n)} {u : Thread n} :
    (s.wake woken).InSection u ↔ s.InSection u := by
  cases u with
  | caller c => rfl
  | worker i =>
    simp only [InSection, wake]
    cases s.worker i with
    | asleep job => by_cases h : i ∈ woken <;> simp [h]
    | _ => rfl

theorem Pool.inSection_worker {i : Fin n} {pc : WorkerPc Job} :
    (s.setWorker i pc).InSection (.worker i) ↔ match pc with
      | .test _ | .take _ | .unlock _ => True
      | _ => False := by
  simp only [InSection, setWorker, Function.update_self]

theorem Pool.inSection_caller {c : Nat} {pc : CallerPc Job} :
    (s.setCaller c pc).InSection (.caller c) ↔ match pc with
      | .alloc _ | .enqueue .. | .signal | .unlock => True
      | _ => False := by
  simp only [InSection, setCaller, Function.update_self]

theorem Move.locked (hm : Move s e s') (h : Locked s) : Locked s' := by
  cases hm with
  | @add c job pc =>
    refine h.step (.caller c) (fun u hu => (Pool.inSection_setCaller hu).mp) (fun _ _ hu => hu) ?_
    exact fun hs => (Pool.inSection_caller.mp hs).elim
  | @lock c node woken job pc free =>
    refine h.step (.caller c) (fun u hu => (Pool.inSection_setCaller hu).mp) ?_ fun _ => rfl
    exact fun u _ hu => absurd (free.symm.trans hu) (by simp)
  | @fail c woken job pc =>
    refine h.step (.caller c) (fun u hu => (Pool.inSection_setCaller hu).mp) (fun _ _ hu => hu) ?_
    exact fun hs => (Pool.inSection_caller.mp hs).elim
  | @alloc c p woken job pc fresh =>
    refine h.step (.caller c) (fun u hu => (Pool.inSection_setCaller hu).mp) (fun _ _ hu => hu) ?_
    exact fun _ => h (.caller c) (by simp only [Pool.InSection, pc])
  | @enqueue c p node woken job queue pc run =>
    refine h.step (.caller c) (fun u hu => (Pool.inSection_setCaller hu).mp) (fun _ _ hu => hu) ?_
    exact fun _ => h (.caller c) (by simp only [Pool.InSection, pc])
  | @signal c node woken pc wakes =>
    refine h.step (.caller c) (fun u hu hs => ?_) (fun _ _ hu => hu) ?_
    · exact Pool.inSection_wake.mp ((Pool.inSection_setCaller hu).mp hs)
    · exact fun _ => h (.caller c) (by simp only [Pool.InSection, pc])
  | @unlock c node woken pc =>
    have hheld := h (.caller c) (by simp only [Pool.InSection, pc])
    refine h.step (.caller c) (fun u hu => (Pool.inSection_setCaller hu).mp) ?_ ?_
    · exact fun u hu hu' => absurd (Option.some.inj (hu'.symm.trans hheld)) hu
    · exact fun hs => (Pool.inSection_caller.mp hs).elim
  | @enter i job pc free =>
    refine h.step (.worker i) (fun u hu => (Pool.inSection_setWorker hu).mp) ?_ fun _ => rfl
    exact fun u _ hu => absurd (free.symm.trans hu) (by simp)
  | @sleep i job pc empty =>
    have hheld := h (.worker i) (by simp only [Pool.InSection, pc])
    refine h.step (.worker i) (fun u hu => (Pool.inSection_setWorker hu).mp) ?_ ?_
    · exact fun u hu hu' => absurd (Option.some.inj (hu'.symm.trans hheld)) hu
    · exact fun hs => (Pool.inSection_worker.mp hs).elim
  | @leave i job pc size =>
    refine h.step (.worker i) (fun u hu => (Pool.inSection_setWorker hu).mp) (fun _ _ hu => hu) ?_
    exact fun _ => h (.worker i) (by simp only [Pool.InSection, pc])
  | @take i job job' queue pc size run =>
    refine h.step (.worker i) (fun u hu => (Pool.inSection_setWorker hu).mp) (fun _ _ hu => hu) ?_
    exact fun _ => h (.worker i) (by simp only [Pool.InSection, pc])
  | @skip i job pc empty =>
    refine h.step (.worker i) (fun u hu => (Pool.inSection_setWorker hu).mp) (fun _ _ hu => hu) ?_
    exact fun _ => h (.worker i) (by simp only [Pool.InSection, pc])
  | @release i job pc =>
    have hheld := h (.worker i) (by simp only [Pool.InSection, pc])
    refine h.step (.worker i) (fun u hu => (Pool.inSection_setWorker hu).mp) ?_ ?_
    · exact fun u hu hu' => absurd (Option.some.inj (hu'.symm.trans hheld)) hu
    · exact fun hs => (Pool.inSection_worker.mp hs).elim
  | @nothing i pc =>
    refine h.step (.worker i) (fun u hu => (Pool.inSection_setWorker hu).mp) (fun _ _ hu => hu) ?_
    exact fun hs => (Pool.inSection_worker.mp hs).elim
  | @exec i j pc =>
    refine h.step (.worker i) (fun u hu => (Pool.inSection_setWorker hu).mp) (fun _ _ hu => hu) ?_
    exact fun hs => (Pool.inSection_worker.mp hs).elim
  | @done i j pc =>
    refine h.step (.worker i) (fun u hu => (Pool.inSection_setWorker hu).mp) (fun _ _ hu => hu) ?_
    exact fun hs => (Pool.inSection_worker.mp hs).elim
  | @spurious i => exact fun u hu => h u (Pool.inSection_wake.mp hu)

end Mutex

/-! ## Every run -/

section Runs

variable {n : Nat} {Job : Type} {s s' : Pool n Job} {e : Event n Job} {ns : List NodePtr}
  {jobs : List Job}

/-- The invariant: the queue is the nodes `ns` with `jobs` in them. -/
structure PoolInv (s : Pool n Job) (ns : List NodePtr) (jobs : List Job) : Prop where
  locked : Locked s
  rep : QueueRep s.queue ns jobs
  fifo : s.taken.map Prod.snd ++ jobs = s.added
  known : ∀ p ∈ ns, p ∈ s.nodes
  /-- the node that is about to be enqueued -/
  held : ∀ c p job, s.caller c = .enqueue p job →
    p ∈ s.nodes ∧ p ∉ ns ∧ s.queue.next p = none ∧ s.queue.job p = some job
  left : ∀ i job, s.worker i = .take job → s.queue.size ≠ 0
  got : ∀ i j, s.worker i = .unlock (some j) ∨ s.worker i = .check (some j) ∨
    s.worker i = .exec j → (i, j) ∈ s.taken

theorem initial_inv : PoolInv (Pool.initial : Pool n Job) [] [] where
  locked t ht := by cases t <;> exact ht.elim
  rep := createJobQueue_rep
  fifo := rfl
  known _ h := absurd h (by simp)
  held _ _ _ h := by cases h
  left _ _ h := by cases h
  got _ _ h := by rcases h with h | h | h <;> cases h

/-- A step of a worker that leaves the queue alone. -/
theorem PoolInv.worker {i : Fin n} {pc : WorkerPc Job} {m : Option (Thread n)}
    (h : PoolInv s ns jobs) (hlock : Locked ({ s with mutex := m }.setWorker i pc))
    (hleft : ∀ job, pc = .take job → s.queue.size ≠ 0)
    (hgot : ∀ j, pc = .unlock (some j) ∨ pc = .check (some j) ∨ pc = .exec j → (i, j) ∈ s.taken) :
    PoolInv ({ s with mutex := m }.setWorker i pc) ns jobs where
  locked := hlock
  rep := h.rep
  fifo := h.fifo
  known := h.known
  held := h.held
  left k job hk := by
    by_cases hki : k = i
    · subst hki
      simp only [Pool.setWorker, Function.update_self] at hk
      exact hleft job hk
    · simp only [Pool.setWorker, Function.update_of_ne hki] at hk
      exact h.left k job hk
  got k j hk := by
    by_cases hki : k = i
    · subst hki
      simp only [Pool.setWorker, Function.update_self] at hk
      exact hgot j hk
    · simp only [Pool.setWorker, Function.update_of_ne hki] at hk
      exact h.got k j hk

/-- A step of a caller that leaves the queue alone. -/
theorem PoolInv.caller {c : Nat} {pc : CallerPc Job} {m : Option (Thread n)}
    (h : PoolInv s ns jobs) (hlock : Locked ({ s with mutex := m }.setCaller c pc))
    (hpc : ∀ p job, pc ≠ .enqueue p job) :
    PoolInv ({ s with mutex := m }.setCaller c pc) ns jobs where
  locked := hlock
  rep := h.rep
  fifo := h.fifo
  known := h.known
  held d p job hd := by
    by_cases hdc : d = c
    · subst hdc
      simp only [Pool.setCaller, Function.update_self] at hd
      exact absurd hd (hpc p job)
    · simp only [Pool.setCaller, Function.update_of_ne hdc] at hd
      exact h.held d p job hd
  left := h.left
  got := h.got

theorem PoolInv.wake {woken : List (Fin n)} (h : PoolInv s ns jobs) :
    PoolInv (s.wake woken) ns jobs where
  locked u hu := h.locked u (Pool.inSection_wake.mp hu)
  rep := h.rep
  fifo := h.fifo
  known := h.known
  held := h.held
  left i job hi := by
    refine h.left i job ?_
    simp only [Pool.wake] at hi
    cases hw : s.worker i with
    | asleep job' => rw [hw] at hi; simp only at hi; split at hi <;> cases hi
    | _ => rw [hw] at hi; exact hi
  got i j hi := by
    refine h.got i j ?_
    simp only [Pool.wake] at hi
    cases hw : s.worker i with
    | asleep job' =>
      rw [hw] at hi
      simp only at hi
      split at hi <;> rcases hi with h | h | h <;> cases h
    | _ => rw [hw] at hi; exact hi

/-- The new node of `add_job_to_pool`. -/
theorem PoolInv.alloc {c : Nat} {p : NodePtr} {job : Job} (h : PoolInv s ns jobs)
    (hpc : s.caller c = .alloc job) (hfresh : p ∉ s.nodes)
    (hlock : Locked ({ s with
        queue := setJob p job (zeroNode p s.queue)
        nodes := p :: s.nodes }.setCaller c (.enqueue p job))) :
    PoolInv ({ s with
        queue := setJob p job (zeroNode p s.queue)
        nodes := p :: s.nodes }.setCaller c (.enqueue p job)) ns jobs where
  locked := hlock
  rep := by
    have hne : ∀ x ∈ ns, x ≠ p := fun x hx e => hfresh (e ▸ h.known x hx)
    refine h.rep.congr rfl rfl rfl (fun x hx => ?_) (fun x hx => ?_)
    · exact Function.update_of_ne (hne x hx) ..
    · exact (Function.update_of_ne (hne x hx) ..).trans (Function.update_of_ne (hne x hx) ..)
  fifo := h.fifo
  known x hx := List.mem_cons_of_mem p (h.known x hx)
  held d p' job' hd := by
    by_cases hdc : d = c
    · subst hdc
      simp only [Pool.setCaller, Function.update_self, CallerPc.enqueue.injEq] at hd
      obtain ⟨rfl, rfl⟩ := hd
      exact ⟨List.mem_cons_self, fun hp => hfresh (h.known _ hp), Function.update_self ..,
        Function.update_self ..⟩
    · -- two callers cannot both hold the mutex
      simp only [Pool.setCaller, Function.update_of_ne hdc] at hd
      have h₁ := h.locked (.caller c) (by simp only [Pool.InSection, hpc])
      have h₂ := h.locked (.caller d) (by simp only [Pool.InSection, hd])
      exact absurd (Thread.caller.inj (Option.some.inj (h₂.symm.trans h₁))) hdc
  left := h.left
  got := h.got

/-- `enqueue_job` in `add_job_to_pool`. -/
theorem PoolInv.enqueue {c : Nat} {p : NodePtr} {job : Job} {queue : JobQueue Job}
    (h : PoolInv s ns jobs) (hpc : s.caller c = .enqueue p job)
    (hrun : enqueueJob p s.queue = .ok queue)
    (hlock : Locked ({ s with queue := queue, added := s.added ++ [job] }.setCaller c .signal)) :
    PoolInv ({ s with queue := queue, added := s.added ++ [job] }.setCaller c .signal)
      (ns ++ [p]) (jobs ++ [job]) := by
  obtain ⟨hmem, hp, hnull, hjob⟩ := h.held c p job hpc
  obtain ⟨q', hq', hrep⟩ := enqueueJob_spec h.rep hp hnull hjob
  obtain rfl : q' = queue := Except.ok.inj (hq'.symm.trans hrun)
  have hheld := h.locked (.caller c) (by simp only [Pool.InSection, hpc])
  refine ⟨hlock, hrep, ?_, ?_, ?_, ?_, h.got⟩
  · show s.taken.map Prod.snd ++ (jobs ++ [job]) = s.added ++ [job]
    rw [← List.append_assoc, h.fifo]
  · intro x hx
    rcases List.mem_append.mp hx with hx | hx
    · exact h.known x hx
    · rw [List.mem_singleton.mp hx]
      exact hmem
  · intro d p' job' hd
    by_cases hdc : d = c
    · subst hdc
      simp only [Pool.setCaller, Function.update_self] at hd
      cases hd
    · simp only [Pool.setCaller, Function.update_of_ne hdc] at hd
      have h₂ := h.locked (.caller d) (by simp only [Pool.InSection, hd])
      exact absurd (Thread.caller.inj (Option.some.inj (h₂.symm.trans hheld))) hdc
  · intro i job' hi
    have h₂ := h.locked (.worker i) (by
      have hi' : s.worker i = .take job' := hi
      simp only [Pool.InSection, hi'])
    exact absurd (h₂.symm.trans hheld) (by simp)

/-- `dequeue_job` in `activate_workers`. -/
theorem PoolInv.take {i : Fin n} {job job' : Option Job} {queue : JobQueue Job}
    (h : PoolInv s ns jobs) (hpc : s.worker i = .take job) (hsize : s.queue.size ≠ 0)
    (hrun : dequeueJob s.queue = .ok (job', queue))
    (hlock : Locked ({ s with
        queue := queue
        taken := s.taken ++ (job'.map fun j => (i, j)).toList }.setWorker i (.unlock job'))) :
    ∃ ns' jobs', PoolInv ({ s with
        queue := queue
        taken := s.taken ++ (job'.map fun j => (i, j)).toList }.setWorker i (.unlock job'))
      ns' jobs' := by
  obtain ⟨x, xs, j, rest, q', rfl, rfl, hq', hrep, hnext, hjob⟩ := dequeueJob_spec h.rep hsize
  obtain ⟨rfl, rfl⟩ : some j = job' ∧ q' = queue := by
    simpa using hq'.symm.trans hrun
  have hheld := h.locked (.worker i) (by simp only [Pool.InSection, hpc])
  refine ⟨xs, rest, hlock, hrep, ?_, fun y hy => h.known y (List.mem_cons_of_mem x hy), ?_, ?_, ?_⟩
  · show (s.taken ++ [(i, j)]).map Prod.snd ++ rest = s.added
    rw [← h.fifo]
    simp
  · intro c p job₂ hc
    have h₂ := h.locked (.caller c) (by
      have hc' : s.caller c = .enqueue p job₂ := hc
      simp only [Pool.InSection, hc'])
    exact absurd (h₂.symm.trans hheld) (by simp)
  · intro k job₂ hk
    by_cases hki : k = i
    · subst hki
      simp only [Pool.setWorker, Function.update_self] at hk
      cases hk
    · simp only [Pool.setWorker, Function.update_of_ne hki] at hk
      have h₂ := h.locked (.worker k) (by simp only [Pool.InSection, hk])
      exact absurd (Thread.worker.inj (Option.some.inj (h₂.symm.trans hheld))) hki
  · intro k j₂ hk
    show (k, j₂) ∈ s.taken ++ [(i, j)]
    by_cases hki : k = i
    · subst hki
      simp only [Pool.setWorker, Function.update_self] at hk
      rcases hk with hk | hk | hk
      · cases hk
        exact List.mem_append_right _ List.mem_cons_self
      · cases hk
      · cases hk
    · simp only [Pool.setWorker, Function.update_of_ne hki] at hk
      exact List.mem_append_left _ (h.got k j₂ hk)

/-- Every step in which no allocation fails keeps the invariant. -/
theorem PoolInv.step (h : PoolInv s ns jobs) (hall : Allocates s e) (hstep : Step s e s') :
    ∃ ns' jobs', PoolInv s' ns' jobs' := by
  have hm := hstep.move
  have hlock := hm.locked h.locked
  cases hm with
  | add pc => exact ⟨ns, jobs, h.caller hlock (by simp)⟩
  | lock pc free => exact ⟨ns, jobs, h.caller hlock (by simp)⟩
  | fail pc => exact absurd rfl (hall _ pc)
  | alloc pc fresh => exact ⟨ns, jobs, h.alloc pc fresh hlock⟩
  | enqueue pc run => exact ⟨_, _, h.enqueue pc run hlock⟩
  | signal pc wakes => exact ⟨ns, jobs, h.wake.caller hlock (by simp)⟩
  | unlock pc => exact ⟨ns, jobs, h.caller hlock (by simp)⟩
  | enter pc free => exact ⟨ns, jobs, h.worker hlock (by simp) (by simp)⟩
  | sleep pc empty => exact ⟨ns, jobs, h.worker hlock (by simp) (by simp)⟩
  | leave pc size => exact ⟨ns, jobs, h.worker hlock (fun _ _ => size) (by simp)⟩
  | take pc size run => exact h.take pc size run hlock
  | skip pc empty => exact absurd empty (h.left _ _ pc)
  | @release i job pc =>
    refine ⟨ns, jobs, h.worker hlock (by simp) fun j hj => ?_⟩
    simp only [reduceCtorEq, WorkerPc.check.injEq, false_or, or_false] at hj
    exact h.got i j (.inl (hj ▸ pc))
  | nothing pc => exact ⟨ns, jobs, h.worker hlock (by simp) (by simp)⟩
  | @exec i j pc =>
    refine ⟨ns, jobs, h.worker hlock (by simp) fun k hk => ?_⟩
    simp only [reduceCtorEq, WorkerPc.exec.injEq, false_or] at hk
    exact h.got i k (.inr (.inl (hk ▸ pc)))
  | done pc => exact ⟨ns, jobs, h.worker hlock (by simp) (by simp)⟩
  | spurious => exact ⟨ns, jobs, h.wake⟩

theorem reachable_poolInv (hr : Reachable s) : ∃ ns jobs, PoolInv s ns jobs := by
  refine hr.invariant (I := fun s => ∃ ns jobs, PoolInv s ns jobs) ⟨[], [], initial_inv⟩ ?_
  rintro s e s' ⟨ns, jobs, h⟩ hall hstep
  exact h.step hall hstep

/-- Every job is delivered once, and in order. -/
structure Delivered (s : Pool n Job) : Prop where
  /-- the jobs dequeued, followed by the jobs on the list, are the jobs enqueued -/
  queue : ∃ ns jobs, QueueRep s.queue ns jobs ∧ s.taken.map Prod.snd ++ jobs = s.added
  /-- the counter is exact up to the range of `int` -/
  size : ∀ ns, Path s.queue.next s.queue.head ns → ns.length < 2 ^ 31 → s.queue.size = ns.length
  /-- a worker behind its wait loop obtains the next job of all -/
  obtains : ∀ i job, s.worker i = .take job → ∃ s' j, next s (.work i) = .ok s' ∧
    s'.worker i = .unlock (some j) ∧ s'.taken = s.taken ++ [(i, j)] ∧
    s.added[s.taken.length]? = some j
  /-- a job in the hands of a worker is one it dequeued -/
  owned : ∀ i j, s.worker i = .unlock (some j) ∨ s.worker i = .check (some j) ∨
    s.worker i = .exec j → (i, j) ∈ s.taken

theorem PoolInv.obtains (h : PoolInv s ns jobs) {i : Fin n} {job : Option Job}
    (hpc : s.worker i = .take job) :
    ∃ s' j, next s (.work i) = .ok s' ∧ s'.worker i = .unlock (some j) ∧
      s'.taken = s.taken ++ [(i, j)] ∧ s.added[s.taken.length]? = some j := by
  have hsize := h.left i job hpc
  obtain ⟨x, xs, j, rest, q', rfl, rfl, hq', -⟩ := dequeueJob_spec h.rep hsize
  refine ⟨{ s with queue := q', taken := s.taken ++ [(i, j)] }.setWorker i (.unlock (some j)), j,
    ?_, Function.update_self .., rfl, ?_⟩
  · simp only [next, hpc, work, if_pos hsize, hq', ok_bind]
    rfl
  · rw [← h.fifo, ← List.length_map (f := Prod.snd), List.getElem?_append_right (Nat.le_refl _),
      Nat.sub_self]
    rfl

/-- No thread runs into a null pointer. -/
theorem PoolInv.next_ok (h : PoolInv s ns jobs) (hen : Enabled s e) :
    ∃ s', next s e = .ok s' := by
  cases e with
  | add c job => exact ⟨_, rfl⟩
  | call c node woken =>
    simp only [Enabled] at hen
    simp only [ThreadPool.next]
    cases hpc : s.caller c with
    | alloc job => cases node <;> exact ⟨_, rfl⟩
    | enqueue p job =>
      obtain ⟨-, hp, hnull, hjob⟩ := h.held c p job hpc
      obtain ⟨q', hq', -⟩ := enqueueJob_spec h.rep hp hnull hjob
      exact ⟨_, by rw [call, hq', ok_bind]⟩
    | _ => exact ⟨_, rfl⟩
  | work i =>
    simp only [ThreadPool.next]
    cases hpc : s.worker i with
    | test job =>
      by_cases hsize : s.queue.size = 0
      · exact ⟨_, by rw [work, if_pos hsize]⟩
      · exact ⟨_, by rw [work, if_neg hsize]⟩
    | take job =>
      obtain ⟨s', j, hrun, -⟩ := h.obtains hpc
      simp only [ThreadPool.next, hpc] at hrun
      exact ⟨s', hrun⟩
    | check job => cases job <;> exact ⟨_, rfl⟩
    | _ => exact ⟨_, rfl⟩
  | spurious i => exact ⟨_, rfl⟩

theorem next_ok (hr : Reachable s) (hen : Enabled s e) : ∃ s', next s e = .ok s' := by
  obtain ⟨ns, jobs, h⟩ := reachable_poolInv hr
  exact h.next_ok hen

theorem jobs_delivered (hr : Reachable s) : Delivered s := by
  obtain ⟨ns, jobs, h⟩ := reachable_poolInv hr
  refine ⟨⟨ns, jobs, h.rep, h.fifo⟩, fun ms hms hlt => ?_, fun _ _ hpc => h.obtains hpc, h.got⟩
  obtain rfl := h.rep.path.unique hms
  rw [h.rep.size, CInt.int_of_lt (by omega) (by omega)]

theorem Pool.wake_nil : s.wake [] = s := by
  have hw : (s.wake []).worker = s.worker := by
    funext i
    simp only [wake]
    cases s.worker i <;> simp
  calc s.wake [] = { s with worker := (s.wake []).worker } := rfl
    _ = s := by rw [hw]

/-- Caller 0 has come to `pc` since `s`, has added `jobs`, and nothing else has run. -/
structure Since (s s' : Pool n Job) (pc : CallerPc Job) (jobs : List Job) : Prop where
  reach : Reachable s'
  pc : s'.caller 0 = pc
  worker : s'.worker = s.worker
  added : s'.added = s.added ++ jobs
  taken : s'.taken = s.taken

/-- The call takes the mutex. -/
theorem add_locks (hr : Reachable s) (hm : s.mutex = none) (hc : s.caller 0 = .idle) (job : Job) :
    ∃ s', Since s s' (.alloc job) [] ∧ s'.nodes = s.nodes := by
  obtain ⟨s₁, hs₁⟩ : ∃ s₁, s₁ = s.setCaller 0 (.lock job) := ⟨_, rfl⟩
  have pc₁ : s₁.caller 0 = .lock job := by rw [hs₁]; exact Pool.setCaller_self
  have r₁ : Reachable s₁ := hr.tail (e := .add 0 job) trivial ⟨hc, by rw [hs₁]; rfl⟩
  refine ⟨{ s₁ with mutex := some (.caller 0) }.setCaller 0 (.alloc job),
    ⟨?_, Pool.setCaller_self, by rw [hs₁]; rfl, ?_, by rw [hs₁]; rfl⟩, by rw [hs₁]; rfl⟩
  · refine r₁.tail (e := .call 0 none []) (fun job' h => ?_) ⟨?_, ?_⟩
    · rw [pc₁] at h; cases h
    · simp only [Enabled, pc₁]; rw [hs₁]; exact hm
    · simp only [next, pc₁, call]
  · rw [List.append_nil, hs₁]
    rfl

/-- `tc_calloc` returns a node, and `enqueue_job` appends it. -/
theorem Since.enqueues {s₁ : Pool n Job} {job : Job} (h : Since s s₁ (.alloc job) [])
    {p : NodePtr} (hfresh : p ∉ s₁.nodes) : ∃ s', Since s s' .signal [job] := by
  obtain ⟨s₂, hs₂⟩ : ∃ s₂, s₂ = { s₁ with
      queue := setJob p job (zeroNode p s₁.queue)
      nodes := p :: s₁.nodes }.setCaller 0 (.enqueue p job) := ⟨_, rfl⟩
  have pc₂ : s₂.caller 0 = .enqueue p job := by rw [hs₂]; exact Pool.setCaller_self
  have r₂ : Reachable s₂ := by
    refine h.reach.tail (e := .call 0 (some p) []) (fun _ _ => by simp) ⟨?_, ?_⟩
    · simp only [Enabled, h.pc, Option.some.injEq]
      rintro _ rfl
      exact hfresh
    · simp only [next, h.pc, call, hs₂]
  have hen : Enabled s₂ (.call 0 none []) := by simp only [Enabled, pc₂]
  obtain ⟨s₃, hrun⟩ := next_ok r₂ hen
  have hall : Allocates s₂ (.call 0 none []) := fun job' h => by rw [pc₂] at h; cases h
  have hcall : call s₂ 0 none [] (.enqueue p job) = .ok s₃ := by simpa only [next, pc₂] using hrun
  obtain ⟨q, hq, hret⟩ := bind_eq_ok hcall
  have hs₃ := (Except.ok.inj hret).symm
  refine ⟨s₃, r₂.tail hall ⟨hen, hrun⟩, ?_, ?_, ?_, ?_⟩
  · rw [hs₃]; exact Pool.setCaller_self
  · rw [hs₃, hs₂]; exact h.worker
  · rw [hs₃, hs₂, ← h.added.trans (List.append_nil _)]
    rfl
  · rw [hs₃, hs₂]; exact h.taken

/-- The signal reaches no worker, and the mutex is released. -/
theorem Since.returns {s₁ : Pool n Job} {job : Job} (h : Since s s₁ .signal [job])
    (hw : ∀ i, ¬ s.Asleep i) : ∃ s', Since s s' .idle [job] ∧ s'.mutex = none := by
  obtain ⟨s₂, hs₂⟩ : ∃ s₂, s₂ = s₁.setCaller 0 .unlock := ⟨_, rfl⟩
  have pc₂ : s₂.caller 0 = .unlock := by rw [hs₂]; exact Pool.setCaller_self
  have r₂ : Reachable s₂ := by
    refine h.reach.tail (e := .call 0 none []) (fun job' hpc => ?_) ⟨?_, ?_⟩
    · rw [h.pc] at hpc; cases hpc
    · simp only [Enabled, h.pc]
      refine ⟨by simp, fun ⟨i, hi⟩ => absurd ?_ (hw i)⟩
      simpa only [Pool.Asleep, h.worker] using hi
    · simp only [next, h.pc, call, hs₂, Pool.wake_nil]
  refine ⟨{ s₂ with mutex := none }.setCaller 0 .idle,
    ⟨?_, Pool.setCaller_self, ?_, ?_, ?_⟩, rfl⟩
  · refine r₂.tail (e := .call 0 none []) (fun job' hpc => ?_) ⟨?_, ?_⟩
    · rw [pc₂] at hpc; cases hpc
    · simp only [Enabled, pc₂]
    · simp only [next, pc₂, call]
  · rw [hs₂]; exact h.worker
  · rw [hs₂]; exact h.added
  · rw [hs₂]; exact h.taken

/-- A call of `add_job_to_pool` that nothing interrupts, while no worker sleeps. -/
theorem add_alone (hr : Reachable s) (hm : s.mutex = none) (hc : s.caller 0 = .idle)
    (hw : ∀ i, ¬ s.Asleep i) (job : Job) :
    ∃ s', Reachable s' ∧ s'.mutex = none ∧ s'.caller 0 = .idle ∧ s'.worker = s.worker ∧
      s'.added = s.added ++ [job] ∧ s'.taken = s.taken := by
  obtain ⟨p, hp⟩ : ∃ p, p ∉ s.nodes.toFinset := Infinite.exists_notMem_finset _
  obtain ⟨s₁, h₁, hnodes⟩ := add_locks hr hm hc job
  have hfresh : p ∉ s₁.nodes := by
    rw [hnodes]
    exact fun h => hp (List.mem_toFinset.mpr h)
  obtain ⟨s₂, h₂⟩ := h₁.enqueues hfresh
  obtain ⟨s₃, h₃, hm₃⟩ := h₂.returns hw
  exact ⟨s₃, h₃.reach, hm₃, h₃.pc, h₃.worker, h₃.added, h₃.taken⟩

/-- Any number of jobs can be waiting before the workers first run. -/
theorem add_many (job : Job) (k : Nat) :
    ∃ s : Pool n Job, Reachable s ∧ s.mutex = none ∧ s.caller 0 = .idle ∧
      s.worker = (Pool.initial : Pool n Job).worker ∧ s.added.length = k ∧ s.taken = [] := by
  induction k with
  | zero => exact ⟨.initial, .refl, rfl, rfl, rfl, rfl, rfl⟩
  | succ k ih =>
    obtain ⟨s, hr, hm, hc, hw, hadd, htake⟩ := ih
    have hawake : ∀ i, ¬ s.Asleep i :=
      fun i => by simp [Pool.Asleep, hw, Pool.initial, WorkerPc.isAsleep]
    obtain ⟨s', hr', hm', hc', hw', hadd', htake'⟩ := add_alone hr hm hc hawake job
    refine ⟨s', hr', hm', hc', hw'.trans hw, ?_, htake'.trans htake⟩
    rw [hadd', List.length_append, hadd]
    rfl

/-- In such a state the list has as many nodes as jobs were added. -/
theorem add_many_rep (job : Job) (k : Nat) :
    ∃ s : Pool n Job, Reachable s ∧ s.mutex = none ∧
      s.worker = (Pool.initial : Pool n Job).worker ∧
      ∃ ns jobs, QueueRep s.queue ns jobs ∧ ns.length = k := by
  obtain ⟨s, hr, hm, -, hw, hadd, htake⟩ := add_many (n := n) job k
  obtain ⟨ns, jobs, h⟩ := reachable_poolInv hr
  refine ⟨s, hr, hm, hw, ns, jobs, h.rep, ?_⟩
  have hlen := congrArg List.length h.rep.job
  rw [List.length_map, List.length_map] at hlen
  rw [hlen, ← hadd, ← h.fifo, htake]
  rfl

theorem jobs_delivered_waiting :
    ∃ s : Pool 1 Unit, Reachable s ∧ s.added.length = 3 ∧ Delivered s := by
  obtain ⟨s, hr, -, -, -, hadd, -⟩ := add_many (n := 1) () 3
  exact ⟨s, hr, hadd, jobs_delivered hr⟩

/-- With `2 ^ 31` jobs on the list the counter is negative. -/
theorem size_overflows : ∃ s : Pool 1 Unit, Reachable s ∧
    ∃ ns jobs, QueueRep s.queue ns jobs ∧ s.queue.size ≠ ns.length := by
  obtain ⟨s, hr, -, -, ns, jobs, hrep, hlen⟩ := add_many_rep (n := 1) () (2 ^ 31)
  refine ⟨s, hr, ns, jobs, hrep, ?_⟩
  rw [hrep.size, hlen]
  decide

end Runs

end SearchEngine.ThreadPool
