import SearchEngine.ThreadPool.Verify.Fifo

/-!
# Whose hands a job is in

With one caller of `add_job_to_pool` the jobs it brought are those enqueued and the one it
has yet to enqueue, in order. No other step of the threads changes them (`Move.brought`), and
a job comes to a worker only from the queue (`Move.hand`).
-/

namespace SearchEngine.ThreadPool

section Hands

variable {n : Nat} {Job : Type} {s s' : Pool n Job} {e : Event n Job} {i k : Fin n} {j : Job}
  {ns : List NodePtr} {jobs : List Job}

/-- The job that a call of `add_job_to_pool` has yet to enqueue. -/
def CallerPc.pending : CallerPc Job → List Job
  | .lock job | .alloc job | .enqueue _ job => [job]
  | .idle | .signal | .unlock => []

/-- The jobs that the caller `0` has called `add_job_to_pool` with. -/
def Pool.brought (s : Pool n Job) : List Job := s.added ++ (s.caller 0).pending

/-- The events other than a new call, where `0` is the only caller. -/
def Event.Goes : Event n Job → Prop
  | .add .. => False
  | .call c .. => c = 0
  | .work _ | .spurious _ => True

theorem Pool.brought_add (h : s.caller 0 = .idle) :
    (s.setCaller 0 (.lock j)).brought = s.brought ++ [j] := by
  simp only [brought, h, setCaller_self, CallerPc.pending, List.append_nil]
  rfl

/-- A call that goes on brings what it was called with. -/
theorem Move.brought (hm : Move s e s') (hall : Allocates s e) (he : e.Goes) :
    s'.brought = s.brought := by
  cases hm with
  | add pc => exact he.elim
  | lock pc free =>
    obtain rfl := he
    simp only [Pool.brought, pc, Pool.setCaller_self, CallerPc.pending]
    rfl
  | fail pc => exact absurd rfl (hall _ pc)
  | alloc pc fresh =>
    obtain rfl := he
    simp only [Pool.brought, pc, Pool.setCaller_self, CallerPc.pending]
    rfl
  | enqueue pc run =>
    obtain rfl := he
    simp only [Pool.brought, pc, Pool.setCaller_self, CallerPc.pending, List.append_nil]
    rfl
  | signal pc wakes =>
    obtain rfl := he
    simp only [Pool.brought, pc, Pool.setCaller_self, CallerPc.pending]
    rfl
  | unlock pc =>
    obtain rfl := he
    simp only [Pool.brought, pc, Pool.setCaller_self, CallerPc.pending]
    rfl
  | _ => rfl

/-- No call begins by itself. -/
theorem Move.idle (hm : Move s e s') (he : e.Goes) (h : s.caller 0 = .idle) :
    s'.caller 0 = .idle := by
  cases hm with
  | add pc => exact he.elim
  | lock pc | alloc pc | enqueue pc | signal pc | unlock pc | fail pc =>
    obtain rfl := he
    rw [h] at pc
    cases pc
  | _ => exact h

theorem Move.taken (hm : Move s e s') : ∃ xs, s'.taken = s.taken ++ xs := by
  cases hm with
  | take pc size run => exact ⟨_, rfl⟩
  | _ => exact ⟨[], (List.append_nil _).symm⟩

/-- A worker that does not move stays where it is, or is woken. -/
theorem Move.worker_of_ne (hm : Move s e s') (he : e ≠ .work k) :
    s'.worker k = s.worker k ∨ ∃ job, s'.worker k = .relock job := by
  have hwake (woken : List (Fin n)) : (s.wake woken).worker k = s.worker k ∨
      ∃ job, (s.wake woken).worker k = .relock job := by
    simp only [Pool.wake]
    cases s.worker k with
    | asleep job => by_cases hk : k ∈ woken <;> simp [hk]
    | _ => exact .inl rfl
  cases hm with
  | signal pc wakes => exact hwake _
  | spurious => exact hwake _
  | add | lock | fail | alloc | enqueue | unlock => exact .inl rfl
  | _ => exact .inl (Function.update_of_ne (fun hk => he (congrArg Event.work hk.symm)) ..)

/-- The job in the hands of a worker after its step was there before, or is the next one. -/
theorem Move.hand (hm : Move s (.work i) s') (hinv : PoolInv s ns jobs)
    (h : s'.worker i = .unlock (some j) ∨ s'.worker i = .check (some j) ∨ s'.worker i = .exec j) :
    s.worker i = .unlock (some j) ∨ s.worker i = .check (some j) ∨
      s'.taken = s.taken ++ [(i, j)] := by
  cases hm with
  | release pc =>
    simp only [Pool.setWorker_self, reduceCtorEq, WorkerPc.check.injEq, false_or, or_false] at h
    exact .inl (h ▸ pc)
  | exec pc =>
    simp only [Pool.setWorker_self, reduceCtorEq, WorkerPc.exec.injEq, false_or] at h
    exact .inr (.inl (h ▸ pc))
  | take pc size run =>
    simp only [Pool.setWorker_self, reduceCtorEq, WorkerPc.unlock.injEq, or_false] at h
    subst h
    exact .inr (.inr rfl)
  | skip pc empty => exact absurd empty (hinv.left _ _ pc)
  | _ => simp [Pool.setWorker_self] at h

end Hands

end SearchEngine.ThreadPool
