import SearchEngine.ThreadPool.Verify.Fifo
import Mathlib.Data.Fintype.Card

/-!
# No wake-up is lost

Between the critical sections as many workers are up as `size` counts jobs, or all of them. The
counter is taken without its sign: it counts the list modulo `2 ^ 32`. A caller that has enqueued
its job owes a signal until it sends it (`WakeInv.owed`).
-/

namespace SearchEngine.ThreadPool

open LinkedPath Reach Outcome

section Wake

variable {n : Nat} {Job : Type} {s s' : Pool n Job} {e : Event n Job} {ns : List NodePtr}
  {jobs : List Job}

/-- The number of workers that are not blocked in `pthread_cond_wait`. -/
def Pool.awake (s : Pool n Job) : Nat := (Finset.univ.filter fun i => ¬ s.Asleep i).card

theorem Pool.awake_le (h : ∀ i, s'.Asleep i → s.Asleep i) : s.awake ≤ s'.awake := by
  apply Finset.card_le_card
  intro i hi
  rw [Finset.mem_filter] at hi ⊢
  exact ⟨hi.1, fun ha => hi.2 (h i ha)⟩

theorem Pool.awake_lt {i : Fin n} (h : ∀ j, s'.Asleep j → s.Asleep j) (hi : s.Asleep i)
    (hi' : ¬ s'.Asleep i) : s.awake < s'.awake := by
  apply Finset.card_lt_card
  rw [Finset.ssubset_iff_of_subset]
  · exact ⟨i, by simp [hi'], by simp [hi]⟩
  · intro j hj
    rw [Finset.mem_filter] at hj ⊢
    exact ⟨hj.1, fun ha => hj.2 (h j ha)⟩

theorem Pool.awake_all (h : ∀ i, ¬ s.Asleep i) : s.awake = n := by
  rw [Pool.awake, Finset.filter_true_of_mem fun i _ => h i, Finset.card_univ, Fintype.card_fin]

theorem Pool.asleep_setWorker {i j : Fin n} {pc : WorkerPc Job} (hpc : pc.isAsleep = false)
    (h : (s.setWorker i pc).Asleep j) : s.Asleep j := by
  by_cases hj : j = i
  · subst hj
    rw [Asleep, Pool.setWorker_self, hpc] at h
    cases h
  · simpa only [Asleep, setWorker, Function.update_of_ne hj] using h

theorem Pool.asleep_wake {woken : List (Fin n)} {j : Fin n} :
    (s.wake woken).Asleep j ↔ s.Asleep j ∧ j ∉ woken := by
  simp only [Asleep, wake]
  cases s.worker j with
  | asleep job => by_cases h : j ∈ woken <;> simp [h, WorkerPc.isAsleep]
  | _ => simp [WorkerPc.isAsleep]

/-- The jobs that the counter shows. -/
def Pool.shown (s : Pool n Job) : Nat := CInt.uint32 s.queue.size

/-- Enough workers are up, once every caller has sent its signal. -/
structure WakeInv (s : Pool n Job) : Prop where
  enough : (∀ c, s.caller c ≠ .signal) → min n s.shown ≤ s.awake
  owed : ∀ c, s.caller c = .signal → ∃ k, s.shown = (k + 1) % 2 ^ 32 ∧ min n k ≤ s.awake

/-- Steps that put no worker to sleep, with the counter and the signals owed as they were. -/
theorem WakeInv.mono (h : WakeInv s) (hshown : s'.shown = s.shown)
    (hsleep : ∀ i, s'.Asleep i → s.Asleep i)
    (hsignal : ∀ c, s'.caller c = .signal ↔ s.caller c = .signal) : WakeInv s' where
  enough hnone := by
    rw [hshown]
    exact (h.enough fun c hc => hnone c ((hsignal c).mpr hc)).trans (Pool.awake_le hsleep)
  owed c hc := by
    obtain ⟨k, hk, hle⟩ := h.owed c ((hsignal c).mp hc)
    exact ⟨k, hshown.trans hk, hle.trans (Pool.awake_le hsleep)⟩

theorem Pool.signal_setCaller {c d : Nat} {pc : CallerPc Job} (hc : s.caller c ≠ .signal)
    (hpc : pc ≠ .signal) : (s.setCaller c pc).caller d = .signal ↔ s.caller d = .signal := by
  by_cases hd : d = c
  · subst hd
    rw [Pool.setCaller_self]
    exact ⟨fun h => absurd h hpc, fun h => absurd h hc⟩
  · simp only [setCaller, Function.update_of_ne hd]

/-- No caller owes a signal while another thread is in its critical section. -/
theorem Locked.no_signal (h : Locked s) {t : Thread n} (ht : s.InSection t)
    (hpc : ∀ c, t = .caller c → s.caller c ≠ .signal) (c : Nat) : s.caller c ≠ .signal := by
  intro hc
  have h₁ := h t ht
  have h₂ := h (.caller c) (by simp only [Pool.InSection, hc])
  exact hpc c (Option.some.inj (h₁.symm.trans h₂)) hc

/-- After `pthread_cond_signal` another worker is up, or all of them were. -/
theorem WakeInv.signal {c : Nat} {woken : List (Fin n)} (h : WakeInv s)
    (hlock : Locked s) (hpc : s.caller c = .signal)
    (hwakes : (∃ i, s.Asleep i) → ∃ i ∈ woken, s.Asleep i) :
    WakeInv ((s.wake woken).setCaller c .unlock) := by
  obtain ⟨k, hk, hle⟩ := h.owed c hpc
  have hmono : ∀ i, ((s.wake woken).setCaller c .unlock).Asleep i → s.Asleep i :=
    fun i hi => (Pool.asleep_wake.mp hi).1
  refine ⟨fun _ => ?_, fun d hd => ?_⟩
  · show min n s.shown ≤ _
    by_cases hex : ∃ i, s.Asleep i
    · obtain ⟨i, hi, hs⟩ := hwakes hex
      have hlt : s.awake < ((s.wake woken).setCaller c .unlock).awake :=
        Pool.awake_lt hmono hs fun ha => (Pool.asleep_wake.mp ha).2 hi
      omega
    · have hall : ((s.wake woken).setCaller c .unlock).awake = n :=
        Pool.awake_all fun i hi => hex ⟨i, hmono i hi⟩
      rw [hall]
      exact Nat.min_le_left _ _
  · by_cases hdc : d = c
    · subst hdc
      rw [Pool.setCaller_self] at hd
      cases hd
    · simp only [Pool.setCaller, Function.update_of_ne hdc] at hd
      have h₁ := hlock (.caller c) (by simp only [Pool.InSection, hpc])
      have h₂ := hlock (.caller d) (by
        have hd' : s.caller d = .signal := hd
        simp only [Pool.InSection, hd'])
      exact absurd (Thread.caller.inj (Option.some.inj (h₂.symm.trans h₁))) hdc

/-- The counter without its sign counts the list. -/
theorem QueueRep.shown (h : QueueRep s.queue ns jobs) : s.shown = ns.length % 2 ^ 32 := by
  rw [Pool.shown, h.size, CInt.uint32_int, CInt.uint32_natCast]

/-- Every step keeps enough workers up. -/
theorem WakeInv.step (h : WakeInv s) (hi : PoolInv s ns jobs) (hall : Allocates s e)
    (hstep : Step s e s') : WakeInv s' := by
  have hworker : ∀ {i : Fin n} {pc : WorkerPc Job} {m : Option (Thread n)},
      pc.isAsleep = false → WakeInv ({ s with mutex := m }.setWorker i pc) := fun hpc =>
    h.mono rfl (fun _ ha => Pool.asleep_setWorker (s := { s with mutex := _ }) hpc ha) fun _ => .rfl
  have hcaller : ∀ {c : Nat} {pc : CallerPc Job} {m : Option (Thread n)},
      s.caller c ≠ .signal → pc ≠ .signal → WakeInv ({ s with mutex := m }.setCaller c pc) :=
    fun hc hpc => h.mono rfl (fun _ ha => ha) fun _ =>
      Pool.signal_setCaller (s := { s with mutex := _ }) hc hpc
  have hin : ∀ {t : Thread n}, s.InSection t → (∀ c, t = .caller c → s.caller c ≠ .signal) →
      ∀ c, s.caller c ≠ .signal := fun ht hpc => hi.locked.no_signal ht hpc
  cases hstep.move with
  | add pc => exact hcaller (by simp [pc]) (by simp)
  | lock pc free => exact hcaller (by simp [pc]) (by simp)
  | fail pc => exact absurd rfl (hall _ pc)
  | alloc pc fresh =>
    exact h.mono rfl (fun _ ha => ha) fun _ =>
      Pool.signal_setCaller (s := { s with queue := _, nodes := _ }) (by simp [pc]) (by simp)
  | @enqueue c p node woken job queue pc run =>
    have hnone := hin (t := .caller c) (by simp only [Pool.InSection, pc])
      (fun d hd => by cases hd; simp [pc])
    have hrep := (hi.enqueue pc run (hstep.move.locked hi.locked)).rep
    refine ⟨fun hno => absurd Pool.setCaller_self (hno c), fun d _ => ⟨s.shown, ?_, h.enough hnone⟩⟩
    rw [hrep.shown, hi.rep.shown, List.length_append, Nat.mod_add_mod]
    rfl
  | signal pc wakes => exact h.signal hi.locked pc wakes
  | unlock pc => exact hcaller (by simp [pc]) (by simp)
  | enter pc free => exact hworker rfl
  | @sleep i job pc empty =>
    have hnone := hin (t := .worker i) (by simp only [Pool.InSection, pc]) (fun d hd => by cases hd)
    refine ⟨fun _ => ?_, fun c hc => absurd hc (hnone c)⟩
    have hz : ({ s with mutex := none }.setWorker i (.asleep job)).shown = 0 := by
      show CInt.uint32 s.queue.size = 0
      rw [empty]
      rfl
    rw [hz]
    omega
  | leave pc size => exact hworker rfl
  | @take i job job' queue pc size run =>
    have hnone := hin (t := .worker i) (by simp only [Pool.InSection, pc]) (fun d hd => by cases hd)
    obtain ⟨x, xs, j, rest, q', hns, -, hq', hrep, -⟩ := dequeueJob_spec hi.rep size
    obtain ⟨rfl, rfl⟩ : some j = job' ∧ q' = queue := by simpa using hq'.symm.trans run
    refine ⟨fun _ => ?_, fun c hc => absurd hc (hnone c)⟩
    have hle : s.awake ≤ ({ s with
        queue := q'
        taken := s.taken ++ [(i, j)] }.setWorker i (.unlock (some j))).awake :=
      Pool.awake_le fun _ ha => Pool.asleep_setWorker
      (s := { s with queue := _, taken := _ }) rfl ha
    have hshown : CInt.uint32 q'.size ≤ s.shown := by
      rw [hi.rep.size, Ne, CInt.int_natCast_eq_zero, hns, List.length_cons] at size
      rw [hi.rep.shown, hrep.size, CInt.uint32_int, CInt.uint32_natCast, hns, List.length_cons]
      omega
    have henough := h.enough hnone
    exact le_trans (min_le_min_left n hshown) (henough.trans hle)
  | skip pc empty => exact hworker rfl
  | release pc => exact hworker rfl
  | nothing pc => exact hworker rfl
  | exec pc => exact hworker rfl
  | done pc => exact hworker rfl
  | spurious =>
    exact h.mono rfl (fun _ ha => (Pool.asleep_wake.mp ha).1) fun _ => .rfl

theorem initial_wakeInv : WakeInv (Pool.initial : Pool n Job) where
  enough _ := Nat.min_le_right .. |>.trans (Nat.zero_le _)
  owed _ h := by cases h

theorem reachable_wakeInv (hr : Reachable s) :
    (∃ ns jobs, PoolInv s ns jobs) ∧ WakeInv s := by
  refine hr.invariant (I := fun s => (∃ ns jobs, PoolInv s ns jobs) ∧ WakeInv s)
    ⟨⟨[], [], initial_inv⟩, initial_wakeInv⟩ ?_
  rintro s e s' ⟨⟨ns, jobs, hi⟩, h⟩ hall hstep
  exact ⟨hi.step hall hstep, h.step hi hall hstep⟩

/-- Between the critical sections at least as many workers are up as the counter shows jobs,
or all of them; and if all of them sleep, the list is empty or `2 ^ 32` jobs long, or
longer by a multiple of that. -/
theorem enough_awake (hr : Reachable s) (hfree : s.mutex = none) :
    min (n : Int) s.queue.size ≤ s.awake ∧
      (0 < n → (∀ i, s.Asleep i) →
        ∀ ns, Path s.queue.next s.queue.head ns → ns.length % 2 ^ 32 = 0) := by
  obtain ⟨⟨ns, jobs, hi⟩, h⟩ := reachable_wakeInv hr
  have hnone : ∀ c, s.caller c ≠ .signal := by
    intro c hc
    have hheld := hi.locked (.caller c) (by simp only [Pool.InSection, hc])
    rw [hfree] at hheld
    cases hheld
  have hle := h.enough hnone
  refine ⟨?_, fun hn hall ms hms => ?_⟩
  · have hsize : s.queue.size ≤ s.shown := by
      rw [Pool.shown, hi.rep.size]
      exact CInt.int_le_uint32 _
    omega
  · obtain rfl := hi.rep.path.unique hms
    have hzero : s.awake = 0 := by
      rw [Pool.awake, Finset.card_eq_zero, Finset.filter_eq_empty_iff]
      exact fun i _ ha => ha (hall i)
    rw [← hi.rep.shown]
    omega

theorem enough_awake_waiting :
    ∃ s : Pool 3 Unit, Reachable s ∧ s.queue.size = 5 ∧ min 3 s.queue.size ≤ s.awake := by
  obtain ⟨s, hr, hm, -, ns, jobs, hrep, hlen⟩ := add_many_rep (n := 3) () 5
  refine ⟨s, hr, ?_, (enough_awake hr hm).1⟩
  rw [hrep.size, hlen]
  rfl

/-- With `2 ^ 32` jobs on the list the counter is zero, and the workers go to sleep. -/
theorem all_asleep : ∃ s : Pool 1 Unit, Reachable s ∧ s.mutex = none ∧ s.queue.head ≠ none ∧
    ∀ i, s.Asleep i := by
  obtain ⟨s, hr, hm, hw, ns, jobs, hrep, hlen⟩ := add_many_rep (n := 1) () (2 ^ 32)
  have hsize : s.queue.size = 0 := by
    rw [hrep.size, hlen]
    rfl
  have hhead : s.queue.head ≠ none := by
    intro hnull
    cases ns with
    | nil => cases hlen
    | cons x xs => exact absurd (hnull.symm.trans hrep.path.1) (by simp)
  obtain ⟨s₁, hs₁⟩ : ∃ s₁, s₁ = { s with mutex := some (.worker 0) }.setWorker 0 (.test none) :=
    ⟨_, rfl⟩
  have pc₁ : s₁.worker 0 = .test none := by rw [hs₁]; exact Pool.setWorker_self
  have pc₀ : s.worker 0 = .lock none := by rw [hw]; rfl
  have r₁ : Reachable s₁ :=
    hr.tail (e := .work 0) trivial
      ⟨by simp only [Enabled, pc₀]; exact hm, by simp only [next, pc₀, work, hs₁]⟩
  have hsize₁ : s₁.queue.size = 0 := by rw [hs₁]; exact hsize
  refine ⟨{ s₁ with mutex := none }.setWorker 0 (.asleep none), ?_, rfl, ?_, fun i => ?_⟩
  · exact r₁.tail (e := .work 0) trivial
      ⟨by simp only [Enabled, pc₁], by simp only [next, pc₁, work, if_pos hsize₁]⟩
  · show s₁.queue.head ≠ none
    rw [hs₁]
    exact hhead
  · rw [Subsingleton.elim i 0, Pool.Asleep, Pool.setWorker_self]
    rfl

end Wake

end SearchEngine.ThreadPool
