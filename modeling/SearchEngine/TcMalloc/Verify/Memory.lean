import SearchEngine.TcMalloc.Verify.Runs
import Mathlib.Algebra.Order.BigOperators.Group.List
import Mathlib.Algebra.Order.Ring.Nat

/-!
# Memory is handed out once

The page map, the addresses of the spans and the live blocks, in the terms of the state
alone: a span is on a list of the page heap (`InPageHeap`), carved (`InCentral`), or
with the user (`Held`). In a run that never cuts a span for a request of a multiple of
`2 ^ 32` pages, and obtains less than 4 GiB, the spans partition their pages
(`pageMap_partition`) and no live block overlaps anything else (`live_nonOverlap`).
-/

namespace SearchEngine.TcMalloc

open LinkedRing Placement Outcome Reach

/-! ## Where a span is -/

/-- The span is on a list of the page heap. -/
def InPageHeap (h : Heap) (S : SpanPtr) : Prop := ∃ i, OnRing h.next (h.pgList i) S

/-- The span is in the central cache: `objs_size` is set while it is carved. -/
def InCentral (h : Heap) (S : SpanPtr) : Prop := h.objsSize S ≠ 0

/-- The span is with the user, as a large block. -/
def Held (s : Sys) (S : SpanPtr) : Prop := ∃ b ∈ s.live, ¬ b.Small ∧ b.span = S

/-- The span is in use as memory. -/
def InUse (s : Sys) (S : SpanPtr) : Prop := InPageHeap s.heap S ∨ InCentral s.heap S ∨ Held s S

section Views

variable {d : Discipline} {env : Env} {s : Sys} {h : Heap} {f : SpanPlace → List SpanPtr}
  {S S' : SpanPtr}

theorem HeapInv.inPageHeap (hi : HeapInv d env h f) : InPageHeap h S ↔ ∃ i, S ∈ f (.pg i) :=
  exists_congr fun i => hi.links.onRing_iff (r := .pg i)

theorem HeapInv.inClass_of_size (hi : HeapInv d env h f) {i : Nat} (hS : InClass f i S) :
    i < CLASSES ∧ h.objsSize S = indexToSize i ∧ h.pageSize S = BATCH := by
  obtain ⟨p, hp, hSp⟩ := hS
  have hc := hi.kinds.carved hp hSp
  exact ⟨hc.cls, hc.objsSize, hc.pageSize⟩

theorem HeapInv.inCentral (hi : HeapInv d env h f) : InCentral h S ↔ ∃ i, InClass f i S := by
  constructor
  · intro hS
    by_contra hno
    refine hS (hi.kinds.clean (s := S) fun p hp => ?_).objsSize
    cases hc : p.cls? with
    | none => rfl
    | some i => exact absurd ⟨i, p, hc, hp⟩ hno
  · rintro ⟨i, hS⟩
    have := indexToSize_pos i
    rw [InCentral, (hi.inClass_of_size hS).2.1]
    omega

/-- The size of its objects tells the class of a span. -/
theorem HeapInv.inClass_iff (hi : HeapInv d env h f) {i : Nat} (hcls : i < CLASSES) :
    InClass f i S ↔ h.objsSize S = indexToSize i := by
  refine ⟨fun hS => (hi.inClass_of_size hS).2.1, fun hS => ?_⟩
  have hpos := indexToSize_pos i
  obtain ⟨j, hj⟩ := hi.inCentral.mp (by rw [InCentral, hS]; omega)
  obtain ⟨hjc, hjs, -⟩ := hi.inClass_of_size hj
  have h1 := sizeClass_indexToSize hcls
  rw [← hS, hjs, sizeClass_indexToSize hjc] at h1
  obtain rfl := Except.ok.inj h1
  exact hj

theorem SysInv.held (hi : SysInv d env s f) : Held s S ↔ S ∈ f .user := by
  constructor
  · rintro ⟨b, hb, hbs, rfl⟩
    exact mem_user hi.hands hb hbs
  · intro hS
    obtain ⟨b, hb, hbS⟩ := List.mem_map.mp (hi.hands.user.mem_iff.mp hS)
    obtain ⟨hb, hbs⟩ := List.mem_filter.mp hb
    exact ⟨b, hb, by simpa using hbs, hbS⟩

/-- A span in use has a place. -/
theorem SysInv.inUse (hi : SysInv d env s f) (hS : InUse s S) : ∃ p, S ∈ f p := by
  rcases hS with hS | hS | hS
  · obtain ⟨i, hS⟩ := hi.heap.inPageHeap.mp hS
    exact ⟨_, hS⟩
  · obtain ⟨i, p, -, hS⟩ := hi.heap.inCentral.mp hS
    exact ⟨p, hS⟩
  · exact ⟨_, hi.held.mp hS⟩

end Views

/-! ## Conditions on runs -/

/-- A request of a multiple of `2 ^ 32` pages is not served by cutting a span. -/
def WrapFree (s : Sys) : Event → Prop
  | (_, .malloc size) => THRESHALLOC < size → s.heap.pgList (bucket (bytesToPages size)) = none →
      (firstFit s.heap.pgList (toInt (bytesToPages size)).toNat).isSome →
      bytesToPages size % 2 ^ 32 ≠ 0
  | _ => True

/-- Requests are below 4 GiB. -/
def RequestFits (_ : Sys) : Event → Prop
  | (_, .malloc size) => size < 2 ^ 32
  | _ => True

/-- The bytes obtained from `sbrk`. -/
def Heap.obtained (h : Heap) : Nat := h.regions.sum

section Bounds

variable {d : Discipline} {env : Env} {s s' : Sys} {f : SpanPlace → List SpanPtr}

theorem Step.grown {e : Event} (hstep : Step env s e s') :
    Grown (fun x => ∃ n, Requests e n ∧ RegionOf n x) s.heap s'.heap :=
  (next_regions env s e).of_ok hstep.2

theorem fetchMet_of_small (hi : SysInv d env s f) {e : Event}
    (hr : ∀ r ∈ s.heap.regions, r < 2 ^ 32) (hfit : RequestFits s e) : FetchMet s e := by
  obtain ⟨t, a⟩ := e
  cases a with
  | init => trivial
  | free ptr => trivial
  | malloc size =>
    intro hsz
    have hsize : size < 2 ^ 32 := hfit
    have hlt : bytesToPages size < 2 ^ 20 := by simp only [bytesToPages]; omega
    have hpos : 8 ≤ bytesToPages size := by
      simp only [bytesToPages]
      simp only [THRESHALLOC] at hsz
      omega
    exact hi.heap.fetchOk hr (fun _ => by omega) fun _ => by omega
  | run =>
    simp only [FetchMet]
    cases s.pc t with
    | refill k i num => exact hi.heap.fetchOk hr (fun _ => by decide) fun _ => by decide
    | _ => trivial

/-- What the 4 GiB bound gives of a step. -/
theorem fetchMet_of_obtained (hs : env.Succeeds) (hi : SysInv d env s f) {e : Event}
    (hw : WrapFree s e) (hstep : Step env s e s') (hlt : s'.heap.obtained < 2 ^ 32) :
    FetchMet s e := by
  have hgrown := hstep.grown
  have hr' : ∀ r ∈ s'.heap.regions, r < 2 ^ 32 := fun r hr =>
    (List.le_sum_of_mem hr).trans_lt hlt
  have hr : ∀ r ∈ s.heap.regions, r < 2 ^ 32 := fun r hr => hr' r (hgrown.subset hr)
  obtain ⟨t, a⟩ := e
  cases a with
  | malloc size =>
    intro hsz
    cases hh : s.heap.pgList (bucket (bytesToPages size)) with
    | some tmp => simp only [FetchOk, hh]
    | none =>
      refine hi.heap.fetchOk hr (hw hsz hh) fun hff => ?_
      -- otherwise the request went to the system
      by_contra hbig
      have hen : size < 2 ^ 64 := by
        have := hstep.1
        simp only [Enabled] at this
        cases hpc : s.pc t with
        | ready => rwa [hpc] at this
        | _ => rw [hpc] at this; exact this.elim
      have hnext : tcMalloc env s t size = .ok s' := hstep.2
      rw [tcMalloc, if_neg (by omega)] at hnext
      obtain ⟨⟨S, h'⟩, hrun, hret⟩ := bind_eq_ok hnext
      obtain rfl := Except.ok.inj hret
      have hmem := (hi.heap.direct_region hs hh hff (by omega)).of_ok hrun
      have hlt' := hr' _ hmem
      have hpages : bytesToPages size < 2 ^ 52 := by simp only [bytesToPages]; omega
      have hbytes : pagesToBytes (bytesToPages size) = bytesToPages size * 4096 := by
        simp only [pagesToBytes]; omega
      rw [hbytes] at hlt'
      omega
  | _ => exact fetchMet_of_small hi hr trivial

/-- Runs with requests below 4 GiB. -/
theorem reachable_small {ok : Sys → Event → Prop} (hs : env.Succeeds)
    (hok : ∀ s e, ok s e → RequestFits s e ∧ (d.tags → TagMet s e) ∧ (d.lists → ListMet s e) ∧
      (d.lens → LenMet s e)) (hr : Reachable env ok s) :
    (∃ f, SysInv d env s f) ∧ ∀ r ∈ s.heap.regions, r < 2 ^ 32 := by
  obtain ⟨h₀, hrun, hreach⟩ := hr
  refine hreach.invariant (I := fun s => (∃ f, SysInv d env s f) ∧ ∀ r ∈ s.heap.regions, r < 2 ^ 32)
    (tcCentralInit_inv d hs hrun) ?_
  rintro s e s' ⟨⟨f, hi⟩, hr⟩ hmet hstep
  obtain ⟨h1, h2, h3, h4⟩ := hok s e hmet
  refine ⟨(step_sat hs hi hstep.1 ⟨fetchMet_of_small hi hr h1, h2, h3, h4⟩).of_ok hstep.2, ?_⟩
  refine hstep.grown.forall hr ?_
  rintro x ⟨n, hn, hx⟩
  obtain ⟨t, a⟩ := e
  have hsmall : n < 2 ^ 20 := by
    cases a with
    | malloc size =>
      have hsize : size < 2 ^ 32 := h1
      obtain rfl : n = bytesToPages size := hn
      simp only [bytesToPages]; omega
    | run => obtain rfl : n = BATCH := hn; decide
    | init => exact False.elim hn
    | free ptr => exact False.elim hn
  rcases hx with rfl | rfl | rfl
  · decide
  · decide
  · simp only [pagesToBytes]; omega

/-- Runs that obtain less than 4 GiB. -/
theorem reachable_obtained (hs : env.Succeeds) (hr : Reachable env WrapFree s)
    (hlt : s.heap.obtained < 2 ^ 32) : ∃ f, SysInv .base env s f := by
  obtain ⟨h₀, hrun, hreach⟩ := hr
  refine hreach.invariant (I := fun s => s.heap.obtained < 2 ^ 32 → ∃ f, SysInv .base env s f)
    (fun _ => (tcCentralInit_inv .base hs hrun).1) ?_ hlt
  intro s e s' hi hmet hstep hlt
  obtain ⟨f, hi⟩ := hi (hstep.grown.sum_le.trans_lt hlt)
  have hfetch := fetchMet_of_obtained hs hi hmet hstep hlt
  exact (step_sat hs hi hstep.1 (stepMet_base hfetch)).of_ok hstep.2

end Bounds

end SearchEngine.TcMalloc
