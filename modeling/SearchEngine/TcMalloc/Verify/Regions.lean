import SearchEngine.TcMalloc.Verify.Fetch
import SearchEngine.TcMalloc.System

/-!
# The regions obtained from the system

`regions` lists the sizes of the regions that `sbrk` returned. Only `fetch_span` adds to
it: `SPANPOOLSIZE` pages of records, `SYSFETCHSIZE` bytes, or the bytes of the request
(`fetchSpan_regions`, `next_regions`). A span is never larger than the region it is
part of, so bounds on the regions are bounds on the spans: with regions below 4 GiB
the sizes that `fetch_span` computes with fit (`HeapInv.fetchOk`).
-/

namespace SearchEngine.TcMalloc

open LinkedRing Placement Outcome

/-- `sbrk` has added regions whose sizes satisfy `P`. -/
def Grown (P : Nat → Prop) (h h' : Heap) : Prop :=
  ∃ l, h'.regions = l ++ h.regions ∧ ∀ x ∈ l, P x

section Grown

variable {P Q : Nat → Prop} {h h' h'' : Heap}

theorem Grown.of_eq (he : h'.regions = h.regions) : Grown P h h' :=
  ⟨[], he, fun _ hx => by cases hx⟩

theorem Grown.trans (h1 : Grown P h h') (h2 : Grown P h' h'') : Grown P h h'' := by
  obtain ⟨l, e1, p1⟩ := h1
  obtain ⟨l', e2, p2⟩ := h2
  exact ⟨l' ++ l, by rw [e2, e1, List.append_assoc],
    fun x hx => (List.mem_append.mp hx).elim (p2 x) (p1 x)⟩

theorem Grown.mono (h1 : Grown P h h') (hPQ : ∀ x, P x → Q x) : Grown Q h h' := by
  obtain ⟨l, e, p⟩ := h1
  exact ⟨l, e, fun x hx => hPQ x (p x hx)⟩

theorem Grown.subset (h1 : Grown P h h') : h.regions ⊆ h'.regions := by
  obtain ⟨l, e, -⟩ := h1
  rw [e]
  exact List.subset_append_right _ _

theorem Grown.sum_le (h1 : Grown P h h') : h.regions.sum ≤ h'.regions.sum := by
  obtain ⟨l, e, -⟩ := h1
  rw [e, List.sum_append]
  exact Nat.le_add_left _ _

/-- A bound on the new regions keeps a bound on all. -/
theorem Grown.forall (h1 : Grown P h h') (hQ : ∀ x ∈ h.regions, Q x) (hPQ : ∀ x, P x → Q x) :
    ∀ x ∈ h'.regions, Q x := by
  obtain ⟨l, e, p⟩ := h1
  rw [e]
  intro x hx
  exact (List.mem_append.mp hx).elim (fun h => hPQ x (p x h)) (hQ x)

end Grown

section Ops

variable {env : Env} {h : Heap} {s : SpanPtr} {npage : Nat}

/-- The size of a chunk of records. -/
abbrev CHUNKBYTES : Nat := 5898240

theorem sbrk_regions (env : Env) (nbytes : Nat) (h : Heap) :
    Grown (· = nbytes) h (sbrk env nbytes h).2 := by
  simp only [sbrk]
  cases env.answer h.sbrkCalls with
  | none => exact .of_eq rfl
  | some g => exact ⟨[nbytes], rfl, fun _ => List.mem_singleton.mp⟩

theorem updateMapping_regions (s : SpanPtr) (h : Heap) :
    Sat (updateMapping s h) (fun h' => h'.regions = h.regions) fun _ => True := by
  simp only [updateMapping]
  refine Sat.bind (R := fun _ => True) ?_ fun _ _ => rfl
  cases updateMappingLoop s (h.pageId s) (toInt (h.pageSize s)).toNat 0 h.pageMapping <;> trivial

theorem remove_regions (r : HeadRef) (s : SpanPtr) (h : Heap) :
    Sat (h.remove r s) (fun h' => h'.regions = h.regions) fun _ => True := by
  simp only [Heap.remove]
  refine Sat.bind (R := fun _ => True) ?_ fun _ _ => rfl
  cases removeSpan r s h.toLinks <;> trivial

theorem allocSpan_regions (env : Env) (npages ptr : Nat) (h : Heap) :
    Sat (allocSpan env npages ptr h) (fun r => Grown (· = CHUNKBYTES) h r.2) fun _ => True := by
  have hchunk : Sat (newChunk env h) (fun h' => Grown (· = CHUNKBYTES) h h') fun _ => True := by
    have hs := sbrk_regions env (pagesToBytes SPANPOOLSIZE) h
    simp only [newChunk]
    split_ifs
    · trivial
    · refine (updateMapping_regions _ _).bind fun h' he => ?_
      exact hs.trans (.of_eq he)
  simp only [allocSpan]
  split_ifs
  · exact hchunk.bind fun h' hg => sat_ok.mpr (hg.trans (.of_eq rfl))
  · exact sat_ok.mpr (.of_eq rfl)

theorem splitSpans_regions (tmp s : SpanPtr) (npage : Nat) (h : Heap) :
    Sat (splitSpans tmp s npage h) (fun h' => h'.regions = h.regions) fun _ => True := by
  simp only [splitSpans]
  refine (updateMapping_regions _ _).mono (fun h' he => he.trans ?_) fun _ => id
  split_ifs <;> rfl

theorem fetchFromSystem_regions (env : Env) (h : Heap) :
    Sat (fetchFromSystem env h)
      (fun h' => Grown (fun x => x = CHUNKBYTES ∨ x = SYSFETCHSIZE) h h') fun _ => True := by
  have hs := (sbrk_regions env SYSFETCHSIZE h).mono fun x => (Or.inr : _ → x = CHUNKBYTES ∨ _)
  simp only [fetchFromSystem]
  refine (allocSpan_regions env _ _ _).bind fun r hg => ?_
  refine (updateMapping_regions _ _).mono (fun h' he => ?_) fun _ => id
  exact (hs.trans (hg.mono fun _ => Or.inl)).trans (.of_eq he)

/-- The regions that a call of `fetch_span(npage)` may obtain. -/
def RegionOf (npage x : Nat) : Prop :=
  x = CHUNKBYTES ∨ x = SYSFETCHSIZE ∨ x = pagesToBytes npage

theorem fetchSpanWith_regions {again : Heap → Except Fault (SpanPtr × Heap)}
    (hag : ∀ h, Sat (again h) (fun r => Grown (RegionOf npage) h r.2) fun _ => True) (h : Heap) :
    Sat (fetchSpanWith env again npage h) (fun r => Grown (RegionOf npage) h r.2)
      fun _ => True := by
  simp only [fetchSpanWith]
  cases h.pgList (bucket npage) with
  | some tmp => exact (remove_regions _ _ _).bind fun h' he => .of_eq he
  | none =>
    refine (allocSpan_regions env npage 0 h).bind ?_
    rintro ⟨s, h₁⟩ hg
    have hg₁ : Grown (RegionOf npage) h (if npage > 8 then h₁.setLoc s .isolated else h₁) := by
      have := hg.mono (Q := RegionOf npage) fun x hx => .inl hx
      split_ifs
      · exact this.trans (.of_eq rfl)
      · exact this
    generalize (if npage > 8 then h₁.setLoc s .isolated else h₁) = h₂ at hg₁
    have hcut : ∀ (r : HeadRef) (tmp : SpanPtr), Sat (do
        let h ← h₂.remove r tmp
        let h ← splitSpans tmp s npage h
        .ok (s, h)) (fun r => Grown (RegionOf npage) h r.2) fun _ => True := by
      intro r tmp
      refine (remove_regions r tmp h₂).bind fun h₃ he => ?_
      refine (splitSpans_regions tmp s npage h₃).bind fun h₄ he' => ?_
      exact hg₁.trans (.of_eq (he'.trans he))
    by_cases hneg : toInt npage < 0
    · simp only [if_pos hneg]
      trivial
    · simp only [if_neg hneg]
      cases firstFit h₂.pgList (toInt npage).toNat with
      | some jt => exact hcut _ _
      | none =>
        cases scan h₂.next (fun tmp => npage ≤ h₂.pageSize tmp) (h₂.pgList (PAGEHEAPSIZE - 1))
            (h₂.brk + 1) (h₂.pgList (PAGEHEAPSIZE - 1)) with
        | none => trivial
        | some found =>
          cases found with
          | some tmp => exact hcut _ _
          | none =>
            simp only
            split_ifs
            · have hs := (sbrk_regions env (pagesToBytes npage) h₂).mono (Q := RegionOf npage)
                fun x hx => .inr (.inr hx)
              refine (allocSpan_regions env _ _ _).bind fun r hg₂ => ?_
              refine (updateMapping_regions _ _).bind fun h₄ he => ?_
              exact ((hg₁.trans hs).trans (hg₂.mono fun x hx => .inl hx)).trans (.of_eq he)
            · refine (fetchFromSystem_regions env h₂).bind fun h₃ hg₃ => ?_
              refine (hag h₃).mono (fun r hr => ?_) fun _ => id
              exact (hg₁.trans (hg₃.mono fun x hx => hx.imp id Or.inl)).trans hr

/-- `fetch_span` obtains records, `SYSFETCHSIZE` bytes, or what it is asked for. -/
theorem fetchSpan_regions (env : Env) (npage : Nat) (h : Heap) :
    Sat (fetchSpan env npage h) (fun r => Grown (RegionOf npage) h r.2) fun _ => True :=
  fetchSpanWith_regions (fun h => fetchSpanWith_regions (fun _ => sat_error.mpr trivial) h) h

/-- A large request that no span fits is served by the system. -/
theorem HeapInv.direct_region {d : Discipline} {f : SpanPlace → List SpanPtr} (hs : env.Succeeds)
    (hi : HeapInv d env h f) (hh : h.pgList (bucket npage) = none)
    (hff : firstFit h.pgList (toInt npage).toNat = none) (hbig : 256 < npage) :
    Sat (fetchSpan env npage h) (fun r => pagesToBytes npage ∈ r.2.regions) fun _ => True := by
  have hlast : h.pgList 255 = none := by rw [← bucket_of_le (show 256 ≤ npage by omega)]; exact hh
  rw [fetchSpan, fetchSpanDepth]
  simp only [fetchSpanWith, hh]
  refine ((allocSpan_sat hs hi.record hi.pages hi.links npage 0).mono (fun _ => id)
    fun _ _ => trivial).bind ?_
  rintro ⟨s, h₁⟩ ha
  obtain ⟨h₂, hh₂⟩ : ∃ h₂, h₂ = if npage > 8 then h₁.setLoc s .isolated else h₁ := ⟨_, rfl⟩
  have hpg : h₂.pgList = h.pgList := by
    rw [hh₂, ← ha.pgList]
    split_ifs <;> rfl
  simp only [← hh₂]
  split_ifs with hneg
  · trivial
  · simp only [hpg, hff, PAGEHEAPSIZE, show (256 - 1 : Nat) = 255 from rfl, hlast, scan]
    obtain ⟨g, hg⟩ := Option.ne_none_iff_exists'.mp (hs h₂.sbrkCalls)
    have hmem : pagesToBytes npage ∈ (sbrk env (pagesToBytes npage) h₂).2.regions := by
      simp only [sbrk, hg]
      exact List.mem_cons_self
    refine (allocSpan_regions env _ _ _).bind fun r hg₂ => ?_
    refine (updateMapping_regions _ _).bind fun h₄ he => ?_
    show _ ∈ h₄.regions
    rw [he]
    exact hg₂.subset hmem

/-- With regions below 4 GiB the sizes fit, a request of a multiple of `2 ^ 32` pages
apart. -/
theorem HeapInv.fetchOk {d : Discipline} {f : SpanPlace → List SpanPtr} (hi : HeapInv d env h f)
    (hr : ∀ r ∈ h.regions, r < 2 ^ 32)
    (hcut : (firstFit h.pgList (toInt npage).toNat).isSome → npage % 2 ^ 32 ≠ 0)
    (hbig : firstFit h.pgList (toInt npage).toNat = none → npage < 2 ^ 32) : FetchOk h npage := by
  rw [FetchOk]
  cases h.pgList (bucket npage) with
  | some tmp => trivial
  | none =>
    cases hff : firstFit h.pgList (toInt npage).toNat with
    | none => exact hbig hff
    | some jt =>
      obtain ⟨j, tmp⟩ := jt
      refine ⟨hcut (by rw [hff]; rfl), ?_⟩
      obtain ⟨-, -, hhj⟩ := firstFit_some hff
      have ht : tmp ∈ f (.pg j) := List.mem_of_mem_head? ((hi.links.head (.pg j)).symm.trans hhj)
      obtain ⟨r, hmem, hle⟩ := (hi.pages.owned ht).region
      have := hr r hmem
      omega

end Ops

/-! ## The other steps obtain nothing -/

section Steps

variable {env : Env} {s : Sys} {t : Tid}

theorem takeObjs_regions (num i : Nat) (S : SpanPtr) (h : Heap) :
    Sat (takeObjs num i S h) (fun r => r.2.regions = h.regions) fun _ => True := by
  simp only [takeObjs]
  split_ifs
  all_goals first
    | exact sat_error.mpr trivial
    | exact (remove_regions _ _ _).bind fun h' he => he
    | rfl

theorem carveLoop_regions (size fin : Nat) (S : SpanPtr) (ptr : Nat) (h : Heap) :
    (carveLoop size fin S ptr h).regions = h.regions := by
  fun_induction carveLoop size fin S ptr h with
  | case1 ptr h hc ih => exact ih
  | case2 ptr h hc => rfl

theorem carveSpan_regions (size i : Nat) (S : SpanPtr) (h : Heap) :
    (carveSpan size i S h).regions = h.regions :=
  carveLoop_regions _ _ _ _ _

theorem returnLoop_regions (batch : List Nat) (last : Option SpanPtr) (h : Heap) :
    Sat (returnLoop batch last h) (fun r => r.2.regions = h.regions) fun _ => True := by
  induction batch generalizing last h with
  | nil => rfl
  | cons o rest ih =>
    simp only [returnLoop]
    refine Sat.bind (R := fun r : SpanPtr × Heap => r.2.regions = h.regions) ?_ fun r hr =>
      (ih _ _).mono (fun _ he => he.trans hr) fun _ => id
    simp only [returnObj]
    refine Sat.bind (R := fun _ => True) ?_ fun S _ => ?_
    · cases mapAddrToSpan o h <;> trivial
    · cases S with
      | none => trivial
      | some S => rfl

theorem leaveIdle_regions (i : Nat) (S : SpanPtr) (h : Heap) :
    Sat (leaveIdle i S h) (fun h' => h'.regions = h.regions) fun _ => True := by
  simp only [leaveIdle]
  split_ifs
  · exact (remove_regions _ _ _).bind fun h' he => he
  · rfl

theorem returnObjs_regions (batch : List Nat) (n : Nat) (h : Heap) :
    Sat (returnObjs batch n h) (fun r => r.2.regions = h.regions) fun _ => True := by
  simp only [returnObjs]
  refine Sat.bind (R := fun _ => True) (by cases sizeClass n <;> trivial) fun i _ => ?_
  refine (returnLoop_regions batch none h).bind ?_
  rintro ⟨last, h₁⟩ he₁
  cases last with
  | none => trivial
  | some S =>
    refine (leaveIdle_regions i S h₁).bind fun h₂ he₂ => ?_
    split_ifs
    · exact (remove_regions _ _ _).bind fun h' he => he.trans (he₂.trans he₁)
    · exact he₂.trans he₁

theorem returnSpan_regions (S : SpanPtr) (h : Heap) :
    Sat (returnSpanToPgcache S h) (fun h' => h'.regions = h.regions) fun _ => True :=
  (updateMapping_regions _ _).mono (fun _ he => he) fun _ => id

theorem endFetch_regions (s : Sys) (t : Tid) (k : Caller) (i num : Nat) (S : SpanPtr) :
    Sat (endFetch s t k i num S) (fun s' => s'.heap.regions = s.heap.regions) fun _ => True :=
  (takeObjs_regions _ _ _ _).bind fun _ he => he

theorem finishFetch_heap (s : Sys) (t : Tid) (k : Caller) (i : Nat) (batch : List Nat) :
    Sat (finishFetch s t k i batch) (fun s' => s'.heap = s.heap) fun _ => True := by
  cases k with
  | threadInit j => rfl
  | allocate n =>
    simp only [finishFetch]
    refine Sat.bind (R := fun _ => True) ?_ fun _ _ => rfl
    cases freelistPop (insertToThreadcache batch (s.cache t i)) <;> trivial

theorem tcFree_heap (s : Sys) (t : Tid) (ptr : Nat) :
    Sat (tcFree s t ptr) (fun s' => s'.heap = s.heap) fun _ => True := by
  simp only [tcFree]
  refine Sat.bind (R := fun _ => True) ?_ fun S _ => ?_
  · cases mapAddrToSpan ptr s.heap <;> trivial
  · cases S with
    | none => trivial
    | some S =>
      simp only
      split_ifs
      · simp only [deallocate]
        refine Sat.bind (R := fun _ => True) ?_ fun i _ => ?_
        · cases sizeClass (s.heap.objsSize S) <;> trivial
        · split_ifs <;> rfl
      · rfl

theorem allocate_heap (s : Sys) (t : Tid) (n : Nat) :
    Sat (allocate s t n) (fun s' => s'.heap = s.heap) fun _ => True := by
  simp only [allocate]
  refine Sat.bind (R := fun _ => True) (by cases sizeClass n <;> trivial) fun i _ => ?_
  cases hobjs : (s.cache t i).objs with
  | nil => rfl
  | cons o rest =>
    simp only [freelistPop, hobjs]
    rfl

/-- The pages a step asks `fetch_span` for. -/
def Requests : Event → Nat → Prop
  | (_, .malloc size), n => n = bytesToPages size
  | (_, .run), n => n = BATCH
  | _, _ => False

/-- A step obtains only what its call of `fetch_span` does. -/
theorem next_regions (env : Env) (s : Sys) (e : Event) :
    Sat (next env s e) (fun s' => Grown (fun x => ∃ n, Requests e n ∧ RegionOf n x) s.heap s'.heap)
      fun _ => True := by
  obtain ⟨t, a⟩ := e
  have same : ∀ {s' : Sys}, s'.heap = s.heap →
      Grown (fun x => ∃ n, Requests (t, a) n ∧ RegionOf n x) s.heap s'.heap := fun he =>
    .of_eq (by rw [he])
  cases a with
  | init => exact same rfl
  | malloc size =>
    simp only [next, tcMalloc]
    split_ifs
    · exact (allocate_heap s t size).mono (fun _ he => same he) fun _ => id
    · refine (fetchSpan_regions env (bytesToPages size) s.heap).bind fun r hr => ?_
      exact hr.mono fun x hx => ⟨_, rfl, hx⟩
  | free ptr => exact (tcFree_heap s t ptr).mono (fun _ he => same he) fun _ => id
  | run =>
    simp only [next]
    cases s.pc t with
    | start => exact same rfl
    | ready => exact same rfl
    | initLoop i =>
      simp only [continueCall]
      split_ifs <;> exact same rfl
    | fetch k i num =>
      simp only [continueCall]
      refine Sat.bind (R := fun _ => True) ?_ fun found _ => ?_
      · cases scanCentral i s.heap <;> trivial
      · cases found with
        | none => exact same rfl
        | some S => exact (endFetch_regions s t k i num S).mono (fun _ he => .of_eq he) fun _ => id
    | refill k i num =>
      simp only [continueCall]
      refine (fetchSpan_regions env BATCH s.heap).bind fun r hr => ?_
      exact hr.mono fun x hx => ⟨_, rfl, hx⟩
    | carve k i num S =>
      exact (endFetch_regions _ t k i num S).mono
        (fun _ he => .of_eq (he.trans (carveSpan_regions _ _ _ _))) fun _ => id
    | insert k i batch =>
      exact (finishFetch_heap s t k i batch).mono (fun _ he => same he) fun _ => id
    | flush batch n =>
      simp only [continueCall]
      refine (returnObjs_regions batch n s.heap).bind ?_
      rintro ⟨o, h'⟩ he
      cases o <;> exact .of_eq he
    | recycle S => exact (returnSpan_regions S s.heap).bind fun h' he => .of_eq he
    | freeLarge S => exact (returnSpan_regions S s.heap).bind fun h' he => .of_eq he

end Steps

end SearchEngine.TcMalloc
