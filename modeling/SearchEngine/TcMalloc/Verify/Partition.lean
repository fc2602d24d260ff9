import SearchEngine.TcMalloc.Verify.Scene

/-!
# Pages and blocks

The page map partitions the pages among the spans in use, the addresses of the spans
agree with their page numbers, and the live blocks overlap nothing.
-/

namespace SearchEngine.TcMalloc

open LinkedRing Placement Outcome Reach

/-! ## The page map -/

/-- The page `k` is one of the pages that the record of `S` names. -/
def OnPage (h : Heap) (S : SpanPtr) (k : Nat) : Prop :=
  h.pageId S ≤ k ∧ k < h.pageId S + h.pageSize S

/-- The spans in use partition their pages, the page map says which page is whose, and
`tc_free` finds the span of every live block. -/
structure PageMapPartition (s : Sys) : Prop where
  apart : ∀ {S S' k}, InUse s S → InUse s S' → OnPage s.heap S k → OnPage s.heap S' k → S = S'
  mapped : ∀ {S k}, InUse s S → OnPage s.heap S k → s.heap.pageMapping k = some S
  found : ∀ b ∈ s.live, mapAddrToSpan b.ptr s.heap = .ok (some b.span)

/-- The address of a span in use is that of its first page. -/
def AddressesAgree (s : Sys) : Prop :=
  ∀ S, InUse s S → s.heap.start S = s.heap.iniBrkAddr + s.heap.pageId S * 4096

section Partition

variable {d : Discipline} {env : Env} {s : Sys} {h : Heap} {f : SpanPlace → List SpanPtr}
  {S S' : SpanPtr} {p q : SpanPlace}

theorem SysInv.pageMapPartition (hi : SysInv d env s f) : PageMapPartition s where
  apart hS hS' hk hk' := by
    obtain ⟨p, hp⟩ := hi.inUse hS
    obtain ⟨q, hq⟩ := hi.inUse hS'
    have h1 := (hi.heap.pages.owned hp).mapped _ hk.1 hk.2
    have h2 := (hi.heap.pages.owned hq).mapped _ hk'.1 hk'.2
    exact Option.some.inj (h1.symm.trans h2)
  mapped hS hk := by
    obtain ⟨p, hp⟩ := hi.inUse hS
    exact (hi.heap.pages.owned hp).mapped _ hk.1 hk.2
  found _ hb := hi.mapAddr hb

theorem SysInv.addressesAgree (hi : SysInv d env s f) : AddressesAgree s := by
  intro S hS
  obtain ⟨p, hp⟩ := hi.inUse hS
  rw [hi.heap.record.ini]
  exact (hi.heap.pages.owned hp).start

/-! ## Blocks -/

/-- The `n` bytes from `a` on and the `m` bytes from `b` on have one in common. -/
def Meets (a n b m : Nat) : Prop := ∃ x, a ≤ x ∧ x < a + n ∧ b ≤ x ∧ x < b + m

/-- The bytes of a live block: those of an object of its span, or of the whole span. -/
def Block.extent (h : Heap) (b : Block) : Nat :=
  if b.Small then h.objsSize b.span else h.pageSize b.span * 4096

/-- The live blocks overlap neither each other nor anything the allocator keeps. -/
structure NonOverlap (s : Sys) : Prop where
  blocks : s.live.Pairwise fun b b' =>
    ¬ Meets b.ptr (b.extent s.heap) b'.ptr (b'.extent s.heap)
  chunks : ∀ b ∈ s.live, ∀ c ∈ s.heap.chunks, ¬ Meets b.ptr (b.extent s.heap) c CHUNKBYTES
  spans : ∀ b ∈ s.live, ∀ S, InPageHeap s.heap S →
    ¬ Meets b.ptr (b.extent s.heap) (s.heap.start S) (s.heap.pageSize S * 4096)
  free : ∀ b ∈ s.live, ∀ S, InCentral s.heap S → ∀ o ∈ s.heap.objs S,
    ¬ Meets b.ptr (b.extent s.heap) o (s.heap.objsSize S)
  cached : ∀ b ∈ s.live, ∀ t i, ∀ o ∈ (s.cache t i).objs,
    ¬ Meets b.ptr (b.extent s.heap) o (indexToSize i)

/-- The bytes lie in the pages of the span. -/
def Inside (h : Heap) (S : SpanPtr) (a n : Nat) : Prop :=
  h.start S ≤ a ∧ a + n ≤ h.start S + h.pageSize S * 4096

theorem HeapInv.not_meets (hi : HeapInv d env h f) (hS : S ∈ f p) (hS' : S' ∈ f q) (hne : S ≠ S')
    {a n b m : Nat} (h1 : Inside h S a n) (h2 : Inside h S' b m) : ¬ Meets a n b m := by
  rintro ⟨x, hx1, hx2, hx3, hx4⟩
  have ho := hi.pages.owned hS
  have ho' := hi.pages.owned hS'
  have hap := ho.apart ho' hne
  have e1 := ho.start
  have e2 := ho'.start
  obtain ⟨h1, h1'⟩ := h1
  obtain ⟨h2, h2'⟩ := h2
  omega

theorem IsObj.inside (hi : HeapInv d env h f) {i o : Nat} (ho : IsObj h f i S o) :
    Inside h S o (indexToSize i) :=
  ho.2.range (hi.inClass_of_size ho.1).2.2

/-- Two objects do not overlap. -/
theorem IsObj.not_meets (hi : HeapInv d env h f) {i j o o' : Nat} (ho : IsObj h f i S o)
    (ho' : IsObj h f j S' o') (hne : o ≠ o') :
    ¬ Meets o (indexToSize i) o' (indexToSize j) := by
  by_cases hS : S = S'
  · subst hS
    obtain rfl := inClass_of_eq hi.pages.placed ho.1 ho'.1
    obtain ⟨-, k, -, hk⟩ := ho
    obtain ⟨-, k', -, hk'⟩ := ho'
    rintro ⟨x, h1, h2, h3, h4⟩
    rcases Nat.lt_trichotomy k k' with hlt | rfl | hlt
    · have := Nat.mul_le_mul_right (indexToSize i) hlt
      rw [Nat.succ_mul] at this
      omega
    · exact hne (hk.trans hk'.symm)
    · have := Nat.mul_le_mul_right (indexToSize i) hlt
      rw [Nat.succ_mul] at this
      omega
  · obtain ⟨p, -, hp⟩ := ho.1
    obtain ⟨q, -, hq⟩ := ho'.1
    exact hi.not_meets hp hq hS (ho.inside hi) (ho'.inside hi)

/-- A live block is an object, or all of a span. -/
theorem SysInv.block_cases (hi : SysInv d env s f) {b : Block} (hb : b ∈ s.live) :
    (b.Small ∧ ∃ i, IsObj s.heap f i b.span b.ptr ∧ b.extent s.heap = indexToSize i) ∨
    (¬ b.Small ∧ b.span ∈ f .user ∧ Inside s.heap b.span b.ptr (b.extent s.heap)) := by
  by_cases hs : b.Small
  · obtain ⟨-, i, hobj, -⟩ := hi.objs.block hb hs
    exact .inl ⟨hs, i, hobj, by rw [Block.extent, if_pos hs, (hi.heap.inClass_of_size hobj.1).2.1]⟩
  · refine .inr ⟨hs, mem_user hi.hands hb hs, ?_, ?_⟩
    · rw [hi.hands.block hb hs]
    · rw [Block.extent, if_neg hs, hi.hands.block hb hs]

/-- A block and an object elsewhere do not overlap. -/
theorem SysInv.block_not_meets (hi : SysInv d env s f) {b : Block} (hb : b ∈ s.live) {i o : Nat}
    (ho : IsObj s.heap f i S o) (hne : b.Small → b.ptr ≠ o) :
    ¬ Meets b.ptr (b.extent s.heap) o (indexToSize i) := by
  rcases hi.block_cases hb with ⟨hs, j, hobj, he⟩ | ⟨hs, hu, hin⟩
  · rw [he]
    exact hobj.not_meets hi.heap ho (hne hs)
  · obtain ⟨q, hq, hSq⟩ := ho.1
    refine hi.heap.not_meets hu hSq ?_ hin (ho.inside hi.heap)
    rintro rfl
    rw [← hi.heap.pages.placed.unique hu hSq] at hq
    cases hq

theorem mem_objsAt_live {b : Block} (hb : b ∈ s.live) (hs : b.Small) : b.ptr ∈ objsAt s .live :=
  List.mem_map.mpr ⟨b, List.mem_filter.mpr ⟨hb, by simpa using hs⟩, rfl⟩

theorem SysInv.nonOverlap (hi : SysInv d env s f) : NonOverlap s where
  blocks := by
    have hsmall : s.live.Pairwise fun b b' => b.Small → b'.Small → b.ptr ≠ b'.ptr := by
      have := List.pairwise_map.mp (hi.objs.placed.nodup .live : (smallPtrs s.live).Nodup)
      simpa using List.pairwise_filter.mp this
    have hlarge : s.live.Pairwise fun b b' => ¬ b.Small → ¬ b'.Small → b.span ≠ b'.span := by
      have hnd : (largeSpans s.live).Nodup :=
        hi.hands.user.nodup_iff.mp (hi.heap.pages.placed.nodup .user)
      simpa using List.pairwise_filter.mp (List.pairwise_map.mp hnd)
    refine (hsmall.and hlarge).imp_of_mem ?_
    rintro b b' hb hb' ⟨h1, h2⟩
    rcases hi.block_cases hb' with ⟨hs', j, hobj', he'⟩ | ⟨hs', hu', hin'⟩
    · rw [he']
      exact hi.block_not_meets hb hobj' fun hs => h1 hs hs'
    · rcases hi.block_cases hb with ⟨hs, i, hobj, he⟩ | ⟨hs, hu, hin⟩
      · rintro ⟨x, a1, a2, a3, a4⟩
        rw [he] at a2
        exact hi.block_not_meets hb' hobj (fun h => absurd h hs') ⟨x, a3, a4, a1, a2⟩
      · exact hi.heap.not_meets hu hu' (h2 hs hs') hin hin'
  chunks b hb c hc := by
    obtain ⟨S, p, hS, hin⟩ : ∃ S p, S ∈ f p ∧ Inside s.heap S b.ptr (b.extent s.heap) := by
      rcases hi.block_cases hb with ⟨-, i, hobj, he⟩ | ⟨-, hu, hin⟩
      · obtain ⟨p, -, hp⟩ := hobj.1
        exact ⟨_, p, hp, he ▸ hobj.inside hi.heap⟩
      · exact ⟨_, _, hu, hin⟩
    have ho := hi.heap.pages.owned hS
    obtain ⟨⟨-, k, hk, -, hmap⟩, hcf⟩ := hi.heap.pages.chunks c hc
    have hst := ho.start
    rintro ⟨x, h1, h2, h3, h4⟩
    obtain ⟨h5, h6⟩ := hin
    simp only [CHUNKBYTES] at h4
    -- the page of the common byte would be mapped to both
    obtain ⟨j, hj⟩ : ∃ j, j = (x - env.ini) / 4096 := ⟨_, rfl⟩
    have hj1 := ho.mapped j (by omega) (by omega)
    have hj2 := hmap j (by omega) (by simp only [SPANPOOLSIZE]; omega)
    exact hcf p (Option.some.inj (hj1.symm.trans hj2) ▸ hS)
  spans b hb S hS := by
    obtain ⟨i, hSi⟩ := hi.heap.inPageHeap.mp hS
    have hwhole : Inside s.heap S (s.heap.start S) (s.heap.pageSize S * 4096) := ⟨le_rfl, le_rfl⟩
    rcases hi.block_cases hb with ⟨-, j, hobj, he⟩ | ⟨-, hu, hin⟩
    · obtain ⟨p, hp, hbp⟩ := hobj.1
      refine hi.heap.not_meets hbp hSi ?_ (he ▸ hobj.inside hi.heap) hwhole
      rintro rfl
      rw [hi.heap.pages.placed.unique hbp hSi] at hp
      cases hp
    · refine hi.heap.not_meets hu hSi ?_ hin hwhole
      rintro rfl
      cases hi.heap.pages.placed.unique hu hSi
  free b hb S hS o ho := by
    obtain ⟨i, hobj⟩ := hi.objs.sound (p := .span S) ho
    rw [(hi.heap.inClass_of_size hobj.1).2.1]
    refine hi.block_not_meets hb hobj fun hs e => ?_
    subst e
    cases hi.objs.placed.unique (p := .span S) ho (mem_objsAt_live hb hs)
  cached b hb t i o ho := by
    have hobj : IsObj s.heap f i (s.origin o) o := hi.objs.sound (p := .cache t i) ho
    refine hi.block_not_meets hb hobj fun hs e => ?_
    subst e
    cases hi.objs.placed.unique (p := .cache t i) ho (mem_objsAt_live hb hs)

/-! ## Every run -/

/-- In a run that obtains less than 4 GiB and cuts no span for a multiple of `2 ^ 32`
pages, no live block overlaps anything. -/
theorem live_nonOverlap (hs : env.Succeeds) (hr : Reachable env WrapFree s)
    (hlt : s.heap.obtained < 2 ^ 32) : NonOverlap s := by
  obtain ⟨f, hi⟩ := reachable_obtained hs hr hlt
  exact hi.nonOverlap

theorem live_nonOverlap_machine :
    ∃ s, Reachable machine WrapFree s ∧ s.live ≠ [] ∧ NonOverlap s := by
  obtain ⟨s, ⟨h₀, hinit, hrun⟩, hlive, hlt⟩ := machine_block
  have hr : Reachable machine WrapFree s := ⟨h₀, hinit, hrun.mono fun _ _ h => h.wrapFree⟩
  exact ⟨s, hr, hlive, live_nonOverlap machine_succeeds hr hlt⟩

/-- The block `C` of 12 pages is in front of the span of the last class, and is the only one. -/
structure TwelveHeld (s : Sys) (C : SpanPtr) : Prop where
  pc : s.pc 0 = .ready
  live : s.live = [⟨s.heap.start C, 50000, C⟩]
  one : OneSpan s.heap 4224 (65536 - 128 * CLASSES - 12) 91997
  ini : s.heap.iniBrkAddr = 4096
  free : s.heap.start 4224 = 5902336 ∧ s.heap.pageId 4224 = 1440
  start : s.heap.start C = 4096 + 46612 * 4096
  pageId : s.heap.pageId C = 46612
  pageSize : s.heap.pageSize C = 12
  objsSize : s.heap.objsSize C = 0
  mapped : s.heap.pageMapping 46612 = some C
  old : C ≠ 4224 ∧ C < s.heap.chunk + s.heap.currInd * 64
  regions : s.heap.regions = [268435456, 5898240]

/-- The call `tc_malloc(50000)`. -/
theorem Ready.twelve_held (hs : Ready s) :
    ∃ s' C, Step machine s (0, .malloc 50000) s' ∧ TwelveHeld s' C := by
  have hp := hs.pool
  obtain ⟨C, hC⟩ : ∃ C, C = s.heap.chunk + s.heap.currInd * 64 := ⟨_, rfl⟩
  obtain ⟨h', hrun, hcut, hone⟩ := fetchSpan_cut (e := machine) (k := 12) hp.one (by decide)
    (by decide) (by decide) (fetchSpanDepth machine 1 12)
  rw [← hC] at hrun hcut
  have hne : C ≠ 4224 := (Nat.ne_of_lt (hC ▸ hp.one.old)).symm
  have hid : h'.pageId C = 46612 := by
    rw [hcut.idS, hp.pageId, hp.one.pages]
    rfl
  obtain ⟨s', hstep, hs'⟩ := malloc_given (n := 50000) hs.pc (by decide) (by decide) hrun
  refine ⟨s', C, hstep, ?_⟩
  obtain rfl := hs'.heap
  exact {
    pc := hs'.pc
    live := hs'.live.trans (congrArg _ hs.live)
    one := hone
    ini := hcut.iniBrkAddr.trans hp.ini
    free := ⟨(hcut.start _ hne.symm).trans hp.start, (hcut.pageId _ hne.symm).trans hp.pageId⟩
    start := by
      rw [hcut.startS, hp.start, hp.one.pages]
      rfl
    pageId := hid
    pageSize := hcut.sizeS
    objsSize := (congrFun hcut.objsSize C).trans (hp.one.blank C (Nat.le_of_eq hC.symm)).objsSize
    mapped := by
      rw [hcut.pageMapping, hid]
      exact mapRange_of_mem (by decide) (by decide)
    old := by
      rw [hcut.chunk, hcut.currInd]
      refine ⟨hne, hC ▸ Nat.add_lt_add_left ?_ _⟩
      exact Nat.mul_lt_mul_of_pos_right (Nat.lt_succ_self _) (by decide)
    regions := hcut.regions.trans hp.regions }

/-- Freeing the block of `malloc_wrapped` returns the span that starts at its address. -/
theorem Wrapped.freed {s₁ : Sys} {X : SpanPtr} {n k : Nat} (hw : Wrapped s s₁ X k)
    (hsize : s.heap.pageSize X = n) (hobjs : s.heap.objsSize X = 0) (hpos : 0 < n)
    (hb : bucket n ≠ 8) (hid : s.heap.pageId X + n ≤ PAGEMAPSIZE) :
    ∃ s₂ B, Reaches (Step machine) Any s₁ s₂ ∧ s₂.live = B :: s.live ∧ InPageHeap s₂.heap X ∧
      s₂.heap.start X = s.heap.start X ∧ s₂.heap.pageSize X = n ∧
      s₂.heap.regions = s.heap.regions := by
  obtain ⟨B, S, hlive, -⟩ := hw.live
  have hsize₁ : s₁.heap.pageSize X = n := hw.same.pageSize.trans hsize
  have hret := returnSpan_eq (h := s₁.heap) (R := X) (n := n) (hw.empty _ hb) hsize₁ hpos
    (by rw [hw.same.pageId]; exact hid)
  obtain ⟨s₂, hr, hheap, -, hlive₂, -, -⟩ := free_large hw.pc (a := 4096 + k * 4096)
    ⟨_, by rw [hlive]; exact List.mem_cons_self, rfl⟩ hw.found
    (hw.same.objsSize.trans hobjs) hret
  rw [hlive, List.eraseP_cons_of_pos (by simp)] at hlive₂
  have hhead : s₂.heap.pgList (bucket n) = some X := by
    rw [hheap]
    exact Function.update_self (bucket n) (some X) s₁.heap.pgList
  refine ⟨s₂, B, hr, hlive₂, ⟨bucket n, X, hhead, .refl⟩, ?_⟩
  rw [hheap]
  exact ⟨hw.same.start, hsize₁, hw.regions⟩

/-- A large block does not overlap the spans of the page heap, so that its own is none of them. -/
theorem NonOverlap.not_inPageHeap (hno : NonOverlap s) {b : Block} (hb : b ∈ s.live)
    (hlarge : ¬ b.Small) (hptr : b.ptr = s.heap.start b.span)
    (hpos : 0 < s.heap.pageSize b.span) : ¬ InPageHeap s.heap b.span := by
  intro hpg
  have hlen : 0 < s.heap.pageSize b.span * 4096 := Nat.mul_pos hpos (by decide)
  refine hno.spans b hb b.span hpg ⟨b.ptr, le_rfl, ?_, hptr.ge, ?_⟩
  · rw [Block.extent, if_neg hlarge]
    exact Nat.lt_add_of_pos_right hlen
  · rw [← hptr]
    exact Nat.lt_add_of_pos_right hlen

/-- Two calls after `malloc_wrapped` freed another block, a live block lies in the page
heap: `tc_malloc(50000)`, `tc_malloc(40000)`, `tc_malloc(2 ^ 20)`, `tc_free` of the second,
`tc_malloc(2 ^ 44)`, `tc_free` of that. -/
theorem live_overlap : ∃ s, Reachable machine Any s ∧ s.heap.obtained < 2 ^ 32 ∧
    ¬ NonOverlap s := by
  obtain ⟨s₀, ⟨h₀, hinit, hrun₀⟩, hs₀⟩ := machine_ready
  -- the block that will be freed through another pointer
  obtain ⟨s₁, C, step₁, hC⟩ := hs₀.twelve_held
  obtain ⟨hstart, hpage⟩ := hC.free
  -- the block of no pages at its address
  obtain ⟨s₂, hr₂, hw⟩ := malloc_wrapped (X := C) hC.pc hC.one (by decide) (by decide) hC.ini
    (by rw [hstart, hpage]) (by rw [hpage]; rfl) (by decide) hC.mapped hC.old.1 hC.old.2
  -- freeing it returns the span of the other
  obtain ⟨s₃, B, hr₃, hlive₃, hpg, hst₃, hsz₃, hreg₃⟩ := hw.freed hC.pageSize hC.objsSize
    (by decide) (by decide) (by rw [hC.pageId]; decide)
  refine ⟨s₃, ⟨h₀, hinit, (((hrun₀.mono fun _ _ _ => trivial).tail trivial step₁).trans hr₂).trans
    hr₃⟩, ?_, fun hno => ?_⟩
  · rw [Heap.obtained, hreg₃, hC.regions]
    decide
  · rw [hC.live] at hlive₃
    refine hno.not_inPageHeap (b := ⟨s₁.heap.start C, 50000, C⟩) (by rw [hlive₃]; simp)
      (show ¬ 50000 ≤ 32768 by decide) hst₃.symm ?_ hpg
    rw [hsz₃]
    decide

/-- In such a run the page map partitions the pages. -/
theorem pageMap_partition (hs : env.Succeeds) (hr : Reachable env WrapFree s)
    (hlt : s.heap.obtained < 2 ^ 32) : PageMapPartition s := by
  obtain ⟨f, hi⟩ := reachable_obtained hs hr hlt
  exact hi.pageMapPartition

theorem pageMap_partition_machine :
    ∃ s, Reachable machine WrapFree s ∧ s.live ≠ [] ∧ PageMapPartition s := by
  obtain ⟨s, ⟨h₀, hinit, hrun⟩, hlive, hlt⟩ := machine_block
  have hr : Reachable machine WrapFree s := ⟨h₀, hinit, hrun.mono fun _ _ h => h.wrapFree⟩
  exact ⟨s, hr, hlive, pageMap_partition machine_succeeds hr hlt⟩

/-- `tc_free` would take the block of `malloc_wrapped` for the span of the last class. -/
theorem pageMap_wrong : ∃ s, Reachable machine Any s ∧ s.heap.obtained < 2 ^ 32 ∧
    ¬ PageMapPartition s := by
  obtain ⟨s₀, ⟨h₀, hinit, hrun₀⟩, hs₀⟩ := machine_ready
  obtain ⟨s₁, hr₁, hw⟩ := hs₀.wrapped
  obtain ⟨B, S, hlive, hS⟩ := hw.live
  refine ⟨s₁, ⟨h₀, hinit, (hrun₀.mono fun _ _ _ => trivial).trans hr₁⟩, ?_, fun hmap => ?_⟩
  · rw [Heap.obtained, hw.regions, hs₀.pool.regions]
    decide
  · have hfound := hmap.found _ (by rw [hlive]; exact List.mem_cons_self)
    rw [hw.found] at hfound
    exact hS (Option.some.inj (Except.ok.inj hfound)).symm

/-- In a run whose fetches compute with sizes that fit, addresses and page numbers
agree. -/
theorem addresses_agree (hs : env.Succeeds) (hr : Reachable env FetchMet s) : AddressesAgree s := by
  obtain ⟨f, hi⟩ := reachable_base hs hr
  exact hi.addressesAgree

theorem addresses_agree_machine :
    ∃ s, Reachable machine FetchMet s ∧ s.live ≠ [] ∧ AddressesAgree s := by
  obtain ⟨s, ⟨h₀, hinit, hrun⟩, hlive, -⟩ := machine_block
  have hr : Reachable machine FetchMet s := ⟨h₀, hinit, hrun.mono fun _ _ h => h.fetchMet⟩
  exact ⟨s, hr, hlive, addresses_agree machine_succeeds hr⟩

/-- The call `tc_malloc(2 ^ 20)` takes the rest of the first region. -/
theorem Ready.emptied (hs : Ready s) : ∃ s', Step machine s (0, .malloc (2 ^ 20)) s' ∧
    s'.pc 0 = .ready ∧ NoSpan s'.heap 91998 ∧ s'.heap.iniBrkAddr = 4096 ∧
    s'.heap.brk = 274337792 := by
  have hp := hs.pool
  obtain ⟨st, hrun⟩ := fetchSpan_whole (e := machine) (k := 256) hp.one rfl
    (fetchSpanDepth machine 1 256)
  have hfetch : fetchSpan machine (bytesToPages (2 ^ 20)) s.heap =
    .ok (4224, { s.heap with pgList := fun _ => none, stray := st }) := hrun
  obtain ⟨s', hstep, hs'⟩ := malloc_given hs.pc (by decide) (by decide) hfetch
  refine ⟨s', hstep, hs'.pc, ?_⟩
  rw [hs'.heap]
  exact ⟨hp.one.emptied st, hp.ini, hp.brk⟩

/-- The calls `A = tc_malloc(5 * 2 ^ 30)`, `tc_free(A)`, when the page heap is empty. -/
theorem gibs_returned (hpc : s.pc 0 = .ready) (hno : NoSpan s.heap 91998)
    (hini : s.heap.iniBrkAddr = 4096) (hbrk : s.heap.brk = 274337792) :
    ∃ s' S, Reaches (Step machine) Any s s' ∧ s'.pc 0 = .ready ∧
      OneSpan s'.heap S 1310720 91996 ∧ s'.heap.start S = 274337792 ∧
      s'.heap.pageId S = 66976 ∧ s'.heap.iniBrkAddr = 4096 := by
  obtain ⟨h₁, S, hrun, hno₁, hold, hst, hid, hsz, hsize, hmap, hini₁⟩ := fetchSpan_direct
    (e := machine) (k := 1310720) (a := 66976) hno (by decide) rfl (by rw [hbrk, hini]; rfl)
    (by rw [hbrk]; decide) (by decide) (fetchSpanDepth machine 1 1310720)
  have hfetch : fetchSpan machine (bytesToPages (5 * 2 ^ 30)) s.heap = .ok (S, h₁) := hrun
  obtain ⟨s₁, step₁, hs₁⟩ := malloc_given hpc (by decide) (by decide) hfetch
  have hend : h₁.pageId S + 1310720 ≤ PAGEMAPSIZE := by
    rw [hid]
    decide
  have hret := returnSpan_eq (h := h₁) (R := S) (n := 1310720) (by rw [hno₁.pg]) hsz (by decide)
    hend
  obtain ⟨s₂, hr₂, hheap₂, hpc₂, -, -, -⟩ := free_large (s := s₁) (a := h₁.start S) hs₁.pc
    ⟨_, by rw [hs₁.live]; exact List.mem_cons_self, rfl⟩
    (by rw [hs₁.heap, mapAddr_machine (k := 66976) (hini₁.trans hini) (hst.trans hbrk) (by decide),
          hmap, mapRange_of_mem (by decide) (by decide)])
    (by rw [hs₁.heap]; exact hsize) (by rw [hs₁.heap]; exact hret)
  refine ⟨s₂, S, (Reaches.single trivial step₁).trans hr₂, hpc₂, ?_⟩
  rw [hheap₂]
  exact ⟨hno₁.returned hold hsz hend, hst.trans hbrk, hid, hini₁.trans hini⟩

/-- The call `tc_malloc(40000)`, when the page heap has a span of 5 GiB: the address of the pages
that are cut off is computed in 32 bits. -/
theorem OneSpan.misplaced {S : SpanPtr} (hpc : s.pc 0 = .ready)
    (hone : OneSpan s.heap S 1310720 91996) (hst : s.heap.start S = 274337792)
    (hid : s.heap.pageId S = 66976) (hini : s.heap.iniBrkAddr = 4096) :
    ∃ s', Step machine s (0, .malloc 40000) s' ∧ ¬ AddressesAgree s' := by
  obtain ⟨h', hrun, hcut, -⟩ := fetchSpan_cut (e := machine) (k := 9) (m := 91995) hone (by decide)
    (by decide) (by decide) (fetchSpanDepth machine 1 9)
  obtain ⟨C, hC⟩ : ∃ C, C = s.heap.chunk + s.heap.currInd * 64 := ⟨_, rfl⟩
  rw [← hC] at hrun hcut
  obtain ⟨s', hstep, hs'⟩ := malloc_given (n := 40000) hpc (by decide) (by decide) hrun
  refine ⟨s', hstep, fun hagree => ?_⟩
  have hheld : Held s' C := ⟨⟨h'.start C, 40000, C⟩, by rw [hs'.live]; exact List.mem_cons_self,
    show ¬ 40000 ≤ 32768 by decide, rfl⟩
  have haddr := hagree C (.inr (.inr hheld))
  rw [hs'.heap] at haddr
  have e1 : h'.start C = 274337792 + pagesToBytes32 1310711 := by
    rw [hcut.startS, hone.pages, hst]
  have e2 : h'.pageId C = 66976 + 1310711 := by
    rw [hcut.idS, hone.pages, hid]
  have haddr' : h'.start C = h'.iniBrkAddr + h'.pageId C * 4096 := haddr
  rw [e1, e2, hcut.iniBrkAddr, hini] at haddr'
  exact absurd haddr' (by decide)

/-- A span of 5 GiB, obtained and freed, is cut for `tc_malloc(40000)`: the address of the
pages is computed in 32 bits. -/
theorem addresses_disagree : ∃ s, Reachable machine Any s ∧ ¬ AddressesAgree s := by
  obtain ⟨s₀, ⟨h₀, hinit, hrun₀⟩, hs₀⟩ := machine_ready
  obtain ⟨s₁, step₁, hpc₁, hno, hini₁, hbrk⟩ := hs₀.emptied
  obtain ⟨s₂, S, hr₂, hpc₂, hone, hst, hid, hini₂⟩ := gibs_returned hpc₁ hno hini₁ hbrk
  obtain ⟨s₃, step₃, hdisagree⟩ := OneSpan.misplaced hpc₂ hone hst hid hini₂
  exact ⟨s₃, ⟨h₀, hinit, (((hrun₀.mono fun _ _ _ => trivial).tail trivial step₁).trans hr₂).tail
    trivial step₃⟩, hdisagree⟩

end Partition

end SearchEngine.TcMalloc
