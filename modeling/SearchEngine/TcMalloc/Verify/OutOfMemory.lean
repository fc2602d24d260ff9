import SearchEngine.TcMalloc.Verify.FetchExact

/-!
# When `sbrk` fails

`fetch_from_system` compares the result of `sbrk` with `NULL`, the other two callers do not look
at it: the address `(void *) -1` is taken for memory. `Starved` says when `tc_malloc` makes a
call of `sbrk` that fails, and `failure_silent` that it never returns `NULL` then: the call stops
at a fault, or hands a block out.
-/

namespace SearchEngine.TcMalloc

open LinkedRing Placement Outcome Reach

/-! ## The failing calls -/

/-- `alloc_span` asks for a chunk of records, and `sbrk` fails. -/
def RecordFails (env : Env) (h : Heap) : Prop :=
  h.remBytes < SPANBYTES ∧ env.answer h.sbrkCalls = none

/-- A region of `nbytes` is asked for, and `sbrk` fails for the region or for its record. -/
def RegionFails (env : Env) (nbytes : Nat) (h : Heap) : Prop :=
  env.answer h.sbrkCalls = none ∨ RecordFails env (sbrk env nbytes h).2

/-- The heap of `fetch_span(npage)` after it has a record for the span to be cut. -/
def withRecord (env : Env) (npage : Nat) (h : Heap) : Except Fault Heap := do
  let (newSpan, h) ← allocSpan env npage 0 h
  .ok (if npage > 8 then h.setLoc newSpan .isolated else h)

/-- `fetch_span(npage)` makes a call of `sbrk` that fails: for the first record, for the region
that it asks for itself or through `fetch_from_system`, or for the record that it takes after
`fetch_from_system`. -/
inductive FetchFails (env : Env) (npage : Nat) (h : Heap) : Prop
  | record (empty : h.pgList (bucket npage) = none) (fails : RecordFails env h)
  | direct {h₁ : Heap} (empty : h.pgList (bucket npage) = none)
      (rec : withRecord env npage h = .ok h₁) (nonneg : ¬ toInt npage < 0)
      (noFit : firstFit h₁.pgList (toInt npage).toNat = none) (big : npage > PAGEHEAPSIZE)
      (fails : RegionFails env (pagesToBytes npage) h₁)
  | system {h₁ : Heap} (empty : h.pgList (bucket npage) = none)
      (rec : withRecord env npage h = .ok h₁) (nonneg : ¬ toInt npage < 0)
      (noFit : firstFit h₁.pgList (toInt npage).toNat = none) (small : ¬ npage > PAGEHEAPSIZE)
      (fails : RegionFails env SYSFETCHSIZE h₁)
  | again {h₁ h₂ : Heap} (empty : h.pgList (bucket npage) = none)
      (rec : withRecord env npage h = .ok h₁) (nonneg : ¬ toInt npage < 0)
      (noFit : firstFit h₁.pgList (toInt npage).toNat = none) (small : ¬ npage > PAGEHEAPSIZE)
      (refill : fetchFromSystem env h₁ = .ok h₂) (empty₂ : h₂.pgList (bucket npage) = none)
      (fails : RecordFails env h₂)

/-- A call of `sbrk` made while thread `t`, on its own, serves `tc_malloc(size)` fails: the
request is large, or the cache of the thread and the spans of the class have no object. -/
def Starved (env : Env) (t : Tid) (size : Nat) (s : Sys) : Prop :=
  if size ≤ THRESHALLOC then
    ∃ i, sizeClass size = .ok i ∧ (s.cache t i).objs = [] ∧ s.centralLock = none ∧
      scanCentral i s.heap = .ok none ∧ FetchFails env BATCH s.heap
  else FetchFails env (bytesToPages size) s.heap

/-! ## Reporting the failure -/

/-- The call `tc_malloc(size)` of thread `t`, the other threads stopped, ends in `s'`. -/
def ServesCall (env : Env) (t : Tid) (size : Nat) (s s' : Sys) : Prop :=
  ∃ s₁, Step env s (t, .malloc size) s₁ ∧
    Reaches (Step env) (fun _ e => e = (t, .run)) s₁ s' ∧ s'.pc t = .ready

/-- A block has been handed out, at an address other than `NULL`. -/
def HandsOut (s s' : Sys) : Prop := ∃ b, s'.live = b :: s.live ∧ b.ptr ≠ 0

/-- The page heap, the page map, the central cache, the span pool and the thread caches are as
before. -/
structure SameMemory (s s' : Sys) : Prop where
  pgList : s'.heap.pgList = s.heap.pgList
  list : s'.heap.list = s.heap.list
  idle : s'.heap.idle = s.heap.idle
  next : s'.heap.next = s.heap.next
  prev : s'.heap.prev = s.heap.prev
  pageMapping : s'.heap.pageMapping = s.heap.pageMapping
  objs : s'.heap.objs = s.heap.objs
  pool : s'.heap.bound = s.heap.bound ∧ s'.heap.remBytes = s.heap.remBytes
  caches : ∀ t i, (s'.cache t i).objs = (s.cache t i).objs

/-- `tc_malloc` returns `NULL` and leaves the allocator as it was. -/
def ReportsFailure (env : Env) (t : Tid) (size : Nat) (s : Sys) : Prop :=
  ∃ s', ServesCall env t size s s' ∧ ¬ HandsOut s s' ∧ SameMemory s s'

/-! ## Records, whatever `sbrk` answers -/

/-- A record with nothing on its free list. -/
structure Bare (h : Heap) (s : SpanPtr) : Prop where
  objs : h.objs s = []
  objLen : h.objLen s = 0
  objRefcount : h.objRefcount s = 0

/-- The records that have not been handed out are bare. -/
structure Fresh (h : Heap) : Prop where
  room : h.bound + h.remBytes ≤ h.brk
  bare : ∀ s : Nat, h.bound ≤ s → Bare h s

section Records

variable {env env' : Env} {h h' : Heap} {npages ptr npage : Nat}

theorem Bare.congr {s : SpanPtr} (hb : Bare h s) (h1 : h'.objs = h.objs) (h2 : h'.objLen = h.objLen)
    (h3 : h'.objRefcount = h.objRefcount) : Bare h' s :=
  ⟨by rw [h1]; exact hb.objs, by rw [h2]; exact hb.objLen, by rw [h3]; exact hb.objRefcount⟩

theorem RecordInv.isFresh (hr : RecordInv env h) : Fresh h where
  room := hr.room
  bare s hs := ⟨(hr.fresh s hs).objs, (hr.fresh s hs).objLen, (hr.fresh s hs).objRefcount⟩

theorem Fresh.congr (hf : Fresh h) (h1 : h'.bound = h.bound) (h2 : h'.remBytes = h.remBytes)
    (h3 : h'.brk = h.brk) (h4 : h'.objs = h.objs) (h5 : h'.objLen = h.objLen)
    (h6 : h'.objRefcount = h.objRefcount) : Fresh h' where
  room := by
    rw [h1, h2, h3]
    exact hf.room
  bare s hs := (hf.bare s (h1 ▸ hs)).congr h4 h5 h6

theorem Fresh.sbrk (hf : Fresh h) (env : Env) (nbytes : Nat) : Fresh (sbrk env nbytes h).2 := by
  unfold TcMalloc.sbrk
  cases env.answer h.sbrkCalls with
  | none => exact hf.congr rfl rfl rfl rfl rfl rfl
  | some g =>
    refine ⟨?_, fun s hs => (hf.bare s hs).congr rfl rfl rfl⟩
    have := hf.room
    show h.bound + h.remBytes ≤ h.brk + g * 4096 + nbytes
    omega

/-- The record that `alloc_span` hands out. -/
structure GotRecord (npages : Nat) (h h' : Heap) (s : SpanPtr) : Prop where
  fresh : Fresh h'
  bare : Bare h' s
  pageSize : h'.pageSize s = npages % 2 ^ 32
  pgList : h'.pgList = h.pgList
  new : h.bound ≤ s
  below : s < h'.bound
  old : ∀ x : Nat, x < h.bound → h'.pageSize x = h.pageSize x

theorem Fresh.takeRecord (hf : Fresh h) (hrem : SPANBYTES ≤ h.remBytes) (npages ptr : Nat) :
    GotRecord npages h (takeRecord npages ptr h).2 (takeRecord npages ptr h).1 := by
  have hroom := hf.room
  simp only [SPANBYTES] at hrem
  have hbound : h.bound = h.chunk + h.currInd * 64 := rfl
  refine ⟨⟨?_, fun s hs => ?_⟩, ?_, ?_, rfl, le_rfl, ?_, fun x hx => ?_⟩
  · show h.chunk + (h.currInd + 1) * 64 + (h.remBytes - 64) ≤ h.brk
    omega
  · have hs' : h.chunk + (h.currInd + 1) * 64 ≤ s := hs
    exact (hf.bare s (by omega)).congr rfl rfl rfl
  · exact (hf.bare h.bound le_rfl).congr rfl rfl rfl
  · simp [TcMalloc.takeRecord]
  · show h.chunk + h.currInd * 64 < h.chunk + (h.currInd + 1) * 64
    omega
  · refine Function.update_of_ne ?_ _ _
    show x ≠ h.chunk + h.currInd * 64
    omega

/-- A new chunk of records lies above those handed out. -/
theorem Fresh.newChunk (hf : Fresh h) (env : Env) :
    Sat (newChunk env h) (fun h' => Fresh h' ∧ SPANBYTES ≤ h'.remBytes ∧ h'.pgList = h.pgList ∧
      h.bound ≤ h'.bound ∧ ∀ x : Nat, x < h.bound → h'.pageSize x = h.pageSize x)
      fun _ => True := by
  obtain ⟨nbytes, hnbytes⟩ : ∃ nbytes, nbytes = pagesToBytes SPANPOOLSIZE := ⟨_, rfl⟩
  have hbytes : 128 ≤ nbytes := by rw [hnbytes]; decide
  obtain ⟨pool, hpool⟩ : ∃ pool, pool = SPANPOOLSIZE := ⟨_, rfl⟩
  have hroom := hf.room
  unfold TcMalloc.newChunk
  rw [← hnbytes, ← hpool]
  unfold TcMalloc.sbrk
  cases env.answer h.sbrkCalls with
  | none => trivial
  | some g =>
    obtain ⟨c, hc⟩ : ∃ c, c = h.brk + g * 4096 := ⟨_, rfl⟩
    simp only [← hc]
    split_ifs with hfail
    · trivial
    · refine (updateMapping_frame c _).bind ?_
      rintro h₁ ⟨m, rfl⟩
      have hzero : ∀ x : Nat, x < h.bound → ¬ (c ≤ x ∧ x < c + nbytes) := fun x hx => by omega
      refine ⟨⟨?_, fun s hs => ?_⟩, ?_, rfl, ?_, fun x hx => ?_⟩
      · show c + (0 + 1) * 64 + (nbytes - 64) ≤ c + nbytes
        omega
      · have hs' : c + (0 + 1) * 64 ≤ s := hs
        by_cases hin : c ≤ s ∧ s < c + nbytes
        · exact ⟨if_pos hin, if_pos hin, if_pos hin⟩
        · have hb := hf.bare s (by omega)
          exact ⟨(if_neg hin).trans hb.objs, (if_neg hin).trans hb.objLen,
            (if_neg hin).trans hb.objRefcount⟩
      · show 64 ≤ nbytes - 64
        omega
      · show h.bound ≤ c + (0 + 1) * 64
        omega
      · have hxc : x ≠ c := by omega
        exact (Function.update_of_ne hxc _ _).trans (if_neg (hzero x hx))

theorem Fresh.allocSpan (hf : Fresh h) (env : Env) (npages ptr : Nat) :
    Sat (allocSpan env npages ptr h) (fun r => GotRecord npages h r.2 r.1) fun _ => True := by
  unfold TcMalloc.allocSpan
  by_cases hrem : h.remBytes < SPANBYTES
  · rw [if_pos hrem]
    refine (hf.newChunk env).bind ?_
    rintro h₁ ⟨hf₁, hrem₁, hpg, hbound, hold⟩
    have hgot := hf₁.takeRecord hrem₁ npages ptr
    exact ⟨hgot.fresh, hgot.bare, hgot.pageSize, hgot.pgList.trans hpg,
      hbound.trans hgot.new, hgot.below,
      fun x hx => (hgot.old x (by omega)).trans (hold x hx)⟩
  · rw [if_neg hrem, ok_bind]
    exact hf.takeRecord (Nat.not_lt.mp hrem) npages ptr

/-- `memset` of the records at `(void *) -1` does not end. -/
theorem RecordFails.allocSpan (hfail : RecordFails env h) (npages ptr : Nat) :
    allocSpan env npages ptr h = .error .badAddr := by
  obtain ⟨hrem, hnone⟩ := hfail
  unfold TcMalloc.allocSpan TcMalloc.newChunk TcMalloc.sbrk
  rw [if_pos hrem, hnone]
  rfl

end Records

/-! ## What `fetch_span` makes of a failure -/

section Failing

variable {env : Env} {h h' h₁ : Heap} {npage : Nat}

@[simp] theorem spanlistPush_pgList (i : Nat) (s : SpanPtr) (l : Links) :
    (spanlistPush (.pgList i) s l).pgList = Function.update l.pgList i (some s) := by
  unfold spanlistPush
  cases l.head (.pgList i) with
  | none => rfl
  | some ptr =>
    simp only
    cases l.prev ptr <;> rfl

/-- The region that `sbrk` does not give has the address `(void *) -1`. -/
theorem RegionFails.regionSpan (hfail : RegionFails env (npage * 4096) h) (hf : Fresh h) :
    Sat (regionSpan env npage h) (fun r => GotRecord npage h r.2 r.1 ∧ r.2.start r.1 = sbrkFailed)
      fun _ => True := by
  unfold TcMalloc.regionSpan
  rcases hfail with hnone | hrec
  · have hsbrk : sbrk env (npage * 4096) h =
      (sbrkFailed, { h with sbrkCalls := h.sbrkCalls + 1 }) := by
      unfold sbrk
      rw [hnone]
    simp only [hsbrk]
    have hf₁ : Fresh { h with sbrkCalls := h.sbrkCalls + 1 } := hf.congr rfl rfl rfl rfl rfl rfl
    refine (hf₁.allocSpan env npage sbrkFailed).bind ?_
    rintro ⟨s, h₂⟩ hgot
    refine (updateMapping_frame s _).bind ?_
    rintro h₃ ⟨m, rfl⟩
    exact ⟨⟨hgot.fresh.congr rfl rfl rfl rfl rfl rfl, hgot.bare.congr rfl rfl rfl, hgot.pageSize,
      hgot.pgList, hgot.new, hgot.below, hgot.old⟩, Function.update_self ..⟩
  · simp only [hrec.allocSpan]
    trivial

theorem withRecord_ok (hf : Fresh h) (hrec : withRecord env npage h = .ok h₁) :
    ∃ S h₀, allocSpan env npage 0 h = .ok (S, h₀) ∧
      h₁ = (if npage > 8 then h₀.setLoc S .isolated else h₀) ∧ GotRecord npage h h₁ S := by
  obtain ⟨⟨S, h₀⟩, halloc, htag⟩ := bind_eq_ok hrec
  have hgot := (hf.allocSpan env npage 0).of_ok halloc
  have htag : h₁ = (if npage > 8 then h₀.setLoc S .isolated else h₀) := (Except.ok.inj htag).symm
  refine ⟨S, h₀, halloc, htag, ?_⟩
  have hfields : h₁.bound = h₀.bound ∧ h₁.remBytes = h₀.remBytes ∧ h₁.brk = h₀.brk ∧
      h₁.objs = h₀.objs ∧ h₁.objLen = h₀.objLen ∧ h₁.objRefcount = h₀.objRefcount ∧
      h₁.pageSize = h₀.pageSize ∧ h₁.pgList = h₀.pgList := by
    rw [htag]
    split_ifs <;> exact ⟨rfl, rfl, rfl, rfl, rfl, rfl, rfl, rfl⟩
  obtain ⟨e1, e2, e3, e4, e5, e6, e7, e8⟩ := hfields
  refine ⟨hgot.fresh.congr e1 e2 e3 e4 e5 e6, hgot.bare.congr e4 e5 e6, ?_, e8.trans hgot.pgList,
    hgot.new, by rw [e1]; exact hgot.below, fun x hx => ?_⟩
  · rw [e7]
    exact hgot.pageSize
  · rw [e7]
    exact hgot.old x hx

/-- No list from the one for `npage` on has a span. -/
theorem last_none (hempty : h.pgList (bucket npage) = none)
    (hnoFit : firstFit h.pgList (toInt npage).toNat = none) : h.pgList 255 = none := by
  by_cases hle : npage ≤ 255
  · have hint : toInt npage = npage := toInt_of_lt (by omega)
    rw [hint, Int.toNat_natCast] at hnoFit
    exact firstFit_none hnoFit 255 hle (by decide)
  · rw [← bucket_of_le (show 256 ≤ npage by omega)]
    exact hempty

/-- `fetch_span` has a record and finds no span. -/
theorem fetchWith_noFit (hf : Fresh h) (hlt : npage < 2 ^ 52)
    (hempty : h.pgList (bucket npage) = none)
    (hrec : withRecord env npage h = .ok h₁) (hnonneg : ¬ toInt npage < 0)
    (hnoFit : firstFit h₁.pgList (toInt npage).toNat = none)
    (again : Heap → Except Fault (SpanPtr × Heap)) :
    fetchSpanWith env again npage h =
      if npage > PAGEHEAPSIZE then regionSpan env npage h₁
      else fetchFromSystem env h₁ >>= again := by
  have hbytes : pagesToBytes npage = npage * 4096 := by
    unfold pagesToBytes
    omega
  obtain ⟨S, h₀, halloc, htag, hgot⟩ := withRecord_ok hf hrec
  have hlast : h₁.pgList 255 = none := by
    refine last_none ?_ hnoFit
    rw [hgot.pgList]
    exact hempty
  simp only [fetchSpanWith, hempty, halloc, ok_bind]
  rw [← htag, if_neg hnonneg]
  simp only [hnoFit, PAGEHEAPSIZE, show (256 - 1 : Nat) = 255 from rfl, hlast, scan, hbytes]
  rfl

/-- What a span that is handed out in spite of the failure is like. -/
structure GotSpan (npage : Nat) (h : Heap) (s : SpanPtr) : Prop where
  start : 0 < h.start s
  bare : npage < 256 → Bare h s ∧ h.pageSize s = npage

/-- The cut of a span of 65536 pages. -/
theorem splitSpans_got {R S : SpanPtr} (hpos : 0 < npage) (hlt : npage < 256) (hRS : R ≠ S)
    (hR : h.pageSize R = 65536) (hS : h.pageSize S = npage) (hbare : Bare h S) :
    Sat (splitSpans R S npage h) (fun h' => GotSpan npage h' S) fun _ => True := by
  have hmod : npage % 2 ^ 32 = npage := Nat.mod_eq_of_lt (by omega)
  obtain ⟨left, hleft⟩ : ∃ left, left = (h.pageSize R + 2 ^ 32 - npage % 2 ^ 32) % 2 ^ 32 :=
    ⟨_, rfl⟩
  have hleft' : left = 65536 - npage := by
    rw [hleft, hR, hmod]
    omega
  have hpages : 0 < pagesToBytes32 left := by
    unfold pagesToBytes32
    omega
  unfold splitSpans
  simp only [← hleft, if_pos (show left ≠ 0 by omega)]
  refine (updateMapping_frame S _).mono ?_ fun _ => id
  rintro h' ⟨m, rfl⟩
  refine ⟨?_, fun _ => ⟨hbare.congr rfl rfl rfl, ?_⟩⟩
  · show 0 < Function.update h.start S (h.start R + pagesToBytes32 left) S
    rw [Function.update_self]
    omega
  · exact (Function.update_of_ne (Ne.symm hRS) _ _).trans hS

/-- A span of 65536 pages without memory is on the last list. -/
theorem fetchWith_got {R : SpanPtr} (hf : Fresh h) (hpos : 0 < npage) (hle : npage ≤ 256)
    (hnoFit : firstFit h₁.pgList npage = none) (hempty : h₁.pgList (bucket npage) = none)
    (hpg : h.pgList = Function.update h₁.pgList 255 (some R)) (hR : h.pageSize R = 65536)
    (hstart : h.start R = sbrkFailed) (hbelow : R < h.bound)
    (again : Heap → Except Fault (SpanPtr × Heap)) :
    Sat (fetchSpanWith env again npage h) (fun r => GotSpan npage r.2 r.1) fun _ => True := by
  have hint : toInt npage = npage := toInt_of_lt (by omega)
  by_cases h256 : npage = 256
  · have hhead : h.pgList (bucket npage) = some R := by
      rw [hpg, h256, bucket_of_le le_rfl, Function.update_self]
    simp only [fetchSpanWith, hhead]
    unfold Heap.remove
    cases removeSpan (.pgList (bucket npage)) R h.toLinks with
    | error e => trivial
    | ok l =>
      refine ⟨?_, fun hlt => absurd hlt (by omega)⟩
      show 0 < h.start R
      rw [hstart]
      decide
  · have hlt : npage < 256 := by omega
    have hhead : h.pgList (bucket npage) = none := by
      rw [hpg, bucket_of_lt hpos hlt, Function.update_of_ne (by omega), ← bucket_of_lt hpos hlt]
      exact hempty
    have hff : firstFit h.pgList npage = some (255, R) := by
      rw [hpg]
      exact firstFit_update hlt (firstFit_none hnoFit)
    simp only [fetchSpanWith, hhead]
    refine (hf.allocSpan env npage 0).bind ?_
    rintro ⟨S, h₂⟩ hgot
    obtain ⟨h₃, hh₃⟩ : ∃ h₃, h₃ = if npage > 8 then h₂.setLoc S .isolated else h₂ := ⟨_, rfl⟩
    have hfields : h₃.objs = h₂.objs ∧ h₃.objLen = h₂.objLen ∧ h₃.objRefcount = h₂.objRefcount ∧
        h₃.pageSize = h₂.pageSize ∧ h₃.pgList = h₂.pgList := by
      rw [hh₃]
      split_ifs <;> exact ⟨rfl, rfl, rfl, rfl, rfl⟩
    obtain ⟨e1, e2, e3, e4, e5⟩ := hfields
    have hRS : R ≠ S := by
      rintro rfl
      exact absurd hbelow (Nat.not_lt.mpr hgot.new)
    simp only [← hh₃]
    rw [hint, if_neg (by omega), e5, hgot.pgList, Int.toNat_natCast, hff]
    simp only
    unfold Heap.remove
    cases removeSpan (.pgList 255) R h₃.toLinks with
    | error e => trivial
    | ok l =>
      rw [ok_bind, ok_bind]
      refine Sat.bind (splitSpans_got hpos hlt hRS ?_ ?_ ?_) fun h₄ hgot₄ => hgot₄
      · show h₃.pageSize R = 65536
        rw [e4, hgot.old R hbelow]
        exact hR
      · show h₃.pageSize S = npage
        rw [e4]
        exact hgot.pageSize.trans (Nat.mod_eq_of_lt (by omega))
      · exact hgot.bare.congr e1 e2 e3

/-- After a failure `fetch_span` stops at a fault, or hands out a span at an address other than
`NULL`. -/
theorem FetchFails.got (hfail : FetchFails env npage h) (hf : Fresh h) (hpos : 0 < npage)
    (hlt : npage < 2 ^ 52) :
    Sat (fetchSpan env npage h) (fun r => GotSpan npage r.2 r.1) fun _ => True := by
  unfold fetchSpan fetchSpanDepth
  cases hfail with
  | record hempty hrec =>
    simp only [fetchSpanWith, hempty, hrec.allocSpan]
    trivial
  | direct hempty hrec hnonneg hnoFit hbig hfails =>
    obtain ⟨S, h₀, -, -, hgot⟩ := withRecord_ok hf hrec
    have hbytes : pagesToBytes npage = npage * 4096 := by
      unfold pagesToBytes
      omega
    rw [fetchWith_noFit hf hlt hempty hrec hnonneg hnoFit, if_pos hbig]
    rw [hbytes] at hfails
    refine (hfails.regionSpan hgot.fresh).mono ?_ fun _ => id
    rintro r ⟨-, hstart⟩
    simp only [PAGEHEAPSIZE] at hbig
    refine ⟨?_, fun h => absurd h (by omega)⟩
    rw [hstart]
    decide
  | system hempty hrec hnonneg hnoFit hsmall hfails =>
    rename_i h₀
    obtain ⟨S, -, -, -, hgot⟩ := withRecord_ok hf hrec
    simp only [PAGEHEAPSIZE] at hsmall
    have hint : toInt npage = npage := toInt_of_lt (by omega)
    rw [fetchWith_noFit hf hlt hempty hrec hnonneg hnoFit, if_neg hsmall,
      fetchFromSystem_eq, sat_bind,
      sat_map]
    rw [hint, Int.toNat_natCast] at hnoFit
    have hsize : SYSFETCHSIZE = 65536 * 4096 := rfl
    rw [hsize] at hfails
    refine (hfails.regionSpan hgot.fresh).mono ?_ fun _ => id
    rintro ⟨R, h₂⟩ ⟨hgot₂, hstart⟩
    have hR : h₂.pageSize R = 65536 := hgot₂.pageSize
    have hb : bucket (h₂.pageSize R) = 255 := by
      rw [hR]
      rfl
    simp only [hb]
    unfold fetchSpanDepth
    refine fetchWith_got (h := h₂.push (.pgList 255) R) (R := R) ?_ hpos (by omega) hnoFit ?_ ?_ hR
      hstart hgot₂.below _
    · exact hgot₂.fresh.congr rfl rfl rfl rfl rfl rfl
    · rw [hgot.pgList]
      exact hempty
    · rw [← hgot₂.pgList]
      exact spanlistPush_pgList 255 R h₂.toLinks
  | again hempty hrec hnonneg hnoFit hsmall hrefill hempty₂ hfails =>
    rw [fetchWith_noFit hf hlt hempty hrec hnonneg hnoFit, if_neg hsmall, hrefill, ok_bind]
    unfold fetchSpanDepth
    simp only [fetchSpanWith, hempty₂, hfails.allocSpan]
    trivial

end Failing

/-! ## The call -/

/-- Where the thread `t` is in a call for a small block that needs a span, none of which is to be
had, and that will not return `NULL`. -/
def Heading (s : Sys) (t : Tid) (s' : Sys) : Prop :=
  match s'.pc t with
  | .fetch (.allocate _) i _ =>
    i < CLASSES ∧ s'.heap = s.heap ∧ s'.live = s.live ∧ scanCentral i s.heap = .ok none
  | .refill (.allocate _) i _ => i < CLASSES ∧ s'.heap = s.heap ∧ s'.live = s.live
  | .carve (.allocate _) i _ S => i < CLASSES ∧ s'.live = s.live ∧ GotSpan BATCH s'.heap S
  | .insert (.allocate _) _ batch => s'.live = s.live ∧ batch ≠ [] ∧ ∀ o ∈ batch, 0 < o
  | .ready => HandsOut s s'
  | _ => False

section Call

variable {env env' : Env} {s s₁ s₂ : Sys} {t : Tid} {size i num : Nat} {k : Caller} {S : SpanPtr}

theorem takeObjs_batch {h : Heap} :
    Sat (takeObjs num i S h) (fun r => r.1 ≠ [] ∧ r.1 ⊆ h.objs S) fun _ => True := by
  unfold takeObjs
  simp only
  obtain ⟨n, hn⟩ : ∃ n, n = min num (if h.objRefcount S ≤ h.objLen S then
    h.objLen S - h.objRefcount S else h.objLen S + 2 ^ 64 - h.objRefcount S) := ⟨_, rfl⟩
  simp only [← hn]
  have hsub : (h.objs S).take n ⊆ h.objs S := List.take_subset _ _
  split_ifs with hnil
  · trivial
  · refine Sat.bind (R := fun _ => True) ?_ fun h' _ => ⟨hnil, hsub⟩
    cases Heap.remove (.centralList i) S _ <;> trivial
  · exact ⟨hnil, hsub⟩

/-- The objects of a span that does not begin at `NULL` are not `NULL`. -/
theorem carveSpan_pos {h : Heap} (hgot : GotSpan BATCH h S) (hi : i < CLASSES) :
    ∀ o ∈ (carveSpan (indexToSize i) i S h).objs S, 0 < o := by
  obtain ⟨hbare, hsize⟩ := hgot.bare (by decide)
  intro o ho
  rw [carveSpan_eq hsize hi] at ho
  have hobjs : (((carved h i S).push (.centralList i) S).setLoc S .centralList).objs S =
      (objsFrom (h.start S) (indexToSize i) (capacity i)).reverse ++ h.objs S :=
    Function.update_self ..
  rw [hobjs, hbare.objs, List.append_nil, List.mem_reverse, mem_objsFrom] at ho
  obtain ⟨n, -, rfl⟩ := ho
  have := hgot.start
  omega

theorem heading_step (hfail : FetchFails env BATCH s.heap) (hf : Fresh s.heap)
    (hh : Heading s t s₁) (hstep : Step env s₁ (t, .run) s₂) : Heading s t s₂ := by
  obtain ⟨hen, hnext⟩ := hstep
  unfold Heading at hh
  simp only [Enabled] at hen
  simp only [next] at hnext
  cases hpc : s₁.pc t with
  | fetch k i num =>
    rw [hpc] at hh hnext
    cases k with
    | threadInit j => exact hh.elim
    | allocate n =>
      obtain ⟨hi, hheap, hlive, hscan⟩ := hh
      simp only [continueCall, hheap, hscan, ok_bind] at hnext
      obtain rfl := Except.ok.inj hnext
      unfold Heading
      rw [setPc_pc]
      exact ⟨hi, rfl, hlive⟩
  | refill k i num =>
    rw [hpc] at hh hnext
    cases k with
    | threadInit j => exact hh.elim
    | allocate n =>
      obtain ⟨hi, hheap, hlive⟩ := hh
      simp only [continueCall, hheap] at hnext
      obtain ⟨⟨S, h'⟩, hfetch, hnext⟩ := bind_eq_ok hnext
      obtain rfl := Except.ok.inj hnext
      unfold Heading
      rw [setPc_pc]
      exact ⟨hi, hlive, (hfail.got hf (by decide) (by decide)).of_ok hfetch⟩
  | carve k i num S =>
    rw [hpc] at hh hnext
    cases k with
    | threadInit j => exact hh.elim
    | allocate n =>
      obtain ⟨hi, hlive, hgot⟩ := hh
      simp only [continueCall, endFetch] at hnext
      obtain ⟨⟨batch, h'⟩, htake, hnext⟩ := bind_eq_ok hnext
      obtain rfl := Except.ok.inj hnext
      obtain ⟨hne, hsub⟩ := takeObjs_batch.of_ok htake
      unfold Heading
      rw [setPc_pc]
      exact ⟨hlive, hne, fun o ho => carveSpan_pos hgot hi o (hsub ho)⟩
  | insert k i batch =>
    rw [hpc] at hh hnext
    cases k with
    | threadInit j => exact hh.elim
    | allocate n =>
      obtain ⟨hlive, hne, hpos⟩ := hh
      simp only [continueCall, finishFetch, insertToThreadcache_eq] at hnext
      obtain ⟨o, rest, hrev⟩ := List.exists_cons_of_ne_nil (by simpa using hne : batch.reverse ≠ [])
      have ho : o ∈ batch := by
        rw [← List.mem_reverse, hrev]
        exact List.mem_cons_self
      simp only [hrev, List.cons_append, freelistPop, ok_bind] at hnext
      obtain rfl := Except.ok.inj hnext
      unfold Heading returnBlock
      rw [setPc_pc]
      refine ⟨_, congrArg _ hlive, ?_⟩
      exact Nat.ne_of_gt (hpos o ho)
  | ready =>
    rw [hpc] at hen
    exact hen.elim
  | _ =>
    rw [hpc] at hh
    exact hh.elim

theorem heading_run {s' : Sys} (hfail : FetchFails env BATCH s.heap) (hf : Fresh s.heap)
    (hh : Heading s t s₁) (hrun : Reaches (Step env) (fun _ e => e = (t, .run)) s₁ s') :
    Heading s t s' := by
  refine hrun.invariant hh ?_
  rintro u e v hu rfl hstep
  exact heading_step hfail hf hu hstep

/-- A call that is over stays over. -/
theorem ready_run {s' : Sys} (hpc : s₁.pc t = .ready)
    (hrun : Reaches (Step env) (fun _ e => e = (t, .run)) s₁ s') : s' = s₁ := by
  refine hrun.invariant (I := fun u => u = s₁) rfl ?_
  rintro u e v rfl rfl ⟨hen, -⟩
  simp only [Enabled, hpc] at hen

/-- A call of `tc_malloc` for which `sbrk` fails hands out a block if it ends. -/
theorem Starved.handsOut {s' : Sys} (hstarved : Starved env t size s) (hf : Fresh s.heap)
    (hcall : ServesCall env t size s s') : HandsOut s s' := by
  obtain ⟨s₁, ⟨hen, hnext⟩, hrun, hready⟩ := hcall
  have hlt : size < 2 ^ 64 := by
    simp only [Enabled] at hen
    split at hen
    · exact hen
    · exact hen.elim
  unfold Starved at hstarved
  simp only [next, tcMalloc] at hnext
  split_ifs at hstarved hnext with hsmall
  · obtain ⟨i, hsize, hobjs, -, hscan, hfail⟩ := hstarved
    simp only [allocate, hsize, ok_bind, hobjs] at hnext
    obtain rfl := Except.ok.inj hnext
    have hh : Heading s t (startFetch s t (.allocate size) i) := by
      unfold Heading startFetch
      simp only [setPc_pc]
      exact ⟨(sizeClass_ok hsize).1, rfl, rfl, hscan⟩
    have hend := heading_run hfail hf hh hrun
    unfold Heading at hend
    rw [hready] at hend
    exact hend
  · obtain ⟨⟨S, h'⟩, hfetch, hnext⟩ := bind_eq_ok hnext
    obtain rfl := Except.ok.inj hnext
    simp only [THRESHALLOC] at hsmall
    have hgot := (hstarved.got hf (by unfold bytesToPages; omega)
      (by unfold bytesToPages; omega)).of_ok hfetch
    rw [ready_run (setPc_pc ..) hrun]
    exact ⟨_, rfl, Nat.ne_of_gt hgot.start⟩

/-- From every state reached with successful calls of `sbrk`, in a run whose fetches compute with
sizes that fit: a failing call of `sbrk` is never reported. -/
theorem failure_silent (hs : env.Succeeds) (hr : Reachable env FetchMet s)
    (hstarved : Starved env' t size s) : ¬ ReportsFailure env' t size s := by
  obtain ⟨f, hi⟩ := reachable_base hs hr
  rintro ⟨s', hcall, hnull, -⟩
  exact hnull (hstarved.handsOut hi.heap.record.isFresh hcall)

end Call

/-! ## A system without memory -/

/-- Every `sbrk` fails. -/
def exhausted : Env where
  ini := machine.ini
  answer := fun _ => none
  ini_pos := machine.ini_pos
  ini_lt := machine.ini_lt
  ini_page := machine.ini_page
  answer_lt := fun h => absurd h (Option.some_ne_none _).symm

/-- The page heap is empty, and there are records. -/
structure Spanless (h : Heap) : Prop where
  pgList : h.pgList = fun _ => none
  records : SPANBYTES ≤ h.remBytes

theorem Spanless.withRecord {h : Heap} (hsp : Spanless h) (env : Env) (npage : Nat) :
    ∃ h₁, withRecord env npage h = .ok h₁ ∧ h₁.pgList = fun _ => none := by
  unfold TcMalloc.withRecord allocSpan
  rw [if_neg (Nat.not_lt.mpr hsp.records), ok_bind, ok_bind]
  refine ⟨_, rfl, ?_⟩
  split_ifs <;> exact hsp.pgList

/-- With an empty page heap the system is asked for a region, in vain. -/
theorem Spanless.fails {h : Heap} (hsp : Spanless h) {npage : Nat} (hlt : npage < 2 ^ 31) :
    FetchFails exhausted npage h := by
  obtain ⟨h₁, hrec, hpg⟩ := hsp.withRecord exhausted npage
  have hempty : h.pgList (bucket npage) = none := by rw [hsp.pgList]
  have hint : toInt npage = npage := toInt_of_lt hlt
  have hnonneg : ¬ toInt npage < 0 := by
    rw [hint]
    omega
  have hnoFit : firstFit h₁.pgList (toInt npage).toNat = none := by
    rw [hpg]
    exact firstFit_empty _
  by_cases hbig : npage > PAGEHEAPSIZE
  · exact .direct hempty hrec hnonneg hnoFit hbig (.inl rfl)
  · exact .system hempty hrec hnonneg hnoFit hbig (.inl rfl)

/-- `tc_malloc(2 ^ 20)` takes all the pages that the page heap has after `tc_thread_init`. -/
theorem machine_spanless : ∃ s, Reachable machine FetchMet s ∧ Spanless s.heap := by
  obtain ⟨s, ⟨h₀, hinit, hrun⟩, hs⟩ := machine_ready
  have hone := hs.pool.one
  obtain ⟨st, hfetch⟩ := fetchSpan_whole (e := machine) (k := 256) hone (by decide)
    (fetchSpanDepth machine 1 256)
  have hrun' : fetchSpan machine (bytesToPages (2 ^ 20)) s.heap =
      .ok (4224, { s.heap with pgList := fun _ => none, stray := st }) := hfetch
  have step := malloc_large hs.pc (by decide) (by decide) hrun'
  have hmet : FetchMet s (0, .malloc (2 ^ 20)) := by
    intro _
    have hhead : s.heap.pgList (bucket (bytesToPages (2 ^ 20))) = some 4224 := by
      rw [hone.pg]
      exact Function.update_self ..
    unfold FetchOk
    rw [hhead]
    trivial
  refine ⟨_, ⟨h₀, hinit, (hrun.mono fun _ _ h => h.fetchMet).tail hmet step⟩, rfl, ?_⟩
  have hrem := hone.records
  simp only [CLASSES] at hrem
  show SPANBYTES ≤ s.heap.remBytes
  simp only [SPANBYTES]
  omega

theorem failure_silent_exhausted : ∃ s, Reachable machine FetchMet s ∧
    Starved exhausted 0 (2 ^ 21) s ∧ ¬ ReportsFailure exhausted 0 (2 ^ 21) s := by
  obtain ⟨s, hr, hsp⟩ := machine_spanless
  have hstarved : Starved exhausted 0 (2 ^ 21) s := by
    unfold Starved
    rw [if_neg (by decide)]
    exact hsp.fails (by decide)
  exact ⟨s, hr, hstarved, failure_silent machine_succeeds hr hstarved⟩

/-- After `tc_malloc(2 ^ 20)` the call `tc_malloc(40000)` finds no span and no memory. It does not
return `NULL`. -/
theorem failure_unreported : ∃ s, Reachable machine FetchMet s ∧
    Starved exhausted 0 40000 s ∧ ¬ ReportsFailure exhausted 0 40000 s := by
  obtain ⟨s, hr, hsp⟩ := machine_spanless
  have hstarved : Starved exhausted 0 40000 s := by
    unfold Starved
    rw [if_neg (by decide)]
    exact hsp.fails (by decide)
  obtain ⟨f, hi⟩ := reachable_base machine_succeeds hr
  refine ⟨s, hr, hstarved, ?_⟩
  rintro ⟨s', hcall, hnull, -⟩
  exact hnull (hstarved.handsOut hi.heap.record.isFresh hcall)

end SearchEngine.TcMalloc
