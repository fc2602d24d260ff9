import SearchEngine.TcMalloc.Verify.Scene

/-!
# The sizes of blocks

A small block has the bytes it was asked for in every run (`small_size`). A large block
has them when `Fits` says so: `fetch_span` rounds the size down to pages, and takes the
head of the last list whatever its size.
-/

namespace SearchEngine.TcMalloc

open LinkedRing Placement Outcome Reach

/-- The usable bytes of a block: those of its object, or of its span. -/
def Block.usable (h : Heap) (b : Block) : Nat :=
  if b.Small then h.objsSize b.span else h.pageSize b.span * 4096

/-- A large request gets enough pages: the head of its list is large enough, or the list
is empty and nothing is lost in the conversion to pages. -/
def Fits (h : Heap) (size : Nat) : Prop :=
  match h.pgList (bucket (bytesToPages size)) with
  | some head => size ≤ h.pageSize head * 4096
  | none => bytesToPages size = 256 ∨ (4096 ∣ size ∧ bytesToPages size < 2 ^ 32)

section Pages

variable {d : Discipline} {env : Env} {h : Heap} {f : SpanPlace → List SpanPtr} {npage : Nat}

theorem updateMapping_pageSize (s : SpanPtr) (h : Heap) :
    Sat (updateMapping s h) (fun h' => h'.pageSize = h.pageSize) fun _ => True := by
  simp only [updateMapping]
  refine Sat.bind (R := fun _ => True) ?_ fun _ _ => rfl
  cases updateMappingLoop s (h.pageId s) (toInt (h.pageSize s)).toNat 0 h.pageMapping <;> trivial

theorem remove_pageSize (r : HeadRef) (s : SpanPtr) (h : Heap) :
    Sat (h.remove r s) (fun h' => h'.pageSize = h.pageSize) fun _ => True := by
  simp only [Heap.remove]
  refine Sat.bind (R := fun _ => True) ?_ fun _ _ => rfl
  cases removeSpan r s h.toLinks <;> trivial

theorem allocSpan_pageSize (env : Env) (npages ptr : Nat) (h : Heap) :
    Sat (allocSpan env npages ptr h) (fun r => r.2.pageSize r.1 = npages % 2 ^ 32)
    fun _ => True := by
  have htake : ∀ h', (takeRecord npages ptr h').2.pageSize (takeRecord npages ptr h').1 =
      npages % 2 ^ 32 := fun h' => by simp [takeRecord]
  simp only [allocSpan]
  split_ifs
  · refine Sat.bind (R := fun _ => True) ?_ fun h' _ => sat_ok.mpr (htake h')
    cases newChunk env h <;> trivial
  · exact sat_ok.mpr (htake h)

theorem splitSpans_pageSize {tmp s : SpanPtr} (hne : s ≠ tmp) (h : Heap) :
    Sat (splitSpans tmp s npage h) (fun h' => h'.pageSize s = h.pageSize s) fun _ => True := by
  simp only [splitSpans]
  refine (updateMapping_pageSize _ _).mono (fun h' he => ?_) fun _ => id
  rw [he]
  split_ifs <;> simp [Heap.push, hne]

/-- The pages of the span that `fetch_span` returns. -/
def pagesFor (h : Heap) (npage : Nat) : Nat :=
  match h.pgList (bucket npage) with
  | some head => h.pageSize head
  | none => if npage = 256 then 65536 else npage % 2 ^ 32

/-- Whatever the numbers, the span that `fetch_span` returns has `pagesFor` pages. -/
theorem fetchSpan_pages (hs : env.Succeeds) (hi : HeapInv d env h f) (hm : InMap env h)
    (hpos : 0 < npage) :
    Sat (fetchSpan env npage h) (fun r => r.2.pageSize r.1 = pagesFor h npage) fun _ => True := by
  by_cases hok : FetchOk h npage
  · refine (fetchSpan_sat hs hi hm hpos hok (show SpanPlace.user.Loose from trivial)).mono ?_
      fun _ _ => trivial
    rintro r ⟨f', -, hsz, -⟩
    rw [hsz, fetchedPages, pagesFor]
    cases hh : h.pgList (bucket npage) with
    | some tmp => rfl
    | none =>
      simp only [FetchOk, hh] at hok
      cases hff : firstFit h.pgList (toInt npage).toNat with
      | some jt =>
        simp only
        split_ifs with h256
        · -- no list is searched for 256 pages
          subst h256
          obtain ⟨h1, h2, -⟩ := firstFit_some (j := jt.1) (s := jt.2) hff
          rw [toInt_of_lt (by decide)] at h1
          simp only [Int.toNat_natCast] at h1
          omega
        · rfl
      | none =>
        rw [hff] at hok
        have hlt : npage < 2 ^ 32 := hok
        simp only [Nat.mod_eq_of_lt hlt]
  · -- the numbers do not fit: a span is cut, or the system is asked for the pages
    rw [pagesFor]
    cases hh : h.pgList (bucket npage) with
    | some tmp => exact absurd (by simp only [FetchOk, hh]) hok
    | none =>
      have h256 : npage ≠ 256 := by
        rintro rfl
        refine hok ?_
        simp only [FetchOk, hh]
        cases hff : firstFit h.pgList (toInt 256).toNat with
        | some jt =>
          obtain ⟨h1, h2, -⟩ := firstFit_some (j := jt.1) (s := jt.2) hff
          have e : (toInt 256).toNat = 256 := by decide
          rw [e] at h1
          omega
        | none => simp only [Nat.reduceLT, Nat.reducePow]
      simp only [if_neg h256]
      rw [fetchSpan, fetchSpanDepth]
      simp only [fetchSpanWith, hh]
      refine ((allocSpan_sat hs hi.record hi.pages hi.links npage 0).mono (fun _ => id)
        fun _ _ => trivial).bind ?_
      rintro ⟨s, h₁⟩ ha
      obtain ⟨h₂, hh₂⟩ : ∃ h₂, h₂ = if npage > 8 then h₁.setLoc s .isolated else h₁ := ⟨_, rfl⟩
      have hn := ha.tagged hi hm hh₂
      simp only [← hh₂, hn.pgList]
      by_cases hneg : toInt npage < 0
      · simp only [if_pos hneg]
        trivial
      simp only [if_neg hneg]
      cases hff : firstFit h.pgList (toInt npage).toNat with
      | some jt =>
        obtain ⟨j, tmp⟩ := jt
        obtain ⟨-, -, hhj⟩ := firstFit_some hff
        have ht : tmp ∈ f (.pg j) := List.mem_of_mem_head? ((hi.links.head (.pg j)).symm.trans hhj)
        have hne : s ≠ tmp := fun e => hn.unplaced _ (e ▸ ht)
        refine (remove_pageSize _ _ _).bind fun h₃ he₃ => ?_
        refine (splitSpans_pageSize hne h₃).bind fun h₄ he₄ => ?_
        exact he₄.trans (by rw [he₃, hn.pageSize])
      | none =>
        have hbig : 2 ^ 32 ≤ npage := by
          by_contra hlt
          exact hok (by simp only [FetchOk, hh, hff]; omega)
        have hlast : h.pgList 255 = none := by
          rw [← bucket_of_le (show 256 ≤ npage by omega)]; exact hh
        simp only [PAGEHEAPSIZE, show (256 - 1 : Nat) = 255 from rfl, hlast, scan,
          if_pos (show npage > 256 by omega)]
        refine (allocSpan_pageSize env npage _ _).bind fun r hr => ?_
        refine (updateMapping_pageSize _ _).bind fun h₄ he₄ => ?_
        show h₄.pageSize r.1 = _
        rw [he₄]
        exact hr

end Pages

section Sizes

variable {env : Env} {s s' : Sys} {t : Tid} {size : Nat}

/-- A large request that `fetch_span` serves with enough pages. -/
theorem fits_iff {h : Heap} (hlt : THRESHALLOC < size) :
    size ≤ pagesFor h (bytesToPages size) * 4096 ↔ Fits h size := by
  have hpages : bytesToPages size = size / 4096 := rfl
  rw [pagesFor, Fits]
  cases h.pgList (bucket (bytesToPages size)) with
  | some head => exact Iff.rfl
  | none =>
    simp only
    split_ifs with h256
    · refine ⟨fun _ => .inl h256, fun _ => ?_⟩
      omega
    · constructor
      · intro hle
        omega
      · rintro (h | ⟨h1, h2⟩)
        · exact absurd h h256
        · omega

/-- In every state reached, the small blocks have the bytes they were asked for, and the
next call for a large block returns one that does exactly if `Fits` holds. -/
theorem block_sizes (hs : env.Succeeds) (hr : Reachable env FetchMet s) :
    (∀ b ∈ s.live, b.Small → b.size ≤ b.usable s.heap) ∧
    ∀ t size s', THRESHALLOC < size → Step env s (t, .malloc size) s' →
      ∃ b, s'.live = b :: s.live ∧ b.size = size ∧
      (size ≤ b.usable s'.heap ↔ Fits s.heap size) := by
  obtain ⟨f, hi⟩ := reachable_base hs hr
  refine ⟨fun b hb hsm => ?_, fun t size s' hlt hstep => ?_⟩
  · obtain ⟨-, i, hobj, hle⟩ := hi.objs.block hb hsm
    rw [Block.usable, if_pos hsm, (hi.heap.inClass_of_size hobj.1).2.1]
    exact hle
  · have hnext : tcMalloc env s t size = .ok s' := hstep.2
    rw [tcMalloc, if_neg (by omega)] at hnext
    obtain ⟨⟨S, h'⟩, hrun, hret⟩ := bind_eq_ok hnext
    obtain rfl := Except.ok.inj hret
    have hpos := bytesToPages_pos hlt
    have hpages := (fetchSpan_pages hs hi.heap hi.inMap hpos).of_ok hrun
    have hns : ¬ (⟨h'.start S, size, S⟩ : Block).Small := fun h => by
      have : size ≤ THRESHALLOC := h
      omega
    refine ⟨⟨h'.start S, size, S⟩, rfl, rfl, ?_⟩
    rw [Block.usable, if_neg hns, ← fits_iff hlt]
    exact Iff.of_eq (by rw [← hpages]; rfl)

theorem block_sizes_machine : ∃ s, Reachable machine FetchMet s ∧ s.live ≠ [] ∧
    ∀ b ∈ s.live, b.Small → b.size ≤ b.usable s.heap := by
  obtain ⟨s, ⟨h₀, hinit, hrun⟩, hlive, -⟩ := machine_block
  have hr : Reachable machine FetchMet s := ⟨h₀, hinit, hrun.mono fun _ _ h => h.fetchMet⟩
  exact ⟨s, hr, hlive, (block_sizes machine_succeeds hr).1⟩

/-- The block of `tc_malloc(32769)` has 32768 bytes. -/
theorem block_short : ∃ s s' b, Reachable machine Any s ∧ Step machine s (0, .malloc 32769) s' ∧
    s'.live = [b] ∧ b.size = 32769 ∧ b.usable s'.heap = 32768 := by
  obtain ⟨s, ⟨h₀, hinit, hrun⟩, hs⟩ := machine_ready
  obtain ⟨s', S, hstep, hlive, hpages, -⟩ := hs.undersized
  refine ⟨s, s', _, ⟨h₀, hinit, hrun.mono fun _ _ _ => trivial⟩, hstep, hlive, rfl, ?_⟩
  have hlarge : ¬ (⟨s'.heap.start S, 32769, S⟩ : Block).Small := show ¬ 32769 ≤ 32768 by decide
  rw [Block.usable, if_neg hlarge, hpages]

end Sizes

end SearchEngine.TcMalloc
