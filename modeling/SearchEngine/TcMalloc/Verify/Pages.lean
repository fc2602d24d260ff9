import SearchEngine.TcMalloc.Verify.Lists
import SearchEngine.Lib.Outcome

/-!
# Span records, the page map, and what a span owns

`Owns env h s`: the pages that the fields of the record `s` name are below the
program break, `start` is the address of the first, and the page map leads from each
of them back to `s`. Two spans that own pages therefore own different ones.

`RecordInv` and `PageInv` are the parts of the invariant of the page heap about the
records, the chunks they come from and the page map; `allocSpan_sat` and
`PageInv.map` say what `alloc_span` and `update_mapping` do to them.
-/

namespace SearchEngine.TcMalloc

open LinkedRing Placement Outcome

/-! ## The page map -/

/-- The page map after `n` pages from `a` on are given to `s`. -/
def mapRange (m : Nat → Option SpanPtr) (a n : Nat) (s : SpanPtr) : Nat → Option SpanPtr :=
  fun k => if a ≤ k ∧ k < a + n then some s else m k

theorem mapRange_of_mem {m : Nat → Option SpanPtr} {a n k : Nat} {s : SpanPtr} (h1 : a ≤ k)
    (h2 : k < a + n) : mapRange m a n s k = some s := if_pos ⟨h1, h2⟩

theorem mapRange_of_not_mem {m : Nat → Option SpanPtr} {a n k : Nat} {s : SpanPtr}
    (h : k < a ∨ a + n ≤ k) : mapRange m a n s k = m k := if_neg (by omega)

theorem updateMappingLoop_eq (s : SpanPtr) (a : Nat) :
    ∀ (n i : Nat) (m : Nat → Option SpanPtr), a + i < 2 ^ 32 →
      updateMappingLoop s a n i m =
        if n = 0 ∨ a + i + n ≤ PAGEMAPSIZE then .ok (mapRange m (a + i) n s) else .error .pageMap
  | 0, i, m, _ => by
    have : mapRange m (a + i) 0 s = m := funext fun k => mapRange_of_not_mem (by omega)
    simp [updateMappingLoop, this]
  | n + 1, i, m, h => by
    have hk : (a + i) % 2 ^ 32 = a + i := Nat.mod_eq_of_lt h
    simp only [updateMappingLoop, hk]
    by_cases hlt : a + i < PAGEMAPSIZE
    · have hrec := updateMappingLoop_eq s a n (i + 1) (Function.update m (a + i) (some s))
        (by simp only [PAGEMAPSIZE] at hlt; omega)
      have hmap : mapRange (Function.update m (a + i) (some s)) (a + (i + 1)) n s =
          mapRange m (a + i) (n + 1) s := by
        funext k
        simp only [mapRange, Function.update_apply]
        split_ifs <;> first | rfl | omega
      rw [if_pos hlt, hrec, hmap]
      have : (n = 0 ∨ a + (i + 1) + n ≤ PAGEMAPSIZE) ↔
          (n + 1 = 0 ∨ a + i + (n + 1) ≤ PAGEMAPSIZE) := by omega
      simp only [this]
    · rw [if_neg hlt, if_neg (by omega)]

theorem toInt_of_lt {n : Nat} (h : n < 2 ^ 31) : toInt n = n := by
  have : n % 2 ^ 32 = n := Nat.mod_eq_of_lt (by omega)
  rw [toInt, this, if_pos h]

/-- `update_mapping`, of a span of fewer than `2 ^ 31` pages. -/
theorem updateMapping_eq {s : SpanPtr} {h : Heap} (hs : h.pageSize s < 2 ^ 31)
    (hi : h.pageId s < 2 ^ 32) :
    updateMapping s h =
      if h.pageSize s = 0 ∨ h.pageId s + h.pageSize s ≤ PAGEMAPSIZE then
        .ok { h with pageMapping := mapRange h.pageMapping (h.pageId s) (h.pageSize s) s }
      else .error .pageMap := by
  rw [updateMapping, toInt_of_lt hs]
  simp only [Int.toNat_natCast]
  rw [updateMappingLoop_eq s _ _ 0 _ (by omega), Nat.add_zero]
  split <;> rfl

/-- `update_mapping` runs over the page map, or gives the pages of the span to it. -/
theorem updateMapping_sat {s : SpanPtr} {h : Heap} {Q : Heap → Prop}
    (hs : h.pageSize s < 2 ^ 31) (hi : h.pageId s < 2 ^ 32)
    (hQ : h.pageSize s = 0 ∨ h.pageId s + h.pageSize s ≤ PAGEMAPSIZE →
      Q { h with pageMapping := mapRange h.pageMapping (h.pageId s) (h.pageSize s) s }) :
    Sat (updateMapping s h) Q (· = .pageMap) := by
  rw [updateMapping_eq hs hi]
  split_ifs with hmap
  · exact hQ hmap
  · rfl

/-! ## Addresses and page numbers -/

/-- `addr_to_index` of an address in page `k` of the heap. -/
theorem addrToIndex_eq (env : Env) {a k : Nat} (h1 : env.ini + k * 4096 ≤ a)
    (h2 : a < env.ini + (k + 1) * 4096) (hk : k < 2 ^ 32) : addrToIndex a env.ini = k := by
  obtain ⟨m, hm⟩ := env.ini_page
  have hlt := env.ini_lt
  rw [hm] at h1 h2 hlt ⊢
  simp only [addrToIndex, bytesToPages]
  omega

/-- The program break, in pages from the start of the heap. -/
def BrkAt (env : Env) (h : Heap) (n : Nat) : Prop := h.brk = env.ini + n * 4096

theorem sbrk_eq {env : Env} (hs : env.Succeeds) {h : Heap} {n : Nat} (hn : BrkAt env h n)
    (nbytes : Nat) :
    ∃ g, g < 2 ^ 20 ∧ sbrk env nbytes h = (env.ini + (n + g) * 4096,
      { h with
        brk := env.ini + (n + g) * 4096 + nbytes
        sbrkCalls := h.sbrkCalls + 1
        regions := nbytes :: h.regions }) := by
  obtain ⟨g, hg⟩ := Option.ne_none_iff_exists'.mp (hs h.sbrkCalls)
  refine ⟨g, env.answer_lt hg, ?_⟩
  have : h.brk + g * 4096 = env.ini + (n + g) * 4096 := by rw [hn]; omega
  simp only [sbrk, hg, this]

/-! ## The invariant -/

/-- The address behind the last record handed out. -/
def Heap.bound (h : Heap) : Nat := h.chunk + h.currInd * 64

/-- A record that has not been written since its chunk was cleared (its links
apart). -/
structure Blank (h : Heap) (s : SpanPtr) : Prop where
  objs : h.objs s = []
  objLen : h.objLen s = 0
  loc : h.loc s = .pageheap
  start : h.start s = 0
  objsSize : h.objsSize s = 0
  objRefcount : h.objRefcount s = 0
  pageSize : h.pageSize s = 0
  pageId : h.pageId s = 0

theorem Blank.congr {h h' : Heap} {s : Nat} (hb : Blank h s) (h1 : h'.objs s = h.objs s)
    (h2 : h'.objLen s = h.objLen s) (h3 : h'.loc s = h.loc s) (h4 : h'.start s = h.start s)
    (h5 : h'.objsSize s = h.objsSize s) (h6 : h'.objRefcount s = h.objRefcount s)
    (h7 : h'.pageSize s = h.pageSize s) (h8 : h'.pageId s = h.pageId s) : Blank h' s :=
  ⟨h1.trans hb.objs, h2.trans hb.objLen, h3.trans hb.loc, h4.trans hb.start, h5.trans hb.objsSize,
    h6.trans hb.objRefcount, h7.trans hb.pageSize, h8.trans hb.pageId⟩

/-- The records and the program break. -/
structure RecordInv (env : Env) (h : Heap) : Prop where
  ini : h.iniBrkAddr = env.ini
  brk : ∃ n, BrkAt env h n ∧ n < 2 ^ 32 - 2 ^ 21
  room : h.bound + h.remBytes ≤ h.brk
  fresh : ∀ s : Nat, h.bound ≤ s → Blank h s

/-- The span owns the pages that its record names. -/
structure Owns (env : Env) (h : Heap) (s : Nat) : Prop where
  below : s + 64 ≤ h.bound
  pos : 0 < h.pageSize s
  inMap : h.pageId s + h.pageSize s ≤ PAGEMAPSIZE
  start : h.start s = env.ini + h.pageId s * 4096
  inBrk : env.ini + (h.pageId s + h.pageSize s) * 4096 ≤ h.brk
  mapped : ∀ k, h.pageId s ≤ k → k < h.pageId s + h.pageSize s → h.pageMapping k = some s
  region : ∃ r ∈ h.regions, h.pageSize s * 4096 ≤ r

/-- The chunk of records at `c`: the page map leads from its pages to its first
record. -/
structure ChunkAt (env : Env) (h : Heap) (c : Nat) : Prop where
  below : c + 64 ≤ h.bound
  pages : ∃ k, c = env.ini + k * 4096 ∧ env.ini + (k + SPANPOOLSIZE) * 4096 ≤ h.brk ∧
    ∀ j, k ≤ j → j < k + SPANPOOLSIZE → h.pageMapping j = some c

/-- Spans, chunks and pages. -/
structure PageInv (env : Env) (h : Heap) (f : SpanPlace → List SpanPtr) : Prop where
  placed : Placed f
  owned : ∀ {p s}, s ∈ f p → Owns env h s
  chunks : ∀ c ∈ h.chunks, ChunkAt env h c ∧ ∀ p, c ∉ f p

theorem Owns.mono {env : Env} {h h' : Heap} {s : Nat} (ho : Owns env h s)
    (hb : h.bound ≤ h'.bound) (hbrk : h.brk ≤ h'.brk) (hr : h.regions ⊆ h'.regions)
    (h1 : h'.pageSize s = h.pageSize s)
    (h2 : h'.pageId s = h.pageId s) (h3 : h'.start s = h.start s)
    (hm : ∀ k, h.pageId s ≤ k → k < h.pageId s + h.pageSize s →
      h'.pageMapping k = h.pageMapping k) : Owns env h' s where
  below := ho.below.trans hb
  pos := h1 ▸ ho.pos
  inMap := by rw [h1, h2]; exact ho.inMap
  start := by rw [h3, h2]; exact ho.start
  inBrk := by rw [h1, h2]; exact ho.inBrk.trans hbrk
  mapped k hk hk' := by
    rw [h2] at hk
    rw [h1, h2] at hk'
    rw [hm k hk hk', ho.mapped k hk hk']
  region := by
    obtain ⟨r, hmem, hle⟩ := ho.region
    exact ⟨r, hr hmem, h1 ▸ hle⟩

/-- A page has one owner. -/
theorem Owns.apart {env : Env} {h : Heap} {s s' : Nat} (ho : Owns env h s) (ho' : Owns env h s')
    (hne : s ≠ s') :
    h.pageId s + h.pageSize s ≤ h.pageId s' ∨ h.pageId s' + h.pageSize s' ≤ h.pageId s := by
  by_contra hc
  push Not at hc
  have hk := ho.mapped (max (h.pageId s) (h.pageId s')) (le_max_left _ _)
    (by have := ho.pos; omega)
  have hk' := ho'.mapped (max (h.pageId s) (h.pageId s')) (le_max_right _ _)
    (by have := ho'.pos; omega)
  exact hne (Option.some.inj (hk.symm.trans hk'))

namespace PageInv

variable {env : Env} {h : Heap} {f f' : SpanPlace → List SpanPtr}

theorem congr_places (hp : PageInv env h f) (hf : Placed f')
    (hmem : ∀ p s, s ∈ f' p → ∃ q, s ∈ f q) : PageInv env h f' where
  placed := hf
  owned hs := by
    obtain ⟨q, hq⟩ := hmem _ _ hs
    exact hp.owned hq
  chunks c hc := ⟨(hp.chunks c hc).1, fun p hcp => by
    obtain ⟨q, hq⟩ := hmem _ _ hcp
    exact (hp.chunks c hc).2 q hq⟩

/-- No span in use is a record beyond the last one handed out. -/
theorem not_mem_of_bound (hp : PageInv env h f) {s : Nat} (hs : h.bound ≤ s) (p : SpanPlace) :
    s ∉ f p := fun h' => by have := (hp.owned h').below; omega

/-- Pages `a, …, a + n - 1` belong to no span in use and to no chunk. -/
structure FreePages (env : Env) (h : Heap) (f : SpanPlace → List SpanPtr) (a n : Nat) : Prop where
  spans : ∀ {p s}, s ∈ f p → h.pageId s + h.pageSize s ≤ a ∨ a + n ≤ h.pageId s
  chunks : ∀ c ∈ h.chunks, ∀ k, c = env.ini + k * 4096 → k + SPANPOOLSIZE ≤ a ∨ a + n ≤ k

/-- Writing the page map at free pages disturbs nothing. -/
theorem map (hp : PageInv env h f) {a n : Nat} (hfree : FreePages env h f a n) (s : SpanPtr) :
    PageInv env { h with pageMapping := mapRange h.pageMapping a n s } f where
  placed := hp.placed
  owned {p x} hx := by
    have ho := hp.owned hx
    refine ho.mono le_rfl le_rfl (List.Subset.refl _) rfl rfl rfl fun k h1 h2 =>
      mapRange_of_not_mem ?_
    have := hfree.spans hx
    omega
  chunks c hc := by
    obtain ⟨⟨hb, k, hk, hkb, hm⟩, hcf⟩ := hp.chunks c hc
    refine ⟨⟨hb, k, hk, hkb, fun j h1 h2 => ?_⟩, hcf⟩
    rw [← hm j h1 h2]
    have := hfree.chunks c hc k hk
    exact mapRange_of_not_mem (by omega)

/-- Pages at or beyond an old break are free, if the chunks obtained since lie beyond
them. -/
theorem freePages_of_brk {a n b : Nat}
    (hs : ∀ {p s}, s ∈ f p → env.ini + (h.pageId s + h.pageSize s) * 4096 ≤ b)
    (hb : b ≤ env.ini + a * 4096)
    (hc : ∀ c ∈ h.chunks, c + SPANPOOLSIZE * 4096 ≤ b ∨ env.ini + (a + n) * 4096 ≤ c) :
    FreePages env h f a n where
  spans hx := by
    have := hs hx
    omega
  chunks c hcm k hk := by
    have := hc c hcm
    simp only [SPANPOOLSIZE] at this ⊢
    omega

end PageInv

/-! ## `alloc_span` -/

theorem clear_eq {β : Type} {c n : Nat} {g : Nat → β} {v : β} (hg : ∀ s, c ≤ s → g s = v) :
    (fun s => if c ≤ s ∧ s < c + n then v else g s) = g := by
  funext s
  split_ifs with hs
  · exact (hg s hs.1).symm
  · rfl

/-- Clearing records that have not been written changes only their links. -/
theorem zeroSpans_of_fresh {h : Heap} {c n : Nat} (hf : ∀ s : Nat, c ≤ s → Blank h s) :
    zeroSpans c n h = { h with
      prev := fun s => if c ≤ s ∧ s < c + n then none else h.prev s
      next := fun s => if c ≤ s ∧ s < c + n then none else h.next s } := by
  simp only [zeroSpans]
  rw [clear_eq fun s hs => (hf s hs).objs, clear_eq fun s hs => (hf s hs).objLen,
    clear_eq fun s hs => (hf s hs).loc, clear_eq fun s hs => (hf s hs).start,
    clear_eq fun s hs => (hf s hs).objsSize, clear_eq fun s hs => (hf s hs).objRefcount,
    clear_eq fun s hs => (hf s hs).pageSize, clear_eq fun s hs => (hf s hs).pageId]

/-- What `alloc_span` keeps: it may obtain a chunk of records, and it writes no record
handed out before. -/
structure Kept (env : Env) (f : SpanPlace → List SpanPtr) (h h' : Heap) : Prop where
  record : RecordInv env h'
  pages : PageInv env h' f
  links : LinkInv h'.toLinks f
  bound : h.bound ≤ h'.bound
  objs : h'.objs = h.objs
  objLen : h'.objLen = h.objLen
  loc : h'.loc = h.loc
  start : h'.start = h.start
  objsSize : h'.objsSize = h.objsSize
  objRefcount : h'.objRefcount = h.objRefcount
  pgList : h'.pgList = h.pgList
  list : h'.list = h.list
  idle : h'.idle = h.idle
  stray : h'.stray = h.stray
  old : ∀ x : Nat, x < h.bound → h'.pageSize x = h.pageSize x ∧ h'.pageId x = h.pageId x
  brk : ∀ {n}, BrkAt env h n → ∃ n', BrkAt env h' n' ∧ n ≤ n' ∧ (n' = n ∨ n' ≤ PAGEMAPSIZE)
  chunks : ∀ c ∈ h'.chunks, c ∈ h.chunks ∨ h.brk ≤ c
  regions : h.regions ⊆ h'.regions

/-- `alloc_span` has taken the record `s`. -/
structure Alloc (env : Env) (f : SpanPlace → List SpanPtr) (npages ptr : Nat) (h h' : Heap)
    (s : Nat) : Prop extends Kept env f h h' where
  new : h.bound ≤ s
  below : s + 64 ≤ h'.bound
  notChunk : s ∉ h'.chunks
  pageSize : h'.pageSize s = npages % 2 ^ 32
  pageId : h'.pageId s = if ptr = 0 then 0 else addrToIndex ptr env.ini % 2 ^ 32

theorem Kept.refl {env : Env} {f : SpanPlace → List SpanPtr} {h : Heap} (hr : RecordInv env h)
    (hp : PageInv env h f) (hl : LinkInv h.toLinks f) : Kept env f h h where
  record := hr
  pages := hp
  links := hl
  bound := le_rfl
  objs := rfl
  objLen := rfl
  loc := rfl
  start := rfl
  objsSize := rfl
  objRefcount := rfl
  pgList := rfl
  list := rfl
  idle := rfl
  stray := rfl
  old _ _ := ⟨rfl, rfl⟩
  brk hn := ⟨_, hn, le_rfl, .inl rfl⟩
  chunks _ hc := .inl hc
  regions := List.Subset.refl _

/-- A linked span is a record handed out. -/
theorem PageInv.lt_bound {env : Env} {h : Heap} {f : SpanPlace → List SpanPtr}
    (hp : PageInv env h f) {x : Nat} (hx : Linked f x) : x < h.bound := by
  rcases hx with ⟨r, hx⟩ | ⟨i, hx⟩ <;> exact lt_of_lt_of_le (by omega) (hp.owned hx).below

/-- The new chunk of `alloc_span`. -/
theorem newChunk_sat {env : Env} (hs : env.Succeeds) {f : SpanPlace → List SpanPtr} {h : Heap}
    (hr : RecordInv env h) (hp : PageInv env h f) (hl : LinkInv h.toLinks f) :
    Sat (newChunk env h) (fun h' => Kept env f h h' ∧ 64 ≤ h'.remBytes) (· = .pageMap) := by
  obtain ⟨n, hn, hlt⟩ := hr.brk
  have hini := env.ini_lt
  have hroom := hr.room
  obtain ⟨g, hg, hsbrk⟩ := sbrk_eq hs hn (pagesToBytes SPANPOOLSIZE)
  have hbytes : pagesToBytes SPANPOOLSIZE = 5898240 := rfl
  obtain ⟨c, hc⟩ : ∃ c : Nat, c = env.ini + (n + g) * 4096 := ⟨_, rfl⟩
  have hbrk : h.brk = env.ini + n * 4096 := hn
  have hcf : c ≠ sbrkFailed := by simp only [sbrkFailed]; omega
  have hfresh : ∀ s : Nat, c ≤ s → Blank h s := fun s hsc => hr.fresh s (by omega)
  have hid : addrToIndex c env.ini = n + g := addrToIndex_eq env (by omega) (by omega) (by omega)
  have hidm : (n + g) % 2 ^ 32 = n + g := Nat.mod_eq_of_lt (by omega)
  rw [hbytes, ← hc] at hsbrk
  have hzero := zeroSpans_of_fresh
    (h := { h with
      brk := c + 5898240
      sbrkCalls := h.sbrkCalls + 1
      regions := 5898240 :: h.regions }) (c := c) (n := 5898240)
    fun s hsc => (hfresh s hsc).congr rfl rfl rfl rfl rfl rfl rfl rfl
  simp only [newChunk, hbytes, hsbrk, if_neg hcf, hzero]
  simp only [hr.ini, hid, hidm]
  rw [sat_bind]
  refine updateMapping_sat (by simp [SPANPOOLSIZE]) (by simp only [Function.update_self]; omega)
    fun hmap => ?_
  simp only [Function.update_self, sat_ok] at hmap ⊢
  have hend : n + g ≤ 8388608 - 1440 := Nat.le_sub_of_add_le (hmap.resolve_left (by decide))
  clear hmap
  have hold : ∀ x : Nat, x < h.bound → x ≠ c := fun x hx e => by omega
  have hfree : PageInv.FreePages env h f (n + g) SPANPOOLSIZE :=
    PageInv.freePages_of_brk (fun hx => (hp.owned hx).inBrk) (by omega) fun x hx => by
      obtain ⟨k, hk, hkb, -⟩ := (hp.chunks x hx).1.pages
      simp only [SPANPOOLSIZE] at hkb ⊢
      omega
  have hp' := hp.map hfree c
  refine ⟨⟨⟨rfl, ⟨n + g + 1440, ?_, by omega⟩, ?_, fun s hsb => ?_⟩, ⟨hp.placed, ?_, ?_⟩, ?_, ?_,
    rfl, rfl, rfl, rfl, rfl, rfl, rfl, rfl, rfl, rfl, ?_, ?_, ?_, List.subset_cons_self _ _⟩, ?_⟩
  · simp only [BrkAt]; omega
  · simp only [Heap.bound, SPANBYTES]; omega
  · simp only [Heap.bound] at hsb
    have hsc : s ≠ c := by omega
    have hb := hfresh s (by omega)
    exact hb.congr rfl rfl rfl rfl rfl rfl (by simp [hsc]) (by simp [hsc])
  · intro p x hx
    have hxc : x ≠ c := hold x (by have := (hp.owned hx).below; omega)
    refine (hp'.owned hx).mono ?_ ?_ (List.subset_cons_self _ _) (by simp [hxc]) (by simp [hxc]) rfl
      fun k _ _ => rfl
    · simp only [Heap.bound] at hroom ⊢; omega
    · simp only; omega
  · intro x hx
    rcases List.mem_cons.mp hx with rfl | hx
    · refine ⟨⟨?_, n + g, hc, ?_, fun j h1 h2 => mapRange_of_mem h1 h2⟩, fun p hxp => ?_⟩
      · simp only [Heap.bound]; omega
      · simp only [SPANPOOLSIZE]; omega
      · have := (hp.owned hxp).below
        omega
    · obtain ⟨⟨hb, k, hk, hkb, hm⟩, hxf⟩ := hp'.chunks x hx
      refine ⟨⟨?_, k, hk, ?_, hm⟩, hxf⟩
      · simp only [Heap.bound] at hb hroom ⊢; omega
      · simp only [SPANPOOLSIZE] at hkb ⊢; omega
  · refine hl.congr_links (fun r => by cases r <;> rfl) fun x hx => ?_
    have := hp.lt_bound hx
    have hxc : ¬ (c ≤ x ∧ x < c + 5898240) := by omega
    simp [hxc]
  · simp only [Heap.bound] at hroom ⊢; omega
  · intro x hx
    simp [hold x hx]
  · intro m hm
    have hmn : m = n := by simp only [BrkAt] at hm; omega
    refine ⟨n + g + 1440, ?_, by omega, .inr (by simp only [PAGEMAPSIZE]; omega)⟩
    simp only [BrkAt]; omega
  · intro x hx
    rcases List.mem_cons.mp hx with rfl | hx
    · exact .inr (by omega)
    · exact .inl hx
  · simp only [SPANBYTES]; omega

/-- The record that `alloc_span` takes. -/
theorem Kept.take {env : Env} {f : SpanPlace → List SpanPtr} {h h' : Heap} (hk : Kept env f h h')
    (hrem : 64 ≤ h'.remBytes) (npages ptr : Nat) :
    Alloc env f npages ptr h (takeRecord npages ptr h').2 (takeRecord npages ptr h').1 := by
  have hroom := hk.record.room
  have hnew : (takeRecord npages ptr h').1 = h'.bound := rfl
  have hbound : (takeRecord npages ptr h').2.bound = h'.bound + 64 := by
    simp only [takeRecord, Heap.bound]; omega
  have hold : ∀ x : Nat, x < h'.bound →
      (takeRecord npages ptr h').2.pageSize x = h'.pageSize x ∧
      (takeRecord npages ptr h').2.pageId x = h'.pageId x := by
    intro x hx
    have hne : x ≠ h'.chunk + h'.currInd * 64 := by simp only [Heap.bound] at hx; omega
    refine ⟨by simp [takeRecord, hne], ?_⟩
    by_cases hz : ptr = 0 <;> simp [takeRecord, hz, hne]
  refine ⟨⟨⟨hk.record.ini, hk.record.brk, ?_, fun s hsb => ?_⟩,
    ⟨hk.pages.placed, fun {p x} hx => ?_,
    fun c hc => ?_⟩, ?_, ?_, hk.objs, hk.objLen, hk.loc, hk.start, hk.objsSize, hk.objRefcount,
    hk.pgList, hk.list, hk.idle, hk.stray, fun x hx => ?_, hk.brk, hk.chunks, hk.regions⟩, ?_, ?_,
    fun hc => ?_, ?_, ?_⟩
  · rw [hbound]
    simp only [takeRecord, SPANBYTES]
    omega
  · rw [hbound] at hsb
    have hb := hk.record.fresh s (by omega)
    have hne : s ≠ h'.chunk + h'.currInd * 64 := by simp only [Heap.bound] at hsb; omega
    refine hb.congr rfl rfl rfl rfl rfl rfl (by simp [takeRecord, hne]) ?_
    by_cases hz : ptr = 0 <;> simp [takeRecord, hz, hne]
  · have ho := hk.pages.owned hx
    obtain ⟨h1, h2⟩ := hold x (by have := ho.below; omega)
    exact ho.mono (by rw [hbound]; omega) le_rfl (List.Subset.refl _) h1 h2 rfl fun _ _ _ => rfl
  · obtain ⟨⟨hb, hpages⟩, hcf⟩ := hk.pages.chunks c hc
    exact ⟨⟨by rw [hbound]; omega, hpages⟩, hcf⟩
  · refine hk.links.congr_links (fun r => by cases r <;> rfl) fun x hx => ?_
    have hlt := hk.pages.lt_bound hx
    have hne : x ≠ h'.chunk + h'.currInd * 64 := (ne_of_lt hlt)
    simp [takeRecord, hne]
  · have := hk.bound
    rw [hbound]; omega
  · obtain ⟨h1, h2⟩ := hold x (lt_of_lt_of_le hx hk.bound)
    obtain ⟨h3, h4⟩ := hk.old x hx
    exact ⟨h1.trans h3, h2.trans h4⟩
  · exact hk.bound
  · rw [hnew, hbound]
  · have := (hk.pages.chunks _ hc).1.below
    rw [hnew] at this
    omega
  · simp [takeRecord]
  · by_cases hz : ptr = 0
    · rw [if_pos hz, hnew]
      simpa [takeRecord, hz] using (hk.record.fresh h'.bound le_rfl).pageId
    · simp [takeRecord, hz, hk.record.ini]

/-- `alloc_span` takes a record that nothing uses, or runs over the page map. -/
theorem allocSpan_sat {env : Env} (hs : env.Succeeds) {f : SpanPlace → List SpanPtr} {h : Heap}
    (hr : RecordInv env h) (hp : PageInv env h f) (hl : LinkInv h.toLinks f) (npages ptr : Nat) :
    Sat (allocSpan env npages ptr h) (fun r => Alloc env f npages ptr h r.2 r.1)
      (· = .pageMap) := by
  have htake : ∀ h', Kept env f h h' ∧ 64 ≤ h'.remBytes →
      Sat (.ok (takeRecord npages ptr h') : Except Fault _)
        (fun r => Alloc env f npages ptr h r.2 r.1) (· = .pageMap) :=
    fun h' hk => hk.1.take hk.2 npages ptr
  simp only [allocSpan]
  by_cases hrem : h.remBytes < SPANBYTES
  · rw [if_pos hrem]
    exact (newChunk_sat hs hr hp hl).bind htake
  · rw [if_neg hrem]
    exact htake h ⟨Kept.refl hr hp hl, not_lt.mp hrem⟩

end SearchEngine.TcMalloc
