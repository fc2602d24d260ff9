import SearchEngine.TcMalloc.Verify.Kinds

/-!
# The page heap

`fetchSpan_sat`: `fetch_span` hands out a span that owns its pages and leaves the
invariant of the shared state, whichever way it finds the span, provided the sizes it
computes with fit their types (`FetchOk`). `fetchedPages` and `fetchedLoc` tell the
size and the tag of the span from the state before. `returnSpan_sat` is the way back.
-/

namespace SearchEngine.TcMalloc

open LinkedRing Placement Outcome

/-- The heap lies within the page map. -/
def InMap (env : Env) (h : Heap) : Prop := h.brk ≤ env.ini + PAGEMAPSIZE * 4096

section Adopt

variable {d : Discipline} {env : Env} {h h' : Heap} {f : SpanPlace → List SpanPtr}
  {s tmp : Nat} {dst : SpanPlace}

/-! ## New spans -/

/-- `alloc_span` keeps the invariant of the shared state. -/
theorem Kept.heapInv (hk : Kept env f h h') (hi : HeapInv d env h f) : HeapInv d env h' f where
  record := hk.record
  pages := hk.pages
  links := hk.links
  kinds := hi.kinds.congr hk.objs hk.objLen hk.objsSize hk.objRefcount
    (by rw [hk.stray]; exact fun _ => id)
    fun {_ x} _ hx => ⟨(hk.old x (by have := (hi.pages.owned hx).below; omega)).1, by rw [hk.loc]⟩

theorem Alloc.unplaced {npages ptr : Nat} (ha : Alloc env f npages ptr h h' s)
    (hp : PageInv env h f) (p : SpanPlace) : s ∉ f p := hp.not_mem_of_bound ha.new p

/-- A span whose pages are free is entered into the page map and becomes a span in
use. -/
theorem HeapInv.adopt (hi : HeapInv d env h f) (hs : ∀ p, s ∉ f p) (hc : s ∉ h.chunks)
    (hb : s + 64 ≤ h.bound) (hpos : 0 < h.pageSize s) (hlt : h.pageSize s < 2 ^ 31)
    (hstart : h.start s = env.ini + h.pageId s * 4096)
    (hbrk : env.ini + (h.pageId s + h.pageSize s) * 4096 ≤ h.brk)
    (hfree : PageInv.FreePages env h f (h.pageId s) (h.pageSize s))
    (hreg : ∃ r ∈ h.regions, h.pageSize s * 4096 ≤ r) (hd : dst.Loose) :
    Sat (updateMapping s h)
      (fun h' => h' = { h with
          pageMapping := mapRange h.pageMapping (h.pageId s) (h.pageSize s) s } ∧
        HeapInv d env h' (Function.update f dst (s :: f dst)) ∧
        h.pageId s + h.pageSize s ≤ PAGEMAPSIZE) (· = .pageMap) := by
  obtain ⟨n, hn, hnlt⟩ := hi.record.brk
  have hn : h.brk = env.ini + n * 4096 := hn
  refine updateMapping_sat hlt (by omega) fun hmap => ?_
  replace hmap := hmap.resolve_left (by omega)
  have hp := hi.pages.map hfree s
  have hplaced := hi.pages.placed.insert (q := dst) hs
  have mem : ∀ {p x}, x ∈ Function.update f dst (s :: f dst) p → x = s ∧ p = dst ∨ x ∈ f p := by
    intro p x hx
    by_cases hpd : p = dst
    · subst hpd
      rw [Function.update_self, List.mem_cons] at hx
      exact hx.imp (fun e => ⟨e, rfl⟩) id
    · rw [Function.update_of_ne hpd] at hx
      exact .inr hx
  have ne : ∀ {p : SpanPlace}, ¬ p.Loose → Function.update f dst (s :: f dst) p = f p :=
    fun hpl => Function.update_of_ne (SpanPlace.ne_of_loose hpl hd) _ _
  refine ⟨rfl, ⟨?_, ⟨hplaced, fun {p x} hx => ?_, fun c hcm =>
    ⟨(hp.chunks c hcm).1, fun p hcp => ?_⟩⟩,
    hi.links.congr_loose fun p hpl => ne hpl, ?_⟩, hmap⟩
  · exact hi.record.congr rfl rfl rfl rfl fun _ _ hb => hb.congr rfl rfl rfl rfl rfl rfl rfl rfl
  · rcases mem hx with ⟨rfl, -⟩ | hx
    · exact ⟨hb, hpos, hmap, hstart, hbrk, fun k h1 h2 => mapRange_of_mem h1 h2, hreg⟩
    · exact hp.owned hx
  · rcases mem hcp with ⟨rfl, -⟩ | hcp
    · exact hc hcm
    · exact (hp.chunks c hcm).2 p hcp
  · refine KindInv.congr_loose (f := f) (hi.kinds.congr rfl rfl rfl rfl (fun _ => id)
      fun _ _ => ⟨rfl, rfl⟩) (fun p => ne) fun hpl hx => ?_
    rcases mem hx with ⟨rfl, -⟩ | hx
    · exact (hi.kinds.unused hs).congr rfl rfl rfl rfl
    · exact ((hi.kinds.kind hx).clean hpl.cls_eq).congr rfl rfl rfl rfl

/-- `update_mapping` and `spanlist_push` write different fields. -/
theorem updateMapping_push (r : HeadRef) (x : SpanPtr) :
    updateMapping s (h.push r x) = (updateMapping s h).map fun h => h.push r x := by
  have e1 : (h.push r x).pageSize = h.pageSize := rfl
  have e2 : (h.push r x).pageId = h.pageId := rfl
  have e3 : (h.push r x).pageMapping = h.pageMapping := rfl
  simp only [updateMapping, e1, e2, e3]
  cases updateMappingLoop s (h.pageId s) (toInt (h.pageSize s)).toNat 0 h.pageMapping <;> rfl

end Adopt

/-! ## What a fetch leaves alone -/

/-- A place of the page heap. -/
def SpanPlace.IsPg (p : SpanPlace) : Prop := ∃ i, p = .pg i

/-- The free lists, the spans outside the page heap and the places other than `dst`
are left alone, and `dst` only gains spans. -/
structure Quiet (dst : SpanPlace) (h h' : Heap) (f f' : SpanPlace → List SpanPtr) : Prop where
  objs : h'.objs = h.objs
  objLen : h'.objLen = h.objLen
  objsSize : h'.objsSize = h.objsSize
  objRefcount : h'.objRefcount = h.objRefcount
  stray : h'.stray ↔ h.stray
  brk : h.brk ≤ h'.brk
  places : ∀ p : SpanPlace, ¬ p.IsPg → p ≠ dst → f' p = f p
  dst : f dst ⊆ f' dst
  same : ∀ {p : SpanPlace} {x}, ¬ p.IsPg → x ∈ f p →
    h'.pageSize x = h.pageSize x ∧ h'.start x = h.start x ∧ h'.loc x = h.loc x

theorem Quiet.trans {dst : SpanPlace} {h₁ h₂ h₃ : Heap} {f₁ f₂ f₃ : SpanPlace → List SpanPtr}
    (h : Quiet dst h₁ h₂ f₁ f₂) (h' : Quiet dst h₂ h₃ f₂ f₃) : Quiet dst h₁ h₃ f₁ f₃ where
  objs := h'.objs.trans h.objs
  objLen := h'.objLen.trans h.objLen
  objsSize := h'.objsSize.trans h.objsSize
  objRefcount := h'.objRefcount.trans h.objRefcount
  stray := h'.stray.trans h.stray
  brk := h.brk.trans h'.brk
  places p hp hd := (h'.places p hp hd).trans (h.places p hp hd)
  dst := List.Subset.trans h.dst h'.dst
  same {p x} hp hx := by
    have hx' : x ∈ f₂ p := by
      by_cases hd : p = dst
      · subst hd; exact h.dst hx
      · rw [h.places p hp hd]; exact hx
    obtain ⟨a1, a2, a3⟩ := h.same hp hx
    obtain ⟨b1, b2, b3⟩ := h'.same hp hx'
    exact ⟨b1.trans a1, b2.trans a2, b3.trans a3⟩

theorem Kept.quiet {env : Env} {f : SpanPlace → List SpanPtr} {h h' : Heap}
    (hk : Kept env f h h') (hp : PageInv env h f) (hb : h.brk ≤ h'.brk) (dst : SpanPlace) :
    Quiet dst h h' f f where
  objs := hk.objs
  objLen := hk.objLen
  objsSize := hk.objsSize
  objRefcount := hk.objRefcount
  stray := by rw [hk.stray]
  brk := hb
  places _ _ _ := rfl
  dst := List.Subset.refl _
  same {p x} _ hx := by
    have hlt : x < h.bound := (Nat.lt_add_of_pos_right (by decide)).trans_le (hp.owned hx).below
    exact ⟨(hk.old x hlt).1, by rw [hk.start], by rw [hk.loc]⟩

/-! ## Splitting a span -/

section Split

variable {d : Discipline} {env : Env} {h : Heap} {f : SpanPlace → List SpanPtr}
  {s tmp npage : Nat} {dst : SpanPlace}

/-- `split_spans`, with the list operation last. -/
theorem splitSpans_eq {t n : Nat} (hn : n % 2 ^ 32 < h.pageSize t) (hlt : h.pageSize t < 2 ^ 32) :
    splitSpans t s n h =
      (updateMapping s { h with
        pageSize := Function.update h.pageSize t (h.pageSize t - n % 2 ^ 32)
        start := Function.update h.start s
          (h.start t + pagesToBytes32 (h.pageSize t - n % 2 ^ 32))
        next := Function.update h.next s (some s)
        prev := Function.update h.prev s (some s)
        pageId := Function.update h.pageId s
          ((h.pageId t + (h.pageSize t - n % 2 ^ 32)) % 2 ^ 32) }).map
        fun h' => h'.push (.pgList (bucket (h.pageSize t - n % 2 ^ 32))) t := by
  have hleft : (h.pageSize t + 2 ^ 32 - n % 2 ^ 32) % 2 ^ 32 =
      h.pageSize t - n % 2 ^ 32 := by omega
  rw [← updateMapping_push]
  simp only [splitSpans, hleft]
  rw [if_pos (by omega)]
  rfl

/-- The records of the span `tmp` that keeps its first `left` pages, and of the span `s` that gets
the others. -/
def shrunk (h : Heap) (tmp s left : Nat) : Heap :=
  { h with
    pageSize := Function.update h.pageSize tmp left
    start := Function.update h.start s (h.start tmp + left * 4096)
    next := Function.update h.next s (some s)
    prev := Function.update h.prev s (some s)
    pageId := Function.update h.pageId s (h.pageId tmp + left) }

theorem shrunk_of_ne (left : Nat) {x : Nat} (hs : x ≠ s) (ht : x ≠ tmp) :
    (shrunk h tmp s left).pageSize x = h.pageSize x ∧
      (shrunk h tmp s left).pageId x = h.pageId x ∧ (shrunk h tmp s left).start x = h.start x := by
  simp [shrunk, hs, ht]

/-- The span that is cut keeps its first pages. -/
theorem HeapInv.shrink (hi : HeapInv d env h f) (ht : tmp ∈ f dst) (hd : dst.Loose)
    (hs : ∀ p, s ∉ f p) (hb : s + 64 ≤ h.bound) {left : Nat} (hpos : 0 < left)
    (hle : left ≤ h.pageSize tmp) : HeapInv d env (shrunk h tmp s left) f := by
  have hot := hi.pages.owned ht
  have hts : tmp ≠ s := fun e => hs dst (e ▸ ht)
  have hne : ∀ {p x}, x ∈ f p → x ≠ s := fun hx e => hs _ (e ▸ hx)
  have hpt : (shrunk h tmp s left).pageSize tmp = left := Function.update_self ..
  have hit : (shrunk h tmp s left).pageId tmp = h.pageId tmp := Function.update_of_ne hts _ _
  have hst : (shrunk h tmp s left).start tmp = h.start tmp := Function.update_of_ne hts _ _
  refine ⟨hi.record.congr rfl rfl rfl rfl fun x hx hbx => ?_, ⟨hi.pages.placed, fun {p x} hx => ?_,
    fun c hcm => ?_⟩, hi.links.congr_links (fun r => by cases r <;> rfl) fun x hx => ?_,
    hi.kinds.congr rfl rfl rfl rfl (fun _ => id) fun {p x} hpl hx => ⟨?_, rfl⟩⟩
  · have hxt : x ≠ tmp := by have := hot.below; omega
    have hxs : x ≠ s := by omega
    obtain ⟨e1, e2, e3⟩ := shrunk_of_ne (h := h) left hxs hxt
    exact hbx.congr rfl rfl rfl e3 rfl rfl e1 e2
  · by_cases hxt : x = tmp
    · subst hxt
      refine ⟨hot.below, by rwa [hpt], ?_, by rw [hit, hst]; exact hot.start, ?_,
        fun k h1 h2 => ?_, ?_⟩
      · rw [hpt, hit]
        exact (Nat.add_le_add_left hle _).trans hot.inMap
      · rw [hpt, hit]
        exact le_trans (by omega) hot.inBrk
      · rw [hit] at h1
        rw [hpt, hit] at h2
        exact hot.mapped k h1 (by omega)
      · obtain ⟨r, hr, hle'⟩ := hot.region
        exact ⟨r, hr, by rw [hpt]; exact (Nat.mul_le_mul_right _ hle).trans hle'⟩
    · obtain ⟨e1, e2, e3⟩ := shrunk_of_ne (h := h) left (hne hx) hxt
      exact (hi.pages.owned hx).mono le_rfl le_rfl (List.Subset.refl _) e1 e2 e3 fun _ _ _ => rfl
  · obtain ⟨⟨h1, h2⟩, h3⟩ := hi.pages.chunks c hcm
    exact ⟨⟨h1, h2⟩, h3⟩
  · have hxs : x ≠ s := by
      rintro rfl
      exact not_linked_of_unplaced hs hx
    simp [shrunk, hxs]
  · have hxt : x ≠ tmp := fun e => hpl (hi.pages.placed.unique ht (e ▸ hx) ▸ hd)
    exact (shrunk_of_ne left (hne hx) hxt).1

/-- The last pages of `tmp` are with no span then. -/
theorem HeapInv.freePages_shrunk (hi : HeapInv d env h f) (ht : tmp ∈ f dst) (hs : ∀ p, s ∉ f p)
    {left n : Nat} (hpos : 0 < n) (hsum : left + n = h.pageSize tmp) :
    PageInv.FreePages env (shrunk h tmp s left) f (h.pageId tmp + left) n := by
  have hot := hi.pages.owned ht
  have hts : tmp ≠ s := fun e => hs dst (e ▸ ht)
  refine ⟨fun {p x} hx => ?_, fun c hcm k hk => ?_⟩
  · by_cases hxt : x = tmp
    · subst hxt
      left
      simp [shrunk, hts]
    · obtain ⟨e1, e2, -⟩ := shrunk_of_ne (h := h) left
        (show x ≠ s from fun e => hs p (e ▸ hx)) hxt
      have := hot.apart (hi.pages.owned hx) (Ne.symm hxt)
      rw [e1, e2]
      omega
  · obtain ⟨⟨-, k', hk', -, hm⟩, hcf⟩ := hi.pages.chunks c hcm
    obtain rfl : k = k' := by omega
    by_contra hcon
    push Not at hcon
    -- a page of both would be mapped to both
    have h1 := hm (max k (h.pageId tmp + left)) (le_max_left _ _) (by
      simp only [SPANPOOLSIZE] at hcon ⊢; omega)
    have h2 := hot.mapped (max k (h.pageId tmp + left)) (by omega) (by omega)
    exact hcf dst (Option.some.inj (h1.symm.trans h2) ▸ ht)

/-- The span `tmp`, off its list, is cut: its last pages become the span `s`, the rest
goes back to the page heap. -/
theorem HeapInv.split (hi : HeapInv d env h f) (ht : tmp ∈ f dst) (hd : dst.Loose)
    (hloc : h.loc tmp = .pageheap) (hs : ∀ p, s ∉ f p) (hc : s ∉ h.chunks) (hb : s + 64 ≤ h.bound)
    (hpos : 0 < npage % 2 ^ 32) (hn : npage % 2 ^ 32 < h.pageSize tmp)
    (hfit : h.pageSize tmp - npage % 2 ^ 32 < 2 ^ 20) (hsn : h.pageSize s = npage % 2 ^ 32) :
    Sat (splitSpans tmp s npage h) (fun h' => ∃ f', HeapInv d env h' f' ∧
      f' dst = s :: (f dst).erase tmp ∧ (∀ p : SpanPlace, ¬ p.IsPg → p ≠ dst → f' p = f p) ∧
      h'.objs = h.objs ∧ h'.objLen = h.objLen ∧ h'.objsSize = h.objsSize ∧
      h'.objRefcount = h.objRefcount ∧ h'.loc = h.loc ∧ (h'.stray ↔ h.stray) ∧ h'.brk = h.brk ∧
      h'.pageSize s = npage % 2 ^ 32 ∧
      ∀ x : Nat, x ≠ s → x ≠ tmp → h'.pageSize x = h.pageSize x ∧ h'.start x = h.start x)
      (· = .pageMap) := by
  have hot := hi.pages.owned ht
  have hmap : h.pageId tmp + h.pageSize tmp < 2 ^ 24 := hot.inMap.trans_lt (by decide)
  have hts : tmp ≠ s := fun e => hs dst (e ▸ ht)
  obtain ⟨left, hleft⟩ : ∃ left, left = h.pageSize tmp - npage % 2 ^ 32 := ⟨_, rfl⟩
  rw [splitSpans_eq hn (by omega), sat_map, ← hleft]
  have hbytes : pagesToBytes32 left = left * 4096 := by simp only [pagesToBytes32]; omega
  have hid : (h.pageId tmp + left) % 2 ^ 32 = h.pageId tmp + left := by omega
  rw [hbytes, hid]
  obtain ⟨h₁, hh₁⟩ : ∃ h₁, h₁ = shrunk h tmp s left := ⟨_, rfl⟩
  have hps : h₁.pageSize s = npage % 2 ^ 32 := by simp [hh₁, shrunk, Ne.symm hts, hsn]
  have hpt : h₁.pageSize tmp = left := by simp [hh₁, shrunk]
  have hpi : h₁.pageId s = h.pageId tmp + left := by simp [hh₁, shrunk]
  have hi₁ : HeapInv d env h₁ f := hh₁ ▸ hi.shrink ht hd hs hb (by omega) (by omega)
  have hfree : PageInv.FreePages env h₁ f (h₁.pageId s) (h₁.pageSize s) := by
    rw [hps, hpi, hh₁]
    exact hi.freePages_shrunk ht hs hpos (by omega)
  have hst : h₁.start s = env.ini + h₁.pageId s * 4096 := by
    have hstart : h₁.start s = h.start tmp + left * 4096 := by simp [hh₁, shrunk]
    rw [hstart, hpi, hot.start]
    omega
  have hbrk : env.ini + (h₁.pageId s + h₁.pageSize s) * 4096 ≤ h₁.brk := by
    rw [hpi, hps, hh₁]
    exact le_trans (by omega) hot.inBrk
  have hreg : ∃ r ∈ h₁.regions, h₁.pageSize s * 4096 ≤ r := by
    obtain ⟨r, hr, hle⟩ := hot.region
    refine ⟨r, by rw [hh₁]; exact hr, ?_⟩
    rw [hps]
    exact (Nat.mul_le_mul_right _ hn.le).trans hle
  have hadopt := hi₁.adopt hs (by rw [hh₁]; exact hc) (by rw [hh₁]; exact hb) (by omega) (by omega)
    hst hbrk hfree hreg hd
  rw [hh₁] at hadopt
  refine hadopt.mono ?_ fun _ => id
  rw [← hh₁]
  rintro h₂ ⟨rfl, hi₂, -⟩
  set f₁ := Function.update f dst (s :: f dst) with hf₁
  have ht₁ : tmp ∈ f₁ dst := by simp [hf₁, ht]
  have hput := hi₂.putPg ht₁ hd (by rw [hh₁]; exact hloc)
  have hpt₂ : ({ h₁ with pageMapping := mapRange h₁.pageMapping (h₁.pageId s) (h₁.pageSize s) s }
      : Heap).pageSize tmp = left := hpt
  rw [hpt₂] at hput
  refine ⟨_, hput, ?_, fun p hpg hpd => ?_, by rw [hh₁]; rfl, by rw [hh₁]; rfl, by rw [hh₁]; rfl,
    by rw [hh₁]; rfl, by rw [hh₁]; rfl, ?_, by rw [hh₁]; rfl, hps, fun x hxs hxt => ?_⟩
  · have hne' : dst ≠ SpanPlace.pg (bucket left) := (SpanPlace.ne_of_loose id hd).symm
    simp only [moved, Function.update_of_ne hne', Function.update_self, hf₁]
    exact List.erase_cons_tail (by simpa using Ne.symm hts)
  · rw [moved_of_ne hpd (fun e => hpg ⟨_, e⟩), hf₁, Function.update_of_ne hpd]
  · rw [hh₁]
    exact Iff.of_eq (spanlistPush_stray (.pg (bucket left)) tmp _)
  · obtain ⟨e1, -, e3⟩ := shrunk_of_ne (h := h) left hxs hxt
    rw [hh₁]
    exact ⟨e1, e3⟩

end Split

/-! ## A span from the system -/

section Region

variable {d : Discipline} {env : Env} {h h' : Heap} {f : SpanPlace → List SpanPtr}
  {npage : Nat} {dst : SpanPlace}

theorem HeapInv.brkAt (hi : HeapInv d env h f) (hm : InMap env h) :
    ∃ n, BrkAt env h n ∧ n ≤ 2 ^ 23 := by
  obtain ⟨n, hn, -⟩ := hi.record.brk
  refine ⟨n, hn, ?_⟩
  have h1 : h.brk = env.ini + n * 4096 := hn
  have h2 : h.brk ≤ env.ini + 2 ^ 23 * 4096 := hm
  omega

theorem inMap_of_brkAt {n : Nat} (hn : BrkAt env h n) (hle : n ≤ 2 ^ 23) : InMap env h := by
  have h1 : h.brk = env.ini + n * 4096 := hn
  rw [InMap, h1]
  exact Nat.add_le_add_left (Nat.mul_le_mul_right _ hle) _

theorem Kept.brk_le (hk : Kept env f h h') (hr : RecordInv env h) : h.brk ≤ h'.brk := by
  obtain ⟨n, hn, -⟩ := hr.brk
  obtain ⟨n', hn', hle, -⟩ := hk.brk hn
  have h1 : h.brk = env.ini + n * 4096 := hn
  have h2 : h'.brk = env.ini + n' * 4096 := hn'
  omega

theorem Kept.inMap (hk : Kept env f h h') (hi : HeapInv d env h f) (hm : InMap env h) :
    InMap env h' := by
  obtain ⟨n, hn, hle⟩ := hi.brkAt hm
  obtain ⟨n', hn', -, hor⟩ := hk.brk hn
  exact inMap_of_brkAt hn' (hor.elim (fun e => e ▸ hle) id)

/-- `sbrk` of `npage` pages, a record for them, and their entry into the page map. -/
def regionSpan (env : Env) (npage : Nat) (h : Heap) : Except Fault (SpanPtr × Heap) := do
  let (ptr, h) := sbrk env (npage * 4096) h
  let (newSpan, h) ← allocSpan env npage ptr h
  let h ← updateMapping newSpan { h with start := Function.update h.start newSpan ptr }
  .ok (newSpan, h)

/-- The span `s` is new, of `npage` pages, and in the place `dst`. -/
structure NewSpan (d : Discipline) (env : Env) (npage : Nat) (dst : SpanPlace)
    (f : SpanPlace → List SpanPtr) (h h' : Heap) (s : SpanPtr) : Prop where
  inv : HeapInv d env h' (Function.update f dst (s :: f dst))
  inMap : InMap env h'
  quiet : Quiet dst h h' f (Function.update f dst (s :: f dst))
  unplaced : ∀ p, s ∉ f p
  pageSize : h'.pageSize s = npage
  loc : h'.loc s = .pageheap
  pgList : h'.pgList = h.pgList

/-- The program break moves on. -/
theorem HeapInv.extend (hi : HeapInv d env h f) {b n : Nat} (hb : b = env.ini + n * 4096)
    (hn : n < 2 ^ 32 - 2 ^ 21) (hle : h.brk ≤ b) (c r : Nat) :
    HeapInv d env { h with brk := b, sbrkCalls := c, regions := r :: h.regions } f where
  record := ⟨hi.record.ini, ⟨n, hb, hn⟩, hi.record.room.trans hle,
    fun x hx => (hi.record.fresh x hx).congr rfl rfl rfl rfl rfl rfl rfl rfl⟩
  pages := ⟨hi.pages.placed,
    fun hx => (hi.pages.owned hx).mono le_rfl hle (List.subset_cons_self _ _) rfl rfl rfl
      fun _ _ _ => rfl,
    fun c hc => by
      obtain ⟨⟨hcb, k, hk, hkb, hmk⟩, hcf⟩ := hi.pages.chunks c hc
      exact ⟨⟨hcb, k, hk, hkb.trans hle, hmk⟩, hcf⟩⟩
  links := hi.links
  kinds := hi.kinds.congr rfl rfl rfl rfl (fun _ => id) fun _ _ => ⟨rfl, rfl⟩

/-- The start of a span that is in no place is of no matter. -/
theorem HeapInv.setStart {x ptr : Nat} (hi : HeapInv d env h f) (hun : ∀ p, x ∉ f p)
    (hb : x + 64 ≤ h.bound) :
    HeapInv d env { h with start := Function.update h.start x ptr } f := by
  refine ⟨hi.record.congr rfl rfl rfl rfl fun y hy hblank => ?_,
    hi.pages.congr rfl rfl rfl rfl rfl fun {p y} hy => ⟨rfl, rfl, ?_⟩, hi.links,
    hi.kinds.congr rfl rfl rfl rfl (fun _ => id) fun _ _ => ⟨rfl, rfl⟩⟩
  · have hyx : y ≠ x := by omega
    exact hblank.congr rfl rfl rfl (by simp [hyx]) rfl rfl rfl rfl
  · have hyx : y ≠ x := fun e => hun p (e ▸ hy)
    simp [hyx]

/-- What lay behind the break is of no span; if the record for it came with a chunk, that lies
behind it in turn. -/
theorem Alloc.freePages {h₁ h₂ : Heap} {ptr a b : Nat} {s : SpanPtr} (hi : HeapInv d env h f)
    (ha : Alloc env f npage ptr h₁ h₂ s) (hbound : h₁.bound = h.bound)
    (hsize : h₁.pageSize = h.pageSize) (hid : h₁.pageId = h.pageId) (hchunks : h₁.chunks = h.chunks)
    (hle : h.brk ≤ env.ini + a * 4096) (hend : env.ini + (a + b) * 4096 ≤ h₁.brk) :
    PageInv.FreePages env h₂ f a b := by
  refine PageInv.freePages_of_brk (b := h.brk) (fun {p x} hx => ?_) hle fun c hc => ?_
  · have ho := hi.pages.owned hx
    obtain ⟨e1, e2⟩ := ha.old x (hbound ▸ (Nat.lt_add_of_pos_right (by decide)).trans_le ho.below)
    rw [e1, e2, hsize, hid]
    exact ho.inBrk
  · rcases ha.chunks c hc with hc | hc
    · left
      obtain ⟨k, hk, hkb, -⟩ := (hi.pages.chunks c (hchunks ▸ hc)).1.pages
      rw [hk, Nat.add_assoc, ← Nat.add_mul]
      exact hkb
    · exact .inr (hend.trans hc)

theorem HeapInv.regionSpan (hs : env.Succeeds) (hi : HeapInv d env h f) (hm : InMap env h)
    (hpos : 0 < npage) (hlt : npage < 2 ^ 31) (hd : dst.Loose) :
    Sat (regionSpan env npage h) (fun r => NewSpan d env npage dst f h r.2 r.1) (· = .pageMap) := by
  obtain ⟨n, hn, hnle⟩ := hi.brkAt hm
  have hini := env.ini_lt
  have hini' := env.ini_pos
  have hbrk : h.brk = env.ini + n * 4096 := hn
  obtain ⟨g, hg, hsbrk⟩ := sbrk_eq hs hn (npage * 4096)
  obtain ⟨ptr, hptr⟩ : ∃ ptr, ptr = env.ini + (n + g) * 4096 := ⟨_, rfl⟩
  rw [← hptr] at hsbrk
  simp only [TcMalloc.regionSpan, hsbrk]
  set h₁ : Heap := { h with
    brk := ptr + npage * 4096
    sbrkCalls := h.sbrkCalls + 1
    regions := npage * 4096 :: h.regions } with hh₁
  have hbrk₁ : BrkAt env h₁ (n + g + npage) := by
    simp only [BrkAt, hh₁]
    omega
  have hi₁ : HeapInv d env h₁ f :=
    hi.extend (n := n + g + npage) (by omega) (by omega) (by omega) (h.sbrkCalls + 1) (npage * 4096)
  refine (allocSpan_sat hs hi₁.record hi₁.pages hi₁.links npage ptr).bind ?_
  rintro ⟨s, h₂⟩ ha
  have hun : ∀ p, s ∉ f p := ha.unplaced hi₁.pages
  have hid : h₂.pageId s = n + g := by
    rw [ha.pageId, if_neg (by omega), addrToIndex_eq env (k := n + g) (by omega)
      (by omega) (by omega)]
    exact Nat.mod_eq_of_lt (by omega)
  have hsz : h₂.pageSize s = npage := ha.pageSize.trans (Nat.mod_eq_of_lt (by omega))
  have hle₂ : h₁.brk ≤ h₂.brk := ha.toKept.brk_le hi₁.record
  have hi₂ := ha.toKept.heapInv hi₁
  set h₃ : Heap := { h₂ with start := Function.update h₂.start s ptr } with hh₃
  have hi₃ : HeapInv d env h₃ f := hi₂.setStart hun ha.below
  have hfree₂ : PageInv.FreePages env h₂ f (n + g) npage :=
    ha.freePages hi rfl rfl rfl rfl (by omega) (by
      have : h₁.brk = ptr + npage * 4096 := rfl
      omega)
  have hfree : PageInv.FreePages env h₃ f (h₃.pageId s) (h₃.pageSize s) := by
    have e1 : h₃.pageSize s = npage := hsz
    have e2 : h₃.pageId s = n + g := hid
    rw [e1, e2]
    exact ⟨hfree₂.spans, hfree₂.chunks⟩
  refine Sat.bind (hi₃.adopt hun ha.notChunk ha.below (by show 0 < h₂.pageSize s; omega)
    (by show h₂.pageSize s < _; omega)
    (by
      have e1 : h₃.start s = ptr := by simp [hh₃]
      have e2 : h₃.pageId s = n + g := hid
      rw [e1, e2, hptr])
    (by
      have e1 : h₃.pageSize s = npage := hsz
      have e2 : h₃.pageId s = n + g := hid
      have e3 : h₁.brk = ptr + npage * 4096 := rfl
      rw [e1, e2]
      exact le_trans (by omega) hle₂) hfree
    ⟨npage * 4096, ha.regions List.mem_cons_self, by
      have e1 : h₃.pageSize s = npage := hsz
      rw [e1]⟩ hd) ?_
  rintro h₄ ⟨rfl, hi₄, hmap⟩
  have hmap' : n + g + npage ≤ 2 ^ 23 := by
    have e1 : h₃.pageSize s = npage := hsz
    have e2 : h₃.pageId s = n + g := hid
    rw [e1, e2] at hmap
    exact hmap
  obtain ⟨n', hn', hnn', hor⟩ := ha.brk hbrk₁
  refine ⟨hi₄, inMap_of_brkAt (n := n') hn' (hor.elim (fun e => e ▸ hmap') id), ?_, hun, hsz, ?_,
    ha.pgList⟩
  · refine ⟨ha.objs, ha.objLen, ha.objsSize, ha.objRefcount, by exact Iff.of_eq ha.stray, ?_,
      fun p _ hpd => Function.update_of_ne hpd _ _, ?_, fun {p x} _ hx => ?_⟩
    · have e3 : h₁.brk = ptr + npage * 4096 := rfl
      exact le_trans (by omega) hle₂
    · rw [Function.update_self]; exact List.subset_cons_self _ _
    · have ho := hi.pages.owned hx
      obtain ⟨e1, -⟩ := ha.old x ((Nat.lt_add_of_pos_right (by decide)).trans_le ho.below)
      have hxs : x ≠ s := fun e => hun p (e ▸ hx)
      have e2 : h₂.start x = h.start x := congrFun ha.start x
      exact ⟨e1, by simp [hh₃, hxs, e2], congrFun ha.loc x⟩
  · have e1 : h₂.loc s = h.loc s := congrFun ha.loc s
    exact e1.trans (hi.record.fresh s ha.new).loc

/-- `fetch_from_system` is a region from the system, put on its list. -/
theorem fetchFromSystem_eq (env : Env) (h : Heap) :
    fetchFromSystem env h = (regionSpan env 65536 h).map fun r =>
      r.2.push (.pgList (bucket (r.2.pageSize r.1))) r.1 := by
  have e1 : bytesToPages SYSFETCHSIZE = 65536 := rfl
  have e2 : SYSFETCHSIZE = 65536 * 4096 := rfl
  simp only [fetchFromSystem, regionSpan, e1]
  rw [← e2]
  cases allocSpan env 65536 (sbrk env SYSFETCHSIZE h).1 (sbrk env SYSFETCHSIZE h).2 with
  | error e => rfl
  | ok r =>
    obtain ⟨s, h₂⟩ := r
    simp only [bind, Except.bind, updateMapping_push]
    simp only [updateMapping]
    cases updateMappingLoop s (h₂.pageId s) (toInt (h₂.pageSize s)).toNat 0 h₂.pageMapping <;> rfl

/-- After `fetch_from_system` the last list of the page heap begins with a span of
65536 pages. -/
theorem HeapInv.fetchFromSystem (hs : env.Succeeds) (hi : HeapInv d env h f) (hm : InMap env h)
    (hd : dst.Loose) :
    Sat (fetchFromSystem env h) (fun h' => ∃ f' R, HeapInv d env h' f' ∧ InMap env h' ∧
      Quiet dst h h' f f' ∧ f' dst = f dst ∧ h'.pageSize R = 65536 ∧
      h'.pgList = Function.update h.pgList 255 (some R)) (· = .pageMap) := by
  rw [fetchFromSystem_eq, sat_map]
  refine (hi.regionSpan hs hm (by decide) (by decide) hd).mono ?_ fun _ => id
  rintro ⟨s, h₁⟩ hn
  have hb : bucket (h₁.pageSize s) = 255 := by rw [hn.pageSize]; rfl
  have hne : dst ≠ SpanPlace.pg 255 := (SpanPlace.ne_of_loose id hd).symm
  have hs₁ : s ∈ Function.update f dst (s :: f dst) dst := by simp
  have hput := hn.inv.putPg hs₁ hd hn.loc
  rw [hb] at hput
  set f' := moved (Function.update f dst (s :: f dst)) dst (.pg 255) s with hf'
  have hdst : f' dst = f dst := by simp [hf', moved, hne]
  have hpl : ∀ p : SpanPlace, ¬ p.IsPg → p ≠ dst → f' p = f p := fun p hpg hpd => by
    rw [hf', moved_of_ne hpd (fun e => hpg ⟨_, e⟩), Function.update_of_ne hpd]
  simp only [hb]
  refine ⟨f', s, hput, hn.inMap, ?_, hdst, hn.pageSize, ?_⟩
  · have hq := hn.quiet
    exact ⟨hq.objs, hq.objLen, hq.objsSize, hq.objRefcount,
      (Iff.of_eq (spanlistPush_stray (.pg 255) s _)).trans hq.stray, hq.brk, hpl,
      by rw [hdst]; exact List.Subset.refl _, hq.same⟩
  · have hhead : ∀ j, (h₁.push (.pgList 255) s).pgList j = (f' (.pg j)).head? :=
      fun j => hput.links.head (.pg j)
    have hold : ∀ j, h.pgList j = (f (.pg j)).head? := fun j => hi.links.head (.pg j)
    funext j
    rw [hhead]
    by_cases hj : j = 255
    · subst hj
      simp [hf', moved_self]
    · have h1 : SpanPlace.pg j ≠ dst := SpanPlace.ne_of_loose id hd
      rw [Function.update_of_ne hj, hold, hf', moved_of_ne h1 (by simpa using hj),
        Function.update_of_ne h1]

end Region

/-! ## `fetch_span` -/

section FetchSpan

variable {d : Discipline} {env : Env} {h h' : Heap} {f f' : SpanPlace → List SpanPtr}
  {npage : Nat} {dst : SpanPlace}

theorem firstFit_some {g : Nat → Option SpanPtr} {i j : Nat} {s : SpanPtr}
    (hf : firstFit g i = some (j, s)) : i ≤ j ∧ j < 256 ∧ g j = some s := by
  fun_induction firstFit g i with
  | case1 i hi t ht =>
    simp only [Option.some.injEq, Prod.mk.injEq] at hf
    obtain ⟨rfl, rfl⟩ := hf
    exact ⟨le_rfl, hi, ht⟩
  | case2 i hi ht ih =>
    obtain ⟨h1, h2, h3⟩ := ih hf
    exact ⟨by omega, h2, h3⟩
  | case3 i hi => cases hf

theorem firstFit_none {g : Nat → Option SpanPtr} {i : Nat} (hf : firstFit g i = none) :
    ∀ j, i ≤ j → j < 256 → g j = none := by
  fun_induction firstFit g i with
  | case1 i hi t ht => cases hf
  | case2 i hi ht ih =>
    intro j h1 h2
    by_cases hj : j = i
    · exact hj ▸ ht
    · exact ih hf j (by omega) h2
  | case3 i hi =>
    intro j h1 h2
    exact absurd h2 (by simp only [PAGEHEAPSIZE] at hi; omega)

/-- `fetch_span(npage)` computes with numbers that fit: the request, when it is not
served by the head of its list, is not a multiple of `2 ^ 32` pages, what is left of a
span that is cut is less than 4 GiB, and what is asked of the system fits 32 bits. -/
def FetchOk (h : Heap) (npage : Nat) : Prop :=
  match h.pgList (bucket npage) with
  | some _ => True
  | none =>
    match firstFit h.pgList (toInt npage).toNat with
    | some (_, tmp) => npage % 2 ^ 32 ≠ 0 ∧ h.pageSize tmp - npage % 2 ^ 32 < 2 ^ 20
    | none => npage < 2 ^ 32

/-- The pages of the span that `fetch_span(npage)` returns. -/
def fetchedPages (h : Heap) (npage : Nat) : Nat :=
  match h.pgList (bucket npage) with
  | some tmp => h.pageSize tmp
  | none =>
    match firstFit h.pgList (toInt npage).toNat with
    | some _ => npage % 2 ^ 32
    | none => if npage = 256 then 65536 else npage

/-- The tag of the span that `fetch_span(npage)` returns. -/
def fetchedLoc (h : Heap) (npage : Nat) : SpanLocation :=
  match h.pgList (bucket npage) with
  | some _ => .pageheap
  | none =>
    match firstFit h.pgList (toInt npage).toNat with
    | some _ => if npage > 8 then .isolated else .pageheap
    | none => if 8 < npage ∧ npage < 256 then .isolated else .pageheap

/-- `fetch_span` has handed the span `s` to the place `dst`. -/
structure Fetched (d : Discipline) (env : Env) (dst : SpanPlace)
    (f f' : SpanPlace → List SpanPtr) (h h' : Heap) (s : SpanPtr) : Prop where
  inv : HeapInv d env h' f'
  inMap : InMap env h'
  quiet : Quiet dst h h' f f'
  dst : f' dst = s :: f dst
  new : ∀ p : SpanPlace, ¬ p.IsPg → s ∉ f p

/-- The head of the list is taken as it is. -/
theorem fetchWith_exact (hi : HeapInv d env h f) (hm : InMap env h) {tmp : SpanPtr}
    (hh : h.pgList (bucket npage) = some tmp) (hd : dst.Loose)
    (again : Heap → Except Fault (SpanPtr × Heap)) :
    ∃ h' f', fetchSpanWith env again npage h = .ok (tmp, h') ∧ Fetched d env dst f f' h h' tmp ∧
      h'.pageSize tmp = h.pageSize tmp ∧ h'.loc tmp = .pageheap := by
  have ht : tmp ∈ f (.pg (bucket npage)) :=
    List.mem_of_mem_head? ((hi.links.head (.pg (bucket npage))).symm.trans hh)
  obtain ⟨l, hrem, hi', hst⟩ := hi.takeOff ht hd
  refine ⟨_, _, by simp only [fetchSpanWith, hh, hrem]; rfl, ⟨hi', hm, ⟨rfl, rfl, rfl, rfl, hst,
    le_rfl, fun p hpg hpd => ?_, ?_, fun _ _ => ⟨rfl, rfl, rfl⟩⟩, moved_self, fun p hpg hp => ?_⟩,
    rfl, hi.kinds.pgLoc ht⟩
  · exact moved_of_ne (fun e => hpg ⟨_, e⟩) hpd
  · rw [moved_self]; exact List.subset_cons_self _ _
  · exact hpg ⟨_, hi.pages.placed.unique hp ht⟩

/-- A record without a place may be tagged. -/
theorem HeapInv.tag (hi : HeapInv d env h f) {s : Nat} (hs : ∀ p, s ∉ f p) (hb : s + 64 ≤ h.bound)
    (v : SpanLocation) : HeapInv d env (h.setLoc s v) f where
  record := hi.record.congr rfl rfl rfl rfl fun x hx hbx => by
    have hxs : x ≠ s := by omega
    exact hbx.congr rfl rfl (by simp [Heap.setLoc, hxs]) rfl rfl rfl rfl rfl
  pages := hi.pages.congr rfl rfl rfl rfl rfl fun _ => ⟨rfl, rfl, rfl⟩
  links := hi.links
  kinds := hi.kinds.congr rfl rfl rfl rfl (fun _ => id) fun {p x} _ hx => by
    have hxs : x ≠ s := fun e => hs p (e ▸ hx)
    exact ⟨rfl, by simp [Heap.setLoc, hxs]⟩

theorem toNat_toInt {n : Nat} (hn : ¬ toInt n < 0) :
    (toInt n).toNat = n % 2 ^ 32 ∧ n % 2 ^ 32 < 2 ^ 31 := by
  simp only [toInt] at hn ⊢
  split_ifs at hn ⊢ with hlt
  · exact ⟨Int.toNat_natCast _, hlt⟩
  · omega

theorem lt_of_bucket {n j : Nat} (hn : 0 < n) (hb : bucket n = j) : j < n := by
  rw [bucket, if_neg (by omega)] at hb
  simp only [PAGEHEAPSIZE] at hb
  omega

/-- The state with the record `s` for a span to be cut, tagged as `fetch_span` tags
it. -/
structure NewRecord (d : Discipline) (env : Env) (npage : Nat) (f : SpanPlace → List SpanPtr)
    (h h' : Heap) (s : Nat) : Prop where
  inv : HeapInv d env h' f
  inMap : InMap env h'
  unplaced : ∀ p, s ∉ f p
  notChunk : s ∉ h'.chunks
  below : s + 64 ≤ h'.bound
  pageSize : h'.pageSize s = npage % 2 ^ 32
  loc : h'.loc s = if npage > 8 then .isolated else .pageheap
  pgList : h'.pgList = h.pgList
  quiet : ∀ dst, Quiet dst h h' f f
  old : ∀ {p x}, x ∈ f p → h'.pageSize x = h.pageSize x ∧ h'.loc x = h.loc x

theorem Alloc.tagged (hi : HeapInv d env h f) (hm : InMap env h) {s : Nat}
    (ha : Alloc env f npage 0 h h' s) {h₂ : Heap}
    (hh₂ : h₂ = if npage > 8 then h'.setLoc s .isolated else h') :
    NewRecord d env npage f h h₂ s := by
  have hi' := ha.toKept.heapInv hi
  have hun := ha.unplaced hi.pages
  have hm' := ha.toKept.inMap hi hm
  have hloc : h'.loc s = .pageheap := by rw [ha.loc]; exact (hi.record.fresh s ha.new).loc
  have hq := ha.toKept.quiet hi.pages (ha.toKept.brk_le hi.record)
  have hold : ∀ {p x}, x ∈ f p → h'.pageSize x = h.pageSize x ∧ h'.loc x = h.loc x :=
    fun {p x} hx =>
    ⟨(ha.old x ((Nat.lt_add_of_pos_right (by decide)).trans_le (hi.pages.owned hx).below)).1,
      congrFun ha.loc x⟩
  have hne : ∀ {p x}, x ∈ f p → x ≠ s := fun hx e => hun _ (e ▸ hx)
  split_ifs at hh₂ with h8 <;> subst hh₂
  · refine ⟨hi'.tag hun ha.below _, hm', hun, ha.notChunk, ha.below, ha.pageSize,
      by simp [Heap.setLoc, h8], ha.pgList, fun dst => ?_, fun hx => ?_⟩
    · refine ⟨(hq dst).objs, (hq dst).objLen, (hq dst).objsSize, (hq dst).objRefcount,
        (hq dst).stray,
        (hq dst).brk, (hq dst).places, (hq dst).dst, fun hp hx => ?_⟩
      obtain ⟨a1, a2, a3⟩ := (hq dst).same hp hx
      exact ⟨a1, a2, by simpa [Heap.setLoc, hne hx] using a3⟩
    · exact ⟨(hold hx).1, by simpa [Heap.setLoc, hne hx] using (hold hx).2⟩
  · exact ⟨hi', hm', hun, ha.notChunk, ha.below, ha.pageSize, by simp [h8, hloc], ha.pgList, hq,
      hold⟩

/-- A larger span is cut. -/
theorem fetchWith_split (hs : env.Succeeds) (hi : HeapInv d env h f) (hm : InMap env h)
    {j : Nat} {tmp : SpanPtr} (hh : h.pgList (bucket npage) = none) (hneg : ¬ toInt npage < 0)
    (hff : firstFit h.pgList (toInt npage).toNat = some (j, tmp)) (hpos : npage % 2 ^ 32 ≠ 0)
    (hfit : h.pageSize tmp - npage % 2 ^ 32 < 2 ^ 20) (hd : dst.Loose)
    (again : Heap → Except Fault (SpanPtr × Heap)) :
    Sat (fetchSpanWith env again npage h) (fun r => ∃ f', Fetched d env dst f f' h r.2 r.1 ∧
      r.2.pageSize r.1 = npage % 2 ^ 32 ∧ r.2.loc r.1 = if npage > 8 then .isolated else .pageheap)
      (· = .pageMap) := by
  obtain ⟨hij, -, hhj⟩ := firstFit_some hff
  have ht : tmp ∈ f (.pg j) := List.mem_of_mem_head? ((hi.links.head (.pg j)).symm.trans hhj)
  have hlt : npage % 2 ^ 32 < h.pageSize tmp := by
    have := lt_of_bucket (hi.pages.owned ht).pos (hi.kinds.bucket ht)
    rw [(toNat_toInt hneg).1] at hij
    exact lt_of_le_of_lt hij this
  simp only [fetchSpanWith, hh]
  refine (allocSpan_sat hs hi.record hi.pages hi.links npage 0).bind ?_
  rintro ⟨s, h₁⟩ ha
  obtain ⟨h₂, hh₂⟩ : ∃ h₂, h₂ = if npage > 8 then h₁.setLoc s .isolated else h₁ := ⟨_, rfl⟩
  have hn := ha.tagged hi hm hh₂
  simp only [← hh₂, if_neg hneg, hn.pgList, hff]
  clear hh₂ ha
  have hp := hi.pages.placed
  have hne : SpanPlace.pg j ≠ dst := SpanPlace.ne_of_loose id hd
  obtain ⟨l, hrem, hi₃, hst⟩ := hn.inv.takeOff ht hd
  rw [hrem, ok_bind]
  refine Sat.bind (hi₃.split (by rw [moved_self]; exact List.mem_cons_self) hd
    ((hn.old ht).2.trans (hi.kinds.pgLoc ht))
    (fun p hx => by
      obtain ⟨q, hq⟩ := exists_of_mem_moved hp hne ht hx
      exact hn.unplaced q hq)
    hn.notChunk hn.below (Nat.pos_of_ne_zero hpos) (by rw [(hn.old ht).1]; exact hlt)
    (by rw [(hn.old ht).1]; exact hfit) hn.pageSize) ?_
  rintro h₄ ⟨f₂, hi₄, hdst, hpl, e1, e2, e3, e4, e5, hst₄, hbrk₄, hsz, hoth⟩
  have hq := hn.quiet dst
  have hdst' : f₂ dst = s :: f dst := by rw [hdst, moved_self, List.erase_cons_head]
  refine ⟨f₂, ⟨hi₄, ?_, ⟨e1.trans hq.objs, e2.trans hq.objLen, e3.trans hq.objsSize,
    e4.trans hq.objRefcount, hst₄.trans (hst.trans hq.stray), ?_, fun p hpg hpd => ?_, ?_,
    fun {p x} hpg hx => ?_⟩, hdst', fun p _ => hn.unplaced p⟩, hsz, ?_⟩
  · rw [InMap, hbrk₄]; exact hn.inMap
  · rw [hbrk₄]; exact hq.brk
  · rw [hpl p hpg hpd, moved_of_ne (fun e => hpg ⟨_, e⟩) hpd]
  · rw [hdst']; exact List.subset_cons_self _ _
  · have hxt : x ≠ tmp := fun e => hpg ⟨j, hp.unique (e ▸ hx) ht⟩
    have hxs : x ≠ s := fun e => hn.unplaced p (e ▸ hx)
    obtain ⟨a1, a2⟩ := hoth x hxs hxt
    obtain ⟨b1, b2, b3⟩ := hq.same hpg hx
    exact ⟨a1.trans b1, a2.trans b2, by rw [e5]; exact b3⟩
  · rw [e5]; exact hn.loc

/-- The span comes from the system. -/
theorem fetchWith_direct (hs : env.Succeeds) (hi : HeapInv d env h f) (hm : InMap env h)
    (hh : h.pgList (bucket npage) = none) (hneg : ¬ toInt npage < 0)
    (hff : firstFit h.pgList (toInt npage).toNat = none) (hlast : h.pgList 255 = none)
    (hbig : 256 < npage) (hlt : npage < 2 ^ 31) (hd : dst.Loose)
    (again : Heap → Except Fault (SpanPtr × Heap)) :
    Sat (fetchSpanWith env again npage h) (fun r => ∃ f', Fetched d env dst f f' h r.2 r.1 ∧
      r.2.pageSize r.1 = npage ∧ r.2.loc r.1 = .pageheap) (· = .pageMap) := by
  simp only [fetchSpanWith, hh]
  refine (allocSpan_sat hs hi.record hi.pages hi.links npage 0).bind ?_
  rintro ⟨s, h₁⟩ ha
  obtain ⟨h₂, hh₂⟩ : ∃ h₂, h₂ = if npage > 8 then h₁.setLoc s .isolated else h₁ := ⟨_, rfl⟩
  have hn := ha.tagged hi hm hh₂
  have hbytes : pagesToBytes npage = npage * 4096 := by simp only [pagesToBytes]; omega
  simp only [← hh₂, if_neg hneg, hn.pgList, hff, PAGEHEAPSIZE,
    show (256 - 1 : Nat) = 255 from rfl, hlast, scan, if_pos (show npage > 256 from hbig), hbytes]
  refine (hn.inv.regionSpan hs hn.inMap (by omega) hlt hd).mono ?_ fun _ => id
  rintro ⟨s', h₃⟩ hr
  exact ⟨_, ⟨hr.inv, hr.inMap, (hn.quiet dst).trans hr.quiet, Function.update_self _ _ _,
    fun p _ => hr.unplaced p⟩, hr.pageSize, hr.loc⟩

theorem bucket_of_lt {n : Nat} (hn : 0 < n) (hlt : n < 256) : bucket n = n - 1 := by
  rw [bucket, if_neg (by omega)]
  simp only [PAGEHEAPSIZE]
  omega

theorem bucket_of_le {n : Nat} (hn : 256 ≤ n) : bucket n = 255 := by
  rw [bucket, if_neg (by omega)]
  simp only [PAGEHEAPSIZE]
  omega

theorem firstFit_update {g : Nat → Option SpanPtr} {i : Nat} {R : SpanPtr} (hi : i < 256)
    (hg : ∀ j, i ≤ j → j < 256 → g j = none) :
    firstFit (Function.update g 255 (some R)) i = some (255, R) := by
  fun_induction firstFit (Function.update g 255 (some R)) i with
  | case1 i hlt t ht =>
    by_cases hi' : i = 255
    · subst hi'
      rw [Function.update_self] at ht
      rw [Option.some.inj ht]
    · rw [Function.update_of_ne hi', hg i le_rfl hlt] at ht
      cases ht
  | case2 i hlt ht ih =>
    have hi' : i ≠ 255 := by
      rintro rfl
      rw [Function.update_self] at ht
      cases ht
    exact ih (by omega) fun j h1 h2 => hg j (by omega) h2
  | case3 i hlt => exact absurd hi hlt

/-- The system is asked for memory, and `fetch_span` starts again. -/
theorem fetch_refill (hs : env.Succeeds) (hi : HeapInv d env h f) (hm : InMap env h)
    (hpos : 0 < npage) (hle : npage ≤ 256) (hh : h.pgList (bucket npage) = none)
    (hff : firstFit h.pgList npage = none) (hlast : h.pgList 255 = none) (hd : dst.Loose) :
    Sat (fetchSpan env npage h) (fun r => ∃ f', Fetched d env dst f f' h r.2 r.1 ∧
      r.2.pageSize r.1 = (if npage = 256 then 65536 else npage) ∧
      r.2.loc r.1 = if 8 < npage ∧ npage < 256 then .isolated else .pageheap) (· = .pageMap) := by
  have hint : toInt npage = npage := toInt_of_lt (by omega)
  have hneg : ¬ toInt npage < 0 := by rw [hint]; omega
  rw [fetchSpan, fetchSpanDepth]
  simp only [fetchSpanWith, hh]
  refine (allocSpan_sat hs hi.record hi.pages hi.links npage 0).bind ?_
  rintro ⟨s, h₁⟩ ha
  obtain ⟨h₂, hh₂⟩ : ∃ h₂, h₂ = if npage > 8 then h₁.setLoc s .isolated else h₁ := ⟨_, rfl⟩
  have hn := ha.tagged hi hm hh₂
  simp only [← hh₂, hn.pgList, hint, Int.toNat_natCast, hff, PAGEHEAPSIZE,
    show (256 - 1 : Nat) = 255 from rfl, hlast, scan, if_neg (show ¬ npage > 256 by omega)]
  refine (hn.inv.fetchFromSystem hs hn.inMap hd).bind ?_
  rintro h₃ ⟨f₃, R, hi₃, hm₃, hq₃, hdst₃, hR, hpg₃⟩
  rw [hn.pgList] at hpg₃
  have hq : Quiet dst h h₃ f f₃ := (hn.quiet dst).trans hq₃
  -- the second call finds the new span
  have finish : ∀ {r : SpanPtr × Heap}, (∃ f', Fetched d env dst f₃ f' h₃ r.2 r.1) →
      ∃ f', Fetched d env dst f f' h r.2 r.1 := by
    rintro ⟨S, h₄⟩ ⟨f₄, hf₄⟩
    refine ⟨f₄, hf₄.inv, hf₄.inMap, hq.trans hf₄.quiet, hf₄.dst.trans (by rw [hdst₃]),
      fun p hpg hx => hf₄.new p hpg ?_⟩
    by_cases hpd : p = dst
    · subst hpd; exact hq.dst hx
    · rw [hq.places p hpg hpd]; exact hx
  by_cases h256 : npage = 256
  · subst h256
    have hh₃ : h₃.pgList (bucket 256) = some R := by rw [hpg₃, bucket_of_le le_rfl]; simp
    obtain ⟨h₄, f₄, hrun, hf₄, hsz, hl⟩ := fetchWith_exact hi₃ hm₃ hh₃ hd
      (fetchSpanDepth env 0 256)
    rw [fetchSpanDepth, hrun]
    obtain ⟨f', hf'⟩ := finish (r := (R, h₄)) ⟨f₄, hf₄⟩
    exact ⟨f', hf', by rw [if_pos rfl, hsz, hR], hl⟩
  · have hlt : npage < 256 := by omega
    have hmod : npage % 2 ^ 32 = npage := Nat.mod_eq_of_lt (by omega)
    have hbk := bucket_of_lt hpos hlt
    have hh₃ : h₃.pgList (bucket npage) = none := by
      rw [hpg₃, Function.update_of_ne (by omega), hh]
    have hff₃ : firstFit h₃.pgList (toInt npage).toNat = some (255, R) := by
      rw [hpg₃, hint, Int.toNat_natCast]
      exact firstFit_update hlt (firstFit_none hff)
    rw [fetchSpanDepth]
    refine (fetchWith_split hs hi₃ hm₃ hh₃ hneg hff₃ (by omega) (by rw [hR, hmod]; omega) hd _).mono
      ?_ fun _ => id
    rintro ⟨S, h₄⟩ ⟨f₄, hf₄, hsz, hl⟩
    obtain ⟨f', hf'⟩ := finish (r := (S, h₄)) ⟨f₄, hf₄⟩
    refine ⟨f', hf', by rw [if_neg h256, hsz, hmod], ?_⟩
    rw [hl]
    simp only [gt_iff_lt, hlt, and_true]

/-- `fetch_span` hands out a span that owns its pages. -/
theorem fetchSpan_sat (hs : env.Succeeds) (hi : HeapInv d env h f) (hm : InMap env h)
    (hpos : 0 < npage) (hok : FetchOk h npage) (hd : dst.Loose) :
    Sat (fetchSpan env npage h) (fun r => ∃ f', Fetched d env dst f f' h r.2 r.1 ∧
      r.2.pageSize r.1 = fetchedPages h npage ∧ r.2.loc r.1 = fetchedLoc h npage)
      (fun e => e = .pageMap ∨ (e = .badIndex ∧ toInt npage < 0)) := by
  rw [FetchOk] at hok
  rw [fetchedPages, fetchedLoc]
  cases hh : h.pgList (bucket npage) with
  | some tmp =>
    obtain ⟨h', f', hrun, hf', hsz, hl⟩ := fetchWith_exact hi hm hh hd
      (fetchSpanDepth env 1 npage)
    rw [fetchSpan, fetchSpanDepth, hrun]
    exact ⟨f', hf', hsz, hl⟩
  | none =>
    simp only [hh] at hok ⊢
    by_cases hneg : toInt npage < 0
    · rw [fetchSpan, fetchSpanDepth]
      simp only [fetchSpanWith, hh]
      refine (allocSpan_sat hs hi.record hi.pages hi.links npage 0).mono (fun _ => id)
        (fun _ => Or.inl) |>.bind ?_
      rintro ⟨s, h₁⟩ -
      simp only [if_pos hneg]
      exact Or.inr ⟨rfl, hneg⟩
    · cases hff : firstFit h.pgList (toInt npage).toNat with
      | some jt =>
        obtain ⟨j, tmp⟩ := jt
        simp only [hff] at hok ⊢
        rw [fetchSpan, fetchSpanDepth]
        exact (fetchWith_split hs hi hm hh hneg hff hok.1 hok.2 hd _).mono (fun _ => id)
          fun _ => Or.inl
      | none =>
        simp only [hff] at hok ⊢
        obtain ⟨hnat, hlt⟩ := toNat_toInt hneg
        rw [Nat.mod_eq_of_lt hok] at hnat hlt
        have hlast : h.pgList 255 = none := by
          by_cases hle : npage ≤ 255
          · exact firstFit_none hff 255 (by omega) (by omega)
          · rw [← bucket_of_le (show 256 ≤ npage by omega)]; exact hh
        by_cases hbig : 256 < npage
        · rw [fetchSpan, fetchSpanDepth]
          refine (fetchWith_direct hs hi hm hh hneg hff hlast hbig hlt hd _).mono ?_ fun _ => Or.inl
          rintro r ⟨f', hf', hsz, hl⟩
          exact ⟨f', hf', by rw [if_neg (by omega), hsz], by rw [if_neg (by omega), hl]⟩
        · rw [hnat] at hff
          exact (fetch_refill hs hi hm hpos (by omega) hh hff hlast hd).mono (fun _ => id)
            fun _ => Or.inl

/-! ## `return_span_to_pgcache` -/

/-- The pages of a span in use are mapped already. -/
theorem updateMapping_owned {s : Nat} (ho : Owns env h s) : updateMapping s h = .ok h := by
  have hlt : h.pageId s + h.pageSize s < 2 ^ 24 := ho.inMap.trans_lt (by decide)
  have hmap : mapRange h.pageMapping (h.pageId s) (h.pageSize s) s = h.pageMapping := by
    funext k
    rw [mapRange]
    split_ifs with hk
    · exact (ho.mapped k hk.1 hk.2).symm
    · rfl
  rw [updateMapping_eq (by omega) (by omega), if_pos (Or.inr ho.inMap), hmap]

/-- A span goes back to the page heap. -/
theorem returnSpan_sat (hi : HeapInv d env h f) {s : Nat} (hs : s ∈ f dst) (hd : dst.Loose) :
    ∃ h', returnSpanToPgcache s h = .ok h' ∧
      HeapInv d env h' (moved f dst (.pg (bucket (h.pageSize s))) s) ∧
      h'.brk = h.brk ∧ (h'.stray ↔ h.stray) ∧ h'.objs = h.objs ∧ h'.objLen = h.objLen ∧
      h'.objsSize = h.objsSize ∧ h'.objRefcount = h.objRefcount ∧ h'.pageSize = h.pageSize ∧
      h'.start = h.start ∧ ∀ x, x ≠ s → h'.loc x = h.loc x := by
  have ho := hi.pages.owned hs
  have hc : Clean h s := hi.kinds.clean fun p hp => hi.pages.placed.unique hs hp ▸ hd.cls_eq
  -- the free list is empty already
  have hclear : ({ h with
      objsSize := Function.update h.objsSize s 0
      objLen := Function.update h.objLen s 0
      objs := Function.update h.objs s []
      loc := Function.update h.loc s .pageheap } : Heap) = h.setLoc s .pageheap := by
    have e1 : Function.update h.objsSize s 0 = h.objsSize :=
      Function.update_eq_self_iff.mpr hc.objsSize.symm
    have e2 : Function.update h.objLen s 0 = h.objLen :=
      Function.update_eq_self_iff.mpr hc.objLen.symm
    have e3 : Function.update h.objs s [] = h.objs := Function.update_eq_self_iff.mpr hc.objs.symm
    rw [e1, e2, e3]
    rfl
  have hi₁ : HeapInv d env (h.setLoc s .pageheap) f :=
    ⟨hi.record.congr rfl rfl rfl rfl fun x hx hbx => by
        have hxs : x ≠ s := by have := ho.below; omega
        exact hbx.congr rfl rfl (by simp [Heap.setLoc, hxs]) rfl rfl rfl rfl rfl,
      hi.pages.congr rfl rfl rfl rfl rfl fun _ => ⟨rfl, rfl, rfl⟩, hi.links,
      hi.kinds.congr rfl rfl rfl rfl (fun _ => id) fun {p x} hpl hx => by
        have hxs : x ≠ s := by
          rintro rfl
          exact hpl (hi.pages.placed.unique hs hx ▸ hd)
        exact ⟨rfl, by simp [Heap.setLoc, hxs]⟩⟩
  have hput := hi₁.putPg hs hd (by simp [Heap.setLoc])
  refine ⟨_, ?_, hput, rfl, Iff.of_eq (spanlistPush_stray (.pg _) s _), rfl, rfl, rfl,
    rfl, rfl, rfl,
    fun x hx => by simp [Heap.push, Heap.setLoc, hx]⟩
  have hrun : returnSpanToPgcache s h =
      updateMapping s ((h.setLoc s .pageheap).push (.pgList (bucket (h.pageSize s))) s) := by
    rw [← hclear]
    rfl
  rw [hrun, updateMapping_push, updateMapping_owned (hi₁.pages.owned hs)]
  rfl

end FetchSpan

end SearchEngine.TcMalloc
