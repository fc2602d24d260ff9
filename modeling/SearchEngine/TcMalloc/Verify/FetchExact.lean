import SearchEngine.TcMalloc.Verify.Scene

/-!
# `fetch_span` is exact

`Traded` says which pages leave the page heap and which come into it, and `Asked` how
the program break moves, whichever way `fetch_span` finds its span
(`fetchSpan_traded`). From it follows when the span has exactly the pages asked for and
no page is lost (`fetch_exact`): the head of the last list is handed out whatever its
size.
-/

namespace SearchEngine.TcMalloc

open LinkedRing Placement Outcome Reach

/-! ## The program break -/

/-- By how many pages other users of the break move it before the `sbrk` number `calls`. -/
def gap (env : Env) (calls : Nat) : Nat := (env.answer calls).getD 0

/-- The program break `brk`, after `calls` calls of `sbrk`, once the sizes in the list have been
asked for too. -/
def brkAfter (env : Env) : List Nat → Nat → Nat → Nat
  | [], _, brk => brk
  | nbytes :: rest, calls, brk => brkAfter env rest (calls + 1)
    (brk + gap env calls * 4096 + nbytes)

/-- The heap `h'` comes from `h` by asking the system for the sizes in `reqs`. -/
structure Asked (env : Env) (reqs : List Nat) (h h' : Heap) : Prop where
  brk : h'.brk = brkAfter env reqs h.sbrkCalls h.brk
  calls : h'.sbrkCalls = h.sbrkCalls + reqs.length

/-- What `alloc_span` asks for, with `rem` bytes left in its chunk. -/
def chunkAsk (rem : Nat) : List Nat := if rem < SPANBYTES then [CHUNKBYTES] else []

/-- The bytes that are left in the chunk after `alloc_span`. -/
def remAfter (rem : Nat) : Nat :=
  if rem < SPANBYTES then CHUNKBYTES - 2 * SPANBYTES else rem - SPANBYTES

/-- The end of the page map. -/
def mapEnd (env : Env) : Nat := env.ini + PAGEMAPSIZE * 4096

section Break

variable {d : Discipline} {env : Env} {h h' h'' : Heap} {f : SpanPlace → List SpanPtr}
  {reqs reqs' : List Nat} {npages ptr n : Nat}

theorem brkAfter_append (reqs reqs' : List Nat) (calls brk : Nat) :
    brkAfter env (reqs ++ reqs') calls brk =
      brkAfter env reqs' (calls + reqs.length) (brkAfter env reqs calls brk) := by
  induction reqs generalizing calls brk with
  | nil => rfl
  | cons nbytes rest ih =>
    rw [List.cons_append, brkAfter, brkAfter, ih, List.length_cons]
    congr 1
    omega

theorem le_brkAfter (reqs : List Nat) (calls brk : Nat) : brk ≤ brkAfter env reqs calls brk := by
  induction reqs generalizing calls brk with
  | nil => exact le_rfl
  | cons nbytes rest ih =>
    rw [brkAfter]
    exact le_trans (by omega) (ih _ _)

theorem Asked.refl (h : Heap) : Asked env [] h h := ⟨rfl, rfl⟩

theorem Asked.trans (h1 : Asked env reqs h h') (h2 : Asked env reqs' h' h'') :
    Asked env (reqs ++ reqs') h h'' where
  brk := by rw [h2.brk, h1.brk, h1.calls, brkAfter_append]
  calls := by rw [h2.calls, h1.calls, List.length_append, Nat.add_assoc]

/-- A later request only moves the break further beyond the page map. -/
theorem Asked.beyond (h1 : Asked env reqs h h')
    (h2 : mapEnd env < brkAfter env reqs' h'.sbrkCalls h'.brk) :
    mapEnd env < brkAfter env (reqs ++ reqs') h.sbrkCalls h.brk := by
  rw [h1.brk, h1.calls, ← brkAfter_append] at h2
  exact h2

theorem sbrk_gap (hs : env.Succeeds) (nbytes : Nat) (h : Heap) :
    gap env h.sbrkCalls < 2 ^ 20 ∧ sbrk env nbytes h = (h.brk + gap env h.sbrkCalls * 4096,
      { h with
        brk := h.brk + gap env h.sbrkCalls * 4096 + nbytes
        sbrkCalls := h.sbrkCalls + 1
        regions := nbytes :: h.regions }) := by
  obtain ⟨g, hg⟩ := Option.ne_none_iff_exists'.mp (hs h.sbrkCalls)
  have hgap : gap env h.sbrkCalls = g := by
    unfold gap
    rw [hg]
    rfl
  rw [hgap]
  refine ⟨env.answer_lt hg, ?_⟩
  unfold sbrk
  rw [hg]

/-- `update_mapping` writes the page map only. -/
theorem updateMapping_frame (s : SpanPtr) (h : Heap) :
    Sat (updateMapping s h) (fun h' => ∃ m, h' = { h with pageMapping := m }) fun _ => True := by
  unfold updateMapping
  simp only
  cases updateMappingLoop s (h.pageId s) (toInt (h.pageSize s)).toNat 0 h.pageMapping with
  | error e => trivial
  | ok m => exact ⟨m, rfl⟩

/-- A new chunk of records moves the break, or runs over the page map. -/
theorem newChunk_asked (hs : env.Succeeds) (hini : h.iniBrkAddr = env.ini) (hn : BrkAt env h n)
    (hlt : n < 2 ^ 32 - 2 ^ 21) :
    Sat (newChunk env h)
      (fun h' => Asked env [CHUNKBYTES] h h' ∧ h'.remBytes = CHUNKBYTES - SPANBYTES ∧
        h'.iniBrkAddr = env.ini)
      fun _ => mapEnd env < brkAfter env [CHUNKBYTES] h.sbrkCalls h.brk := by
  obtain ⟨hgap, hsbrk⟩ := sbrk_gap hs (pagesToBytes SPANPOOLSIZE) h
  obtain ⟨g, hg⟩ : ∃ g, g = gap env h.sbrkCalls := ⟨_, rfl⟩
  rw [← hg] at hgap hsbrk
  obtain ⟨nbytes, hnbytes⟩ : ∃ nbytes, nbytes = CHUNKBYTES := ⟨_, rfl⟩
  obtain ⟨pool, hpool⟩ : ∃ pool, pool = SPANPOOLSIZE := ⟨_, rfl⟩
  have hbytes : pagesToBytes pool = nbytes := by rw [hpool, hnbytes]; rfl
  rw [← hpool, hbytes] at hsbrk
  rw [← hnbytes]
  have hbrk : h.brk = env.ini + n * 4096 := hn
  have hlt' := env.ini_lt
  have hafter : brkAfter env [nbytes] h.sbrkCalls h.brk = h.brk + g * 4096 + nbytes := by
    rw [brkAfter, brkAfter, ← hg]
  have hne : ¬ h.brk + g * 4096 = sbrkFailed := by
    simp only [sbrkFailed]
    omega
  have hid : addrToIndex (h.brk + g * 4096) env.ini % 2 ^ 32 = n + g := by
    rw [addrToIndex_eq env (k := n + g) (by omega) (by omega) (by omega)]
    exact Nat.mod_eq_of_lt (by omega)
  obtain ⟨h₁, hh₁⟩ : ∃ h₁ : Heap, h₁ = zeroSpans (h.brk + g * 4096) nbytes { h with
    brk := h.brk + g * 4096 + nbytes
    sbrkCalls := h.sbrkCalls + 1
    regions := nbytes :: h.regions } := ⟨_, rfl⟩
  have hini₁ : h₁.iniBrkAddr = env.ini := by rw [hh₁]; exact hini
  have hpool' : pool = 1440 := hpool
  by_cases hmap : pool = 0 ∨ n + g + pool ≤ PAGEMAPSIZE
  · unfold newChunk
    simp only [← hpool, hbytes, hsbrk, if_neg hne, ← hh₁, hini₁, hid]
    rw [updateMapping_eq (by simp only [Function.update_self]; omega)
      (by simp only [Function.update_self]; omega)]
    simp only [Function.update_self, if_pos hmap]
    refine ⟨⟨?_, ?_⟩, rfl, rfl⟩
    · rw [hafter, hh₁]
      rfl
    · rw [hh₁]
      rfl
  · unfold newChunk
    simp only [← hpool, hbytes, hsbrk, if_neg hne, ← hh₁, hini₁, hid]
    rw [updateMapping_eq (by simp only [Function.update_self]; omega)
      (by simp only [Function.update_self]; omega)]
    simp only [Function.update_self, if_neg hmap]
    show mapEnd env < _
    rw [hafter, hnbytes]
    simp only [PAGEMAPSIZE] at hmap
    simp only [mapEnd, PAGEMAPSIZE, CHUNKBYTES]
    omega

/-- `alloc_span`, with the numbers that its record gets. -/
theorem allocSpan_asked (hs : env.Succeeds) (hini : h.iniBrkAddr = env.ini) (hn : BrkAt env h n)
    (hlt : n < 2 ^ 32 - 2 ^ 21) (npages ptr : Nat) :
    Sat (allocSpan env npages ptr h)
      (fun r => Asked env (chunkAsk h.remBytes) h r.2 ∧ r.2.remBytes = remAfter h.remBytes ∧
        r.2.pageSize r.1 = npages % 2 ^ 32 ∧
        (ptr ≠ 0 → r.2.pageId r.1 = addrToIndex ptr env.ini % 2 ^ 32))
      fun _ => mapEnd env < brkAfter env (chunkAsk h.remBytes) h.sbrkCalls h.brk := by
  have htake : ∀ h₁ : Heap, h₁.iniBrkAddr = env.ini →
      (takeRecord npages ptr h₁).2.pageSize (takeRecord npages ptr h₁).1 = npages % 2 ^ 32 ∧
      (ptr ≠ 0 → (takeRecord npages ptr h₁).2.pageId (takeRecord npages ptr h₁).1 =
        addrToIndex ptr env.ini % 2 ^ 32) := by
    intro h₁ hini₁
    refine ⟨by simp [takeRecord], fun hptr => ?_⟩
    simp [takeRecord, hptr, hini₁]
  unfold allocSpan chunkAsk remAfter
  by_cases hrem : h.remBytes < SPANBYTES
  · simp only [if_pos hrem]
    refine (newChunk_asked hs hini hn hlt).bind ?_
    rintro h₁ ⟨hask, hrem₁, hini₁⟩
    refine ⟨⟨hask.brk, hask.calls⟩, ?_, htake h₁ hini₁⟩
    show h₁.remBytes - SPANBYTES = _
    rw [hrem₁]
    rfl
  · simp only [if_neg hrem]
    exact ⟨⟨rfl, rfl⟩, rfl, htake h hini⟩

/-- A region from the system: the page that it begins with, and the records that it leaves
alone. -/
theorem regionSpan_asked (hs : env.Succeeds) (hi : HeapInv d env h f) (hm : InMap env h)
    (hpos : 0 < npages) (hlt : npages < 2 ^ 31) :
    Sat (regionSpan env npages h)
      (fun r => Asked env (npages * 4096 :: chunkAsk h.remBytes) h r.2 ∧
        r.2.remBytes = remAfter h.remBytes ∧ r.2.pageSize r.1 = npages ∧
        env.ini + r.2.pageId r.1 * 4096 = h.brk + gap env h.sbrkCalls * 4096 ∧
        ∀ x : Nat, x < h.bound → r.2.pageSize x = h.pageSize x ∧ r.2.pageId x = h.pageId x)
      fun _ => mapEnd env < brkAfter env (npages * 4096 :: chunkAsk h.remBytes)
      h.sbrkCalls h.brk := by
  obtain ⟨n, hn, hnle⟩ := hi.brkAt hm
  have hini := env.ini_lt
  have hini' := env.ini_pos
  have hbrk : h.brk = env.ini + n * 4096 := hn
  obtain ⟨hgap, hsbrk⟩ := sbrk_gap hs (npages * 4096) h
  obtain ⟨g, hg⟩ : ∃ g, g = gap env h.sbrkCalls := ⟨_, rfl⟩
  rw [← hg] at hgap hsbrk
  obtain ⟨ptr, hptr⟩ : ∃ ptr, ptr = h.brk + g * 4096 := ⟨_, rfl⟩
  rw [← hptr] at hsbrk
  have hreq : ∀ reqs, brkAfter env (npages * 4096 :: reqs) h.sbrkCalls h.brk =
      brkAfter env reqs (h.sbrkCalls + 1) (ptr + npages * 4096) := by
    intro reqs
    rw [brkAfter, ← hg, ← hptr]
  rw [hreq, ← hg, ← hptr]
  unfold regionSpan
  simp only [hsbrk]
  have hi₁ := hi.extend (b := ptr + npages * 4096) (n := n + g + npages) (by omega) (by omega)
    (by omega) (h.sbrkCalls + 1) (npages * 4096)
  obtain ⟨h₁, hh₁⟩ : ∃ h₁ : Heap, h₁ = { h with
    brk := ptr + npages * 4096
    sbrkCalls := h.sbrkCalls + 1
    regions := npages * 4096 :: h.regions } := ⟨_, rfl⟩
  rw [← hh₁] at hi₁ ⊢
  have hn₁ : BrkAt env h₁ (n + g + npages) := by
    rw [hh₁]
    show ptr + npages * 4096 = _
    omega
  have hask₁ : ∀ {reqs h'}, Asked env reqs h₁ h' → Asked env (npages * 4096 :: reqs) h h' := by
    rintro reqs h' ⟨hb, hc⟩
    rw [hh₁] at hb hc
    refine ⟨by rw [hreq]; exact hb, ?_⟩
    rw [List.length_cons]
    simp only at hc
    omega
  have hrem₁ : h₁.remBytes = h.remBytes := by rw [hh₁]
  have hend₁ : ∀ reqs, brkAfter env reqs h₁.sbrkCalls h₁.brk =
      brkAfter env reqs (h.sbrkCalls + 1) (ptr + npages * 4096) := by
    intro reqs
    rw [hh₁]
  have hrecord := hi₁.record.ini
  refine (((allocSpan_asked hs hrecord hn₁ (by omega) npages ptr).and
    (allocSpan_sat hs hi₁.record hi₁.pages hi₁.links npages ptr)).mono (fun _ => id) ?_).bind ?_
  · rintro e ⟨hend, -⟩
    rw [hend₁, hrem₁] at hend
    exact hend
  rintro ⟨s, h₂⟩ ⟨⟨hask, hrem, hsize, hid⟩, ha⟩
  simp only at hask hrem hsize hid ha
  rw [hrem₁] at hask hrem
  have hsz : h₂.pageSize s = npages := hsize.trans (Nat.mod_eq_of_lt (by omega))
  have hpage : h₂.pageId s = n + g := by
    rw [hid (by omega), addrToIndex_eq env (k := n + g) (by omega) (by omega) (by omega)]
    exact Nat.mod_eq_of_lt (by omega)
  have hmap := updateMapping_eq (s := s) (h := { h₂ with start := Function.update h₂.start s ptr })
    (by show h₂.pageSize s < _; omega) (by show h₂.pageId s < _; omega)
  simp only [hsz, hpage] at hmap
  rw [hmap]
  by_cases hfit : npages = 0 ∨ n + g + npages ≤ PAGEMAPSIZE
  · rw [if_pos hfit]
    refine ⟨?_, hrem, hsz, ?_, fun x hx => ?_⟩
    · obtain ⟨hb, hc⟩ := hask₁ hask
      exact ⟨hb, hc⟩
    · show env.ini + h₂.pageId s * 4096 = ptr
      rw [hpage]
      omega
    · have hbound : h₁.bound = h.bound := by rw [hh₁]; rfl
      obtain ⟨h1, h2⟩ := ha.old x (by rw [hbound]; exact hx)
      rw [hh₁] at h1 h2
      exact ⟨h1, h2⟩
  · rw [if_neg hfit]
    have hle : ptr + npages * 4096 ≤ brkAfter env (chunkAsk h.remBytes) (h.sbrkCalls + 1)
        (ptr + npages * 4096) := le_brkAfter _ _ _
    have hbeyond : mapEnd env < ptr + npages * 4096 := by
      simp only [PAGEMAPSIZE] at hfit
      simp only [mapEnd, PAGEMAPSIZE]
      omega
    exact hbeyond.trans_le hle

end Break

/-! ## The pages of the page heap -/

/-- The spans on the lists of the page heap, in order. -/
structure PgLists (h : Heap) (g : Nat → List SpanPtr) : Prop where
  ring : ∀ i, IsRing h.next h.prev (g i)
  head : ∀ i, h.pgList i = (g i).head?
  nodup : ∀ i, (g i).Nodup

/-- The pages that the record of `S` names. -/
def pagesOf (h : Heap) (S : SpanPtr) : List Nat := List.range' (h.pageId S) (h.pageSize S)

/-- The pages of all spans on the lists `g`. -/
def pagesIn (h : Heap) (g : Nat → List SpanPtr) : List Nat :=
  (List.range PAGEHEAPSIZE).flatMap fun i => (g i).flatMap (pagesOf h)

/-- Between `h` and `h'` the pages `out` have left the page heap and the pages `new` have come
into it. -/
def Traded (h h' : Heap) (out new : List Nat) : Prop :=
  ∃ g g', PgLists h g ∧ PgLists h' g' ∧ (pagesIn h' g' ++ out).Perm (pagesIn h g ++ new)

section Pages

variable {d : Discipline} {env : Env} {h h' h'' : Heap} {f : SpanPlace → List SpanPtr}
  {g g' : Nat → List SpanPtr} {S : SpanPtr} {out new out' new' : List Nat} {i : Nat}

theorem PgLists.unique (hg : PgLists h g) (hg' : PgLists h g') : g = g' := by
  funext i
  refine (hg.ring i).unique (hg'.ring i) (hg.nodup i) (hg'.nodup i) ?_
  rw [← hg.head i, hg'.head i]

/-- The lists of the page heap, as the places have them. -/
def pgPlaces (f : SpanPlace → List SpanPtr) (i : Nat) : List SpanPtr := f (.pg i)

theorem LinkInv.pgLists (hl : LinkInv h.toLinks f) (hnd : ∀ i, (f (.pg i)).Nodup) :
    PgLists h (pgPlaces f) where
  ring i := hl.ring (.pg i)
  head i := hl.head (.pg i)
  nodup := hnd

theorem HeapInv.pgLists (hi : HeapInv d env h f) : PgLists h (pgPlaces f) :=
  hi.links.pgLists fun i => hi.pages.placed.nodup (.pg i)

theorem Traded.trans (h1 : Traded h h' out new) (h2 : Traded h' h'' out' new') :
    Traded h h'' (out ++ out') (new ++ new') := by
  obtain ⟨g, g₁, hg, hg₁, hperm⟩ := h1
  obtain ⟨g₁', g₂, hg₁', hg₂, hperm'⟩ := h2
  obtain rfl := hg₁.unique hg₁'
  refine ⟨g, g₂, hg, hg₂, List.perm_iff_count.mpr fun k => ?_⟩
  have hcount := hperm.count_eq k
  have hcount' := hperm'.count_eq k
  simp only [List.count_append] at hcount hcount' ⊢
  omega

/-- Pages that went both ways do not count. -/
theorem Traded.cancel (both : List Nat) (h1 : Traded h h' out new)
    (hout : out.Perm (both ++ out')) (hnew : new.Perm (both ++ new')) :
    Traded h h' out' new' := by
  obtain ⟨g, g', hg, hg', hperm⟩ := h1
  refine ⟨g, g', hg, hg', List.perm_iff_count.mpr fun k => ?_⟩
  have hcount := hperm.count_eq k
  have hcount₁ := hout.count_eq k
  have hcount₂ := hnew.count_eq k
  simp only [List.count_append] at hcount hcount₁ hcount₂ ⊢
  omega

theorem Traded.add (both : List Nat) (h1 : Traded h h' out new) :
    Traded h h' (both ++ out) (both ++ new) := by
  obtain ⟨g, g', hg, hg', hperm⟩ := h1
  refine ⟨g, g', hg, hg', List.perm_iff_count.mpr fun k => ?_⟩
  have hcount := hperm.count_eq k
  simp only [List.count_append] at hcount ⊢
  omega

/-- Records that keep their pages keep the pages of the lists. -/
theorem pagesIn_congr (hsame : ∀ i, ∀ x ∈ g i, pagesOf h' x = pagesOf h x) :
    pagesIn h' g = pagesIn h g := by
  unfold pagesIn
  exact List.flatMap_congr fun i _ => List.flatMap_congr (hsame i)

/-- A span more on the list `i`. -/
theorem pagesIn_insert (hlt : i < PAGEHEAPSIZE) (hother : ∀ j, j ≠ i → g' j = g j)
    (hself : (g' i).Perm (S :: g i)) : (pagesIn h g').Perm (pagesOf h S ++ pagesIn h g) := by
  unfold pagesIn
  refine Placement.flatMap_range_insert hlt (fun j hj => by rw [hother j hj]) ?_
  have hperm := hself.flatMap_right (pagesOf h)
  rwa [List.flatMap_cons] at hperm

theorem bucket_lt (npage : Nat) : bucket npage < PAGEHEAPSIZE := by
  unfold bucket
  simp only [PAGEHEAPSIZE]
  split_ifs <;> omega

/-- A span leaves its list. -/
theorem HeapInv.takeOff_traded (hi : HeapInv d env h f) {dst : SpanPlace} (hS : S ∈ f (.pg i))
    (hlt : i < PAGEHEAPSIZE) (hd : dst.Loose) {l : Links}
    (hi' : HeapInv d env { h with toLinks := l } (moved f (.pg i) dst S)) :
    Traded h { h with toLinks := l } (pagesOf h S) [] := by
  have hne : ∀ j, SpanPlace.pg j ≠ dst := fun j => SpanPlace.ne_of_loose id hd
  refine ⟨_, _, hi.pgLists, hi'.pgLists, ?_⟩
  rw [List.append_nil]
  refine List.Perm.trans List.perm_append_comm ?_
  refine (pagesIn_insert (h := h) hlt (fun j hj => ?_) ?_).symm
  · unfold pgPlaces
    rw [moved_of_ne (by simpa using hj) (hne j)]
  · unfold pgPlaces
    simp only [moved, Function.update_of_ne (hne i), Function.update_self]
    exact List.perm_cons_erase hS

/-- A span off its list is cut: the record `s` gets its last pages, the others go back to the
page heap. -/
theorem splitSpans_traded {dst : SpanPlace} {tmp s : Nat} (npage left : Nat)
    (hi : HeapInv d env h f)
    (ht : tmp ∈ f dst) (hd : dst.Loose) (hs : ∀ p, s ∉ f p) (hpos : 0 < npage % 2 ^ 32)
    (hleft : h.pageSize tmp = left + npage % 2 ^ 32) (hlt : 0 < left)
    (hsn : h.pageSize s = npage % 2 ^ 32) :
    ∃ h', splitSpans tmp s npage h = .ok h' ∧
      Traded h h' [] (List.range' (h.pageId tmp) left) ∧ h'.pageSize s = npage % 2 ^ 32 ∧
      h'.pageId s = h.pageId tmp + left ∧ h'.start s = h.start tmp + pagesToBytes32 left ∧
      h'.brk = h.brk ∧ h'.sbrkCalls = h.sbrkCalls := by
  have hot := hi.pages.owned ht
  have hmap := hot.inMap
  simp only [PAGEMAPSIZE] at hmap
  have hts : tmp ≠ s := fun e => hs dst (e ▸ ht)
  have hsub : h.pageSize tmp - npage % 2 ^ 32 = left := by omega
  have hid : (h.pageId tmp + left) % 2 ^ 32 = h.pageId tmp + left := Nat.mod_eq_of_lt (by omega)
  rw [splitSpans_eq (by omega) (by omega), hsub, hid]
  obtain ⟨h₁, hh₁⟩ : ∃ h₁ : Heap, h₁ = { h with
    pageSize := Function.update h.pageSize tmp left
    start := Function.update h.start s (h.start tmp + pagesToBytes32 left)
    next := Function.update h.next s (some s)
    prev := Function.update h.prev s (some s)
    pageId := Function.update h.pageId s (h.pageId tmp + left) } := ⟨_, rfl⟩
  rw [← hh₁]
  have hps : h₁.pageSize s = npage % 2 ^ 32 := by rw [hh₁]; simp [Ne.symm hts, hsn]
  have hpi : h₁.pageId s = h.pageId tmp + left := by rw [hh₁]; simp
  have hpt : pagesOf h₁ tmp = List.range' (h.pageId tmp) left := by
    unfold pagesOf
    rw [hh₁]
    simp [hts]
  rw [updateMapping_eq (by omega) (by omega), if_pos (.inr (by simp only [PAGEMAPSIZE]; omega))]
  refine ⟨_, rfl, ?_, hps, hpi, by rw [hh₁]; simp [Heap.push], by rw [hh₁]; rfl, by rw [hh₁]; rfl⟩
  -- the links
  have hp := hi.pages.placed
  have hlinks : LinkInv h₁.toLinks f := by
    refine hi.links.congr_links (fun r => by rw [hh₁]; cases r <;> rfl) fun x hx => ?_
    have hxs : x ≠ s := by
      rintro rfl
      exact not_linked_of_unplaced hs hx
    rw [hh₁]
    simp [hxs]
  have hput := hlinks.putOn hp (.pg (bucket left)) ht hd
  have hne : ∀ j, SpanPlace.pg j ≠ dst := fun j => SpanPlace.ne_of_loose id hd
  have hlists : PgLists (h₁.push (.pgList (bucket left)) tmp)
      (pgPlaces (moved f dst (.pg (bucket left)) tmp)) :=
    LinkInv.pgLists hput fun i => (placed_moved hp (hne _).symm ht).nodup (.pg i)
  have hsame : pagesIn h₁ (pgPlaces f) = pagesIn h (pgPlaces f) := by
    refine pagesIn_congr fun i x hx => ?_
    have hxs : x ≠ s := fun e => hs (.pg i) (e ▸ hx)
    have hxt : x ≠ tmp := fun e => hne i (hp.unique (e ▸ hx) ht)
    unfold pagesOf
    rw [hh₁]
    simp [hxs, hxt]
  refine ⟨_, _, hi.pgLists, ⟨hlists.ring, hlists.head, hlists.nodup⟩, ?_⟩
  rw [List.append_nil, ← hsame, ← hpt]
  refine (pagesIn_insert (h := h₁) (bucket_lt left) (fun j hj => ?_) ?_).trans
    List.perm_append_comm
  · unfold pgPlaces
    rw [moved_of_ne (hne j) (by simpa using hj)]
  · unfold pgPlaces
    rw [show moved f dst (.pg (bucket left)) tmp (.pg (bucket left)) = _ from moved_self]

end Pages

/-! ## The ways of `fetch_span` -/

section Ways

variable {d : Discipline} {env : Env} {h h' : Heap} {f : SpanPlace → List SpanPtr} {npage : Nat}

/-- The records on the lists keep their pages, and the lists their spans. -/
theorem HeapInv.kept_traded {f' : SpanPlace → List SpanPtr} (hi : HeapInv d env h f)
    (hi' : HeapInv d env h' f') (hpg : ∀ i, f' (.pg i) = f (.pg i))
    (hold : ∀ x : Nat, x < h.bound → h'.pageSize x = h.pageSize x ∧ h'.pageId x = h.pageId x) :
    Traded h h' [] [] := by
  have hlists : pgPlaces f' = pgPlaces f := funext hpg
  refine ⟨_, _, hi.pgLists, hlists ▸ hi'.pgLists, ?_⟩
  rw [List.append_nil, List.append_nil]
  refine List.Perm.of_eq (pagesIn_congr fun i x hx => ?_)
  have hbelow := (hi.pages.owned (p := .pg i) hx).below
  obtain ⟨h1, h2⟩ := hold x (by omega)
  unfold pagesOf
  rw [h1, h2]

/-- The head of its list is handed out as it is. -/
theorem fetchWith_exact_traded (hi : HeapInv d env h f) {tmp : SpanPtr}
    (hh : h.pgList (bucket npage) = some tmp) (again : Heap → Except Fault (SpanPtr × Heap)) :
    ∃ h', fetchSpanWith env again npage h = .ok (tmp, h') ∧ Asked env [] h h' ∧
      Traded h h' (pagesOf h' tmp) [] ∧ h'.pageSize tmp = h.pageSize tmp := by
  have ht : tmp ∈ f (.pg (bucket npage)) :=
    List.mem_of_mem_head? ((hi.links.head (.pg (bucket npage))).symm.trans hh)
  have hd : SpanPlace.user.Loose := trivial
  obtain ⟨l, hrem, hi', -⟩ := hi.takeOff ht hd
  refine ⟨{ h with toLinks := l }, ?_, ⟨rfl, rfl⟩,
    hi.takeOff_traded ht (bucket_lt npage) hd hi', rfl⟩
  simp only [fetchSpanWith, hh, hrem]
  rfl

/-- The record for the span to be cut, with what `alloc_span` asked for. -/
theorem newRecord_asked (hs : env.Succeeds) (hi : HeapInv d env h f) (hm : InMap env h) :
    Sat (allocSpan env npage 0 h)
      (fun r => ∀ h₂, (h₂ = if npage > 8 then r.2.setLoc r.1 .isolated else r.2) →
        NewRecord d env npage f h h₂ r.1 ∧ Asked env (chunkAsk h.remBytes) h h₂ ∧
        h₂.remBytes = remAfter h.remBytes ∧ Traded h h₂ [] [] ∧ (∀ x : Nat, x < h.bound →
          h₂.pageSize x = h.pageSize x ∧ h₂.pageId x = h.pageId x ∧ h₂.start x = h.start x))
      fun _ => mapEnd env < brkAfter env (chunkAsk h.remBytes) h.sbrkCalls h.brk := by
  obtain ⟨n, hn, hnle⟩ := hi.brkAt hm
  refine ((allocSpan_asked hs hi.record.ini hn (by omega) npage 0).and
    (allocSpan_sat hs hi.record hi.pages hi.links npage 0)).mono ?_ fun _ => And.left
  rintro ⟨s, h₁⟩ ⟨⟨hask, hrem, -, -⟩, ha⟩ h₂ hh₂
  have hrec := ha.tagged hi hm hh₂
  obtain ⟨hbrk, hcalls⟩ := hask
  have hfields : h₂.brk = h₁.brk ∧ h₂.sbrkCalls = h₁.sbrkCalls ∧ h₂.remBytes = h₁.remBytes ∧
      h₂.pageSize = h₁.pageSize ∧ h₂.pageId = h₁.pageId ∧ h₂.start = h₁.start := by
    simp only at hh₂
    split_ifs at hh₂ <;> subst hh₂ <;> exact ⟨rfl, rfl, rfl, rfl, rfl, rfl⟩
  obtain ⟨e1, e2, e3, e4, e5, e6⟩ := hfields
  have hold : ∀ x : Nat, x < h.bound → h₂.pageSize x = h.pageSize x ∧ h₂.pageId x = h.pageId x := by
    intro x hx
    rw [e4, e5]
    exact ha.old x hx
  refine ⟨hrec, ⟨e1.trans hbrk, e2.trans hcalls⟩, e3.trans hrem,
    hi.kept_traded hrec.inv (fun _ => rfl) hold, fun x hx => ?_⟩
  obtain ⟨h1, h2⟩ := hold x hx
  exact ⟨h1, h2, by rw [e6, ha.start]⟩

/-- A larger span is cut; its address comes out right if the pages that are left have fewer than
4 GiB. -/
theorem fetchWith_split_traded (hs : env.Succeeds) (hi : HeapInv d env h f) (hm : InMap env h)
    {j : Nat} {tmp : SpanPtr} (hh : h.pgList (bucket npage) = none) (hpos : 0 < npage)
    (hlt : npage < 2 ^ 31) (hff : firstFit h.pgList npage = some (j, tmp))
    (again : Heap → Except Fault (SpanPtr × Heap)) :
    Sat (fetchSpanWith env again npage h)
      (fun r => Asked env (chunkAsk h.remBytes) h r.2 ∧ Traded h r.2 (pagesOf r.2 r.1) [] ∧
        (r.2.start r.1 = env.ini + r.2.pageId r.1 * 4096 ↔ h.pageSize tmp - npage < 2 ^ 20))
      fun _ => mapEnd env < brkAfter env (chunkAsk h.remBytes) h.sbrkCalls h.brk := by
  have hd : SpanPlace.user.Loose := trivial
  have hint : toInt npage = npage := toInt_of_lt hlt
  have hneg : ¬ toInt npage < 0 := by rw [hint]; omega
  obtain ⟨hij, hj, hhj⟩ := firstFit_some hff
  have ht : tmp ∈ f (.pg j) := List.mem_of_mem_head? ((hi.links.head (.pg j)).symm.trans hhj)
  have hot := hi.pages.owned ht
  have hbig : npage < h.pageSize tmp :=
    lt_of_le_of_lt hij (lt_of_bucket hot.pos (hi.kinds.bucket ht))
  simp only [fetchSpanWith, hh]
  refine (newRecord_asked hs hi hm).bind ?_
  rintro ⟨s, h₁⟩ hnew
  obtain ⟨h₂, hh₂⟩ : ∃ h₂, h₂ = if npage > 8 then h₁.setLoc s .isolated else h₁ := ⟨_, rfl⟩
  obtain ⟨hn, hask, -, htr, hold⟩ := hnew h₂ hh₂
  simp only [← hh₂, hn.pgList, hint, Int.toNat_natCast, hff]
  have hp := hi.pages.placed
  have hne : SpanPlace.pg j ≠ .user := SpanPlace.ne_of_loose id hd
  obtain ⟨l, hrem, hi₃, -⟩ := hn.inv.takeOff ht hd
  have htr₃ := hn.inv.takeOff_traded ht hj hd hi₃
  rw [hrem, ok_bind]
  obtain ⟨h1, h2, h3⟩ := hold tmp (by have := hot.below; omega)
  obtain ⟨left, hleft⟩ : ∃ left, left = h.pageSize tmp - npage := ⟨_, rfl⟩
  have hmod : npage % 2 ^ 32 = npage := Nat.mod_eq_of_lt (by omega)
  obtain ⟨h₄, hrun, htr₄, hsz, hid, hstart, hbrk, hcalls⟩ := splitSpans_traded (s := s) npage left
    hi₃ (by rw [moved_self]; exact List.mem_cons_self) hd (fun p hx => by
      obtain ⟨q, hq⟩ := exists_of_mem_moved hp hne ht hx
      exact hn.unplaced q hq) (by omega) (by rw [hmod]; show h₂.pageSize tmp = _; omega) (by omega)
    hn.pageSize
  rw [hrun, ok_bind]
  refine ⟨⟨hbrk.trans hask.brk, hcalls.trans hask.calls⟩, ?_, ?_⟩
  · -- the pages that are left went out and came back
    have hpages : pagesOf h₂ tmp = List.range' (h₂.pageId tmp) left ++ pagesOf h₄ s := by
      unfold pagesOf
      rw [hid, hsz, hmod]
      show List.range' (h₂.pageId tmp) (h₂.pageSize tmp) =
        List.range' (h₂.pageId tmp) left ++ List.range' (h₂.pageId tmp + left) npage
      rw [h1, show h.pageSize tmp = left + npage by omega, ← List.range'_append_1]
    refine ((htr.trans htr₃).trans htr₄).cancel
      (List.range' (h₂.pageId tmp) left) ?_ ?_
    · rw [hpages, List.nil_append, List.append_nil]
    · exact List.Perm.of_eq (by simp)
  · rw [hid, hstart]
    show h₂.start tmp + _ = env.ini + (h₂.pageId tmp + left) * 4096 ↔ _
    rw [h2, h3, hot.start]
    simp only [pagesToBytes32]
    omega

/-- The page that a region of data begins with, if the system is asked for it now. -/
def pageAt (env : Env) (calls brk : Nat) : Nat := (brk + gap env calls * 4096 - env.ini) / 4096

theorem pageAt_eq {k calls brk : Nat} (hk : env.ini + k * 4096 = brk + gap env calls * 4096) :
    pageAt env calls brk = k := by
  unfold pageAt
  rw [← hk]
  omega

/-- The span comes from the system. -/
theorem fetchWith_direct_traded (hs : env.Succeeds) (hi : HeapInv d env h f) (hm : InMap env h)
    (hh : h.pgList (bucket npage) = none) (hff : firstFit h.pgList npage = none)
    (hlast : h.pgList 255 = none) (hbig : 256 < npage) (hlt : npage < 2 ^ 31)
    (again : Heap → Except Fault (SpanPtr × Heap)) :
    Sat (fetchSpanWith env again npage h)
      (fun r => Asked env (chunkAsk h.remBytes ++ npage * 4096 :: chunkAsk (remAfter h.remBytes)) h
          r.2 ∧
        Traded h r.2 (pagesOf r.2 r.1) (List.range' (pageAt env
          (h.sbrkCalls + (chunkAsk h.remBytes).length)
          (brkAfter env (chunkAsk h.remBytes) h.sbrkCalls h.brk)) npage))
      fun _ => mapEnd env < brkAfter env
        (chunkAsk h.remBytes ++ npage * 4096 :: chunkAsk (remAfter h.remBytes))
        h.sbrkCalls h.brk := by
  have hint : toInt npage = npage := toInt_of_lt hlt
  have hneg : ¬ toInt npage < 0 := by rw [hint]; omega
  have hbytes : pagesToBytes npage = npage * 4096 := by simp only [pagesToBytes]; omega
  simp only [fetchSpanWith, hh]
  refine ((newRecord_asked hs hi hm).mono (fun _ => id) fun _ hend => ?_).bind ?_
  · rw [brkAfter_append]
    exact hend.trans_le (le_brkAfter _ _ _)
  rintro ⟨s, h₁⟩ hnew
  obtain ⟨h₂, hh₂⟩ : ∃ h₂, h₂ = if npage > 8 then h₁.setLoc s .isolated else h₁ := ⟨_, rfl⟩
  obtain ⟨hn, hask, hrem, htr, -⟩ := hnew h₂ hh₂
  simp only [← hh₂, hn.pgList, hint, Int.toNat_natCast, hff, PAGEHEAPSIZE,
    show (256 - 1 : Nat) = 255 from rfl, hlast, scan, if_pos (show npage > 256 from hbig), hbytes]
  rw [if_neg (by omega)]
  have hregion := (regionSpan_asked hs hn.inv hn.inMap (by omega) hlt).and
    (hn.inv.regionSpan hs hn.inMap (by omega) hlt (show SpanPlace.user.Loose from trivial))
  refine hregion.mono ?_ fun _ hend => ?_
  · rintro ⟨s', h₃⟩ ⟨⟨hask₃, -, hsz, hid, hold⟩, hspan⟩
    have hne : ∀ i, SpanPlace.pg i ≠ .user := fun i => by simp
    have htr₃ := hn.inv.kept_traded hspan.inv (fun i => Function.update_of_ne (hne i) _ _) hold
    refine ⟨?_, ?_⟩
    · rw [← hrem]
      exact hask.trans hask₃
    · have hdata : pagesOf h₃ s' = List.range' (pageAt env
          (h.sbrkCalls + (chunkAsk h.remBytes).length)
          (brkAfter env (chunkAsk h.remBytes) h.sbrkCalls h.brk)) npage := by
        unfold pagesOf
        rw [← hask.brk, ← hask.calls, pageAt_eq hid, hsz]
      rw [← hdata]
      refine ((htr.trans htr₃).add (pagesOf h₃ s')).cancel [] ?_ ?_
      · exact List.Perm.of_eq (by simp)
      · exact List.Perm.of_eq (by simp)
  · rw [← hrem]
    exact hask.beyond hend.1

/-- `fetch_from_system` puts a region on the last list. -/
theorem fetchFromSystem_traded (hs : env.Succeeds) (hi : HeapInv d env h f) (hm : InMap env h) :
    Sat (fetchFromSystem env h)
      (fun h' => Asked env (SYSFETCHSIZE :: chunkAsk h.remBytes) h h' ∧
        h'.remBytes = remAfter h.remBytes ∧
        Traded h h' [] (List.range' (pageAt env h.sbrkCalls h.brk) 65536))
      fun _ => mapEnd env < brkAfter env (SYSFETCHSIZE :: chunkAsk h.remBytes)
      h.sbrkCalls h.brk := by
  have hd : SpanPlace.user.Loose := trivial
  have hbytes : SYSFETCHSIZE = 65536 * 4096 := rfl
  rw [fetchFromSystem_eq, sat_map, hbytes]
  have hregion := (regionSpan_asked hs hi hm (show 0 < 65536 by decide) (by decide)).and
    (hi.regionSpan hs hm (by decide) (by decide) hd)
  refine hregion.mono ?_ fun _ => And.left
  rintro ⟨s, h₁⟩ ⟨⟨hask, hrem, hsz, hid, hold⟩, hspan⟩
  simp only at hask hrem hsz hid hold hspan ⊢
  refine ⟨⟨hask.brk, hask.calls⟩, hrem, ?_⟩
  have hb : bucket (h₁.pageSize s) = 255 := by rw [hsz]; rfl
  have hput := hspan.inv.putPg (by rw [Function.update_self]; exact List.mem_cons_self) hd hspan.loc
  rw [hb] at hput ⊢
  have hne : ∀ i, SpanPlace.pg i ≠ .user := fun i => by simp
  have hsame : pagesIn h₁ (pgPlaces f) = pagesIn h (pgPlaces f) := by
    refine pagesIn_congr fun i x hx => ?_
    have hbelow := (hi.pages.owned (p := .pg i) hx).below
    obtain ⟨h1, h2⟩ := hold x (by omega)
    unfold pagesOf
    rw [h1, h2]
  refine ⟨_, _, hi.pgLists, hput.pgLists, ?_⟩
  have hdata : pagesOf h₁ s = List.range' (pageAt env h.sbrkCalls h.brk) 65536 := by
    unfold pagesOf
    rw [pageAt_eq hid, hsz]
  rw [List.append_nil, ← hsame, ← hdata]
  refine (pagesIn_insert (h := h₁) (i := 255) (by decide) (fun j hj => ?_) ?_).trans
    List.perm_append_comm
  · unfold pgPlaces
    rw [moved_of_ne (hne j) (by simpa using hj), Function.update_of_ne (hne j)]
  · unfold pgPlaces
    rw [moved_self, Function.update_of_ne (hne 255)]

end Ways

/-! ## Exactness -/

/-- The sizes that `fetch_span(npage)` asks the system for, in order. -/
def requests (h : Heap) (npage : Nat) : List Nat :=
  match h.pgList (bucket npage), firstFit h.pgList npage with
  | some _, _ => []
  | none, some _ => chunkAsk h.remBytes
  | none, none =>
    chunkAsk h.remBytes ++
      if 256 < npage then npage * 4096 :: chunkAsk (remAfter h.remBytes)
      else SYSFETCHSIZE :: chunkAsk (remAfter h.remBytes) ++
        if npage < 256 then chunkAsk (remAfter (remAfter h.remBytes)) else []

/-- The pages that `fetch_span(npage)` obtains from the system for data. -/
def newPages (env : Env) (h : Heap) (npage : Nat) : List Nat :=
  match h.pgList (bucket npage), firstFit h.pgList npage with
  | none, none =>
    List.range' (pageAt env (h.sbrkCalls + (chunkAsk h.remBytes).length)
      (brkAfter env (chunkAsk h.remBytes) h.sbrkCalls h.brk)) (if 256 < npage then npage else 65536)
  | _, _ => []

/-- `fetch_span(npage)` returns a span of `npage` pages that is on no list of the page heap, and
the page heap loses these pages and gains those obtained from the system. -/
def FetchesExactly (env : Env) (h : Heap) (npage : Nat) : Prop :=
  ∃ S h', fetchSpan env npage h = .ok (S, h') ∧ h'.pageSize S = npage ∧
    h'.start S = h.iniBrkAddr + h'.pageId S * 4096 ∧ ¬ InPageHeap h' S ∧
    Traded h h' (pagesOf h' S) (newPages env h npage)

/-- The head of the list has `npage` pages; or what is left of the span that is cut is less than
4 GiB, the request is not for 256 pages from the system, and the page map has room. -/
def FetchFits (env : Env) (h : Heap) (npage : Nat) : Prop :=
  match h.pgList (bucket npage), firstFit h.pgList npage with
  | some head, _ => h.pageSize head = npage
  | none, some (_, tmp) => h.pageSize tmp - npage < 2 ^ 20 ∧
      brkAfter env (requests h npage) h.sbrkCalls h.brk ≤ mapEnd env
  | none, none => npage ≠ 256 ∧ brkAfter env (requests h npage) h.sbrkCalls h.brk ≤ mapEnd env

section Exact

variable {d : Discipline} {env : Env} {s : Sys} {h h' : Heap} {f : SpanPlace → List SpanPtr}
  {npage : Nat}

theorem last_empty (hh : h.pgList (bucket npage) = none) (hff : firstFit h.pgList npage = none) :
    h.pgList 255 = none := by
  by_cases hle : npage ≤ 255
  · exact firstFit_none hff 255 hle (by decide)
  · rw [← bucket_of_le (show 256 ≤ npage by omega)]
    exact hh

theorem requests_of_head {tmp : SpanPtr} (hh : h.pgList (bucket npage) = some tmp) :
    requests h npage = [] := by
  unfold requests
  rw [hh]

theorem requests_of_fit {jt : Nat × SpanPtr} (hh : h.pgList (bucket npage) = none)
    (hff : firstFit h.pgList npage = some jt) : requests h npage = chunkAsk h.remBytes := by
  unfold requests
  rw [hh, hff]

theorem requests_of_none (hh : h.pgList (bucket npage) = none)
    (hff : firstFit h.pgList npage = none) :
    requests h npage = chunkAsk h.remBytes ++
      if 256 < npage then npage * 4096 :: chunkAsk (remAfter h.remBytes)
      else SYSFETCHSIZE :: chunkAsk (remAfter h.remBytes) ++
        if npage < 256 then chunkAsk (remAfter (remAfter h.remBytes)) else [] := by
  unfold requests
  rw [hh, hff]

/-- The page heap `h'` comes from `h` by the first round of `fetch_span`, when it has asked the
system for memory: the new region is the span `R` on the last list. -/
structure Refilled (d : Discipline) (env : Env) (h h' : Heap) (R : SpanPtr) : Prop where
  inv : ∃ f, HeapInv d env h' f
  inMap : InMap env h'
  pgList : h'.pgList = Function.update h.pgList 255 (some R)
  asked : Asked env (chunkAsk h.remBytes ++ SYSFETCHSIZE :: chunkAsk (remAfter h.remBytes)) h h'
  rem : h'.remBytes = remAfter (remAfter h.remBytes)
  traded : Traded h h' [] (List.range' (pageAt env (h.sbrkCalls + (chunkAsk h.remBytes).length)
    (brkAfter env (chunkAsk h.remBytes) h.sbrkCalls h.brk)) 65536)

/-- `fetch_span` asks the system for memory once, and then goes through its lists again. -/
theorem refill_round (hs : env.Succeeds) (hi : HeapInv d env h f) (hm : InMap env h)
    (hle : npage ≤ 256) (hh : h.pgList (bucket npage) = none)
    (hff : firstFit h.pgList npage = none) {Q : SpanPtr × Heap → Prop} {E : Fault → Prop}
    (hbeyond : ∀ e, mapEnd env < brkAfter env
      (chunkAsk h.remBytes ++ SYSFETCHSIZE :: chunkAsk (remAfter h.remBytes)) h.sbrkCalls
      h.brk → E e)
    (hagain : ∀ h' R, Refilled d env h h' R → Sat (fetchSpanDepth env 1 npage h') Q E) :
    Sat (fetchSpan env npage h) Q E := by
  have hd : SpanPlace.user.Loose := trivial
  have hint : toInt npage = npage := toInt_of_lt (by omega)
  have hlast := last_empty hh hff
  unfold fetchSpan fetchSpanDepth
  simp only [fetchSpanWith, hh]
  refine ((newRecord_asked hs hi hm).mono (fun _ => id) fun e hend => hbeyond e ?_).bind ?_
  · rw [brkAfter_append]
    exact hend.trans_le (le_brkAfter _ _ _)
  rintro ⟨s, h₁⟩ hrec
  obtain ⟨h₂, hh₂⟩ : ∃ h₂, h₂ = if npage > 8 then h₁.setLoc s .isolated else h₁ := ⟨_, rfl⟩
  obtain ⟨hn, hask, hrem, htr, -⟩ := hrec h₂ hh₂
  simp only [← hh₂, hn.pgList, hint, Int.toNat_natCast, hff, PAGEHEAPSIZE,
    show (256 - 1 : Nat) = 255 from rfl, hlast, scan, if_neg (show ¬ npage > 256 by omega)]
  rw [if_neg (by omega)]
  refine (((fetchFromSystem_traded hs hn.inv hn.inMap).and
    (hn.inv.fetchFromSystem hs hn.inMap hd)).mono (fun _ => id) fun e hend => hbeyond e ?_).bind ?_
  · have hall := hask.beyond hend.1
    rwa [hrem] at hall
  rintro h₃ ⟨⟨hask₃, hrem₃, htr₃⟩, f₃, R, hi₃, hm₃, -, -, -, hpg₃⟩
  rw [hrem] at hask₃ hrem₃
  rw [hn.pgList] at hpg₃
  refine hagain h₃ R ⟨⟨f₃, hi₃⟩, hm₃, hpg₃, hask.trans hask₃, hrem₃, ?_⟩
  rw [← hask.brk, ← hask.calls]
  exact htr.trans htr₃

/-- The system is asked for memory, and the second round of `fetch_span` cuts it. -/
theorem fetch_refill_traded (hs : env.Succeeds) (hi : HeapInv d env h f) (hm : InMap env h)
    (hpos : 0 < npage) (hlt : npage < 256) (hh : h.pgList (bucket npage) = none)
    (hff : firstFit h.pgList npage = none) :
    Sat (fetchSpan env npage h)
      (fun r => Asked env (requests h npage) h r.2 ∧
        Traded h r.2 (pagesOf r.2 r.1) (newPages env h npage))
      fun _ => mapEnd env < brkAfter env (requests h npage) h.sbrkCalls h.brk := by
  have hrequests := requests_of_none hh hff
  rw [if_neg (show ¬ 256 < npage by omega), if_pos hlt, ← List.append_assoc] at hrequests
  have hnew : newPages env h npage = List.range' (pageAt env
      (h.sbrkCalls + (chunkAsk h.remBytes).length)
      (brkAfter env (chunkAsk h.remBytes) h.sbrkCalls h.brk)) 65536 := by
    unfold newPages
    rw [hh, hff]
    simp only [if_neg (show ¬ 256 < npage by omega)]
  rw [hrequests, hnew]
  refine refill_round hs hi hm hlt.le hh hff (fun e hend => ?_) ?_
  · rw [brkAfter_append]
    exact hend.trans_le (le_brkAfter _ _ _)
  rintro h₃ R ⟨⟨f₃, hi₃⟩, hm₃, hpg₃, hask₃, hrem₃, htr₃⟩
  have hbk := bucket_of_lt hpos hlt
  have hh₃ : h₃.pgList (bucket npage) = none := by
    rw [hpg₃, Function.update_of_ne (by omega), hh]
  have hff₃ : firstFit h₃.pgList npage = some (255, R) := by
    rw [hpg₃]
    exact firstFit_update hlt (firstFit_none hff)
  unfold fetchSpanDepth
  refine (fetchWith_split_traded hs hi₃ hm₃ hh₃ hpos (by omega) hff₃ _).mono ?_ fun _ hend => ?_
  · rintro ⟨S, h₄⟩ ⟨hask₄, htr₄, -⟩
    rw [hrem₃] at hask₄
    refine ⟨hask₃.trans hask₄, ?_⟩
    have hall := htr₃.trans htr₄
    rwa [List.nil_append, List.append_nil] at hall
  · rw [hrem₃] at hend
    exact hask₃.beyond hend

/-- Whichever way `fetch_span` finds its span: the pages of the span leave the page heap, those
obtained from the system come into it, and it ends unless the page map is too small. -/
theorem fetchSpan_traded (hs : env.Succeeds) (hi : HeapInv d env h f) (hm : InMap env h)
    (hpos : 0 < npage) (hlt : npage < 2 ^ 31)
    (h256 : h.pgList (bucket npage) = none → npage ≠ 256) :
    Sat (fetchSpan env npage h)
      (fun r => Asked env (requests h npage) h r.2 ∧
        Traded h r.2 (pagesOf r.2 r.1) (newPages env h npage))
      fun _ => mapEnd env < brkAfter env (requests h npage) h.sbrkCalls h.brk := by
  cases hh : h.pgList (bucket npage) with
  | some tmp =>
    obtain ⟨h', hrun, hask, htr, -⟩ := fetchWith_exact_traded hi hh (fetchSpanDepth env 1 npage)
    have hnew : newPages env h npage = [] := by
      unfold newPages
      rw [hh]
    rw [requests_of_head hh, hnew]
    unfold fetchSpan fetchSpanDepth
    rw [hrun]
    exact ⟨hask, htr⟩
  | none =>
    cases hff : firstFit h.pgList npage with
    | some jt =>
      obtain ⟨j, tmp⟩ := jt
      have hnew : newPages env h npage = [] := by
        unfold newPages
        rw [hh, hff]
      rw [requests_of_fit hh hff, hnew]
      unfold fetchSpan fetchSpanDepth
      exact (fetchWith_split_traded hs hi hm hh hpos hlt hff _).mono
        (fun r h => ⟨h.1, h.2.1⟩) fun _ => id
    | none =>
      by_cases hbig : 256 < npage
      · have hrequests := requests_of_none hh hff
        rw [if_pos hbig] at hrequests
        have hnew : newPages env h npage = List.range' (pageAt env
            (h.sbrkCalls + (chunkAsk h.remBytes).length)
            (brkAfter env (chunkAsk h.remBytes) h.sbrkCalls h.brk)) npage := by
          unfold newPages
          rw [hh, hff]
          simp only [if_pos hbig]
        rw [hrequests, hnew]
        unfold fetchSpan fetchSpanDepth
        exact fetchWith_direct_traded hs hi hm hh hff (last_empty hh hff) hbig hlt _
      · have hne := h256 hh
        exact fetch_refill_traded hs hi hm hpos (by omega) hh hff

theorem lt_of_firstFit {g : Nat → Option SpanPtr} {jt : Nat × SpanPtr}
    (hff : firstFit g npage = some jt) : npage < 256 := by
  obtain ⟨h1, h2, -⟩ := firstFit_some hff
  omega

theorem FetchFits.fetchOk (hfit : FetchFits env h npage) (hpos : 0 < npage) (hlt : npage < 2 ^ 31) :
    FetchOk h npage := by
  have hint : toInt npage = npage := toInt_of_lt hlt
  have hmod : npage % 2 ^ 32 = npage := Nat.mod_eq_of_lt (by omega)
  unfold FetchFits at hfit
  unfold FetchOk
  cases hh : h.pgList (bucket npage) with
  | some tmp => trivial
  | none =>
    rw [hh] at hfit
    rw [hint, Int.toNat_natCast, hmod]
    cases hff : firstFit h.pgList npage with
    | some jt =>
      rw [hff] at hfit
      exact ⟨by omega, hfit.1⟩
    | none => exact show npage < 2 ^ 32 by omega

/-- The page map has room for what `fetch_span` asks for. -/
theorem FetchFits.room (hfit : FetchFits env h npage) (hm : InMap env h) :
    brkAfter env (requests h npage) h.sbrkCalls h.brk ≤ mapEnd env := by
  unfold FetchFits at hfit
  cases hh : h.pgList (bucket npage) with
  | some tmp =>
    rw [requests_of_head hh]
    exact hm
  | none =>
    cases hff : firstFit h.pgList npage with
    | some jt =>
      rw [hh, hff] at hfit
      exact hfit.2
    | none =>
      rw [hh, hff] at hfit
      exact hfit.2

theorem FetchFits.pages (hfit : FetchFits env h npage) (hlt : npage < 2 ^ 31) :
    fetchedPages h npage = npage := by
  have hint : toInt npage = npage := toInt_of_lt hlt
  unfold FetchFits at hfit
  unfold fetchedPages
  cases hh : h.pgList (bucket npage) with
  | some tmp =>
    rw [hh] at hfit
    exact hfit
  | none =>
    rw [hh] at hfit
    rw [hint, Int.toNat_natCast]
    cases hff : firstFit h.pgList npage with
    | some jt => exact Nat.mod_eq_of_lt (by omega)
    | none =>
      rw [hff] at hfit
      exact if_neg hfit.1

/-- No list is behind that of 256 pages. -/
theorem FetchFits.ne (hfit : FetchFits env h npage) (hh : h.pgList (bucket npage) = none) :
    npage ≠ 256 := by
  unfold FetchFits at hfit
  rw [hh] at hfit
  cases hff : firstFit h.pgList npage with
  | some jt =>
    have := lt_of_firstFit hff
    omega
  | none =>
    rw [hff] at hfit
    exact hfit.1

/-- The condition is enough. -/
theorem FetchFits.exact (hfit : FetchFits env h npage) (hs : env.Succeeds) (hi : HeapInv d env h f)
    (hm : InMap env h) (hpos : 0 < npage) (hlt : npage < 2 ^ 31) :
    FetchesExactly env h npage := by
  have hd : SpanPlace.user.Loose := trivial
  have hboth := (fetchSpan_sat hs hi hm hpos (hfit.fetchOk hpos hlt) hd).and
    (fetchSpan_traded hs hi hm hpos hlt hfit.ne)
  unfold FetchesExactly
  cases hrun : fetchSpan env npage h with
  | error e =>
    rw [hrun] at hboth
    exact absurd (hfit.room hm) (Nat.not_le.mpr hboth.2)
  | ok r =>
    rw [hrun] at hboth
    obtain ⟨S, h'⟩ := r
    obtain ⟨⟨f', hf', hsize, -⟩, -, htr⟩ := hboth
    have hS : S ∈ f' .user := by
      rw [hf'.dst]
      exact List.mem_cons_self
    refine ⟨S, h', rfl, hsize.trans (hfit.pages hlt), ?_, fun hin => ?_, htr⟩
    · rw [hi.record.ini]
      exact (hf'.inv.pages.owned hS).start
    · obtain ⟨i, hpg⟩ := hf'.inv.inPageHeap.mp hin
      cases hf'.inv.pages.placed.unique hS hpg

/-- The condition is needed. -/
theorem FetchesExactly.fits (hex : FetchesExactly env h npage) (hs : env.Succeeds)
    (hi : HeapInv d env h f) (hm : InMap env h) (hpos : 0 < npage) (hlt : npage < 2 ^ 31) :
    FetchFits env h npage := by
  obtain ⟨S, h', hrun, hsize, hstart, -, -⟩ := hex
  have hd : SpanPlace.user.Loose := trivial
  have hint : toInt npage = npage := toInt_of_lt hlt
  have hmod : npage % 2 ^ 32 = npage := Nat.mod_eq_of_lt (by omega)
  rw [hi.record.ini] at hstart
  -- a call that ends has had room
  have hroom : FetchOk h npage → (h.pgList (bucket npage) = none → npage ≠ 256) →
      brkAfter env (requests h npage) h.sbrkCalls h.brk ≤ mapEnd env := by
    intro hok hne
    obtain ⟨f', hf', -⟩ := (fetchSpan_sat hs hi hm hpos hok hd).of_ok hrun
    obtain ⟨hask, -⟩ := (fetchSpan_traded hs hi hm hpos hlt hne).of_ok hrun
    rw [← hask.brk]
    exact hf'.inMap
  unfold FetchFits
  cases hh : h.pgList (bucket npage) with
  | some tmp =>
    obtain ⟨h₁, hrun₁, -, -, hsz⟩ := fetchWith_exact_traded hi hh (fetchSpanDepth env 1 npage)
    unfold fetchSpan fetchSpanDepth at hrun
    obtain ⟨rfl, rfl⟩ := Prod.mk.inj (Except.ok.inj (hrun₁.symm.trans hrun))
    exact hsz.symm.trans hsize
  | none =>
    cases hff : firstFit h.pgList npage with
    | some jt =>
      obtain ⟨j, tmp⟩ := jt
      have hne : npage ≠ 256 := by
        have := lt_of_firstFit hff
        omega
      have hrun' := hrun
      unfold fetchSpan fetchSpanDepth at hrun'
      obtain ⟨-, -, hiff⟩ := (fetchWith_split_traded hs hi hm hh hpos hlt hff _).of_ok hrun'
      have hleft := hiff.mp hstart
      refine ⟨hleft, hroom ?_ fun _ => hne⟩
      unfold FetchOk
      rw [hh, hint, Int.toNat_natCast, hff, hmod]
      exact ⟨by omega, hleft⟩
    | none =>
      have hok : FetchOk h npage := by
        unfold FetchOk
        rw [hh, hint, Int.toNat_natCast, hff]
        exact show npage < 2 ^ 32 by omega
      have hne : npage ≠ 256 := by
        intro h256
        obtain ⟨f', -, hpages, -⟩ := (fetchSpan_sat hs hi hm hpos hok hd).of_ok hrun
        unfold fetchedPages at hpages
        rw [hh, hint, Int.toNat_natCast, hff] at hpages
        rw [hsize] at hpages
        simp only [if_pos h256] at hpages
        omega
      exact ⟨hne, hroom hok fun _ => hne⟩

/-- In a run whose fetches compute with sizes that fit, `fetch_span` returns exactly the
pages asked for if and only if the head of the list has that size, or none is there and what is
cut off or obtained fits. -/
theorem fetch_exact (hs : env.Succeeds) (hr : Reachable env FetchMet s) (hpos : 0 < npage)
    (hlt : npage < 2 ^ 31) :
    FetchesExactly env s.heap npage ↔ FetchFits env s.heap npage := by
  obtain ⟨f, hi⟩ := reachable_base hs hr
  exact ⟨fun hex => hex.fits hs hi.heap hi.inMap hpos hlt,
    fun hfit => hfit.exact hs hi.heap hi.inMap hpos hlt⟩

theorem fetch_exact_machine :
    ∃ s, Reachable machine FetchMet s ∧ FetchesExactly machine s.heap 8 := by
  obtain ⟨s, ⟨h₀, hinit, hrun⟩, hs⟩ := machine_ready
  have hr : Reachable machine FetchMet s := ⟨h₀, hinit, hrun.mono fun _ _ h => h.fetchMet⟩
  refine ⟨s, hr, (fetch_exact machine_succeeds hr (by decide) (by decide)).mpr ?_⟩
  -- the only free span is on the last list
  have hone := hs.pool.one
  have hpg : s.heap.pgList = Function.update (fun _ => none) 255 (some 4224) := hone.pg
  have hh : s.heap.pgList (bucket 8) = none := by
    rw [hpg]
    exact Function.update_of_ne (by decide) _ _
  have hff : firstFit s.heap.pgList 8 = some (255, 4224) := by
    rw [hpg]
    exact firstFit_update (by decide) fun _ _ _ => rfl
  have hrem := hone.records
  have hreq : requests s.heap 8 = [] := by
    unfold requests chunkAsk
    rw [hh, hff]
    exact if_neg (by simp only [CLASSES] at hrem; simp only [SPANBYTES]; omega)
  unfold FetchFits
  rw [hh, hff, hreq]
  refine ⟨?_, ?_⟩
  · show s.heap.pageSize 4224 - 8 < _
    rw [hone.pages]
    decide
  · show s.heap.brk ≤ _
    rw [hs.pool.brk]
    decide

/-- After `tc_thread_init` the call `fetch_span(300)` returns all 45184 free pages. -/
theorem fetch_inexact : ∃ s, Reachable machine FetchMet s ∧
    ¬ FetchesExactly machine s.heap 300 := by
  obtain ⟨s, ⟨h₀, hinit, hrun⟩, hs⟩ := machine_ready
  refine ⟨s, ⟨h₀, hinit, hrun.mono fun _ _ h => h.fetchMet⟩, ?_⟩
  rintro ⟨S, h', hrun, hsize, -⟩
  have hone := hs.pool.one
  obtain ⟨st, hrun'⟩ := fetchSpan_whole (e := machine) (k := 300) hone (by decide)
    (fetchSpanDepth machine 1 300)
  unfold fetchSpan fetchSpanDepth at hrun
  obtain ⟨rfl, rfl⟩ := Prod.mk.inj (Except.ok.inj (hrun'.symm.trans hrun))
  have hpages : s.heap.pageSize 4224 = 45184 := hone.pages
  exact absurd (hpages.symm.trans hsize) (by decide)

end Exact

end SearchEngine.TcMalloc
