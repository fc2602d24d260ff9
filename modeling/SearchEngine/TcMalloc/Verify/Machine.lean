import SearchEngine.TcMalloc.Verify.Memory

/-!
# The start of the allocator on one machine

While the page heap holds one large span, `fetch_span` cuts its last pages off
(`fetchSpan_cut`). With this `tc_central_init` is followed to its end on a machine whose
`sbrk` always succeeds: every size class has one carved span (`tcCentralInit_machine`).
-/

namespace SearchEngine.TcMalloc

open LinkedRing Placement Outcome Reach

/-! ## One free span -/

/-- `m` records are left in the chunk. -/
structure Stock (h : Heap) (m : Nat) : Prop where
  records : 64 * m ≤ h.remBytes
  blank : ∀ x, h.chunk + h.currInd * 64 ≤ x → Blank h x

/-- The page heap is empty. -/
structure NoSpan (h : Heap) (m : Nat) : Prop extends Stock h m where
  pg : h.pgList = fun _ => none

/-- The page heap holds the span `R` of `n` pages, and nothing else. -/
structure OneSpan (h : Heap) (R n m : Nat) : Prop extends Stock h m where
  pg : h.pgList = Function.update (fun _ => none) (bucket n) (some R)
  next : h.next R = some R
  pages : h.pageSize R = n
  old : R < h.chunk + h.currInd * 64
  id : h.pageId R + n ≤ PAGEMAPSIZE

/-- The last `k` pages of `R` have become the span `S`. -/
structure Cut (h h' : Heap) (R S k : Nat) : Prop where
  objs : h'.objs = h.objs
  objLen : h'.objLen = h.objLen
  objsSize : h'.objsSize = h.objsSize
  objRefcount : h'.objRefcount = h.objRefcount
  list : h'.list = h.list
  idle : h'.idle = h.idle
  next : ∀ x, x ≠ R → x ≠ S → h'.next x = h.next x
  prev : ∀ x, x ≠ R → x ≠ S → h'.prev x = h.prev x
  pageSize : ∀ x, x ≠ R → x ≠ S → h'.pageSize x = h.pageSize x
  sizeR : h'.pageSize R = h.pageSize R - k
  pageId : ∀ x, x ≠ S → h'.pageId x = h.pageId x
  start : ∀ x, x ≠ S → h'.start x = h.start x
  loc : ∀ x, x ≠ S → h'.loc x = h.loc x
  sizeS : h'.pageSize S = k
  idS : h'.pageId S = h.pageId R + (h.pageSize R - k)
  startS : h'.start S = h.start R + pagesToBytes32 (h.pageSize R - k)
  locS : h'.loc S = if k > 8 then .isolated else h.loc S
  nextS : h'.next S = some S
  prevS : h'.prev S = some S
  pageMapping : h'.pageMapping = mapRange h.pageMapping (h'.pageId S) k S
  iniBrkAddr : h'.iniBrkAddr = h.iniBrkAddr
  sbrkCalls : h'.sbrkCalls = h.sbrkCalls
  chunk : h'.chunk = h.chunk
  currInd : h'.currInd = h.currInd + 1
  brk : h'.brk = h.brk
  regions : h'.regions = h.regions
  chunks : h'.chunks = h.chunks

section OneSpan

variable {e : Env} {h : Heap} {R n m k : Nat}

theorem allocSpan_eq (e : Env) (npages ptr : Nat) (hrem : 64 ≤ h.remBytes) :
    allocSpan e npages ptr h = .ok (takeRecord npages ptr h) := by
  simp only [allocSpan, if_neg (show ¬ h.remBytes < SPANBYTES by simp only [SPANBYTES]; omega),
    ok_bind]

/-- The head of a list of one span is taken off. -/
theorem remove_single {i : Nat} (hhead : h.pgList i = some R) (hnext : h.next R = some R) :
    ∃ st, h.remove (.pgList i) R = .ok { h with
      pgList := Function.update h.pgList i none, stray := st } := by
  refine ⟨h.stray ∨ ¬ OnRing h.next (h.pgList i) R, ?_⟩
  simp only [Heap.remove, removeSpan, Links.head, hhead, if_true, spanlistPop, hnext]
  rfl

theorem firstFit_single {b i : Nat} (hi : i ≤ b) (hb : b < 256) :
    firstFit (Function.update (fun _ => none) b (some R)) i = some (b, R) := by
  fun_induction firstFit (Function.update (fun _ => none) b (some R)) i with
  | case1 i hlt t ht =>
    by_cases hib : i = b
    · subst hib
      rw [Function.update_self] at ht
      rw [Option.some.inj ht]
    · rw [Function.update_of_ne hib] at ht
      cases ht
  | case2 i hlt ht ih =>
    by_cases hib : i = b
    · subst hib
      rw [Function.update_self] at ht
      cases ht
    · exact ih (by omega)
  | case3 i hlt => exact absurd (hi.trans_lt hb) hlt

theorem firstFit_empty (i : Nat) : firstFit (fun _ => none) i = none := by
  fun_induction firstFit (fun _ => none) i with
  | case1 i hi t ht => cases ht
  | case2 i hi ht ih => exact ih
  | case3 i hi => rfl

/-- The branch of `fetch_span` that cuts the first span that fits. -/
theorem fetchSpanWith_fit {again : Heap → Except Fault (SpanPtr × Heap)} {S tmp i j : Nat}
    {h₀ h₁ h₂ h₃ : Heap} (hnone : h.pgList (bucket k) = none)
    (halloc : allocSpan e k 0 h = .ok (S, h₀))
    (hloc : (if k > 8 then h₀.setLoc S .isolated else h₀) = h₁) (hint : toInt k = j)
    (hfit : firstFit h₁.pgList j = some (i, tmp)) (hremove : h₁.remove (.pgList i) tmp = .ok h₂)
    (hsplit : splitSpans tmp S k h₂ = .ok h₃) :
    fetchSpanWith e again k h = .ok (S, h₃) := by
  simp only [fetchSpanWith, hnone, halloc, ok_bind, hloc]
  rw [if_neg (by rw [hint]; omega), hint, Int.toNat_natCast, hfit]
  simp only [hremove]
  rw [ok_bind, hsplit, ok_bind]

/-- The branch of `fetch_span` that asks the system for a region. -/
theorem fetchSpanWith_refill {again : Heap → Except Fault (SpanPtr × Heap)} {S : Nat}
    {h₀ h₁ h₂ : Heap} (hnone : h.pgList (bucket k) = none)
    (halloc : allocSpan e k 0 h = .ok (S, h₀))
    (hloc : (if k > 8 then h₀.setLoc S .isolated else h₀) = h₁) (hint : toInt k = k)
    (hfit : firstFit h₁.pgList k = none) (hlast : h₁.pgList 255 = none) (hk : k ≤ 256)
    (hsys : fetchFromSystem e h₁ = .ok h₂) :
    fetchSpanWith e again k h = again h₂ := by
  simp only [fetchSpanWith, hnone, halloc, ok_bind, hloc]
  rw [if_neg (by rw [hint]; omega), hint, Int.toNat_natCast, hfit]
  simp only [PAGEHEAPSIZE, show (256 - 1 : Nat) = 255 from rfl, hlast, scan]
  rw [if_neg (by omega), hsys, ok_bind]

/-- The heap after the last `k` pages of the only free span `R` of `n` pages have become a span
with the record `S`. -/
def cutLast (h : Heap) (R S n k : Nat) (st : Prop) : Heap :=
  { h with
    remBytes := h.remBytes - 64
    currInd := h.currInd + 1
    pageSize := Function.update (Function.update h.pageSize S k) R (n - k)
    pageId := Function.update h.pageId S (h.pageId R + (n - k))
    start := Function.update h.start S (h.start R + pagesToBytes32 (n - k))
    next := Function.update (Function.update h.next S (some S)) R (some R)
    prev := Function.update (Function.update h.prev S (some S)) R (some R)
    loc := if k > 8 then Function.update h.loc S .isolated else h.loc
    pageMapping := mapRange h.pageMapping (h.pageId R + (n - k)) k S
    stray := st }

theorem cut_cutLast {S : Nat} (hRS : R ≠ S) (hsize : h.pageSize R = n) (st : Prop) :
    Cut h (cutLast h R S n k st) R S k := by
  constructor
  case loc =>
    intro x hx
    simp only [cutLast]
    split_ifs <;> simp [hx]
  case locS =>
    simp only [cutLast]
    split_ifs <;> simp
  case next => intro x h1 h2; simp [cutLast, h1, h2]
  case prev => intro x h1 h2; simp [cutLast, h1, h2]
  case pageSize => intro x h1 h2; simp [cutLast, h1, h2]
  case pageId => intro x h1; simp [cutLast, h1]
  case start => intro x h1; simp [cutLast, h1]
  all_goals simp [cutLast, hRS.symm, hsize]

theorem OneSpan.cutLast (ho : OneSpan h R n (m + 1)) (hn : k + 256 ≤ n) (st : Prop) :
    OneSpan (cutLast h R (h.chunk + h.currInd * 64) n k st) R (n - k) m := by
  have hRS : R ≠ h.chunk + h.currInd * 64 := Nat.ne_of_lt ho.old
  have hid : h.pageId R + (n - k) ≤ PAGEMAPSIZE := le_trans (by omega) ho.id
  have hrec := ho.records
  refine ⟨⟨?_, fun x hx => ?_⟩, ?_, by simp [TcMalloc.cutLast], by simp [TcMalloc.cutLast], ?_, ?_⟩
  · show 64 * m ≤ h.remBytes - 64
    omega
  · replace hx : h.chunk + (h.currInd + 1) * 64 ≤ x := hx
    have hxR : x ≠ R := fun e => by
      have := ho.old
      rw [← e] at this
      omega
    have hxS : x ≠ h.chunk + h.currInd * 64 := by omega
    refine (ho.blank x (by omega)).congr ?_ ?_ ?_ ?_ ?_ ?_ ?_ ?_
    all_goals simp only [TcMalloc.cutLast, Function.update_of_ne hxR, Function.update_of_ne hxS]
    split_ifs <;> simp [hxS]
  · show h.pgList = _
    rw [ho.pg, bucket_of_le (by omega), bucket_of_le (by omega)]
  · show R < h.chunk + (h.currInd + 1) * 64
    exact Nat.lt_of_lt_of_le ho.old (by omega)
  · simp only [TcMalloc.cutLast, Function.update_of_ne hRS]
    exact hid

/-- The new span gets the last pages, and the old one goes back to the last list. -/
theorem splitSpans_last {S : Nat} (hRS : R ≠ S) (hsizeR : h.pageSize R = n)
    (hsizeS : h.pageSize S = k) (hpos : 0 < k) (hn : k + 256 ≤ n)
    (hid : h.pageId R + n ≤ PAGEMAPSIZE) (hpg : h.pgList 255 = none) :
    splitSpans R S k h = .ok { h with
      pageSize := Function.update h.pageSize R (n - k)
      pageId := Function.update h.pageId S (h.pageId R + (n - k))
      start := Function.update h.start S (h.start R + pagesToBytes32 (n - k))
      next := Function.update (Function.update h.next S (some S)) R (some R)
      prev := Function.update (Function.update h.prev S (some S)) R (some R)
      pgList := Function.update h.pgList 255 (some R)
      pageMapping := mapRange h.pageMapping (h.pageId R + (n - k)) k S } := by
  have hlt : h.pageId R + n < 2 ^ 24 := hid.trans_lt (by decide)
  have hmod : k % 2 ^ 32 = k := Nat.mod_eq_of_lt (by omega)
  have hmod' : (h.pageId R + (n - k)) % 2 ^ 32 = h.pageId R + (n - k) := by omega
  rw [splitSpans_eq (by rw [hmod, hsizeR]; omega) (by rw [hsizeR]; omega), hsizeR, hmod, hmod',
    bucket_of_le (by omega)]
  obtain ⟨h₃, hh₃⟩ : ∃ h₃ : Heap, h₃ = { h with
      pageSize := Function.update h.pageSize R (n - k)
      start := Function.update h.start S (h.start R + pagesToBytes32 (n - k))
      next := Function.update h.next S (some S)
      prev := Function.update h.prev S (some S)
      pageId := Function.update h.pageId S (h.pageId R + (n - k)) } := ⟨_, rfl⟩
  have hS₃ : h₃.pageSize S = k := by simp [hh₃, hRS.symm, hsizeS]
  have hid₃ : h₃.pageId S = h.pageId R + (n - k) := by simp [hh₃]
  have hmap := updateMapping_eq (s := S) (h := h₃) (by omega) (by omega)
  rw [if_pos (.inr (by rw [hS₃, hid₃]; omega)), hS₃, hid₃] at hmap
  rw [← hh₃, hmap, Except.map, hh₃]
  simp only [Heap.push, spanlistPush, Links.head, hpg]
  rfl

/-- The only free span is cut. -/
theorem fetchSpan_cut (ho : OneSpan h R n (m + 1)) (hpos : 0 < k) (hk : k < 256) (hn : k + 256 ≤ n)
    (again : Heap → Except Fault (SpanPtr × Heap)) :
    ∃ h', fetchSpanWith e again k h = .ok (h.chunk + h.currInd * 64, h') ∧
      Cut h h' R (h.chunk + h.currInd * 64) k ∧ OneSpan h' R (n - k) m := by
  obtain ⟨S, hS⟩ : ∃ S, S = h.chunk + h.currInd * 64 := ⟨_, rfl⟩
  have hRS : R ≠ S := Nat.ne_of_lt (hS ▸ ho.old)
  have hpg : h.pgList = Function.update (fun _ => none) 255 (some R) := by
    rw [ho.pg, bucket_of_le (by omega)]
  have hnone : h.pgList (bucket k) = none := by
    rw [hpg, bucket_of_lt hpos hk, Function.update_of_ne (by omega)]
  have hrem : 64 ≤ h.remBytes := by have := ho.records; omega
  have hmod : k % 2 ^ 32 = k := Nat.mod_eq_of_lt (by omega)
  -- the record for the new span
  obtain ⟨h₁, hh₁⟩ : ∃ h₁ : Heap, h₁ = { h with
      remBytes := h.remBytes - 64
      currInd := h.currInd + 1
      pageSize := Function.update h.pageSize S k
      next := Function.update h.next S (some S)
      prev := Function.update h.prev S (some S)
      loc := if k > 8 then Function.update h.loc S .isolated else h.loc } := ⟨_, rfl⟩
  have hrec : (takeRecord k 0 h).1 = S := hS.symm
  have htake : (if k > 8 then (takeRecord k 0 h).2.setLoc S .isolated
      else (takeRecord k 0 h).2) = h₁ := by
    rw [hh₁]
    split_ifs <;> simp only [takeRecord, SPANBYTES, hmod, Heap.setLoc, if_pos, ← hS]
  have halloc : allocSpan e k 0 h = .ok (S, (takeRecord k 0 h).2) := by
    rw [allocSpan_eq e k 0 hrem, ← hrec]
  have hfit : firstFit h₁.pgList k = some (255, R) := by
    rw [hh₁, ← firstFit_single (R := R) (show k ≤ 255 by omega) (by decide), ← hpg]
  -- the only free span leaves its list and is split
  obtain ⟨st, hremove⟩ := remove_single (h := h₁) (R := R) (i := 255)
    (by rw [hh₁]; simp [hpg]) (by simp [hh₁, hRS, ho.next])
  have hsplit := splitSpans_last (R := R) (S := S) (n := n) (k := k)
    (h := { h₁ with pgList := Function.update h₁.pgList 255 none, stray := st }) hRS
    (by simp [hh₁, hRS, ho.pages]) (by simp [hh₁]) hpos hn (by rw [hh₁]; exact ho.id)
    (by simp)
  have hrun : fetchSpanWith e again k h = .ok (S, _) := fetchSpanWith_fit hnone halloc htake
    (toInt_of_lt (show k < 2 ^ 31 by omega)) hfit hremove hsplit
  refine ⟨cutLast h R S n k st, ?_, hS ▸ cut_cutLast hRS ho.pages st, hS ▸ ho.cutLast hn st⟩
  rw [← hS, hrun]
  simp only [cutLast, hh₁, Function.update_idem, hpg]

/-- A block of the pages of the only free span takes it whole. -/
theorem fetchSpan_whole (ho : OneSpan h R n m) (hb : bucket k = bucket n)
    (again : Heap → Except Fault (SpanPtr × Heap)) :
    ∃ st, fetchSpanWith e again k h = .ok (R, { h with pgList := fun _ => none, stray := st }) := by
  have hhead : h.pgList (bucket k) = some R := by rw [ho.pg, hb, Function.update_self]
  obtain ⟨st, hrem⟩ := remove_single hhead ho.next
  refine ⟨st, ?_⟩
  simp only [fetchSpanWith, hhead, hrem]
  rw [ok_bind, ho.pg, hb, Function.update_idem]
  simp only [Function.update_eq_self_iff.mpr]

/-- The heap after the span `R` of `n` pages is returned to an empty list. -/
def returned (h : Heap) (R n : Nat) : Heap :=
  { h with
    objsSize := Function.update h.objsSize R 0
    objLen := Function.update h.objLen R 0
    objs := Function.update h.objs R []
    loc := Function.update h.loc R .pageheap
    pgList := Function.update h.pgList (bucket n) (some R)
    next := Function.update h.next R (some R)
    prev := Function.update h.prev R (some R)
    pageMapping := mapRange h.pageMapping (h.pageId R) n R }

theorem returnSpan_eq (hpg : h.pgList (bucket n) = none) (hsize : h.pageSize R = n) (hpos : 0 < n)
    (hid : h.pageId R + n ≤ PAGEMAPSIZE) : returnSpanToPgcache R h = .ok (returned h R n) := by
  have hlt : h.pageId R + n < 2 ^ 24 := hid.trans_lt (by decide)
  obtain ⟨h₁, hh₁⟩ : ∃ h₁ : Heap, h₁ = { returned h R n with pageMapping := h.pageMapping } :=
    ⟨_, rfl⟩
  have hsize₁ : h₁.pageSize R = n := by rw [hh₁, ← hsize]; rfl
  have hid₁ : h₁.pageId R = h.pageId R := by rw [hh₁]; rfl
  have hmap := updateMapping_eq (s := R) (h := h₁) (by omega) (by omega)
  rw [if_pos (.inr (by rw [hsize₁, hid₁]; exact hid)), hsize₁, hid₁] at hmap
  have hrun : returnSpanToPgcache R h = updateMapping R h₁ := by
    simp only [returnSpanToPgcache, hsize, Heap.push, spanlistPush, Links.head, hpg, hh₁]
    rfl
  rw [hrun, hmap, hh₁]
  rfl

/-- A span returned to an empty page heap is its only span. -/
theorem NoSpan.returned (hn : NoSpan h m) (hold : R < h.chunk + h.currInd * 64)
    (hsize : h.pageSize R = n) (hid : h.pageId R + n ≤ PAGEMAPSIZE) :
    OneSpan (returned h R n) R n m := by
  refine ⟨⟨hn.records, fun x hx => ?_⟩, ?_, by simp [TcMalloc.returned], hsize, hold, hid⟩
  · have hxR : x ≠ R := fun e => absurd hold (Nat.not_lt.mpr (e ▸ hx))
    refine (hn.blank x hx).congr ?_ ?_ ?_ ?_ ?_ ?_ ?_ ?_ <;> simp [TcMalloc.returned, hxR]
  · simp only [TcMalloc.returned, hn.pg]

/-- A request of `2 ^ 32` pages: the only free span is cut for no pages at all. -/
theorem fetchSpan_wrapped (ho : OneSpan h R n (m + 1)) (hpos : 0 < n) (hn : n < 256)
    (again : Heap → Except Fault (SpanPtr × Heap)) :
    ∃ h', fetchSpanWith e again (2 ^ 32) h = .ok (h.chunk + h.currInd * 64, h') ∧
      h'.start (h.chunk + h.currInd * 64) = h.start R + pagesToBytes32 n ∧
      h'.pageMapping = h.pageMapping ∧ h'.iniBrkAddr = h.iniBrkAddr ∧ h'.objs = h.objs ∧
      h'.objsSize = h.objsSize ∧ (∀ x, x < h.chunk + h.currInd * 64 → x ≠ R →
        h'.pageSize x = h.pageSize x ∧ h'.pageId x = h.pageId x ∧ h'.start x = h.start x) ∧
      h'.regions = h.regions ∧ h'.pgList = h.pgList := by
  obtain ⟨S, hS⟩ : ∃ S, S = h.chunk + h.currInd * 64 := ⟨_, rfl⟩
  rw [← hS]
  have hRS : R ≠ S := Nat.ne_of_lt (hS ▸ ho.old)
  have hb : bucket n = n - 1 := bucket_of_lt hpos hn
  have hpg := ho.pg
  rw [hb] at hpg
  have hnone : h.pgList (bucket (2 ^ 32)) = none := by
    rw [hpg, bucket_of_le (by decide), Function.update_of_ne (by omega)]
  have hrem : 64 ≤ h.remBytes := by have := ho.records; omega
  obtain ⟨h₁, hh₁⟩ : ∃ h₁ : Heap, h₁ = { h with
      remBytes := h.remBytes - 64
      currInd := h.currInd + 1
      pageSize := Function.update h.pageSize S 0
      next := Function.update h.next S (some S)
      prev := Function.update h.prev S (some S)
      loc := Function.update h.loc S .isolated } := ⟨_, rfl⟩
  have hrec : (takeRecord (2 ^ 32) 0 h).1 = S := hS.symm
  have htake : (if 2 ^ 32 > 8 then (takeRecord (2 ^ 32) 0 h).2.setLoc S .isolated
      else (takeRecord (2 ^ 32) 0 h).2) = h₁ := by
    rw [if_pos (by decide), hh₁]
    simp only [takeRecord, SPANBYTES, Nat.mod_self, Heap.setLoc, if_pos, ← hS]
  have halloc : allocSpan e (2 ^ 32) 0 h = .ok (S, (takeRecord (2 ^ 32) 0 h).2) := by
    rw [allocSpan_eq e (2 ^ 32) 0 hrem, ← hrec]
  obtain ⟨st, hremove⟩ := remove_single (h := h₁) (R := R) (i := n - 1)
    (by rw [hh₁]; simp [hpg]) (by simp [hh₁, hRS, ho.next])
  obtain ⟨h₂, hh₂⟩ : ∃ h₂ : Heap, h₂ = { h₁ with
      pgList := Function.update h₁.pgList (n - 1) none, stray := st } := ⟨_, rfl⟩
  rw [← hh₂] at hremove
  have hR₂ : h₂.pageSize R = n := by simp [hh₂, hh₁, hRS, ho.pages]
  have hid : h.pageId R + n < 2 ^ 24 := ho.id.trans_lt (by decide)
  have hidR : h₂.pageId R = h.pageId R := by rw [hh₂, hh₁]
  have hsplit := splitSpans_eq (t := R) (s := S) (n := 2 ^ 32) (h := h₂)
    (by rw [hR₂, Nat.mod_self]; exact hpos) (by rw [hR₂]; omega)
  rw [hR₂, Nat.mod_self, Nat.sub_zero, hidR] at hsplit
  obtain ⟨h₃, hh₃⟩ : ∃ h₃ : Heap, h₃ = { h₂ with
      pageSize := Function.update h₂.pageSize R n
      start := Function.update h₂.start S (h₂.start R + pagesToBytes32 n)
      next := Function.update h₂.next S (some S)
      prev := Function.update h₂.prev S (some S)
      pageId := Function.update h₂.pageId S ((h.pageId R + n) % 2 ^ 32) } := ⟨_, rfl⟩
  rw [← hh₃] at hsplit
  have hS₃ : h₃.pageSize S = 0 := by simp [hh₃, hh₂, hh₁, hRS.symm]
  have hmap : updateMapping S h₃ = .ok h₃ := by
    rw [updateMapping, hS₃]
    rfl
  rw [hmap] at hsplit
  refine ⟨_, fetchSpanWith_fit hnone halloc htake (j := 0) (by decide)
    (by rw [hh₁]; exact hpg ▸ firstFit_single (Nat.zero_le _) (by omega)) hremove hsplit, ?_⟩
  refine ⟨by simp [Heap.push, hh₃, hh₂, hh₁], by simp [Heap.push, hh₃, hh₂, hh₁],
    by simp [Heap.push, hh₃, hh₂, hh₁], by simp [Heap.push, hh₃, hh₂, hh₁],
    by simp [Heap.push, hh₃, hh₂, hh₁], fun x hx hxR => ?_, by simp [Heap.push, hh₃, hh₂, hh₁], ?_⟩
  · have hxS : x ≠ S := Nat.ne_of_lt hx
    simp [Heap.push, hh₃, hh₂, hh₁, hxR, hxS]
  · have hpg₃ : h₃.pgList (n - 1) = none := by simp [hh₃, hh₂]
    simp only [Heap.push, spanlistPush, Links.head, hb, hpg₃]
    simp [Links.setHead, Links.setNext, Links.setPrev, hh₃, hh₂, hh₁, hpg]

/-- The heap after a request of `k` pages has got a region of its own, which begins at page `a`; the
record taken first is not used. -/
def ownRegion (h : Heap) (k a : Nat) : Heap :=
  let unused := h.chunk + h.currInd * 64
  let span := h.chunk + (h.currInd + 1) * 64
  { h with
    remBytes := h.remBytes - 64 - 64
    currInd := h.currInd + 1 + 1
    pageSize := Function.update (Function.update h.pageSize unused k) span k
    pageId := Function.update h.pageId span a
    start := Function.update h.start span h.brk
    next := Function.update (Function.update h.next unused (some unused)) span (some span)
    prev := Function.update (Function.update h.prev unused (some unused)) span (some span)
    loc := Function.update h.loc unused .isolated
    brk := h.brk + pagesToBytes k
    sbrkCalls := h.sbrkCalls + 1
    regions := pagesToBytes k :: h.regions
    pageMapping := mapRange h.pageMapping a k span }

theorem NoSpan.ownRegion (hn : NoSpan h (m + 2)) (k a : Nat) : NoSpan (ownRegion h k a) m := by
  have hrec := hn.records
  refine ⟨⟨?_, fun x hx => ?_⟩, hn.pg⟩
  · show 64 * m ≤ h.remBytes - 64 - 64
    omega
  · replace hx : h.chunk + (h.currInd + 1 + 1) * 64 ≤ x := hx
    have h1 : x ≠ h.chunk + h.currInd * 64 := by omega
    have h2 : x ≠ h.chunk + (h.currInd + 1) * 64 := by omega
    refine (hn.blank x (by omega)).congr rfl rfl ?_ ?_ rfl rfl ?_ ?_
    all_goals simp only [TcMalloc.ownRegion, Function.update_of_ne h1, Function.update_of_ne h2]

theorem fetchSpan_ownRegion (hn : NoSpan h (m + 2)) (hk : 256 < k) {a : Nat}
    (hans : e.answer h.sbrkCalls = some 0) (hidx : addrToIndex h.brk h.iniBrkAddr = a)
    (hbrk : h.brk ≠ 0) (hid : a + k ≤ PAGEMAPSIZE) (again : Heap → Except Fault (SpanPtr × Heap)) :
    fetchSpanWith e again k h = .ok (h.chunk + (h.currInd + 1) * 64, ownRegion h k a) := by
  have hlt : a + k < 2 ^ 24 := hid.trans_lt (by decide)
  have hint : toInt k = k := toInt_of_lt (by omega)
  have hmod : k % 2 ^ 32 = k := Nat.mod_eq_of_lt (by omega)
  have hmodA : a % 2 ^ 32 = a := Nat.mod_eq_of_lt (by omega)
  have hrem := hn.records
  obtain ⟨S, hS⟩ : ∃ S, S = h.chunk + (h.currInd + 1) * 64 := ⟨_, rfl⟩
  -- the record that is not used
  obtain ⟨h₁, hh₁⟩ : ∃ h₁ : Heap, h₁ = (takeRecord k 0 h).2.setLoc (takeRecord k 0 h).1 .isolated :=
    ⟨_, rfl⟩
  have hpg₁ : h₁.pgList = fun _ => none := by rw [hh₁, ← hn.pg]; rfl
  have hrem₁ : h₁.remBytes = h.remBytes - 64 := by rw [hh₁]; rfl
  -- the region
  obtain ⟨h₂, hh₂⟩ : ∃ h₂ : Heap, h₂ = { h₁ with
      brk := h.brk + pagesToBytes k
      sbrkCalls := h.sbrkCalls + 1
      regions := pagesToBytes k :: h.regions } := ⟨_, rfl⟩
  have hsbrk : sbrk e (pagesToBytes k) h₁ = (h.brk, h₂) := by
    have e1 : h₁.sbrkCalls = h.sbrkCalls := by rw [hh₁]; rfl
    have e2 : h₁.brk = h.brk := by rw [hh₁]; rfl
    have e3 : h₁.regions = h.regions := by rw [hh₁]; rfl
    simp only [sbrk, e1, hans, e2, e3, hh₂, Nat.zero_mul, Nat.add_zero]
  -- its record
  have hrec : (takeRecord k h.brk h₂).1 = S := by
    rw [hh₂, hh₁, hS]
    rfl
  obtain ⟨h₃, hh₃⟩ : ∃ h₃ : Heap, h₃ = { (takeRecord k h.brk h₂).2 with
      start := Function.update (takeRecord k h.brk h₂).2.start S h.brk } := ⟨_, rfl⟩
  have hini : h₂.iniBrkAddr = h.iniBrkAddr := by rw [hh₂, hh₁]; rfl
  have hsize₃ : h₃.pageSize = Function.update h₂.pageSize S k := by
    rw [hh₃, ← hrec]
    simp only [takeRecord, hmod]
  have hid₃ : h₃.pageId = Function.update h₂.pageId S a := by
    rw [hh₃, ← hrec]
    simp only [takeRecord, if_neg hbrk, hini, hidx, hmodA]
  have hmap := updateMapping_eq (s := S) (h := h₃) (by rw [hsize₃]; simp; omega)
    (by rw [hid₃]; simp; omega)
  rw [hsize₃, hid₃, Function.update_self, Function.update_self, if_pos (.inr hid)] at hmap
  have halloc := allocSpan_eq e k 0 (h := h) (by omega)
  have halloc₂ := allocSpan_eq e k h.brk (h := h₂) (by rw [hh₂]; simp only [hrem₁]; omega)
  simp only [fetchSpanWith, show h.pgList (bucket k) = none by rw [hn.pg], halloc]
  rw [ok_bind]
  simp only [if_pos (show k > 8 by omega), ← hh₁]
  rw [if_neg (by rw [hint]; omega), hint, Int.toNat_natCast, hpg₁, firstFit_empty]
  simp only [scan, if_pos (show k > PAGEHEAPSIZE from hk), hsbrk, halloc₂]
  rw [ok_bind, hrec, ← hh₃, hmap, ok_bind, ← hS]
  refine congrArg _ (congrArg _ ?_)
  rw [hh₃, hh₂, hh₁]
  simp only [ownRegion, takeRecord, Heap.setLoc, SPANBYTES, hS, hmod, if_neg hbrk, hidx,
    hmodA, if_true]

/-- A request that no span can serve gets a region of its own. -/
theorem fetchSpan_direct (hn : NoSpan h (m + 2)) (hk : 256 < k) {a : Nat}
    (hans : e.answer h.sbrkCalls = some 0) (hidx : addrToIndex h.brk h.iniBrkAddr = a)
    (hbrk : h.brk ≠ 0) (hid : a + k ≤ PAGEMAPSIZE) (again : Heap → Except Fault (SpanPtr × Heap)) :
    ∃ h' S, fetchSpanWith e again k h = .ok (S, h') ∧ NoSpan h' m ∧
      S < h'.chunk + h'.currInd * 64 ∧ h'.start S = h.brk ∧ h'.pageId S = a ∧ h'.pageSize S = k ∧
      h'.objsSize S = 0 ∧ h'.pageMapping = mapRange h.pageMapping a k S ∧
      h'.iniBrkAddr = h.iniBrkAddr := by
  refine ⟨ownRegion h k a, _, fetchSpan_ownRegion hn hk hans hidx hbrk hid again,
    hn.ownRegion k a, ?_,
    Function.update_self .., Function.update_self .., Function.update_self .., ?_, rfl, rfl⟩
  · show h.chunk + (h.currInd + 1) * 64 < h.chunk + (h.currInd + 1 + 1) * 64
    omega
  · exact (hn.blank _ (by omega)).objsSize

end OneSpan

/-! ## `tc_central_init` -/

/-- A system whose heap begins at 4096 and whose `sbrk` succeeds and continues the heap. -/
def machine : Env where
  ini := 4096
  answer := fun _ => some 0
  ini_pos := by decide
  ini_lt := by decide
  ini_page := by decide
  answer_lt := fun h => by cases h; decide

theorem machine_succeeds : machine.Succeeds := fun _ h => by cases h

/-- The record of the span that `tc_central_init` carves for class `i`. -/
def bootSpan (i : Nat) : Nat := 4288 + 64 * i

/-- The first page of that span. -/
def bootPage (i : Nat) : Nat := 66848 - 128 * i

/-- The objects of a span of class `i` whose first page is `p`, in the order of its list. -/
def spanObjs (p i : Nat) : List Nat :=
  (objsFrom (4096 + p * 4096) (indexToSize i) (capacity i)).reverse

/-- The class `i` has one span with free objects, `S`, whose first page is `p` and of which `c`
objects are taken. -/
structure Single (h : Heap) (i S p c : Nat) : Prop where
  list : h.list i = some S
  next : h.next S = some S
  prev : h.prev S = some S
  objs : h.objs S = (spanObjs p i).drop c
  objLen : h.objLen S = capacity i
  objRefcount : h.objRefcount S = c
  objsSize : h.objsSize S = indexToSize i
  pageSize : h.pageSize S = 128
  start : h.start S = 4096 + p * 4096
  loc : h.loc S = .centralList
  mapped : ∀ k < 128, h.pageMapping (p + k) = some S

/-- The page heap of the system after `i` spans of 128 pages were cut. -/
structure Pool (h : Heap) (i : Nat) : Prop where
  one : OneSpan h 4224 (65536 - 128 * i) (92157 - i)
  chunk : h.chunk = 4096
  currInd : h.currInd = 3 + i
  pageId : h.pageId 4224 = 1440
  start : h.start 4224 = 5902336
  ini : h.iniBrkAddr = 4096
  brk : h.brk = 274337792
  regions : h.regions = [268435456, 5898240]

/-- The state after `i` rounds of `tc_central_init`. -/
structure Booted (h : Heap) (i : Nat) : Prop where
  pool : Pool h i
  list : ∀ j, i ≤ j → h.list j = none
  idle : ∀ j, h.idle j = none
  classes : ∀ j, j < i → Single h j (bootSpan j) (bootPage j) 0

theorem bootSpan_inj {i j : Nat} (h : bootSpan i = bootSpan j) : i = j := by
  simp only [bootSpan] at h
  omega

section Boot

variable {h h' : Heap} {i j S p c : Nat}

/-- What a class needs is kept by writes to other records and other pages. -/
theorem Single.congr (hs : Single h i S p c) (h1 : h'.list i = h.list i) (h2 : h'.next S = h.next S)
    (h3 : h'.prev S = h.prev S) (h4 : h'.objs S = h.objs S) (h5 : h'.objLen S = h.objLen S)
    (h6 : h'.objRefcount S = h.objRefcount S) (h7 : h'.objsSize S = h.objsSize S)
    (h8 : h'.pageSize S = h.pageSize S) (h9 : h'.start S = h.start S) (h10 : h'.loc S = h.loc S)
    (h11 : ∀ k < 128, h'.pageMapping (p + k) = h.pageMapping (p + k)) : Single h' i S p c :=
  ⟨h1.trans hs.list, h2.trans hs.next, h3.trans hs.prev, h4.trans hs.objs, h5.trans hs.objLen,
    h6.trans hs.objRefcount, h7.trans hs.objsSize, h8.trans hs.pageSize, h9.trans hs.start,
    h10.trans hs.loc, fun k hk => (h11 k hk).trans (hs.mapped k hk)⟩

/-- The heap after the blank span `S` is carved for the class `i`, which has no other. -/
def carvedAlone (h : Heap) (i S p : Nat) : Heap :=
  { h with
    objs := Function.update h.objs S (spanObjs p i)
    objLen := Function.update h.objLen S (capacity i)
    objsSize := Function.update h.objsSize S (indexToSize i)
    list := Function.update h.list i (some S)
    next := Function.update h.next S (some S)
    prev := Function.update h.prev S (some S)
    loc := Function.update h.loc S .centralList }

theorem carveSpan_alone (hi : i < CLASSES) (hobjs : h.objs S = []) (hlen : h.objLen S = 0)
    (hsize : h.pageSize S = 128) (hst : h.start S = 4096 + p * 4096) (hlist : h.list i = none) :
    carveSpan (indexToSize i) i S h = carvedAlone h i S p := by
  rw [carveSpan_eq hsize hi]
  have hlist' : (carved h i S).list i = none := hlist
  simp only [Heap.push, spanlistPush, Links.head, hlist']
  simp only [Heap.setLoc, carved, carvedAlone, hobjs, hlen, hst, List.append_nil,
    Nat.zero_add, spanObjs]
  rfl

theorem single_carvedAlone (href : h.objRefcount S = 0) (hsize : h.pageSize S = 128)
    (hst : h.start S = 4096 + p * 4096) (hmap : ∀ k < 128, h.pageMapping (p + k) = some S) :
    Single (carvedAlone h i S p) i S p 0 := by
  refine ⟨?_, ?_, ?_, ?_, ?_, href, ?_, hsize, hst, ?_, hmap⟩ <;> simp [carvedAlone]

/-- The span cut for class `i` has the pages of that class. -/
theorem Pool.cut (hp : Pool h i) (hi : i ≤ CLASSES) (again : Heap → Except Fault (SpanPtr × Heap)) :
    ∃ h', fetchSpanWith machine again BATCH h = .ok (bootSpan i, h') ∧
      Cut h h' 4224 (bootSpan i) BATCH ∧ Pool h' (i + 1) ∧ h'.pageId (bootSpan i) = bootPage i ∧
      h'.start (bootSpan i) = 4096 + bootPage i * 4096 := by
  simp only [CLASSES] at hi
  have hS : h.chunk + h.currInd * 64 = bootSpan i := by
    rw [hp.chunk, hp.currInd, bootSpan]
    omega
  have hone := hp.one
  rw [show 92157 - i = 92157 - (i + 1) + 1 by omega] at hone
  obtain ⟨h', hrun, hcut, hone'⟩ := fetchSpan_cut (e := machine) (k := 128) hone (by decide)
    (by decide) (by omega) again
  rw [hS] at hrun hcut
  have hid : h'.pageId (bootSpan i) = bootPage i := by
    rw [hcut.idS, hp.pageId, hp.one.pages, bootPage]
    omega
  have hst : h'.start (bootSpan i) = 4096 + bootPage i * 4096 := by
    rw [hcut.startS, hp.start, hp.one.pages, bootPage, pagesToBytes32]
    omega
  have hne : (4224 : Nat) ≠ bootSpan i := by
    rw [bootSpan]
    omega
  refine ⟨h', hrun, hcut, ⟨?_, ?_, ?_, ?_, ?_, ?_, ?_, ?_⟩, hid, hst⟩
  · rw [show 65536 - 128 * (i + 1) = 65536 - 128 * i - 128 by omega]
    exact hone'
  · rw [hcut.chunk, hp.chunk]
  · rw [hcut.currInd, hp.currInd, Nat.add_assoc]
  · rw [hcut.pageId _ hne, hp.pageId]
  · rw [hcut.start _ hne, hp.start]
  · rw [hcut.iniBrkAddr, hp.ini]
  · rw [hcut.brk, hp.brk]
  · rw [hcut.regions, hp.regions]

/-- The pool is kept by writes to the records of the classes. -/
theorem Pool.congr (hp : Pool h i) (hpg : h'.pgList = h.pgList) (hrem : h'.remBytes = h.remBytes)
    (hchunk : h'.chunk = h.chunk) (hind : h'.currInd = h.currInd)
    (hini : h'.iniBrkAddr = h.iniBrkAddr)
    (hbrk : h'.brk = h.brk) (hreg : h'.regions = h.regions) (hsize : h'.pageSize = h.pageSize)
    (hid : h'.pageId = h.pageId) (hst : h'.start = h.start) (hnext : h'.next 4224 = h.next 4224)
    (hrec : ∀ x, bootSpan i ≤ x → Blank h x → Blank h' x) : Pool h' i where
  one := by
    have ho := hp.one
    refine ⟨⟨by rw [hrem]; exact ho.records, fun x hx => ?_⟩, by rw [hpg, ho.pg],
      by rw [hnext, ho.next], by rw [hsize, ho.pages], by rw [hchunk, hind]; exact ho.old,
      by rw [hid]; exact ho.id⟩
    rw [hchunk, hind] at hx
    refine hrec x ?_ (ho.blank x hx)
    rw [hp.chunk, hp.currInd] at hx
    rw [bootSpan]
    omega
  chunk := hchunk.trans hp.chunk
  currInd := hind.trans hp.currInd
  pageId := by rw [hid, hp.pageId]
  start := by rw [hst, hp.start]
  ini := hini.trans hp.ini
  brk := hbrk.trans hp.brk
  regions := hreg.trans hp.regions

/-- A round of `tc_central_init` after `fetch_span` has memory. -/
theorem Booted.round (hb : Booted h i) (hi : i < CLASSES)
    (again : Heap → Except Fault (SpanPtr × Heap)) :
    ∃ h', fetchSpanWith machine again BATCH h = .ok (bootSpan i, h') ∧
      Booted (carveSpan (indexToSize i) i (bootSpan i) h') (i + 1) := by
  obtain ⟨h', hrun, hcut, hpool, hid, hst⟩ := hb.pool.cut hi.le again
  refine ⟨h', hrun, ?_⟩
  have hR : (4224 : Nat) ≠ bootSpan i := by
    rw [bootSpan]
    omega
  have hblank : Blank h (bootSpan i) := by
    refine hb.pool.one.blank _ ?_
    rw [hb.pool.chunk, hb.pool.currInd, bootSpan]
    omega
  have hmap : h'.pageMapping = mapRange h.pageMapping (bootPage i) 128 (bootSpan i) := by
    rw [← hid]
    exact hcut.pageMapping
  rw [carveSpan_alone hi (by rw [hcut.objs]; exact hblank.objs)
    (by rw [hcut.objLen]; exact hblank.objLen)
    hcut.sizeS hst (by rw [hcut.list]; exact hb.list i le_rfl)]
  refine ⟨?_, fun j hj => ?_, fun j => ?_, fun j hj => ?_⟩
  · refine hpool.congr rfl rfl rfl rfl rfl rfl rfl rfl rfl rfl (by simp [carvedAlone, hR])
      fun x hx hbx => ?_
    have hxS : x ≠ bootSpan i := by
      rw [bootSpan] at hx ⊢
      omega
    refine hbx.congr ?_ ?_ ?_ ?_ ?_ ?_ ?_ ?_ <;> simp [carvedAlone, hxS]
  · simp only [carvedAlone, Function.update_of_ne (show j ≠ i by omega), hcut.list]
    exact hb.list j (by omega)
  · simp only [carvedAlone, hcut.idle, hb.idle]
  · by_cases hji : j = i
    · subst hji
      refine single_carvedAlone (by rw [hcut.objRefcount]; exact hblank.objRefcount) hcut.sizeS hst
        fun k hk => ?_
      rw [hmap]
      exact mapRange_of_mem (by omega) (by omega)
    · have hjS : bootSpan j ≠ bootSpan i := fun e => hji (bootSpan_inj e)
      have hjR : bootSpan j ≠ 4224 := by
        rw [bootSpan]
        omega
      refine (hb.classes j (by omega)).congr ?_ ?_ ?_ ?_ ?_ ?_ ?_ ?_ ?_ ?_ fun k hk => ?_
      · simp [carvedAlone, hji, hcut.list]
      · simp [carvedAlone, hjS, hcut.next _ hjR hjS]
      · simp [carvedAlone, hjS, hcut.prev _ hjR hjS]
      · simp [carvedAlone, hjS, hcut.objs]
      · simp [carvedAlone, hjS, hcut.objLen]
      · simp [carvedAlone, hcut.objRefcount]
      · simp [carvedAlone, hjS, hcut.objsSize]
      · simp [carvedAlone, hcut.pageSize _ hjR hjS]
      · simp [carvedAlone, hcut.start _ hjS]
      · simp [carvedAlone, hjS, hcut.loc _ hjS]
      · simp only [carvedAlone]
        rw [hmap]
        refine mapRange_of_not_mem (.inr ?_)
        simp only [CLASSES] at hi
        rw [bootPage, bootPage]
        omega

/-- The first chunk, with `r` records taken, before there is a span. -/
structure FirstChunk (h : Heap) (r : Nat) : Prop where
  pgList : h.pgList = fun _ => none
  list : h.list = fun _ => none
  idle : h.idle = fun _ => none
  remBytes : h.remBytes = 5898240 - 64 * r
  chunk : h.chunk = 4096
  currInd : h.currInd = r
  ini : h.iniBrkAddr = 4096
  brk : h.brk = 5902336
  regions : h.regions = [5898240]
  blank : ∀ x, 4096 + 64 * r ≤ x → Blank h x

theorem newChunk_machine :
    ∃ h₁, newChunk machine (initGlobals machine) = .ok h₁ ∧ FirstChunk h₁ 1 := by
  obtain ⟨h₀, hh₀⟩ : ∃ h₀ : Heap, h₀ = { initGlobals machine with
      brk := 5902336, sbrkCalls := 1, regions := [5898240] } := ⟨_, rfl⟩
  have hblank : ∀ x, Blank h₀ x := fun x => by
    rw [hh₀]
    exact ⟨rfl, rfl, rfl, rfl, rfl, rfl, rfl, rfl⟩
  have hbytes : pagesToBytes SPANPOOLSIZE = 5898240 := rfl
  have hsbrk : sbrk machine 5898240 (initGlobals machine) = (4096, h₀) := by rw [hh₀]; rfl
  have hidx : addrToIndex 4096 h₀.iniBrkAddr % 2 ^ 32 = 0 := by rw [hh₀]; rfl
  have hzero := zeroSpans_of_fresh (h := h₀) (c := 4096) (n := 5898240) fun x _ => hblank x
  simp only [newChunk, hbytes, hsbrk, if_neg (show (4096 : Nat) ≠ sbrkFailed by decide),
    hzero, hidx]
  obtain ⟨h₂, hh₂⟩ : ∃ h₂ : Heap, h₂ = { h₀ with
      prev := fun s => if 4096 ≤ s ∧ s < 4096 + 5898240 then none else h₀.prev s
      next := fun s => if 4096 ≤ s ∧ s < 4096 + 5898240 then none else h₀.next s
      chunk := 4096
      remBytes := 5898240
      currInd := 0
      chunks := 4096 :: h₀.chunks
      pageId := Function.update h₀.pageId 4096 0
      pageSize := Function.update h₀.pageSize 4096 SPANPOOLSIZE } := ⟨_, rfl⟩
  rw [← hh₂]
  have hsize : h₂.pageSize 4096 = 1440 := by simp [hh₂]
  have hid : h₂.pageId 4096 = 0 := by simp [hh₂]
  have hmap := updateMapping_eq (s := 4096) (h := h₂) (by rw [hsize]; decide) (by rw [hid]; decide)
  rw [if_pos (.inr (by rw [hsize, hid]; decide))] at hmap
  rw [hmap]
  refine ⟨_, rfl, ?_, ?_, ?_, ?_, ?_, ?_, ?_, ?_, ?_, fun x hx => ?_⟩
  · rw [hh₂, hh₀]; rfl
  · rw [hh₂, hh₀]; rfl
  · rw [hh₂, hh₀]; rfl
  · simp only [hh₂, SPANBYTES, Nat.mul_one]
  · simp only [hh₂]
  · simp only [hh₂]
  · simp only [hh₂, hh₀]; rfl
  · simp only [hh₂, hh₀]
  · simp only [hh₂, hh₀]
  · have hx4 : x ≠ 4096 := by omega
    refine (hblank x).congr ?_ ?_ ?_ ?_ ?_ ?_ ?_ ?_ <;> simp [hh₂, hx4]

/-- The first span of the page heap. -/
theorem refill_machine {h₁ : Heap} (hc : FirstChunk h₁ 2) :
    ∃ h₂, fetchFromSystem machine h₁ = .ok h₂ ∧ Booted h₂ 0 := by
  obtain ⟨h₂, hh₂⟩ : ∃ h₂ : Heap, h₂ = { h₁ with
      brk := 274337792, sbrkCalls := h₁.sbrkCalls + 1, regions := [268435456, 5898240] } := ⟨_, rfl⟩
  have hsbrk : sbrk machine SYSFETCHSIZE h₁ = (5902336, h₂) := by
    rw [hh₂, ← hc.regions]
    have hbrk := hc.brk
    simp only [sbrk, machine, SYSFETCHSIZE, hbrk]
  have hrem : 64 ≤ h₂.remBytes := by
    rw [hh₂]
    simp only [hc.remBytes]
    decide
  have hrec : h₂.chunk + h₂.currInd * SPANBYTES = 4224 := by
    rw [hh₂]
    simp only [hc.chunk, hc.currInd]
    rfl
  have hidx : addrToIndex 5902336 h₂.iniBrkAddr % 2 ^ 32 = 1440 := by
    rw [hh₂]
    simp only [hc.ini]
    rfl
  obtain ⟨h₃, hh₃⟩ : ∃ h₃ : Heap, h₃ = { h₂ with
      remBytes := h₂.remBytes - 64
      currInd := h₂.currInd + 1
      pageSize := Function.update h₂.pageSize 4224 65536
      pageId := Function.update h₂.pageId 4224 1440
      start := Function.update h₂.start 4224 5902336
      next := Function.update h₂.next 4224 (some 4224)
      prev := Function.update h₂.prev 4224 (some 4224)
      pgList := Function.update h₂.pgList 255 (some 4224) } := ⟨_, rfl⟩
  have hsize : h₃.pageSize 4224 = 65536 := by simp [hh₃]
  have hid : h₃.pageId 4224 = 1440 := by simp [hh₃]
  have hmap := updateMapping_eq (s := 4224) (h := h₃) (by rw [hsize]; decide) (by rw [hid]; decide)
  rw [if_pos (.inr (by rw [hsize, hid]; decide))] at hmap
  have hrun : fetchFromSystem machine h₁ = updateMapping 4224 h₃ := by
    have htake : takeRecord 65536 5902336 h₂ = (4224, { h₂ with
        remBytes := h₂.remBytes - 64
        currInd := h₂.currInd + 1
        pageSize := Function.update h₂.pageSize 4224 65536
        pageId := Function.update h₂.pageId 4224 1440
        next := Function.update h₂.next 4224 (some 4224)
        prev := Function.update h₂.prev 4224 (some 4224) }) := by
      simp only [takeRecord, hrec, hidx]
      rfl
    have hpg : h₂.pgList 255 = none := by
      rw [hh₂]
      simp only [hc.pgList]
    rw [fetchFromSystem, hsbrk]
    simp only [show bytesToPages SYSFETCHSIZE = 65536 from rfl,
      allocSpan_eq machine 65536 5902336 hrem,
      htake]
    rw [ok_bind]
    simp only [Function.update_self, show bucket 65536 = 255 from rfl, Heap.push, spanlistPush,
      Links.head, hpg, hh₃, Links.setHead, Links.setNext, Links.setPrev, Function.update_idem]
  refine ⟨_, hrun.trans hmap, ⟨⟨⟨?_, ?_⟩, ?_, ?_, ?_, ?_, ?_⟩, ?_, ?_, ?_, ?_, ?_, ?_, ?_⟩,
    fun j _ => ?_,
    fun j => ?_, fun j hj => absurd hj (Nat.not_lt_zero j)⟩
  · simp only [hh₃, hh₂, hc.remBytes]
    decide
  · intro x hx
    simp only [hh₃, hh₂, hc.chunk, hc.currInd] at hx
    have hx4 : x ≠ 4224 := by omega
    refine (hc.blank x (by omega)).congr ?_ ?_ ?_ ?_ ?_ ?_ ?_ ?_ <;> simp [hh₃, hh₂, hx4]
  · simp only [hh₃, hh₂, hc.pgList]
    rfl
  · simp [hh₃]
  · simp [hh₃]
  · simp only [hh₃, hh₂, hc.chunk, hc.currInd]
    decide
  · simp only [hid]
    decide
  · simp only [hh₃, hh₂, hc.chunk]
  · simp only [hh₃, hh₂, hc.currInd]
  · simp [hh₃]
  · simp [hh₃]
  · simp only [hh₃, hh₂, hc.ini]
  · simp only [hh₃, hh₂]
  · simp only [hh₃, hh₂]
  · simp only [hh₃, hh₂, hc.list]
  · simp only [hh₃, hh₂, hc.idle]

/-- The first `fetch_span` calls itself once there is a region. -/
theorem fetchSpan_machine : ∃ h₂, Booted h₂ 0 ∧
    fetchSpan machine BATCH (initGlobals machine) = fetchSpanDepth machine 1 BATCH h₂ := by
  obtain ⟨h₁, hnew, hc⟩ := newChunk_machine
  obtain ⟨h₂, hh₂⟩ : ∃ h₂ : Heap, h₂ = (takeRecord 128 0 h₁).2.setLoc 4160 .isolated := ⟨_, rfl⟩
  have hrec : (takeRecord 128 0 h₁).1 = 4160 := by
    simp only [takeRecord, hc.chunk, hc.currInd, SPANBYTES, Nat.one_mul, Nat.reduceAdd]
  have hc₂ : FirstChunk h₂ 2 := by
    have hrec' : h₁.chunk + h₁.currInd * SPANBYTES = 4160 := hrec
    refine ⟨?_, ?_, ?_, ?_, ?_, ?_, ?_, ?_, ?_, fun x hx => ?_⟩
    · rw [hh₂, ← hc.pgList]; rfl
    · rw [hh₂, ← hc.list]; rfl
    · rw [hh₂, ← hc.idle]; rfl
    · simp only [hh₂, Heap.setLoc, takeRecord, hc.remBytes, SPANBYTES, Nat.reduceMul, Nat.reduceSub]
    · simp only [hh₂, Heap.setLoc, takeRecord, hc.chunk]
    · simp only [hh₂, Heap.setLoc, takeRecord, hc.currInd]
    · simp only [hh₂, Heap.setLoc, takeRecord, hc.ini]
    · simp only [hh₂, Heap.setLoc, takeRecord, hc.brk]
    · simp only [hh₂, Heap.setLoc, takeRecord, hc.regions]
    · have hx4 : x ≠ 4160 := by omega
      refine (hc.blank x (by omega)).congr ?_ ?_ ?_ ?_ ?_ ?_ ?_ ?_ <;>
        simp [hh₂, Heap.setLoc, takeRecord, hrec', hx4]
  obtain ⟨h₃, hsys, hb⟩ := refill_machine hc₂
  refine ⟨h₃, hb, ?_⟩
  have halloc : allocSpan machine 128 0 (initGlobals machine) =
    .ok (4160, (takeRecord 128 0 h₁).2) := by
    rw [allocSpan, if_pos (by decide), hnew, ok_bind, ← hrec]
  rw [fetchSpan, fetchSpanDepth]
  exact fetchSpanWith_refill (k := 128) rfl halloc (by rw [if_pos (by decide), hh₂]) rfl
    (by rw [hc₂.pgList]; exact firstFit_empty 128) (by rw [hc₂.pgList]) (by decide) hsys

/-- A round of `tc_central_init`. -/
theorem getSpanCentral_machine (hi : i < CLASSES) (hlist : h.list i = none)
    (hrun : ∃ g, Booted g i ∧ ∃ depth, fetchSpan machine BATCH h = fetchSpanDepth machine
      (depth + 1) BATCH g) :
    ∃ h', getSpanCentral machine (indexToSize i) h = .ok (bootSpan i, h') ∧ Booted h' (i + 1) := by
  obtain ⟨g, hg, depth, hrun⟩ := hrun
  obtain ⟨h', hfetch, hb⟩ := hg.round hi (fetchSpanDepth machine depth BATCH)
  rw [fetchSpanDepth, hfetch] at hrun
  refine ⟨_, ?_, hb⟩
  have hscan : scanCentral i h = .ok none := by
    simp only [scanCentral, hlist, scan]
  rw [getSpanCentral, sizeClass_indexToSize hi, ok_bind, hscan, ok_bind]
  simp only [hrun]
  rfl

theorem centralInitLoop_machine : ∀ {n i : Nat} {h : Heap}, Booted h i → i + n = CLASSES →
    ∃ h', centralInitLoop machine n i h = .ok h' ∧ Booted h' CLASSES
  | 0, i, h, hb, hn => ⟨h, rfl, hn ▸ hb⟩
  | n + 1, i, h, hb, hn => by
    have hi : i < CLASSES := by omega
    obtain ⟨h₁, hrun, hb₁⟩ := getSpanCentral_machine hi (hb.list i le_rfl) ⟨h, hb, 1, rfl⟩
    obtain ⟨h₂, hrest, hb₂⟩ := centralInitLoop_machine (n := n) hb₁ (by omega)
    exact ⟨h₂, by rw [centralInitLoop, hrun, ok_bind]; exact hrest, hb₂⟩

/-- `tc_central_init` succeeds on the machine. -/
theorem tcCentralInit_machine : ∃ h₀, tcCentralInit machine = .ok h₀ ∧ Booted h₀ CLASSES := by
  obtain ⟨g, hg, hrun⟩ := fetchSpan_machine
  obtain ⟨h₁, hrun₁, hb₁⟩ :=
    getSpanCentral_machine (i := 0) (h := initGlobals machine) (by decide) rfl
    ⟨g, hg, 0, hrun⟩
  obtain ⟨h₂, hrun₂, hb₂⟩ := centralInitLoop_machine (n := 158) hb₁ (by decide)
  refine ⟨h₂, ?_, hb₂⟩
  rw [tcCentralInit, show CLASSES = 158 + 1 from rfl, centralInitLoop, hrun₁, ok_bind]
  exact hrun₂

end Boot

end SearchEngine.TcMalloc
