import SearchEngine.TcMalloc.Verify.Scene

/-!
# Runs in one size class

Thread 0 allocates and frees blocks of 32768 bytes, of which a span has 16: until a
flush finds the span with objects left (`counted_twice`), and until a flush returns
objects of a span that is exhausted (`left_idle`).
-/

namespace SearchEngine.TcMalloc

open LinkedRing Placement Outcome Reach

/-- Thread 0 is between calls. -/
structure Drawn (s : Sys) (xs : List Nat) (ml : Nat) (ps : List Nat) : Prop where
  cache : s.cache 0 158 = ⟨xs, xs.length, ml⟩
  pc : s.pc 0 = .ready
  lock : s.centralLock = none
  live : s.live.map Block.ptr = ps

/-- A call for the last class takes no span from the page heap. -/
theorem fetchMet_last {s : Sys} : FetchMet s (0, .malloc 32768) := fun hlt => absurd hlt (by decide)

section Draw

variable {s : Sys} {o ml c : Nat} {xs ps batch : List Nat}

/-- A block from the cache. -/
theorem Drawn.pop (hd : Drawn s (o :: xs) ml ps) :
    ∃ s', Step machine s (0, .malloc 32768) s' ∧ Drawn s' xs ml (o :: ps) ∧ s'.heap = s.heap := by
  refine ⟨_, malloc_pop hd.pc hd.cache, ⟨?_, setPc_pc .., hd.lock, ?_⟩, rfl⟩
  · simp [returnBlock, Sys.setPc, Sys.setCache]
  · rw [← hd.live]
    rfl

/-- All the blocks of the cache. -/
theorem Drawn.pops : ∀ {xs ps : List Nat} {s : Sys}, Drawn s xs ml ps →
    ∃ s', Reaches (Step machine) FetchMet s s' ∧ Drawn s' [] ml (xs.reverse ++ ps) ∧
    s'.heap = s.heap
  | [], _, s, hd => ⟨s, .refl, hd, rfl⟩
  | o :: xs, ps, s, hd => by
    obtain ⟨s₁, hstep, hd₁, hheap₁⟩ := hd.pop
    obtain ⟨s₂, hr, hd₂, hheap₂⟩ := hd₁.pops
    refine ⟨s₂, (Reaches.single fetchMet_last hstep).trans hr, ?_, hheap₂.trans hheap₁⟩
    simpa using hd₂

/-- A fetch is under way: `tc_malloc(32768)` found the cache empty. -/
structure Asking (s : Sys) (pc : Pc) (ml : Nat) (ps : List Nat) : Prop where
  cache : s.cache 0 158 = ⟨[], 0, ml⟩
  pc : s.pc 0 = pc
  live : s.live.map Block.ptr = ps

/-- The step takes no span from the page heap. -/
theorem Asking.fetchMet {pc : Pc} (ha : Asking s pc ml ps)
    (hpc : match pc with | .refill .. => False | _ => True) : FetchMet s (0, .run) := by
  unfold FetchMet
  simp only [ha.pc]
  cases pc <;> trivial

theorem Drawn.ask (hd : Drawn s [] ml ps) (hlt : ml < 32) :
    ∃ s', Step machine s (0, .malloc 32768) s' ∧
      Asking s' (.fetch (.allocate 32768) 158 ml) (ml + 1) ps ∧ s'.heap = s.heap ∧
      s'.centralLock = none := by
  have hamount : fetchAmount 158 ⟨[], 0, ml⟩ = (ml, ⟨[], 0, ml + 1⟩) := by
    simp only [fetchAmount, MAXFETCHSIZE, min_eq_right hlt.le,
      if_neg (show ¬ (ml < 32 ∧ 158 ≤ 22) by omega),
      if_pos hlt]
  have hcache : s.cache 0 158 = ⟨[], 0, ml⟩ := hd.cache
  refine ⟨startFetch s 0 (.allocate 32768) 158, ⟨by simp only [Enabled, hd.pc]; decide, ?_⟩,
    ⟨?_, ?_, hd.live⟩,
    rfl, hd.lock⟩
  · simp only [next, tcMalloc, if_pos (le_refl 32768), allocate, sizeClass_last]
    rw [ok_bind]
    simp only [hcache]
  · simp [startFetch, hcache, hamount, Sys.setPc, Sys.setCache]
  · simp [startFetch, hcache, hamount, Sys.setPc, Sys.setCache]

/-- The batch goes to the cache, but for the block returned. -/
theorem Asking.finish (ha : Asking s (.insert (.allocate 32768) 158 batch) ml ps)
    (hb : batch.reverse = o :: xs) (hlock : s.centralLock = none) :
    ∃ s', Step machine s (0, .run) s' ∧ Drawn s' xs ml (o :: ps) ∧ s'.heap = s.heap := by
  have hlen : batch.length = xs.length + 1 := by rw [← List.length_reverse, hb, List.length_cons]
  have hins : insertToThreadcache batch (s.cache 0 158) = ⟨o :: xs, xs.length + 1, ml⟩ := by
    rw [insertToThreadcache_eq, ha.cache, hb, hlen]
    simp
  refine ⟨returnBlock (s.setCache 0 158 ⟨xs, xs.length, ml⟩) 0 o 32768 (s.origin o),
    ⟨by simp only [Enabled, ha.pc], ?_⟩, ⟨?_, setPc_pc .., hlock, ?_⟩, rfl⟩
  · simp only [next, ha.pc, continueCall, finishFetch, hins, freelistPop]
    rw [ok_bind]
    rfl
  · simp [returnBlock, Sys.setPc, Sys.setCache]
  · rw [← ha.live]
    rfl

/-- The batch is taken from the span `S`. -/
theorem Asking.taken {S n : Nat} {h' : Heap} (ha : Asking s (.fetch (.allocate 32768) 158 n) ml ps)
    (hlock : s.centralLock = none) (hscan : scanCentral 158 s.heap = .ok (some S))
    (hrun : takeObjs n 158 S s.heap = .ok (batch, h')) :
    ∃ s', Step machine s (0, .run) s' ∧ Asking s' (.insert (.allocate 32768) 158 batch) ml ps ∧
      s'.heap = h' ∧ s'.centralLock = none := by
  refine ⟨({ s with
      heap := h'
      centralLock := none
      origin := fun obj => if obj ∈ batch then S else s.origin obj } : Sys).setPc 0
        (.insert (.allocate 32768) 158 batch),
    ⟨by simp only [Enabled, ha.pc, hlock], ?_⟩, ⟨ha.cache, setPc_pc .., ha.live⟩, rfl, rfl⟩
  simp only [next, ha.pc, continueCall, hscan]
  rw [ok_bind]
  simp only [endFetch, hrun]
  rw [ok_bind]

/-- A block from a fetch that leaves objects. -/
theorem Drawn.fetch {S p : Nat} (hd : Drawn s [] ml ps) (hs : Single s.heap 158 S p c)
    (hpos : 0 < ml)
    (hlt : c + ml < 16) (hb : (((spanObjs p 158).drop c).take ml).reverse = o :: xs) :
    ∃ s', Reaches (Step machine) FetchMet s s' ∧ Drawn s' xs (ml + 1) (o :: ps) ∧
      s'.heap = TcMalloc.taken s.heap S p 158 (c + ml) := by
  have hcap : capacity 158 = 16 := rfl
  obtain ⟨s₁, step₁, ha₁, hheap₁, hlock₁⟩ := hd.ask (by omega)
  obtain ⟨s₂, step₂, ha₂, hheap₂, hlock₂⟩ := ha₁.taken hlock₁
    (by rw [hheap₁]; exact hs.scan (by omega)) (by rw [hheap₁]; exact hs.take_some hpos (by omega))
  obtain ⟨s₃, step₃, hd₃, hheap₃⟩ := ha₂.finish hb hlock₂
  exact ⟨s₃, ((Reaches.single fetchMet_last step₁).tail (ha₁.fetchMet trivial) step₂).tail
    (ha₂.fetchMet trivial) step₃, hd₃, hheap₃.trans hheap₂⟩

/-! ## Blocks go back -/

theorem ptrs_erase (live : List Block) (o : Nat) :
    (live.eraseP fun b => b.ptr = o).map Block.ptr = (live.map Block.ptr).erase o := by
  rw [List.erase_eq_eraseP', List.eraseP_map]
  congr 2

/-- A block goes to the cache. -/
theorem Drawn.put {S : Nat} (hd : Drawn s xs ml ps) (hne : xs.length ≠ ml) (ho : o ∈ ps)
    (hmap : mapAddrToSpan o s.heap = .ok (some S)) (hsize : s.heap.objsSize S = 32768) :
    ∃ s', Step machine s (0, .free o) s' ∧ Drawn s' (o :: xs) ml (ps.erase o) ∧
    s'.heap = s.heap := by
  have hlive : ∃ b ∈ s.live, b.ptr = o := by
    rw [← hd.live] at ho
    exact List.mem_map.mp ho
  refine ⟨({ s with live := s.live.eraseP fun b => b.ptr = o } : Sys).setCache 0 158
    ⟨o :: xs, xs.length + 1, ml⟩, ⟨by simp only [Enabled, hd.pc]; exact hlive, ?_⟩,
    ⟨?_, hd.pc, hd.lock, ?_⟩,
    rfl⟩
  · simp only [next, tcFree, hmap]
    rw [ok_bind]
    simp only [hsize, if_pos (show 0 < 32768 ∧ 32768 ≤ THRESHALLOC by decide), deallocate,
      sizeClass_last]
    rw [ok_bind]
    simp only [hd.cache, if_neg hne]
  · simp [Sys.setCache]
  · rw [← hd.live, ← ptrs_erase]
    rfl

/-- A block and the cache go back to the central cache. -/
theorem Drawn.overflow {S : Nat} (hd : Drawn s xs ml ps) (he : xs.length = ml) (ho : o ∈ ps)
    (hmap : mapAddrToSpan o s.heap = .ok (some S)) (hsize : s.heap.objsSize S = 32768) {h' : Heap}
    (hrun : returnObjs (o :: xs) 32768 s.heap = .ok (none, h')) :
    ∃ s', Reaches (Step machine) Any s s' ∧ s'.heap = h' := by
  have hlive : ∃ b ∈ s.live, b.ptr = o := by
    rw [← hd.live] at ho
    exact List.mem_map.mp ho
  obtain ⟨s₁, hs₁⟩ : ∃ s₁, s₁ = (({ s with live := s.live.eraseP fun b => b.ptr = o } :
    Sys).setCache 0 158
      ⟨[], 0, ml⟩).setPc 0 (.flush (o :: xs) 32768) := ⟨_, rfl⟩
  have step₁ : Step machine s (0, .free o) s₁ := by
    refine ⟨by simp only [Enabled, hd.pc]; exact hlive, ?_⟩
    simp only [next, tcFree, hmap]
    rw [ok_bind]
    simp only [hsize, if_pos (show 0 < 32768 ∧ 32768 ≤ THRESHALLOC by decide), deallocate,
      sizeClass_last]
    rw [ok_bind]
    simp only [hd.cache, if_pos he, hs₁]
  have hpc₁ : s₁.pc 0 = .flush (o :: xs) 32768 := by rw [hs₁, setPc_pc]
  have hheap₁ : s₁.heap = s.heap := by rw [hs₁]; rfl
  have hlock₁ : s₁.centralLock = none := by rw [hs₁]; exact hd.lock
  have step₂ : Step machine s₁ (0, .run) ({ s₁ with heap := h' }.setPc 0 .ready) := by
    refine ⟨by simp only [Enabled, hpc₁, hlock₁], ?_⟩
    simp only [next, hpc₁, continueCall, hheap₁, hrun]
    rw [ok_bind]
  exact ⟨_, (Reaches.single trivial step₁).tail trivial step₂, rfl⟩

end Draw

/-! ## The flush -/

section Flush

variable {h : Heap} {S p c : Nat}

/-- The heap after the objects `b` were returned to `S`. -/
def restored (h : Heap) (S : Nat) (b : List Nat) : Heap :=
  { h with
    objs := Function.update h.objs S (b.reverse ++ h.objs S)
    objLen := Function.update h.objLen S (h.objLen S + b.length)
    objRefcount := Function.update h.objRefcount S (h.objRefcount S - b.length) }

theorem restored_restored (h : Heap) (S : Nat) (a b : List Nat) :
    restored (restored h S a) S b = restored h S (a ++ b) := by
  simp [restored, Nat.add_assoc, Nat.sub_sub]

theorem returnLoop_single : ∀ {b : List Nat} {l : Option SpanPtr} {h : Heap},
    (∀ o ∈ b, mapAddrToSpan o h = .ok (some S)) → b.length ≤ h.objRefcount S →
    h.objRefcount S < 2 ^ 32 →
    returnLoop b l h = .ok (if b = [] then l else some S, restored h S b)
  | [], l, h, _, _, _ => by simp [returnLoop, restored]
  | o :: b, l, h, hmap, hlen, hlt => by
    rw [List.length_cons] at hlen
    have hone : returnObj o h = .ok (S, restored h S [o]) := by
      have href : (h.objRefcount S + 2 ^ 32 - 1) % 2 ^ 32 = h.objRefcount S - 1 := by omega
      simp only [returnObj, hmap o List.mem_cons_self]
      rw [ok_bind]
      simp only [freelistPush, href]
      rfl
    have hrest := returnLoop_single (b := b) (l := some S) (h := restored h S [o])
      (fun x hx => hmap x (List.mem_cons_of_mem _ hx))
      (by simp only [restored, Function.update_self, List.length_singleton]; omega)
      (by simp only [restored, Function.update_self, List.length_singleton]; omega)
    rw [returnLoop, hone, ok_bind]
    simp only [hrest, restored_restored, List.singleton_append, reduceCtorEq, if_false, ite_self]

theorem returnLoop_append (a b : List Nat) (l : Option SpanPtr) (h : Heap) :
    returnLoop (a ++ b) l h = returnLoop a l h >>= fun r => returnLoop b r.1 r.2 := by
  induction a generalizing l h with
  | nil => rfl
  | cons o a ih =>
    simp only [List.cons_append, returnLoop]
    cases returnObj o h with
    | error e => rfl
    | ok r => exact ih (some r.1) r.2

/-- The objects of a span lie in its pages. -/
theorem Single.found {h : Heap} (hs : Single h 158 S p c) (hini : h.iniBrkAddr = 4096)
    (hp : p + 128 ≤ PAGEMAPSIZE) {o : Nat} (ho : o ∈ spanObjs p 158) :
    mapAddrToSpan o h = .ok (some S) := by
  rw [spanObjs, List.mem_reverse, mem_objsFrom] at ho
  obtain ⟨k, hk, rfl⟩ := ho
  have hk : k < 16 := hk
  have hsize : indexToSize 158 = 32768 := rfl
  have hpage : p + 8 * k < PAGEMAPSIZE := (Nat.add_lt_add_left (by omega) p).trans_le hp
  rw [mapAddr_machine (k := p + 8 * k) hini (by rw [hsize]; omega) hpage, hs.mapped _ (by omega)]

/-- A flush of objects of one span that keeps some. -/
theorem Single.flush {h : Heap} (hs : Single h 158 S p c) (hini : h.iniBrkAddr = 4096)
    (hp : p + 128 ≤ PAGEMAPSIZE) {b : List Nat} (hb : ∀ o ∈ b, o ∈ spanObjs p 158) (hne : b ≠ [])
    (hlt : b.length < c) (hc : c < 2 ^ 32) :
    returnObjs b 32768 h = .ok (none, restored h S b) := by
  have hloop := returnLoop_single (l := none) (fun o ho => hs.found hini hp (hb o ho))
    (by rw [hs.objRefcount]; exact hlt.le) (by rw [hs.objRefcount]; exact hc)
  rw [if_neg hne] at hloop
  have hloc : (restored h S b).loc S ≠ .centralIdle := by
    simp [restored, hs.loc]
  have href : (restored h S b).objRefcount S ≠ 0 := by
    simp only [restored, Function.update_self, hs.objRefcount]
    omega
  rw [returnObjs, sizeClass_last, ok_bind, hloop, ok_bind]
  simp only [leaveIdle, if_neg (fun h => hloc (And.left h))]
  rw [ok_bind, if_neg href]

end Flush

/-! ## The runs -/

/-- Thread 0 is between calls, and `c` objects of the span of the last class are taken. -/
structure Stage (s : Sys) (c : Nat) (xs : List Nat) (ml : Nat) (ps : List Nat) : Prop
    extends Drawn s xs ml ps where
  pool : Pool s.heap CLASSES
  idle : s.heap.idle 158 = none
  single : Single s.heap 158 14400 46624 c

section Stage

variable {s : Sys} {o ml c : Nat} {xs ps : List Nat}

theorem Ready.stage (hs : Ready s) : Stage s 1 [191467520] 2 [] :=
  ⟨⟨(hs.classes 158 (by decide)).2, hs.pc, hs.lock, by rw [hs.live]; rfl⟩, hs.pool, hs.idle 158,
    (hs.classes 158 (by decide)).1⟩

theorem Stage.pops (hd : Stage s c xs ml ps) :
    ∃ s', Reaches (Step machine) FetchMet s s' ∧ Stage s' c [] ml (xs.reverse ++ ps) := by
  obtain ⟨s', hr, hd', hheap⟩ := hd.toDrawn.pops
  exact ⟨s', hr, hd', hheap ▸ hd.pool, hheap ▸ hd.idle, hheap ▸ hd.single⟩

theorem Stage.fetch (hd : Stage s c [] ml ps) (hpos : 0 < ml) (hlt : c + ml < 16)
    (hb : (((spanObjs 46624 158).drop c).take ml).reverse = o :: xs) :
    ∃ s', Reaches (Step machine) FetchMet s s' ∧ Stage s' (c + ml) xs (ml + 1) (o :: ps) := by
  obtain ⟨s', hr, hd', hheap⟩ := hd.toDrawn.fetch hd.single hpos hlt hb
  refine ⟨s', hr, hd', ?_, ?_, ?_⟩
  · rw [hheap]
    exact hd.pool.taken (i := 158) (by decide) _
  · rw [hheap]
    exact hd.idle
  · rw [hheap]
    exact hd.single.taken _

/-- Fetches of 2 and 3 objects. -/
theorem Ready.six (hs : Ready s) : ∃ s', Reaches (Step machine) FetchMet s s' ∧
    Stage s' 6 [191336448, 191369216] 4 [191303680, 191434752, 191401984, 191467520] := by
  obtain ⟨s₁, hr₁, hd₁⟩ := hs.stage.pops
  have hb₂ : (((spanObjs 46624 158).drop 1).take 2).reverse = [191401984, 191434752] := by decide
  obtain ⟨s₂, hr₂, hd₂⟩ := hd₁.fetch (by decide) (by decide) hb₂
  obtain ⟨s₃, hr₃, hd₃⟩ := hd₂.pops
  have hb₄ : (((spanObjs 46624 158).drop 3).take 3).reverse =
    [191303680, 191336448, 191369216] := by
    decide
  obtain ⟨s₄, hr₄, hd₄⟩ := hd₃.fetch (by decide) (by decide) hb₄
  exact ⟨s₄, ((hr₁.trans hr₂).trans hr₃).trans hr₄, hd₄⟩

end Stage

/-- Four blocks and three of them back: `tc_malloc(32768)` four times, and `tc_free` of the last,
the third and the second. The span has 16 objects, and counts 21. -/
theorem counted_twice : ∃ s, Reachable machine Any s ∧ s.heap.objsSize 14400 = 32768 ∧
    s.heap.pageSize 14400 = 128 ∧ s.heap.objLen 14400 = 21 := by
  obtain ⟨s₀, ⟨h₀, hinit, hrun₀⟩, hs₀⟩ := machine_ready
  obtain ⟨s₄, hr₄, hd₄⟩ := hs₀.six
  have hsingle₄ := hd₄.single
  have hini₄ := hd₄.pool.ini
  -- two blocks fill the cache
  obtain ⟨s₅, step₅, hd₅, hheap₅⟩ := hd₄.put (o := 191303680) (by decide) (by decide)
    (hsingle₄.found hini₄ (by decide) (by decide)) hsingle₄.objsSize
  have hsingle₅ : Single s₅.heap 158 14400 46624 6 := hheap₅ ▸ hsingle₄
  have hini₅ : s₅.heap.iniBrkAddr = 4096 := hheap₅ ▸ hini₄
  obtain ⟨s₆, step₆, hd₆, hheap₆⟩ := hd₅.put (o := 191434752) (by decide) (by decide)
    (hsingle₅.found hini₅ (by decide) (by decide)) hsingle₅.objsSize
  have hsingle₆ : Single s₆.heap 158 14400 46624 6 := hheap₆ ▸ hsingle₅
  have hini₆ : s₆.heap.iniBrkAddr = 4096 := hheap₆ ▸ hini₅
  -- the third makes it overflow
  obtain ⟨s₇, hr₇, hheap₇⟩ := hd₆.overflow (o := 191401984) (by decide) (by decide)
    (hsingle₆.found hini₆ (by decide) (by decide)) hsingle₆.objsSize
    (hsingle₆.flush hini₆ (by decide) (by decide) (List.cons_ne_nil _ _) (by decide) (by decide))
  refine ⟨s₇, ⟨h₀, hinit, ((((hrun₀.mono fun _ _ _ => trivial).trans
    (hr₄.mono fun _ _ _ => trivial)).tail trivial step₅).tail trivial step₆).trans hr₇⟩, ?_, ?_, ?_⟩
  · rw [hheap₇]
    exact hsingle₆.objsSize
  · rw [hheap₇]
    exact hsingle₆.pageSize
  · rw [hheap₇]
    simp only [restored, Function.update_self, hsingle₆.objLen]
    rfl

/-! ## An exhausted span -/

/-- The span of the last class is exhausted, and idle. -/
structure Spent (h : Heap) : Prop where
  idle : h.idle 158 = some 14400
  objs : h.objs 14400 = []
  objRefcount : h.objRefcount 14400 = 16
  objsSize : h.objsSize 14400 = 32768
  pageSize : h.pageSize 14400 = 128
  start : h.start 14400 = 4096 + 46624 * 4096
  mapped : ∀ k < 128, h.pageMapping (46624 + k) = some 14400

theorem Spent.found {h : Heap} (hs : Spent h) (hini : h.iniBrkAddr = 4096) {o : Nat}
    (ho : o ∈ spanObjs 46624 158) : mapAddrToSpan o h = .ok (some 14400) := by
  rw [spanObjs, List.mem_reverse, mem_objsFrom] at ho
  obtain ⟨k, hk, rfl⟩ := ho
  have hk : k < 16 := hk
  have hsize : indexToSize 158 = 32768 := rfl
  rw [mapAddr_machine (k := 46624 + 8 * k) hini (by rw [hsize]; omega)
    ((show 46624 + 8 * k < 46752 by omega).trans (by decide)), hs.mapped _ (by omega)]

section Spent

variable {s : Sys} {o ml : Nat} {xs ps : List Nat}

/-- The last object of the span is fetched. -/
theorem Stage.exhaust (hd : Stage s 15 [] 6 ps) :
    ∃ s', Reaches (Step machine) FetchMet s s' ∧ Drawn s' [] 7 (190976000 :: ps) ∧ Spent s'.heap ∧
      Pool s'.heap CLASSES ∧ s'.heap.list 158 = none := by
  have hs := hd.single
  obtain ⟨batch, hb, hrun⟩ := hs.take (n := 6) (by decide) (by decide)
  obtain rfl : batch = [190976000] := hb
  rw [if_pos (by decide)] at hrun
  obtain ⟨h₁, hh₁⟩ : ∃ h₁, h₁ = taken s.heap 14400 46624 158 16 := ⟨_, rfl⟩
  have hs₁ : Single h₁ 158 14400 46624 16 := hh₁ ▸ hs.taken 16
  have hrem : ∃ st, h₁.remove (.centralList 158) 14400 = .ok { h₁ with
      list := Function.update h₁.list 158 none, stray := st } := by
    refine ⟨h₁.stray ∨ ¬ OnRing h₁.next (h₁.list 158) 14400, ?_⟩
    simp only [Heap.remove, removeSpan, Links.head, hs₁.list, if_true, spanlistPop, hs₁.next]
    rfl
  obtain ⟨st, hrem⟩ := hrem
  obtain ⟨h₂, hh₂⟩ : ∃ h₂ : Heap, h₂ = { h₁ with
      list := Function.update h₁.list 158 none
      stray := st
      idle := Function.update h₁.idle 158 (some 14400)
      next := Function.update h₁.next 14400 (some 14400)
      prev := Function.update h₁.prev 14400 (some 14400)
      loc := Function.update h₁.loc 14400 .centralIdle } := ⟨_, rfl⟩
  have hidle₁ : h₁.idle 158 = none := by
    rw [hh₁]
    exact hd.idle
  have hrun₂ : takeObjs 6 158 14400 s.heap = .ok ([190976000], h₂) := by
    rw [hrun, show taken s.heap 14400 46624 158 (15 + [190976000].length) = h₁ from hh₁.symm,
      hrem, ok_bind,
      hh₂]
    simp only [Heap.push, spanlistPush, Links.head, hidle₁]
    rfl
  obtain ⟨s₁, step₁, ha₁, hheap₁, hlock₁⟩ := hd.ask (by decide)
  obtain ⟨s₂, step₂, ha₂, hheap₂, hlock₂⟩ := ha₁.taken hlock₁
    (by rw [hheap₁]; exact hs.scan (by decide)) (by rw [hheap₁]; exact hrun₂)
  obtain ⟨s₃, step₃, hd₃, hheap₃⟩ := ha₂.finish (o := 190976000) rfl hlock₂
  rw [hheap₂] at hheap₃
  refine ⟨s₃, ((Reaches.single fetchMet_last step₁).tail (ha₁.fetchMet trivial) step₂).tail
    (ha₂.fetchMet trivial) step₃, hd₃, ?_, ?_, ?_⟩
  · rw [hheap₃, hh₂]
    exact ⟨by simp, hs₁.objs, hs₁.objRefcount, hs₁.objsSize, hs₁.pageSize, hs₁.start, hs₁.mapped⟩
  · have hpool₁ : Pool h₁ CLASSES := hh₁ ▸ hd.pool.taken (i := 158) (by decide) 16
    rw [hheap₃, hh₂]
    refine hpool₁.congr rfl rfl rfl rfl rfl rfl rfl rfl rfl rfl (by simp) fun x hx hb => ?_
    have hxS : x ≠ 14400 := by
      rintro rfl
      exact absurd hx (by decide)
    exact hb.congr rfl rfl (by simp [hxS]) rfl rfl rfl rfl rfl
  · rw [hheap₃, hh₂]
    simp

/-- Some pages of the only free span are cut off. -/
theorem OneSpan.fetchOk {h : Heap} {R n m k : Nat} (ho : OneSpan h R n m) (hpos : 0 < k)
    (hk : k < 256) (hn : 256 ≤ n) (hlt : n < 2 ^ 20) : FetchOk h k := by
  have hpg : h.pgList = Function.update (fun _ => none) 255 (some R) := by
    rw [ho.pg, bucket_of_le hn]
  have hnone : h.pgList (bucket k) = none := by
    rw [hpg, bucket_of_lt hpos hk]
    exact Function.update_of_ne (by omega) _ _
  have hmod : k % 2 ^ 32 = k := Nat.mod_eq_of_lt (by omega)
  have hff : firstFit h.pgList (toInt k).toNat = some (255, R) := by
    rw [toInt_of_lt (by omega), Int.toNat_natCast, hpg]
    exact firstFit_update hk fun _ _ _ => rfl
  unfold FetchOk
  rw [hnone, hff, hmod]
  refine ⟨by omega, ?_⟩
  show h.pageSize R - k < _
  rw [ho.pages]
  omega

/-- The class gets a second span. -/
theorem Drawn.refill (hd : Drawn s [] 7 ps) (hs : Spent s.heap) (hp : Pool s.heap CLASSES)
    (hlist : s.heap.list 158 = none) {o : Nat} {xs : List Nat}
    (hb : (((spanObjs 46496 158).drop 0).take 7).reverse = o :: xs) :
    ∃ s', Reaches (Step machine) FetchMet s s' ∧ Drawn s' xs 8 (o :: ps) ∧ Spent s'.heap ∧
      s'.heap.iniBrkAddr = 4096 ∧ Single s'.heap 158 14464 46496 7 := by
  -- no span has objects: the page heap cuts one
  obtain ⟨s₁, step₁, ha₁, hheap₁, hlock₁⟩ := hd.ask (by decide)
  obtain ⟨s₂, hs₂⟩ : ∃ s₂, s₂ = { s₁ with centralLock := some 0 }.setPc 0
      (.refill (.allocate 32768) 158 7) := ⟨_, rfl⟩
  have hpc₂ : s₂.pc 0 = .refill (.allocate 32768) 158 7 := by rw [hs₂, setPc_pc]
  have hheap₂ : s₂.heap = s.heap := by rw [hs₂]; exact hheap₁
  have step₂ : Step machine s₁ (0, .run) s₂ := by
    refine ⟨by simp only [Enabled, ha₁.pc, hlock₁], ?_⟩
    have hscan : scanCentral 158 s₁.heap = .ok none := by
      simp only [scanCentral, hheap₁, hlist, LinkedRing.scan]
    simp only [next, ha₁.pc, continueCall, hscan]
    rw [ok_bind, hs₂]
  obtain ⟨h', hrun, hcut, hpool, hid, hst⟩ := hp.cut le_rfl (fetchSpanDepth machine 1 BATCH)
  have hrun' : fetchSpan machine BATCH s.heap = .ok (14464, h') := hrun
  have hcut' : Cut s.heap h' 4224 14464 128 := hcut
  have hid' : h'.pageId 14464 = 46496 := hid
  have hst' : h'.start 14464 = 4096 + 46496 * 4096 := hst
  obtain ⟨s₃, hs₃⟩ : ∃ s₃, s₃ = ({ s₂ with heap := h' } : Sys).setPc 0
      (.carve (.allocate 32768) 158 7 14464) := ⟨_, rfl⟩
  have hpc₃ : s₃.pc 0 = .carve (.allocate 32768) 158 7 14464 := by rw [hs₃, setPc_pc]
  have step₃ : Step machine s₂ (0, .run) s₃ := by
    refine ⟨by simp only [Enabled, hpc₂], ?_⟩
    simp only [next, hpc₂, continueCall, hheap₂, hrun']
    rw [ok_bind, hs₃]
  -- it is carved, and 7 objects are taken
  have hblank : Blank s.heap 14464 := by
    refine hp.one.blank _ ?_
    rw [hp.chunk, hp.currInd]
    decide
  have hmap : ∀ k, h'.pageMapping k = mapRange s.heap.pageMapping 46496 128 14464 k := fun k => by
    rw [← hid', hcut'.pageMapping]
  have hcarve := carveSpan_alone (h := h') (i := 158) (S := 14464) (p := 46496) (by decide)
    (by rw [hcut'.objs]; exact hblank.objs) (by rw [hcut'.objLen]; exact hblank.objLen)
    hcut'.sizeS hst'
    (by rw [hcut'.list]; exact hlist)
  have hsingle := single_carvedAlone (h := h') (i := 158) (S := 14464) (p := 46496)
    (by rw [hcut'.objRefcount]; exact hblank.objRefcount) hcut'.sizeS hst'
    fun k hk => by rw [hmap]; exact mapRange_of_mem (by omega) (by omega)
  obtain ⟨h₄, hh₄⟩ : ∃ h₄, h₄ = taken (carvedAlone h' 158 14464 46496) 14464 46496 158 (0 + 7) :=
    ⟨_, rfl⟩
  have htake := hsingle.take_some (n := 7) (by decide) (by decide)
  rw [← hh₄] at htake
  obtain ⟨s₄, hs₄⟩ : ∃ s₄, s₄ = ({ s₃ with
      heap := h₄
      centralLock := none
      origin := fun obj => if obj ∈ ((spanObjs 46496 158).drop 0).take 7 then 14464 else
      s₃.origin obj } :
        Sys).setPc 0 (.insert (.allocate 32768) 158 (((spanObjs 46496 158).drop 0).take 7)) :=
        ⟨_, rfl⟩
  have step₄ : Step machine s₃ (0, .run) s₄ := by
    refine ⟨by simp only [Enabled, hpc₃], ?_⟩
    have hheap₃ : s₃.heap = h' := by rw [hs₃]; rfl
    simp only [next, hpc₃, continueCall, hheap₃, hcarve, endFetch, htake]
    rw [ok_bind, hs₄]
  have ha₄ : Asking s₄ (.insert (.allocate 32768) 158 (((spanObjs 46496 158).drop 0).take 7)) 8
    ps := by
    rw [hs₄, hs₃, hs₂]
    exact ⟨ha₁.cache, setPc_pc .., ha₁.live⟩
  obtain ⟨s₅, step₅, hd₅, hheap₅⟩ := ha₄.finish hb (by rw [hs₄]; rfl)
  have hheap₅' : s₅.heap = h₄ := by rw [hheap₅, hs₄]; rfl
  have hmet₂ : FetchMet s₂ (0, .run) := by
    simp only [FetchMet, hpc₂, hheap₂]
    exact hp.one.fetchOk (by decide) (by decide) (by decide) (by decide)
  have hmet₃ : FetchMet s₃ (0, .run) := by simp only [FetchMet, hpc₃]
  refine ⟨s₅, ((((Reaches.single fetchMet_last step₁).tail (ha₁.fetchMet trivial) step₂).tail hmet₂
    step₃).tail hmet₃ step₄).tail (ha₄.fetchMet trivial) step₅, hd₅, ?_, ?_, ?_⟩
  · rw [hheap₅', hh₄]
    refine ⟨?_, ?_, ?_, ?_, ?_, ?_, fun k hk => ?_⟩
    · simp only [taken, carvedAlone, hcut'.idle, hs.idle]
    · simp [taken, carvedAlone, hcut'.objs, hs.objs]
    · simp [taken, carvedAlone, hcut'.objRefcount, hs.objRefcount]
    · simp [taken, carvedAlone, hcut'.objsSize, hs.objsSize]
    · exact (hcut'.pageSize 14400 (by decide) (by decide)).trans hs.pageSize
    · exact (hcut'.start 14400 (by decide)).trans hs.start
    · simp only [taken, carvedAlone, hmap]
      rw [mapRange_of_not_mem (.inr (by omega))]
      exact hs.mapped k hk
  · rw [hheap₅', hh₄]
    simp only [taken, carvedAlone, hcut'.iniBrkAddr, hp.ini]
  · rw [hheap₅', hh₄]
    exact hsingle.taken 7

end Spent

/-- The calls `tc_malloc(32768)` 17 times: the first span is idle, and the second has 9 objects
on its list and 6 in the cache. -/
theorem machine_twoSpans : ∃ s ps, Reachable machine FetchMet s ∧
    Drawn s [190779392, 190812160, 190844928, 190877696, 190910464, 190943232] 8
      (190746624 :: 190976000 :: ps) ∧
    [191434752, 191401984, 191467520] ⊆ ps ∧ Spent s.heap ∧ s.heap.iniBrkAddr = 4096 ∧
    Single s.heap 158 14464 46496 7 := by
  obtain ⟨s₀, ⟨h₀, hinit, hrun₀⟩, hs₀⟩ := machine_ready
  obtain ⟨s₁, hr₁, hd₁⟩ := hs₀.six
  obtain ⟨s₂, hr₂, hd₂⟩ := hd₁.pops
  have hb₃ : (((spanObjs 46624 158).drop 6).take 4).reverse =
      [191172608, 191205376, 191238144, 191270912] := by decide
  obtain ⟨s₃, hr₃, hd₃⟩ := hd₂.fetch (by decide) (by decide) hb₃
  obtain ⟨s₄, hr₄, hd₄⟩ := hd₃.pops
  have hb₅ : (((spanObjs 46624 158).drop 10).take 5).reverse =
      [191008768, 191041536, 191074304, 191107072, 191139840] := by decide
  obtain ⟨s₅, hr₅, hd₅⟩ := hd₄.fetch (by decide) (by decide) hb₅
  obtain ⟨s₆, hr₆, hd₆⟩ := hd₅.pops
  -- the span is exhausted, and the next call carves another
  obtain ⟨s₇, hr₇, hd₇, hs₇, hp₇, hl₇⟩ := hd₆.exhaust
  have hb₈ : (((spanObjs 46496 158).drop 0).take 7).reverse =
      [190746624, 190779392, 190812160, 190844928, 190877696, 190910464, 190943232] := by decide
  obtain ⟨s₈, hr₈, hd₈, hs₈, hini₈, hsingle₈⟩ := hd₇.refill hs₇ hp₇ hl₇ hb₈
  refine ⟨s₈, _, ⟨h₀, hinit, ((((((((hrun₀.mono fun _ _ h => h.fetchMet).trans hr₁).trans hr₂).trans
    hr₃).trans hr₄).trans hr₅).trans hr₆).trans hr₇).trans hr₈⟩, hd₈, ?_, hs₈, hini₈, hsingle₈⟩
  decide

/-- The calls `tc_malloc(32768)` 17 times, and `tc_free` of the first three blocks. The flush of
these with 6 objects of the second span leaves the first one idle, with 3 free objects. -/
theorem left_idle : ∃ s, Reachable machine Any s ∧ s.heap.idle 158 = some 14400 ∧
    s.heap.objs 14400 ≠ [] := by
  obtain ⟨s₈, ps, ⟨h₀, hinit, hrun₈⟩, hd₈, hsub, hs₈, hini₈, hsingle₈⟩ := machine_twoSpans
  have hlive : ∀ o ∈ [191434752, 191401984, 191467520], o ∈ 190746624 :: 190976000 :: ps :=
    fun o ho => List.mem_cons_of_mem _ (List.mem_cons_of_mem _ (hsub ho))
  -- three blocks of the first span go back, the last of them with the cache
  obtain ⟨s₉, step₉, hd₉, hheap₉⟩ := hd₈.put (o := 191467520) (by decide) (hlive _ (by decide))
    (hs₈.found hini₈ (by decide)) hs₈.objsSize
  obtain ⟨s₁₀, step₁₀, hd₁₀, hheap₁₀⟩ := hd₉.put (o := 191401984) (by decide)
    ((List.mem_erase_of_ne (by decide)).mpr (hlive _ (by decide)))
    (by rw [hheap₉]; exact hs₈.found hini₈ (by decide)) (by rw [hheap₉]; exact hs₈.objsSize)
  have hheap : s₁₀.heap = s₈.heap := hheap₁₀.trans hheap₉
  obtain ⟨h', hh'⟩ : ∃ h', h' = restored s₈.heap 14400 [191434752, 191401984, 191467520] := ⟨_, rfl⟩
  have hfirst : returnLoop [191434752, 191401984, 191467520] none s₈.heap =
    .ok (some 14400, h') := by
    rw [returnLoop_single (S := 14400) (fun o ho => hs₈.found hini₈ (by revert o; decide))
      (by rw [hs₈.objRefcount]; decide) (by rw [hs₈.objRefcount]; decide), hh']
    rfl
  have hsingle : Single h' 158 14464 46496 7 := by
    rw [hh']
    exact hsingle₈.congr rfl rfl rfl (by simp [restored]) (by simp [restored])
      (by simp [restored]) rfl rfl
      rfl rfl fun _ _ => rfl
  obtain ⟨cached, hcached⟩ : ∃ l : List Nat, l =
      [190779392, 190812160, 190844928, 190877696, 190910464, 190943232] := ⟨_, rfl⟩
  have hsecond : returnObjs ([191434752, 191401984, 191467520] ++ cached) 32768 s₈.heap =
      .ok (none, restored h' 14464 cached) := by
    have hloop := returnLoop_single (S := 14464) (b := cached) (l := some 14400)
      (fun o ho => hsingle.found (by rw [hh']; exact hini₈) (by decide) (by
        rw [hcached] at ho
        revert o
        decide)) (by rw [hsingle.objRefcount, hcached]; decide)
          (by rw [hsingle.objRefcount]; decide)
    have hloc : (restored h' 14464 cached).loc 14464 ≠ .centralIdle := by
      simp [restored, hsingle.loc]
    have href : (restored h' 14464 cached).objRefcount 14464 ≠ 0 := by
      simp only [restored, Function.update_self, hsingle.objRefcount, hcached]
      decide
    rw [returnObjs, sizeClass_last, ok_bind, returnLoop_append, hfirst, ok_bind, hloop,
      if_neg (by rw [hcached]; exact List.cons_ne_nil _ _), ok_bind]
    simp only [leaveIdle, if_neg (fun h => hloc (And.left h))]
    rw [ok_bind, if_neg href]
  obtain ⟨s₁₁, hr₁₁, hheap₁₁⟩ := hd₁₀.overflow (o := 191434752) (by decide)
    ((List.mem_erase_of_ne (by decide)).mpr
      ((List.mem_erase_of_ne (by decide)).mpr (hlive _ (by decide))))
    (by rw [hheap]; exact hs₈.found hini₈ (by decide)) (by rw [hheap]; exact hs₈.objsSize)
    (by rw [hheap]; exact hcached ▸ hsecond)
  refine ⟨s₁₁, ⟨h₀, hinit, (((hrun₈.mono fun _ _ _ => trivial).tail trivial step₉).tail trivial
    step₁₀).trans hr₁₁⟩, ?_, ?_⟩
  · rw [hheap₁₁, hh']
    exact hs₈.idle
  · rw [hheap₁₁, hh']
    simp [restored]

end SearchEngine.TcMalloc
