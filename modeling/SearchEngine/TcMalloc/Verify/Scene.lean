import SearchEngine.TcMalloc.Verify.Machine
import SearchEngine.TcMalloc.Verify.Memory

/-!
# Runs of one thread on the machine

The thread 0 calls `tc_thread_init` (`thread_ready`), and the calls that the runs below
are made of are followed one by one.
-/

namespace SearchEngine.TcMalloc

open LinkedRing Placement Outcome Reach

/-- A step that neither asks for a large block, nor fetches a span, nor flushes. -/
def Plain (s : Sys) : Event → Prop
  | (_, .malloc size) => size ≤ THRESHALLOC
  | (t, .run) => match s.pc t with
    | .refill .. | .flush .. => False
    | _ => True
  | _ => True

/-- A plain step that is not a call of `tc_malloc`. -/
def Booting (s : Sys) (e : Event) : Prop := Plain s e ∧ ∀ size, e.2 ≠ .malloc size

section Take

variable {h h' : Heap} {i j S S' p q c n : Nat}

theorem length_spanObjs (p i : Nat) : (spanObjs p i).length = capacity i := by
  rw [spanObjs, List.length_reverse, length_objsFrom]

/-- The heap after `n` objects are taken from the list of `S`, which had lost `c`. -/
def taken (h : Heap) (S p i c : Nat) : Heap :=
  { h with
    objs := Function.update h.objs S ((spanObjs p i).drop c)
    objRefcount := Function.update h.objRefcount S c }

/-- A fetch from the only span of a class, up to the test whether it is exhausted. -/
theorem Single.take (hs : Single h i S p c) (hn : 0 < n) (hc : c < capacity i) :
    ∃ batch, batch = ((spanObjs p i).drop c).take n ∧ takeObjs n i S h =
      if c + batch.length = capacity i then (do
        let h ← (taken h S p i (c + batch.length)).remove (.centralList i) S
        .ok (batch, (h.push (.centralIdle i) S).setLoc S .centralIdle))
      else .ok (batch, taken h S p i (c + batch.length)) := by
  have hcap := capacity_le i
  have hlen := length_spanObjs p i
  obtain ⟨k, hk⟩ : ∃ k, k = min n (capacity i - c) := ⟨_, rfl⟩
  have hbatch : ((spanObjs p i).drop c).take k = ((spanObjs p i).drop c).take n := by
    rw [List.take_eq_take_iff, List.length_drop, hlen]
    omega
  have hblen : (((spanObjs p i).drop c).take n).length = k := by
    rw [List.length_take, List.length_drop, hlen, hk]
  have hne : ((spanObjs p i).drop c).take n ≠ [] := List.ne_nil_of_length_pos (by omega)
  have hmod : (c + k) % 2 ^ 32 = c + k := Nat.mod_eq_of_lt (by omega)
  refine ⟨_, rfl, ?_⟩
  rw [hblen]
  simp only [takeObjs, hs.objRefcount, hs.objLen, hs.objs, if_pos hc.le, ← hk, hbatch, if_neg hne,
    hblen, hmod, List.drop_drop, Function.update_self, taken]

theorem Single.taken (hs : Single h i S p c) (n : Nat) : Single (taken h S p i n) i S p n :=
  ⟨hs.list, hs.next, hs.prev, Function.update_self .., hs.objLen, Function.update_self ..,
    hs.objsSize,
    hs.pageSize, hs.start, hs.loc, hs.mapped⟩

/-- A fetch that leaves objects. -/
theorem Single.take_some (hs : Single h i S p c) (hn : 0 < n) (hlt : c + n < capacity i) :
    takeObjs n i S h = .ok (((spanObjs p i).drop c).take n, TcMalloc.taken h S p i (c + n)) := by
  obtain ⟨batch, hb, hrun⟩ := hs.take hn (by omega)
  have hblen : batch.length = n := by
    rw [hb, List.length_take, List.length_drop, length_spanObjs]
    omega
  rw [hrun, hblen, if_neg (by omega), hb]

/-- The other classes do not notice. -/
theorem Single.other (hs : Single h j S' q c) (hne : S' ≠ S) (n : Nat) :
    Single (TcMalloc.taken h S p i n) j S' q c :=
  hs.congr rfl rfl rfl (by simp [TcMalloc.taken, hne]) rfl
  (by simp [TcMalloc.taken, hne]) rfl rfl rfl
    rfl fun _ _ => rfl

theorem bootSpan_lt {i : Nat} (hi : i < CLASSES) : bootSpan i < bootSpan CLASSES := by
  rw [bootSpan, bootSpan]
  omega

/-- Nor does the page heap. -/
theorem Pool.taken (hp : Pool h CLASSES) (hi : i < CLASSES) (n : Nat) :
    Pool (taken h (bootSpan i) p i n) CLASSES := by
  refine hp.congr rfl rfl rfl rfl rfl rfl rfl rfl rfl rfl rfl fun x hx hb => ?_
  have hxS : x ≠ bootSpan i := fun e => by
    have := bootSpan_lt hi
    rw [← e] at this
    exact absurd hx (Nat.not_le.mpr this)
  exact hb.congr (by simp [TcMalloc.taken, hxS]) rfl rfl rfl rfl
    (by simp [TcMalloc.taken, hxS]) rfl rfl

/-- The search of a class finds its only span while that has objects. -/
theorem Single.scan (hs : Single h i S p c) (hc : c < capacity i) :
    scanCentral i h = .ok (some S) := by
  have hne : (spanObjs p i).drop c ≠ [] := by
    refine List.ne_nil_of_length_pos ?_
    rw [List.length_drop, length_spanObjs]
    omega
  simp only [scanCentral, hs.list, LinkedRing.scan, hs.objs, decide_eq_true hne, if_true]

end Take

/-! ## `tc_thread_init` -/

/-- Thread 0 has run `i` rounds of `tc_thread_init`. -/
structure Initing (s : Sys) (i : Nat) : Prop where
  pool : Pool s.heap CLASSES
  idle : ∀ j, s.heap.idle j = none
  done : ∀ j, j < i → Single s.heap j (bootSpan j) (bootPage j) 1 ∧
    s.cache 0 j = ⟨(spanObjs (bootPage j) j).take 1, 1, 2⟩
  left : ∀ j, i ≤ j → j < CLASSES → Single s.heap j (bootSpan j) (bootPage j) 0
  pc : s.pc 0 = .initLoop i
  lock : s.centralLock = none
  live : s.live = []

theorem fetchAmount_init (i : Nat) : fetchAmount i initThreadlist = (1, ⟨[], 0, 2⟩) := by
  simp only [fetchAmount, initThreadlist, MAXFETCHSIZE]
  by_cases hi : i ≤ 22 <;> simp [hi]

/-- A round of `tc_thread_init`: three steps. -/
theorem Initing.round {s : Sys} {i : Nat} (hs : Initing s i) (hi : i < CLASSES) :
    ∃ s', Reaches (Step machine) Booting s s' ∧ Initing s' (i + 1) := by
  have hcap := capacity_pos hi
  have hsingle := hs.left i le_rfl hi
  -- the list of the class is initialised, one object is asked for
  obtain ⟨s₁, hs₁⟩ : ∃ s₁, s₁ = startFetch (s.setCache 0 i initThreadlist) 0 (.threadInit i) i :=
    ⟨_, rfl⟩
  have hpc₁ : s₁.pc 0 = .fetch (.threadInit i) i 1 := by
    rw [hs₁]
    simp [startFetch, Sys.setCache, fetchAmount_init, Sys.setPc]
  have hcache₁ : ∀ j, s₁.cache 0 j = if j = i then ⟨[], 0, 2⟩ else s.cache 0 j := fun j => by
    rw [hs₁]
    by_cases hj : j = i
    · subst hj
      simp [startFetch, Sys.setCache, fetchAmount_init, Sys.setPc]
    · simp [startFetch, Sys.setCache, fetchAmount_init, Sys.setPc, hj]
  have hheap₁ : s₁.heap = s.heap := by rw [hs₁]; rfl
  have hlock₁ : s₁.centralLock = none := by rw [hs₁]; exact hs.lock
  have hlive₁ : s₁.live = [] := by rw [hs₁]; exact hs.live
  have step₁ : Step machine s (0, .run) s₁ := by
    refine ⟨by simp only [Enabled, hs.pc], ?_⟩
    simp only [next, hs.pc, continueCall, if_pos hi, hs₁]
  -- the object is taken
  have htake := hsingle.take_some Nat.one_pos (by omega)
  obtain ⟨h₂, hh₂⟩ : ∃ h₂, h₂ = taken s.heap (bootSpan i) (bootPage i) i (0 + 1) := ⟨_, rfl⟩
  have hsingle₂ := hsingle.taken (0 + 1)
  rw [← hh₂] at htake hsingle₂
  obtain ⟨s₂, hs₂⟩ : ∃ s₂, s₂ = ({ s₁ with
      heap := h₂
      centralLock := none
      origin := fun obj => if obj ∈ ((spanObjs (bootPage i) i).drop 0).take 1 then bootSpan i else
      s₁.origin obj } :
        Sys).setPc 0 (.insert (.threadInit i) i (((spanObjs (bootPage i) i).drop 0).take 1)) :=
        ⟨_, rfl⟩
  have step₂ : Step machine s₁ (0, .run) s₂ := by
    refine ⟨by simp only [Enabled, hpc₁, hlock₁], ?_⟩
    simp only [next, hpc₁, continueCall, hheap₁, hsingle.scan (by omega)]
    rw [ok_bind]
    simp only [endFetch, hheap₁, htake]
    rw [ok_bind, hs₂]
  have hpc₂ : s₂.pc 0 = .insert (.threadInit i) i ((spanObjs (bootPage i) i).take 1) := by
    rw [hs₂]; simp [Sys.setPc]
  -- and put into the list
  obtain ⟨s₃, hs₃⟩ : ∃ s₃, s₃ = (s₂.setCache 0 i ⟨(spanObjs (bootPage i) i).take 1, 1, 2⟩).setPc 0
      (.initLoop (i + 1)) := ⟨_, rfl⟩
  have hcache₂ : s₂.cache = s₁.cache := by rw [hs₂]; rfl
  have step₃ : Step machine s₂ (0, .run) s₃ := by
    refine ⟨by simp only [Enabled, hpc₂], ?_⟩
    have hins : insertToThreadcache ((spanObjs (bootPage i) i).take 1) (s₂.cache 0 i) =
        ⟨(spanObjs (bootPage i) i).take 1, 1, 2⟩ := by
      have hlen := length_spanObjs (bootPage i) i
      rw [hcache₂, hcache₁, if_pos rfl]
      cases hl : spanObjs (bootPage i) i with
      | nil =>
        rw [hl] at hlen
        simp only [List.length_nil] at hlen
        omega
      | cons o rest => rfl
    simp only [next, hpc₂, continueCall, finishFetch, hins, hs₃]
  refine ⟨s₃, ((Reaches.single ?_ step₁).tail ?_ step₂).tail ?_ step₃, ?_⟩
  · exact ⟨by simp only [Plain, hs.pc], fun _ h => by cases h⟩
  · exact ⟨by simp only [Plain, hpc₁], fun _ h => by cases h⟩
  · exact ⟨by simp only [Plain, hpc₂], fun _ h => by cases h⟩
  have hheap₃ : s₃.heap = h₂ := by rw [hs₃, hs₂]; rfl
  refine ⟨?_, fun j => by rw [hheap₃, hh₂]; exact hs.idle j, fun j hj => ?_, fun j hj hjc => ?_,
    by rw [hs₃]; simp [Sys.setPc], by rw [hs₃, hs₂]; rfl,
    by rw [hs₃, hs₂]; exact hlive₁⟩
  · rw [hheap₃, hh₂]
    exact hs.pool.taken hi _
  · by_cases hji : j = i
    · subst hji
      refine ⟨by rw [hheap₃]; exact hsingle₂, ?_⟩
      rw [hs₃]
      simp [Sys.setPc, Sys.setCache]
    · obtain ⟨h1, h2⟩ := hs.done j (by omega)
      refine ⟨?_, ?_⟩
      · rw [hheap₃, hh₂]
        exact h1.other (fun e => hji (bootSpan_inj e)) _
      · rw [hs₃, ← h2]
        simp [Sys.setPc, Sys.setCache, hji, hcache₂, hcache₁]
  · rw [hheap₃, hh₂]
    exact (hs.left j (by omega) hjc).other (fun e => absurd (bootSpan_inj e) (by omega)) _

/-- Thread 0 has returned from `tc_thread_init`. -/
structure Ready (s : Sys) : Prop where
  pool : Pool s.heap CLASSES
  idle : ∀ j, s.heap.idle j = none
  classes : ∀ j, j < CLASSES → Single s.heap j (bootSpan j) (bootPage j) 1 ∧
    s.cache 0 j = ⟨(spanObjs (bootPage j) j).take 1, 1, 2⟩
  pc : s.pc 0 = .ready
  lock : s.centralLock = none
  live : s.live = []

theorem Initing.rounds : ∀ {n i : Nat} {s : Sys}, Initing s i → i + n = CLASSES →
    ∃ s', Reaches (Step machine) Booting s s' ∧ Initing s' CLASSES
  | 0, i, s, hs, hn => ⟨s, .refl, hn ▸ hs⟩
  | n + 1, i, s, hs, hn => by
    obtain ⟨s₁, hr₁, hs₁⟩ := hs.round (by omega)
    obtain ⟨s₂, hr₂, hs₂⟩ := Initing.rounds (n := n) hs₁ (by omega)
    exact ⟨s₂, hr₁.trans hr₂, hs₂⟩

/-- The machine runs to the end of the first `tc_thread_init`. -/
theorem machine_booted : ∃ s, Reachable machine Booting s ∧ Ready s := by
  obtain ⟨h₀, hrun, hb⟩ := tcCentralInit_machine
  obtain ⟨s₁, hs₁⟩ : ∃ s₁, s₁ = (Sys.initial h₀).setPc 0 (.initLoop 0) := ⟨_, rfl⟩
  have step₁ : Step machine (Sys.initial h₀) (0, .init) s₁ :=
    ⟨by simp only [Enabled, Sys.initial], by rw [hs₁]; rfl⟩
  have hinit : Initing s₁ 0 := by
    rw [hs₁]
    exact ⟨hb.pool, hb.idle, fun j hj => absurd hj (Nat.not_lt_zero j), fun j _ hj =>
      hb.classes j hj,
      setPc_pc .., rfl, rfl⟩
  obtain ⟨s₂, hr₂, hs₂⟩ := hinit.rounds (n := CLASSES) (Nat.zero_add _)
  have step₃ : Step machine s₂ (0, .run) (s₂.setPc 0 .ready) := by
    refine ⟨by simp only [Enabled, hs₂.pc], ?_⟩
    simp only [next, hs₂.pc, continueCall, if_neg (Nat.lt_irrefl _)]
  have hstart : Reaches (Step machine) Booting (Sys.initial h₀) s₁ :=
    .single (e := (0, .init)) ⟨trivial, fun _ h => by cases h⟩ step₁
  refine ⟨_, ⟨h₀, hrun, (hstart.trans hr₂).tail ⟨?_, fun _ h => by cases h⟩ step₃⟩,
    ⟨hs₂.pool, hs₂.idle, hs₂.done, setPc_pc .., hs₂.lock, hs₂.live⟩⟩
  simp only [Plain, hs₂.pc]

theorem machine_ready : ∃ s, Reachable machine Plain s ∧ Ready s := by
  obtain ⟨s, ⟨h₀, hinit, hrun⟩, hs⟩ := machine_booted
  exact ⟨s, ⟨h₀, hinit, hrun.mono fun _ _ h => h.1⟩, hs⟩

/-! ## Calls for large blocks -/

/-- Any step may be taken. -/
def Any (_ : Sys) (_ : Event) : Prop := True

section Large

variable {s : Sys} {n a S : Nat} {h' : Heap}

theorem malloc_large (hpc : s.pc 0 = .ready) (hsz : THRESHALLOC < n) (hlt : n < 2 ^ 64)
    (hrun : fetchSpan machine (bytesToPages n) s.heap = .ok (S, h')) :
    Step machine s (0, .malloc n) (returnBlock { s with heap := h' } 0 (h'.start S) n S) := by
  refine ⟨by simp only [Enabled, hpc]; exact hlt, ?_⟩
  simp only [next, tcMalloc, if_neg (Nat.not_le.mpr hsz), hrun]
  rw [ok_bind]

/-- Thread 0 has been given the span `S` for a request of `n` bytes, with the heap `h` then. -/
structure Given (s s' : Sys) (h : Heap) (S n : Nat) : Prop where
  heap : s'.heap = h
  pc : s'.pc 0 = .ready
  live : s'.live = ⟨h.start S, n, S⟩ :: s.live
  cache : s'.cache = s.cache
  lock : s'.centralLock = s.centralLock

theorem malloc_given (hpc : s.pc 0 = .ready) (hsz : THRESHALLOC < n) (hlt : n < 2 ^ 64)
    (hrun : fetchSpan machine (bytesToPages n) s.heap = .ok (S, h')) :
    ∃ s', Step machine s (0, .malloc n) s' ∧ Given s s' h' S n :=
  ⟨_, malloc_large hpc hsz hlt hrun, rfl, setPc_pc .., rfl, rfl, rfl⟩

/-- Two steps: `tc_free` finds the span, and returns it. -/
theorem free_large (hpc : s.pc 0 = .ready) (hlive : ∃ b ∈ s.live, b.ptr = a)
    (hmap : mapAddrToSpan a s.heap = .ok (some S)) (hsize : s.heap.objsSize S = 0)
    (hrun : returnSpanToPgcache S s.heap = .ok h') :
    ∃ s', Reaches (Step machine) Any s s' ∧ s'.heap = h' ∧ s'.pc 0 = .ready ∧
      s'.live = s.live.eraseP (fun b => b.ptr = a) ∧ s'.cache = s.cache ∧
      s'.centralLock = s.centralLock := by
  obtain ⟨s₁, hs₁⟩ : ∃ s₁, s₁ = { s with live := s.live.eraseP (fun b => b.ptr = a) }.setPc 0
      (.freeLarge S) := ⟨_, rfl⟩
  have hpc₁ : s₁.pc 0 = .freeLarge S := by rw [hs₁, setPc_pc]
  have hheap₁ : s₁.heap = s.heap := by rw [hs₁]; rfl
  have step₁ : Step machine s (0, .free a) s₁ := by
    refine ⟨by simp only [Enabled, hpc]; exact hlive, ?_⟩
    simp only [next, tcFree, hmap]
    rw [ok_bind]
    simp only [hsize, if_neg (show ¬ (0 < 0 ∧ 0 ≤ THRESHALLOC) from fun h => Nat.lt_irrefl 0 h.1),
      hs₁]
  have step₂ : Step machine s₁ (0, .run) ({ s₁ with heap := h' }.setPc 0 .ready) := by
    refine ⟨by simp only [Enabled, hpc₁], ?_⟩
    simp only [next, hpc₁, continueCall, hheap₁, hrun]
    rw [ok_bind]
  exact ⟨_, (Reaches.single trivial step₁).tail trivial step₂, rfl, setPc_pc .., by rw [hs₁]; rfl,
    by rw [hs₁]; rfl, by rw [hs₁]; rfl⟩

/-- The page of an address of the machine. -/
theorem mapAddr_machine {h : Heap} {k : Nat} (hini : h.iniBrkAddr = 4096) (ha : a = 4096 + k * 4096)
    (hk : k < PAGEMAPSIZE) : mapAddrToSpan a h = .ok (h.pageMapping k) := by
  have hidx : addrToIndex a 4096 = k :=
    addrToIndex_eq machine (by rw [ha]; exact le_rfl) (by rw [ha]; simp only [machine]; omega)
      (hk.trans (by decide))
  simp only [mapAddrToSpan, hini, hidx, if_pos hk]

end Large

/-- `tc_malloc(32769)` cuts 8 pages, and does not tag them. -/
theorem Ready.undersized {s : Sys} (hs : Ready s) :
    ∃ s' S, Step machine s (0, .malloc 32769) s' ∧ s'.live = [⟨s'.heap.start S, 32769, S⟩] ∧
      s'.heap.pageSize S = 8 ∧ s'.heap.loc S = .pageheap := by
  obtain ⟨h', hrun, hcut, -⟩ := fetchSpan_cut (e := machine) (k := 8) hs.pool.one (by decide)
    (by decide) (by decide) (fetchSpanDepth machine 1 8)
  refine ⟨_, _, malloc_large hs.pc (by decide) (by decide) hrun, ?_, hcut.sizeS, ?_⟩
  · rw [← hs.live]
    rfl
  · exact (hcut.locS.trans (if_neg (by decide))).trans (hs.pool.one.blank _ le_rfl).loc

/-! ## Calls for the last class -/

section Small

variable {s : Sys} {o n ml : Nat} {rest : List Nat}

theorem sizeClass_last : sizeClass 32768 = .ok 158 := sizeClass_indexToSize (i := 158) (by decide)

/-- `tc_malloc(32768)` takes an object from the cache. -/
theorem malloc_pop (hpc : s.pc 0 = .ready) (hcache : s.cache 0 158 = ⟨o :: rest, n + 1, ml⟩) :
    Step machine s (0, .malloc 32768)
      (returnBlock (s.setCache 0 158 ⟨rest, n, ml⟩) 0 o 32768 (s.origin o)) := by
  refine ⟨by simp only [Enabled, hpc]; decide, ?_⟩
  simp only [next, tcMalloc, if_pos (le_refl 32768), allocate, sizeClass_last]
  rw [ok_bind]
  simp only [hcache, freelistPop]
  rw [ok_bind]
  rfl

end Small

/-- A run of the machine to a state with a live block, all of whose steps are plain. -/
theorem machine_block : ∃ s, Reachable machine Plain s ∧ s.live ≠ [] ∧
    s.heap.obtained < 2 ^ 32 := by
  obtain ⟨s₀, ⟨h₀, hinit, hrun₀⟩, hs₀⟩ := machine_ready
  have hcache : s₀.cache 0 158 = ⟨[191467520], 0 + 1, 2⟩ := (hs₀.classes 158 (by decide)).2
  have step := malloc_pop hs₀.pc hcache
  have hplain : Plain s₀ (0, .malloc 32768) := show 32768 ≤ THRESHALLOC from le_rfl
  refine ⟨_, ⟨h₀, hinit, hrun₀.tail hplain step⟩, List.cons_ne_nil _ _, ?_⟩
  have hreg : s₀.heap.obtained < 2 ^ 32 := by
    rw [Heap.obtained, hs₀.pool.regions]
    decide
  exact hreg

/-! ## Plain steps meet every condition -/

section Plain

variable {s : Sys} {e : Event}

theorem Plain.fetchMet (h : Plain s e) : FetchMet s e := by
  obtain ⟨t, a⟩ := e
  cases a with
  | malloc size => exact fun hlt => absurd hlt (Nat.not_lt.mpr h)
  | run =>
    simp only [Plain] at h
    simp only [FetchMet]
    cases hpc : s.pc t with
    | refill => rw [hpc] at h; exact h.elim
    | _ => trivial
  | _ => trivial

theorem Plain.flushFree (h : Plain s e) : TagMet s e ∧ ListMet s e ∧ LenMet s e := by
  obtain ⟨t, a⟩ := e
  cases a with
  | malloc size => exact ⟨fun hlt => absurd hlt (Nat.not_lt.mpr h), trivial, trivial⟩
  | run =>
    simp only [Plain] at h
    simp only [TagMet, ListMet, LenMet]
    cases hpc : s.pc t with
    | flush => rw [hpc] at h; exact h.elim
    | _ => exact ⟨trivial, trivial, trivial⟩
  | _ => exact ⟨trivial, trivial, trivial⟩

theorem Plain.wrapFree (h : Plain s e) : WrapFree s e := by
  obtain ⟨t, a⟩ := e
  cases a with
  | malloc size => exact fun hlt => absurd hlt (Nat.not_lt.mpr h)
  | _ => trivial

theorem Plain.requestFits (h : Plain s e) : RequestFits s e := by
  obtain ⟨t, a⟩ := e
  cases a with
  | malloc size => exact lt_of_le_of_lt h (by decide)
  | _ => trivial

end Plain

/-- Thread 0 takes a block off its list, and gives it back. -/
theorem machine_freed : ∃ s s₁ s₂, Reachable machine FetchMet s ∧ Ready s ∧
    Step machine s (0, .malloc 32768) s₁ ∧ s₁.pc 0 = .ready ∧
    s₁.live = [⟨191467520, 32768, s.origin 191467520⟩] ∧
    Step machine s₁ (0, .free 191467520) s₂ := by
  obtain ⟨s, ⟨h₀, hinit, hrun⟩, hs⟩ := machine_ready
  have hreach : Reaches (Step machine) FetchMet (Sys.initial h₀) s :=
    hrun.mono fun _ _ h => h.fetchMet
  have hmalloc := malloc_pop hs.pc (hs.classes 158 (by decide)).2
  obtain ⟨s₁, hs₁⟩ : ∃ s₁, s₁ = returnBlock (s.setCache 0 158 ⟨[], 0, 2⟩) 0 191467520 32768
    (s.origin 191467520) := ⟨_, rfl⟩
  have hstep : Step machine s (0, .malloc 32768) s₁ := by
    rw [hs₁]
    exact hmalloc
  have hpc : s₁.pc 0 = .ready := by rw [hs₁, returnBlock, setPc_pc]
  have hlive : s₁.live = [⟨191467520, 32768, s.origin 191467520⟩] := by
    rw [hs₁, ← hs.live]
    rfl
  have hmet : FetchMet s (0, .malloc 32768) := fun h => absurd h (by decide)
  have hr : Reachable machine FetchMet s₁ := ⟨h₀, hinit, hreach.tail hmet hstep⟩
  obtain ⟨s₂, hfree⟩ := hr.frees machine_succeeds hpc
    ⟨_, by rw [hlive]; exact List.mem_cons_self, rfl⟩
  exact ⟨s, s₁, s₂, ⟨h₀, hinit, hreach⟩, hs, hstep, hpc, hlive, hfree⟩

/-! ## A request of `2 ^ 32` pages -/

/-- The memory that the record of `x` describes is as before. -/
structure Intact (h h' : Heap) (x : SpanPtr) : Prop where
  start : h'.start x = h.start x
  pageId : h'.pageId x = h.pageId x
  pageSize : h'.pageSize x = h.pageSize x
  objsSize : h'.objsSize x = h.objsSize x
  objs : h'.objs x = h.objs x

theorem Intact.trans {h h' h'' : Heap} {x : SpanPtr} (h1 : Intact h h' x)
    (h2 : Intact h' h'' x) : Intact h h'' x :=
  ⟨h2.start.trans h1.start, h2.pageId.trans h1.pageId, h2.pageSize.trans h1.pageSize,
    h2.objsSize.trans h1.objsSize, h2.objs.trans h1.objs⟩

theorem Cut.intact {h h' : Heap} {R S k x : Nat} (hc : Cut h h' R S k) (hR : x ≠ R) (hS : x ≠ S) :
    Intact h h' x :=
  ⟨hc.start x hS, hc.pageId x hS, hc.pageSize x hR hS, by rw [hc.objsSize], by rw [hc.objs]⟩

/-- What the call `tc_malloc(2 ^ 44)` returns when the only free span has 9 pages and lies
just below the span `X`: no pages, at the start of `X`. -/
structure Wrapped (s s' : Sys) (X : SpanPtr) (k : Nat) : Prop where
  pc : s'.pc 0 = .ready
  lock : s'.centralLock = s.centralLock
  cache : s'.cache = s.cache
  live : ∃ B S, s'.live = ⟨4096 + k * 4096, 2 ^ 44, S⟩ :: B :: s.live ∧ S ≠ X
  found : mapAddrToSpan (4096 + k * 4096) s'.heap = .ok (some X)
  same : Intact s.heap s'.heap X
  regions : s'.heap.regions = s.heap.regions
  empty : ∀ b, b ≠ 8 → s'.heap.pgList b = none

/-- The free span `A` in front of the page `k` has 9 pages and is the only one; a block was
allocated since `s`, and the page `k` and the span `X` are as they were. -/
structure NineFree (s s' : Sys) (A X : SpanPtr) (m k : Nat) : Prop where
  pc : s'.pc 0 = .ready
  lock : s'.centralLock = s.centralLock
  cache : s'.cache = s.cache
  live : ∃ B, s'.live = B :: s.live
  one : OneSpan s'.heap A 9 m
  start : s'.heap.start A = 4096 + (k - 9) * 4096
  behind : s'.heap.pageMapping k = s.heap.pageMapping k
  brk : s'.heap.iniBrkAddr = s.heap.iniBrkAddr
  regions : s'.heap.regions = s.heap.regions
  old : X < A
  same : Intact s.heap s'.heap X
  empty : ∀ b, b ≠ 8 → s'.heap.pgList b = none

/-- The page heap without its only span. -/
theorem OneSpan.emptied {h : Heap} {R n m : Nat} (ho : OneSpan h R n m) (st : Prop) :
    NoSpan { h with pgList := fun _ => none, stray := st } m := by
  refine ⟨⟨ho.records, fun x hx => ?_⟩, rfl⟩
  exact (ho.blank x hx).congr rfl rfl rfl rfl rfl rfl rfl rfl

/-- The only free span `R`, in front of the page `k`, was taken apart since `s`: its last 9 pages
are the block `A`, and the others are a block. -/
structure NineHeld (s s' : Sys) (R A X : SpanPtr) (m k : Nat) : Prop where
  pc : s'.pc 0 = .ready
  lock : s'.centralLock = s.centralLock
  cache : s'.cache = s.cache
  live : s'.live = ⟨4096 + s.heap.pageId R * 4096, 2 ^ 20, R⟩ ::
    ⟨4096 + (k - 9) * 4096, 40000, A⟩ :: s.live
  rest : NoSpan s'.heap m
  none : s'.heap.pgList = fun _ => none
  start : s'.heap.start A = 4096 + (k - 9) * 4096
  pageId : s'.heap.pageId A = k - 9
  pageSize : s'.heap.pageSize A = 9
  objsSize : s'.heap.objsSize A = 0
  mapped : s'.heap.pageMapping = mapRange s.heap.pageMapping (k - 9) 9 A
  brk : s'.heap.iniBrkAddr = s.heap.iniBrkAddr
  regions : s'.heap.regions = s.heap.regions
  old : X < A
  taken : A < s'.heap.chunk + s'.heap.currInd * 64
  same : Intact s.heap s'.heap X

/-- The calls `A = tc_malloc(40000)` and `tc_malloc(2 ^ 20)`. -/
theorem nine_held {s : Sys} {R n m k X : Nat} (hpc : s.pc 0 = .ready)
    (ho : OneSpan s.heap R n (m + 1)) (hn : 512 ≤ n) (hlt : n < 2 ^ 20)
    (hst : s.heap.start R = 4096 + s.heap.pageId R * 4096) (hk : k = s.heap.pageId R + n)
    (hkm : k < PAGEMAPSIZE) (hXR : X ≠ R) (hold : X < s.heap.chunk + s.heap.currInd * 64) :
    ∃ s' A, Reaches (Step machine) Any s s' ∧ NineHeld s s' R A X m k := by
  have hkl : k < 2 ^ 24 := hkm.trans (by decide)
  -- A is cut off the free span
  obtain ⟨A, hA⟩ : ∃ A, A = s.heap.chunk + s.heap.currInd * 64 := ⟨_, rfl⟩
  obtain ⟨h₁, hrun₁, hcut, ho₁⟩ := fetchSpan_cut (e := machine) (k := 9) ho (by decide) (by decide)
    (by omega) (fetchSpanDepth machine 1 9)
  rw [← hA] at hrun₁ hcut hold
  have hXA : X ≠ A := Nat.ne_of_lt hold
  have hRA : R ≠ A := Nat.ne_of_lt (hA ▸ ho.old)
  have hidA : h₁.pageId A = k - 9 := by
    rw [hcut.idS, ho.pages]
    omega
  have hstA : h₁.start A = 4096 + (k - 9) * 4096 := by
    rw [hcut.startS, ho.pages, hst, pagesToBytes32]
    omega
  obtain ⟨s₁, step₁, hs₁⟩ := malloc_given (n := 40000) hpc (by decide) (by decide) hrun₁
  -- B takes the rest
  obtain ⟨st, hrun₂⟩ := fetchSpan_whole (e := machine) (k := 256) ho₁
    (by rw [bucket_of_le (show 256 ≤ n - 9 by omega)]; rfl) (fetchSpanDepth machine 1 256)
  have hfetch₂ : fetchSpan machine (bytesToPages (2 ^ 20)) s₁.heap =
      .ok (R, { h₁ with pgList := fun _ => none, stray := st }) := by
    rw [hs₁.heap]
    exact hrun₂
  obtain ⟨s₂, step₂, hs₂⟩ := malloc_given hs₁.pc (by decide) (by decide) hfetch₂
  refine ⟨s₂, A, (Reaches.single trivial step₁).tail trivial step₂, ?_⟩
  constructor
  case pc => exact hs₂.pc
  case lock => exact hs₂.lock.trans hs₁.lock
  case cache => exact hs₂.cache.trans hs₁.cache
  case live =>
    have hstR : h₁.start R = 4096 + s.heap.pageId R * 4096 := (hcut.start R hRA).trans hst
    rw [hs₂.live, hs₁.live, hstR, hstA]
  case old => exact hold
  all_goals rw [hs₂.heap]
  case rest => exact ho₁.emptied st
  case start => exact hstA
  case pageId => exact hidA
  case pageSize => exact hcut.sizeS
  case objsSize => exact (congrFun hcut.objsSize A).trans (ho.blank A (by omega)).objsSize
  case mapped => rw [← hidA]; exact hcut.pageMapping
  case brk => exact hcut.iniBrkAddr
  case regions => exact hcut.regions
  case taken =>
    show A < h₁.chunk + h₁.currInd * 64
    rw [hcut.chunk, hcut.currInd]
    omega
  case same => exact (hcut.intact hXR hXA).trans ⟨rfl, rfl, rfl, rfl, rfl⟩

/-- The call `tc_free(A)` after them. -/
theorem NineHeld.freed {s s' : Sys} {R A X m k : Nat} (hs : NineHeld s s' R A X m k)
    (hini : s.heap.iniBrkAddr = 4096) (hlow : s.heap.pageId R + 9 < k) (hkm : k < PAGEMAPSIZE) :
    ∃ s'', Reaches (Step machine) Any s' s'' ∧ NineFree s s'' A X m k := by
  have hkl : k < 2 ^ 24 := hkm.trans (by decide)
  have hXA : X ≠ A := Nat.ne_of_lt hs.old
  have hend : s'.heap.pageId A + 9 ≤ PAGEMAPSIZE := by
    rw [hs.pageId]
    omega
  have hret := returnSpan_eq (h := s'.heap) (R := A) (n := 9) (by rw [hs.none]) hs.pageSize
    (by decide) hend
  have hfound : mapAddrToSpan (4096 + (k - 9) * 4096) s'.heap = .ok (some A) := by
    rw [mapAddr_machine (hs.brk.trans hini) rfl (by omega), hs.mapped,
      mapRange_of_mem (by omega) (by omega)]
  obtain ⟨s'', hrun, hheap, hpc, hlive, hcache, hlock⟩ :=
    free_large (s := s') (a := 4096 + (k - 9) * 4096) hs.pc
    ⟨⟨4096 + (k - 9) * 4096, 40000, A⟩, by rw [hs.live]; simp, rfl⟩ hfound hs.objsSize hret
  refine ⟨s'', hrun, ?_⟩
  constructor
  case pc => exact hpc
  case lock => exact hlock.trans hs.lock
  case cache => exact hcache.trans hs.cache
  case live =>
    have hne : 4096 + s.heap.pageId R * 4096 ≠ 4096 + (k - 9) * 4096 := by omega
    refine ⟨⟨4096 + s.heap.pageId R * 4096, 2 ^ 20, R⟩, ?_⟩
    rw [hlive, hs.live, List.eraseP_cons_of_neg (by simpa using hne),
      List.eraseP_cons_of_pos (by simp)]
  case old => exact hs.old
  all_goals rw [hheap]
  case one => exact hs.rest.returned (R := A) (n := 9) hs.taken hs.pageSize hend
  case start => exact hs.start
  case behind =>
    have e : (TcMalloc.returned s'.heap A 9).pageMapping = mapRange s'.heap.pageMapping
      (s'.heap.pageId A) 9 A := rfl
    rw [e, hs.pageId, mapRange_of_not_mem (.inr (by omega)), hs.mapped,
      mapRange_of_not_mem (.inr (by omega))]
  case brk => exact hs.brk
  case regions => exact hs.regions
  case same =>
    exact hs.same.trans
      ⟨rfl, rfl, rfl, by simp [TcMalloc.returned, hXA], by simp [TcMalloc.returned, hXA]⟩
  case empty =>
    intro b hb
    simp only [TcMalloc.returned, hs.none, Function.update_of_ne (show b ≠ bucket 9 from hb)]

/-- The calls `A = tc_malloc(40000)`, `tc_malloc(2 ^ 20)`, `tc_free(A)`, `tc_malloc(2 ^ 44)`. -/
theorem malloc_wrapped {s : Sys} {R n m k X : Nat} (hpc : s.pc 0 = .ready)
    (ho : OneSpan s.heap R n (m + 2)) (hn : 512 ≤ n) (hlt : n < 2 ^ 20)
    (hini : s.heap.iniBrkAddr = 4096) (hst : s.heap.start R = 4096 + s.heap.pageId R * 4096)
    (hk : k = s.heap.pageId R + n) (hkm : k < PAGEMAPSIZE) (hX : s.heap.pageMapping k = some X)
    (hXR : X ≠ R) (hold : X < s.heap.chunk + s.heap.currInd * 64) :
    ∃ s', Reaches (Step machine) Any s s' ∧ Wrapped s s' X k := by
  obtain ⟨s₀, A, hrun₀, hheld⟩ := nine_held hpc ho hn hlt hst hk hkm hXR hold
  obtain ⟨s₁, hrun₁, hs⟩ := hheld.freed hini (by omega) hkm
  -- the request of no pages
  obtain ⟨S, hS⟩ : ∃ S, S = s₁.heap.chunk + s₁.heap.currInd * 64 := ⟨_, rfl⟩
  obtain ⟨h₂, hrun₂, hstS, hmap₂, hini₂, hobjs₂, hsize₂, hsame₂, hreg₂, hpg₂⟩ :=
    fetchSpan_wrapped (e := machine) hs.one (by decide) (by decide)
    (fetchSpanDepth machine 1 (2 ^ 32))
  rw [← hS] at hrun₂ hstS hsame₂
  have hXS : X < S := hs.old.trans (hS ▸ hs.one.old)
  have hstS' : h₂.start S = 4096 + k * 4096 := by
    rw [hstS, hs.start, pagesToBytes32]
    omega
  have hfetch₂ : fetchSpan machine (bytesToPages (2 ^ 44)) s₁.heap = .ok (S, h₂) := hrun₂
  obtain ⟨s₂, step₂, hs₂⟩ := malloc_given hs.pc (by decide) (by decide) hfetch₂
  refine ⟨s₂, (hrun₀.trans hrun₁).tail trivial step₂, ?_⟩
  constructor
  case pc => exact hs₂.pc
  case lock => exact hs₂.lock.trans hs.lock
  case cache => exact hs₂.cache.trans hs.cache
  case live =>
    obtain ⟨B, hB⟩ := hs.live
    refine ⟨B, S, ?_, (Nat.ne_of_lt hXS).symm⟩
    rw [hs₂.live, hB, hstS']
  all_goals rw [hs₂.heap]
  case found =>
    -- the page behind the span A
    rw [mapAddr_machine (hini₂.trans (hs.brk.trans hini)) rfl hkm, hmap₂, hs.behind, hX]
  case same =>
    obtain ⟨e1, e2, e3⟩ := hsame₂ X hXS (Nat.ne_of_lt hs.old)
    exact hs.same.trans ⟨e3, e2, e1, by rw [hsize₂], by rw [hobjs₂]⟩
  case regions => rw [hreg₂, hs.regions]
  case empty =>
    intro b hb
    rw [hpg₂]
    exact hs.empty b hb

/-- From the end of `tc_thread_init`, the calls of `malloc_wrapped` return a block at the
start of the span of the last class. -/
theorem Ready.wrapped {s : Sys} (hs : Ready s) :
    ∃ s', Reaches (Step machine) Any s s' ∧ Wrapped s s' (bootSpan 158) 46624 := by
  have hmapped := (hs.classes 158 (by decide)).1.mapped 0 (by decide)
  have hold : bootSpan 158 < s.heap.chunk + s.heap.currInd * 64 := by
    rw [hs.pool.chunk, hs.pool.currInd]
    decide
  exact malloc_wrapped hs.pc hs.pool.one (by decide) (by decide) hs.pool.ini
    (by rw [hs.pool.start, hs.pool.pageId]) (by rw [hs.pool.pageId]; rfl) (by decide) hmapped
    (by decide) hold

end SearchEngine.TcMalloc
