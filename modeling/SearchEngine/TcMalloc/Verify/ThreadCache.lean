import SearchEngine.TcMalloc.Verify.Locking
import SearchEngine.TcMalloc.Verify.Partition

/-!
# The thread caches

`CacheStep` says what a step does to the lists of its thread. The lists keep their
lengths and limits in every run (`caches_ok`), and with sizes up to `THRESHALLOC` a step
of `allocate` returns an object that is large enough, brings the call nearer to its
return, or runs over the end of the page map (`allocate_returns`). It can come to that:
`pageMap_overrun` follows a thread that never frees.
-/

namespace SearchEngine.TcMalloc

open Outcome Reach

/-! ## What a step does to the lists of its thread -/

/-- The class that a thread is fetching objects for, and how many it gets at most. -/
def pending : Pc → Option (Nat × Nat)
  | .fetch _ index num => some (index, num)
  | .refill _ index num => some (index, num)
  | .carve _ index num _ => some (index, num)
  | .insert _ index batch => some (index, batch.length)
  | _ => none

/-- What a step does to the lists `c` of its thread; `p` is what the thread is fetching. -/
inductive CacheStep : Option (Nat × Nat) → Option (Nat × Nat) →
    (Nat → ThreadList) → (Nat → ThreadList) → Prop
  | rest {p : Option (Nat × Nat)} {c : Nat → ThreadList} (hp : p = none) : CacheStep p none c c
  /-- `fetch_from_centralcache(i)` begins, with a list that is empty or new -/
  | start {c : Nat → ThreadList} {i : Nat} {l : ThreadList}
      (hl : (l = c i ∧ l.objs = []) ∨ l = initThreadlist) :
      CacheStep none (some (i, (fetchAmount i l).1)) c (Function.update c i (fetchAmount i l).2)
  /-- it goes on, and may get fewer objects than it asked for -/
  | wait {c : Nat → ThreadList} {i n m : Nat} (hm : m ≤ n) :
      CacheStep (some (i, n)) (some (i, m)) c c
  | insert {c : Nat → ThreadList} {i : Nat} (batch : List Nat) :
      CacheStep (some (i, batch.length)) none c
        (Function.update c i (insertToThreadcache batch (c i)))
  | insertPop {c : Nat → ThreadList} {i o : Nat} {l : ThreadList} (batch : List Nat)
      (hpop : freelistPop (insertToThreadcache batch (c i)) = .ok (o, l)) :
      CacheStep (some (i, batch.length)) none c (Function.update c i l)
  | pop {c : Nat → ThreadList} {i o : Nat} {l : ThreadList}
      (hpop : freelistPop (c i) = .ok (o, l)) : CacheStep none none c (Function.update c i l)
  | push {c : Nat → ThreadList} {i : Nat} (o : Nat) (hlen : (c i).objlen ≠ (c i).maxLength) :
      CacheStep none none c (Function.update c i
        { c i with objs := o :: (c i).objs, objlen := (c i).objlen + 1 })
  | flush {c : Nat → ThreadList} {i : Nat} :
      CacheStep none none c (Function.update c i { c i with objs := [], objlen := 0 })

section CacheStep

variable {env : Env} {s s' s₁ : Sys} {t : Tid}

theorem setCache_eq (s : Sys) (t : Tid) (i : Nat) (l : ThreadList) :
    (s.setCache t i l).cache t = Function.update (s.cache t) i l := by
  simp [Sys.setCache]

theorem allocate_cacheStep {nbytes : Nat} (hpc : s.pc t = .ready)
    (h : allocate s t nbytes = .ok s') :
    CacheStep (pending (s.pc t)) (pending (s'.pc t)) (s.cache t) (s'.cache t) := by
  obtain ⟨i, -, h⟩ := bind_eq_ok h
  rw [hpc]
  split at h
  · next hobjs =>
    obtain rfl := Except.ok.inj h
    unfold startFetch
    rw [setPc_pc, setPc_cache, setCache_eq]
    exact .start (.inl ⟨rfl, hobjs⟩)
  · obtain ⟨⟨o, l⟩, hpop, h⟩ := bind_eq_ok h
    obtain rfl := Except.ok.inj h
    unfold returnBlock
    rw [setPc_pc, setPc_cache]
    show CacheStep none none _ ((s.setCache t i l).cache t)
    rw [setCache_eq]
    exact .pop hpop

theorem tcMalloc_cacheStep {size : Nat} (hpc : s.pc t = .ready)
    (h : tcMalloc env s t size = .ok s') :
    CacheStep (pending (s.pc t)) (pending (s'.pc t)) (s.cache t) (s'.cache t) := by
  unfold tcMalloc at h
  split at h
  · exact allocate_cacheStep hpc h
  · obtain ⟨⟨span, heap⟩, -, h⟩ := bind_eq_ok h
    obtain rfl := Except.ok.inj h
    rw [hpc]
    unfold returnBlock
    rw [setPc_pc, setPc_cache]
    exact .rest rfl

theorem tcFree_cacheStep {ptr : Nat} (hpc : s.pc t = .ready) (h : tcFree s t ptr = .ok s') :
    CacheStep (pending (s.pc t)) (pending (s'.pc t)) (s.cache t) (s'.cache t) := by
  obtain ⟨o, -, h⟩ := bind_eq_ok h
  cases o with
  | none => cases h
  | some span =>
    simp only at h
    split at h
    · obtain ⟨i, -, h⟩ := bind_eq_ok h
      simp only at h
      split at h
      · obtain rfl := Except.ok.inj h
        rw [hpc, setPc_pc, setPc_cache, setCache_eq]
        exact .flush
      · next hlen =>
        obtain rfl := Except.ok.inj h
        show CacheStep (pending (s.pc t)) (pending (s.pc t)) _ _
        rw [hpc, setCache_eq]
        exact .push ptr hlen
    · obtain rfl := Except.ok.inj h
      rw [hpc, setPc_pc, setPc_cache]
      exact .rest rfl

theorem takeObjs_length {num index : Nat} {span : SpanPtr} {h h' : Heap} {batch : List Nat}
    (hrun : takeObjs num index span h = .ok (batch, h')) : batch.length ≤ num := by
  have htake : ∀ l : List Nat, ∀ n, (l.take (min num n)).length ≤ num := by
    intro l n
    rw [List.length_take]
    omega
  unfold takeObjs at hrun
  obtain ⟨avail, havail⟩ : ∃ avail, avail =
      if h.objRefcount span ≤ h.objLen span then h.objLen span - h.objRefcount span
      else h.objLen span + 2 ^ 64 - h.objRefcount span := ⟨_, rfl⟩
  simp only [← havail] at hrun
  split at hrun
  · cases hrun
  · split at hrun
    · obtain ⟨h₁, -, hrun⟩ := bind_eq_ok hrun
      obtain ⟨rfl, -⟩ := Prod.mk.inj (Except.ok.inj hrun)
      exact htake _ _
    · obtain ⟨rfl, -⟩ := Prod.mk.inj (Except.ok.inj hrun)
      exact htake _ _

theorem endFetch_cacheStep {k : Caller} {index num : Nat} {span : SpanPtr}
    (hp : pending (s.pc t) = some (index, num)) (h : endFetch s₁ t k index num span = .ok s')
    (hcache : s₁.cache = s.cache) :
    CacheStep (pending (s.pc t)) (pending (s'.pc t)) (s.cache t) (s'.cache t) := by
  obtain ⟨⟨batch, heap⟩, hrun, h⟩ := bind_eq_ok h
  obtain rfl := Except.ok.inj h
  rw [hp, setPc_pc, setPc_cache]
  show CacheStep _ _ (s.cache t) (s₁.cache t)
  rw [hcache]
  exact .wait (takeObjs_length hrun)

theorem continueCall_cacheStep (h : continueCall env s t (s.pc t) = .ok s')
    (hpc : s.pc t ≠ .start ∧ s.pc t ≠ .ready) :
    CacheStep (pending (s.pc t)) (pending (s'.pc t)) (s.cache t) (s'.cache t) := by
  cases hs : s.pc t with
  | start => exact absurd hs hpc.1
  | ready => exact absurd hs hpc.2
  | initLoop i =>
    rw [hs] at h
    simp only [continueCall] at h
    split at h
    · obtain rfl := Except.ok.inj h
      unfold startFetch
      rw [setPc_pc, setPc_cache, setCache_setCache, setCache_eq, setCache_eq,
        Function.update_self]
      exact .start (.inr rfl)
    · obtain rfl := Except.ok.inj h
      rw [setPc_pc, setPc_cache]
      exact .rest rfl
  | fetch k index num =>
    have hp : pending (s.pc t) = some (index, num) := by rw [hs]; rfl
    rw [hs] at h
    obtain ⟨o, -, h⟩ := bind_eq_ok h
    cases o with
    | some span =>
      have hstep := endFetch_cacheStep hp h rfl
      rw [hs] at hstep
      exact hstep
    | none =>
      obtain rfl := Except.ok.inj h
      rw [setPc_pc, setPc_cache]
      exact .wait le_rfl
  | refill k index num =>
    rw [hs] at h
    obtain ⟨⟨span, heap⟩, -, h⟩ := bind_eq_ok h
    obtain rfl := Except.ok.inj h
    rw [setPc_pc, setPc_cache]
    exact .wait le_rfl
  | carve k index num span =>
    have hp : pending (s.pc t) = some (index, num) := by rw [hs]; rfl
    rw [hs] at h
    simp only [continueCall] at h
    have hstep := endFetch_cacheStep hp h rfl
    rw [hs] at hstep
    exact hstep
  | insert k index batch =>
    rw [hs] at h
    simp only [continueCall, finishFetch] at h
    cases k with
    | threadInit i =>
      obtain rfl := Except.ok.inj h
      rw [setPc_pc, setPc_cache, setCache_eq]
      exact .insert batch
    | allocate nbytes =>
      obtain ⟨⟨o, l⟩, hpop, h⟩ := bind_eq_ok h
      obtain rfl := Except.ok.inj h
      unfold returnBlock
      rw [setPc_pc, setPc_cache]
      show CacheStep _ none _ ((s.setCache t index l).cache t)
      rw [setCache_eq]
      exact .insertPop batch hpop
  | flush batch nbytes =>
    rw [hs] at h
    obtain ⟨⟨o, heap⟩, -, h⟩ := bind_eq_ok h
    cases o with
    | none =>
      obtain rfl := Except.ok.inj h
      rw [setPc_pc, setPc_cache]
      exact .rest rfl
    | some span =>
      obtain rfl := Except.ok.inj h
      rw [setPc_pc, setPc_cache]
      exact .rest rfl
  | recycle span =>
    rw [hs] at h
    obtain ⟨heap, -, h⟩ := bind_eq_ok h
    obtain rfl := Except.ok.inj h
    rw [setPc_pc, setPc_cache]
    exact .rest rfl
  | freeLarge span =>
    rw [hs] at h
    obtain ⟨heap, -, h⟩ := bind_eq_ok h
    obtain rfl := Except.ok.inj h
    rw [setPc_pc, setPc_cache]
    exact .rest rfl

/-- A step changes the lists of its own thread only. -/
theorem next_cacheStep {e : Event} (he : Enabled s e) (h : next env s e = .ok s') :
    CacheStep (pending (s.pc e.1)) (pending (s'.pc e.1)) (s.cache e.1) (s'.cache e.1) := by
  obtain ⟨t, act⟩ := e
  cases act with
  | init =>
    simp only [Enabled] at he
    obtain rfl := Except.ok.inj h
    cases hpc : s.pc t with
    | start =>
      rw [setPc_pc, setPc_cache]
      exact .rest rfl
    | _ => rw [hpc] at he; exact he.elim
  | malloc size =>
    simp only [Enabled] at he
    have hpc : s.pc t = .ready := by
      cases hpc : s.pc t <;> rw [hpc] at he <;> first | rfl | exact he.elim
    exact tcMalloc_cacheStep hpc h
  | free ptr =>
    simp only [Enabled] at he
    have hpc : s.pc t = .ready := by
      cases hpc : s.pc t <;> rw [hpc] at he <;> first | rfl | exact he.elim
    exact tcFree_cacheStep hpc h
  | run =>
    simp only [Enabled] at he
    refine continueCall_cacheStep h ⟨fun hpc => ?_, fun hpc => ?_⟩
    · simp only [hpc] at he
    · simp only [hpc] at he

end CacheStep

/-! ## The other threads -/

/-- The step leaves the other threads alone. -/
structure Others (t : Tid) (s s' : Sys) : Prop where
  pc : ∀ t', t' ≠ t → s'.pc t' = s.pc t'
  cache : ∀ t', t' ≠ t → s'.cache t' = s.cache t'

section Others

variable {env : Env} {s s' s₁ : Sys} {t : Tid}

theorem Others.refl (s : Sys) (t : Tid) : Others t s s := ⟨fun _ _ => rfl, fun _ _ => rfl⟩

theorem Others.setPc (h : Others t s s₁) (pc : Pc) : Others t s (s₁.setPc t pc) :=
  ⟨fun t' ht => (setPc_pc_of_ne s₁ pc ht).trans (h.pc t' ht), h.cache⟩

theorem Others.setCache (h : Others t s s₁) (i : Nat) (l : ThreadList) :
    Others t s (s₁.setCache t i l) :=
  ⟨h.pc, fun t' ht => (setCache_thread s₁ l ht).trans (h.cache t' ht)⟩

theorem endFetch_others {k : Caller} {index num : Nat} {span : SpanPtr} (ho : Others t s s₁)
    (h : endFetch s₁ t k index num span = .ok s') : Others t s s' := by
  obtain ⟨⟨batch, heap⟩, -, h⟩ := bind_eq_ok h
  obtain rfl := Except.ok.inj h
  apply Others.setPc
  exact ⟨ho.pc, ho.cache⟩

theorem allocate_others {nbytes : Nat} (h : allocate s t nbytes = .ok s') : Others t s s' := by
  obtain ⟨i, -, h⟩ := bind_eq_ok h
  split at h
  · obtain rfl := Except.ok.inj h
    exact ((Others.refl s t).setCache _ _).setPc _
  · obtain ⟨⟨o, l⟩, -, h⟩ := bind_eq_ok h
    obtain rfl := Except.ok.inj h
    apply Others.setPc
    exact ⟨fun _ _ => rfl, ((Others.refl s t).setCache i l).cache⟩

theorem tcFree_others {ptr : Nat} (h : tcFree s t ptr = .ok s') : Others t s s' := by
  obtain ⟨o, -, h⟩ := bind_eq_ok h
  cases o with
  | none => cases h
  | some span =>
    simp only at h
    have hfree : Others t s { s with live := s.live.eraseP (fun b => b.ptr = ptr) } :=
      ⟨fun _ _ => rfl, fun _ _ => rfl⟩
    split at h
    · obtain ⟨i, -, h⟩ := bind_eq_ok h
      simp only at h
      split at h
      · obtain rfl := Except.ok.inj h
        exact (hfree.setCache _ _).setPc _
      · obtain rfl := Except.ok.inj h
        exact hfree.setCache _ _
    · obtain rfl := Except.ok.inj h
      exact hfree.setPc _

theorem continueCall_others {pc : Pc} (h : continueCall env s t pc = .ok s') : Others t s s' := by
  have hheap : ∀ (heap : Heap) (lock : Option Tid),
      Others t s { s with heap := heap, centralLock := lock } := fun _ _ =>
    ⟨fun _ _ => rfl, fun _ _ => rfl⟩
  cases pc with
  | start => exact Except.ok.inj h ▸ Others.refl s t
  | ready => exact Except.ok.inj h ▸ Others.refl s t
  | initLoop i =>
    simp only [continueCall] at h
    split at h
    · obtain rfl := Except.ok.inj h
      exact (((Others.refl s t).setCache _ _).setCache _ _).setPc _
    · obtain rfl := Except.ok.inj h
      exact (Others.refl s t).setPc _
  | fetch k index num =>
    obtain ⟨o, -, h⟩ := bind_eq_ok h
    cases o with
    | some span => exact endFetch_others (.refl s t) h
    | none =>
      obtain rfl := Except.ok.inj h
      exact (hheap s.heap (some t)).setPc _
  | refill k index num =>
    obtain ⟨⟨span, heap⟩, -, h⟩ := bind_eq_ok h
    obtain rfl := Except.ok.inj h
    exact (hheap heap s.centralLock).setPc _
  | carve k index num span => exact endFetch_others (hheap _ s.centralLock) h
  | insert k index batch =>
    simp only [continueCall, finishFetch] at h
    cases k with
    | threadInit i =>
      obtain rfl := Except.ok.inj h
      exact ((Others.refl s t).setCache _ _).setPc _
    | allocate nbytes =>
      obtain ⟨⟨o, l⟩, -, h⟩ := bind_eq_ok h
      obtain rfl := Except.ok.inj h
      apply Others.setPc
      exact ⟨fun _ _ => rfl, ((Others.refl s t).setCache index l).cache⟩
  | flush batch nbytes =>
    obtain ⟨⟨o, heap⟩, -, h⟩ := bind_eq_ok h
    cases o with
    | none =>
      obtain rfl := Except.ok.inj h
      exact (hheap heap s.centralLock).setPc _
    | some span =>
      obtain rfl := Except.ok.inj h
      exact (hheap heap (some t)).setPc _
  | recycle span =>
    obtain ⟨heap, -, h⟩ := bind_eq_ok h
    obtain rfl := Except.ok.inj h
    exact (hheap heap none).setPc _
  | freeLarge span =>
    obtain ⟨heap, -, h⟩ := bind_eq_ok h
    obtain rfl := Except.ok.inj h
    exact (hheap heap s.centralLock).setPc _

theorem next_others {e : Event} (h : next env s e = .ok s') : Others e.1 s s' := by
  obtain ⟨t, act⟩ := e
  cases act with
  | init => exact Except.ok.inj h ▸ (Others.refl s t).setPc _
  | malloc size =>
    simp only [next, tcMalloc] at h
    split at h
    · exact allocate_others h
    · obtain ⟨⟨span, heap⟩, -, h⟩ := bind_eq_ok h
      obtain rfl := Except.ok.inj h
      apply Others.setPc
      exact ⟨fun _ _ => rfl, fun _ _ => rfl⟩
  | free ptr => exact tcFree_others h
  | run => exact continueCall_others h

end Others

/-! ## Lengths and limits -/

/-- The limits that `fetch_from_centralcache` sets: doubled up to class 22, raised by one in
the classes after it. -/
def LimitOk (i n : Nat) : Prop := n ≤ MAXFETCHSIZE ∧ (i ≤ 22 → n ∈ [0, 1, 2, 4, 8, 16, 32])

structure ListOk (i : Nat) (l : ThreadList) : Prop where
  length : l.objlen = l.objs.length
  le : l.objlen ≤ l.maxLength
  limit : LimitOk i l.maxLength

/-- The lists of a thread. A list for which the thread is fetching objects is empty and has
room for them. -/
structure CacheOk (p : Option (Nat × Nat)) (c : Nat → ThreadList) : Prop where
  lists : ∀ i, ListOk i (c i)
  room : ∀ i n, p = some (i, n) → (c i).objs = [] ∧ n ≤ (c i).maxLength

section CacheOk

variable {env : Env} {s s' : Sys} {p p' : Option (Nat × Nat)} {c c' : Nat → ThreadList} {i : Nat}
  {l l' : ThreadList}

theorem initThreadlist_ok (i : Nat) : ListOk i initThreadlist where
  length := rfl
  le := Nat.zero_le 1
  limit := ⟨by simp only [initThreadlist, MAXFETCHSIZE]; omega, fun _ => by simp [initThreadlist]⟩

/-- The limit grows and stays a limit, and the thread asks for no more than it allows. -/
theorem fetchAmount_ok (hl : ListOk i l) (hobjs : l.objs = []) :
    ListOk i (fetchAmount i l).2 ∧ (fetchAmount i l).2.objs = [] ∧
      (fetchAmount i l).1 ≤ (fetchAmount i l).2.maxLength := by
  obtain ⟨hlen, hle, hmax, hpow⟩ := hl
  simp only [MAXFETCHSIZE] at hmax
  unfold fetchAmount
  simp only [MAXFETCHSIZE]
  split_ifs with hdouble hone
  · refine ⟨⟨hlen, ?_, ?_, fun hi => ?_⟩, hobjs, ?_⟩
    · simp only
      omega
    · simp only [MAXFETCHSIZE]
      have hmem := hpow hdouble.2
      simp only [List.mem_cons, List.not_mem_nil, or_false] at hmem
      omega
    · have hmem := hpow hi
      simp only [List.mem_cons, List.not_mem_nil, or_false] at hmem ⊢
      omega
    · simp only
      omega
  · refine ⟨⟨hlen, ?_, ?_, fun hi => ?_⟩, hobjs, ?_⟩
    · simp only
      omega
    · simp only [MAXFETCHSIZE]
      omega
    · exact absurd ⟨hone, hi⟩ hdouble
    · simp only
      omega
  · refine ⟨⟨hlen, hle, hmax, hpow⟩, hobjs, ?_⟩
    simp only
    omega

theorem insertToThreadcache_ok {batch : List Nat} (hl : ListOk i l) (hobjs : l.objs = [])
    (hroom : batch.length ≤ l.maxLength) : ListOk i (insertToThreadcache batch l) := by
  have hzero : l.objlen = 0 := by rw [hl.length, hobjs]; rfl
  rw [insertToThreadcache_eq]
  refine ⟨?_, ?_, hl.limit⟩
  · simp [hzero, hobjs]
  · simp only [hzero]
    omega

theorem freelistPop_ok {o : Nat} (hl : ListOk i l) (hpop : freelistPop l = .ok (o, l')) :
    ListOk i l' := by
  obtain ⟨hlen, hle, hlimit⟩ := hl
  unfold freelistPop at hpop
  cases hobjs : l.objs with
  | nil =>
    rw [hobjs] at hpop
    cases hpop
  | cons a rest =>
    rw [hobjs] at hpop hlen
    obtain ⟨-, rfl⟩ := Prod.mk.inj (Except.ok.inj hpop)
    refine ⟨?_, ?_, hlimit⟩
    · simp [hlen]
    · simp only
      omega

theorem CacheOk.update (hc : CacheOk p c) (hl : ListOk i l) :
    CacheOk none (Function.update c i l) where
  lists j := by
    by_cases h : j = i
    · subst h
      rw [Function.update_self]
      exact hl
    · rw [Function.update_of_ne h]
      exact hc.lists j
  room _ _ h := by cases h

theorem CacheStep.ok (h : CacheStep p p' c c') (hc : CacheOk p c) : CacheOk p' c' := by
  cases h with
  | rest hp => exact ⟨hc.lists, fun _ _ h => by cases h⟩
  | @start c i l hl =>
    have hlist : ListOk i l ∧ l.objs = [] := by
      rcases hl with ⟨rfl, hobjs⟩ | rfl
      · exact ⟨hc.lists i, hobjs⟩
      · exact ⟨initThreadlist_ok i, rfl⟩
    obtain ⟨hok, hobjs, hle⟩ := fetchAmount_ok hlist.1 hlist.2
    refine ⟨(hc.update hok).lists, fun j n hj => ?_⟩
    obtain ⟨rfl, rfl⟩ := Prod.mk.inj (Option.some.inj hj)
    rw [Function.update_self]
    exact ⟨hobjs, hle⟩
  | @wait c i n m hm =>
    refine ⟨hc.lists, fun j k hj => ?_⟩
    obtain ⟨rfl, rfl⟩ := Prod.mk.inj (Option.some.inj hj)
    obtain ⟨hobjs, hle⟩ := hc.room i n rfl
    exact ⟨hobjs, hm.trans hle⟩
  | @insert c i batch =>
    obtain ⟨hobjs, hle⟩ := hc.room i batch.length rfl
    exact hc.update (insertToThreadcache_ok (hc.lists i) hobjs hle)
  | @insertPop c i o l batch hpop =>
    obtain ⟨hobjs, hle⟩ := hc.room i batch.length rfl
    exact hc.update (freelistPop_ok (insertToThreadcache_ok (hc.lists i) hobjs hle) hpop)
  | @pop c i o l hpop => exact hc.update (freelistPop_ok (hc.lists i) hpop)
  | @push c i o hlen =>
    obtain ⟨hlen', hle, hlimit⟩ := hc.lists i
    refine hc.update ⟨?_, ?_, hlimit⟩
    · simp [hlen']
    · simp only
      omega
  | @flush c i => exact hc.update ⟨rfl, Nat.zero_le _, (hc.lists i).limit⟩

/-- The lists of every thread are as they should be, in every run. -/
theorem reachable_caches {ok : Sys → Event → Prop} (hr : Reachable env ok s) (t : Tid) :
    CacheOk (pending (s.pc t)) (s.cache t) := by
  obtain ⟨h₀, -, hrun⟩ := hr
  have hall : ∀ t, CacheOk (pending (s.pc t)) (s.cache t) := by
    refine hrun.invariant (I := fun s => ∀ t, CacheOk (pending (s.pc t)) (s.cache t)) ?_ ?_
    · intro t
      refine ⟨fun i => ⟨rfl, le_rfl, ?_, fun _ => ?_⟩, fun _ _ h => by cases h⟩
      · exact Nat.zero_le _
      · exact List.mem_cons_self
    · intro s e s' hi _ hstep t
      by_cases ht : t = e.1
      · subst ht
        exact (next_cacheStep hstep.1 hstep.2).ok (hi _)
      · have ho := next_others hstep.2
        rw [ho.pc t ht, ho.cache t ht]
        exact hi t
  exact hall t

end CacheOk

/-! ## `allocate` returns -/

/-- Requests that `tc_malloc` passes to `allocate`. -/
def SmallRequest (_ : Sys) : Event → Prop
  | (_, .malloc size) => 0 < size ∧ size ≤ THRESHALLOC
  | _ => True

/-- The function that called `fetch_from_centralcache`. -/
def caller : Pc → Option Caller
  | .fetch k _ _ => some k
  | .refill k _ _ => some k
  | .carve k _ _ _ => some k
  | .insert k _ _ => some k
  | _ => none

/-- The steps that a call of `fetch_from_centralcache` still takes, at most. -/
def stepsLeft : Pc → Nat
  | .fetch .. => 4
  | .refill .. => 3
  | .carve .. => 2
  | .insert .. => 1
  | _ => 0

/-- The step belongs to a call of `allocate(nbytes)` with at most `left` steps to go. -/
def Serves (s : Sys) : Event → Nat → Nat → Prop
  | (_, .malloc size), nbytes, left => size = nbytes ∧ left = 5
  | (t, .run), nbytes, left =>
    caller (s.pc t) = some (.allocate nbytes) ∧ left = stepsLeft (s.pc t)
  | _, _, _ => False

/-- What `allocate(nbytes)` promises of the object it returns. -/
structure Served (h : Heap) (nbytes : Nat) (b : Block) : Prop where
  size : b.size = nbytes
  nonNull : b.ptr ≠ 0
  fits : ∃ S i, mapAddrToSpan b.ptr h = .ok (some S) ∧ i < CLASSES ∧
    h.objsSize S = indexToSize i ∧ nbytes ≤ indexToSize i

/-- The step ends the round of `tc_thread_init`, or the call of `allocate`. -/
def Answered (t : Tid) (s s' : Sys) : Caller → Prop
  | .threadInit i => s'.pc t = .initLoop (i + 1) ∧ s'.live = s.live
  | .allocate nbytes => s'.pc t = .ready ∧ ∃ b, s'.live = b :: s.live ∧ b.size = nbytes

/-- The step answers the caller `k`, or leaves fewer than `left` steps to do so. -/
def Advances (t : Tid) (k : Caller) (left : Nat) (s s' : Sys) : Prop :=
  Answered t s s' k ∨ (caller (s'.pc t) = some k ∧ stepsLeft (s'.pc t) < left ∧ s'.live = s.live)

section Serves

variable {d : Discipline} {env : Env} {s s' s₁ : Sys} {f : SpanPlace → List SpanPtr} {e : Event}
  {t : Tid} {k : Caller} {nbytes left : Nat}

theorem allocate_advances (h : allocate s t nbytes = .ok s') :
    Advances t (.allocate nbytes) 5 s s' := by
  obtain ⟨i, -, h⟩ := bind_eq_ok h
  split at h
  · obtain rfl := Except.ok.inj h
    right
    unfold startFetch
    rw [setPc_pc]
    exact ⟨rfl, Nat.lt_add_one 4, rfl⟩
  · obtain ⟨⟨o, l⟩, -, h⟩ := bind_eq_ok h
    obtain rfl := Except.ok.inj h
    left
    refine ⟨?_, _, rfl, rfl⟩
    unfold returnBlock
    rw [setPc_pc]

theorem endFetch_advances {index num : Nat} {span : SpanPtr}
    (h : endFetch s₁ t k index num span = .ok s') (hlive : s₁.live = s.live) (hleft : 1 < left) :
    Advances t k left s s' := by
  obtain ⟨⟨batch, heap⟩, -, h⟩ := bind_eq_ok h
  obtain rfl := Except.ok.inj h
  right
  rw [setPc_pc]
  exact ⟨rfl, hleft, hlive⟩

theorem continueCall_advances (hcaller : caller (s.pc t) = some k)
    (h : continueCall env s t (s.pc t) = .ok s') : Advances t k (stepsLeft (s.pc t)) s s' := by
  cases hs : s.pc t with
  | fetch k' index num =>
    rw [hs] at h hcaller
    obtain rfl := Option.some.inj hcaller
    obtain ⟨o, -, h⟩ := bind_eq_ok h
    cases o with
    | some span => exact endFetch_advances h rfl (Nat.one_lt_succ_succ 2)
    | none =>
      obtain rfl := Except.ok.inj h
      right
      rw [setPc_pc]
      exact ⟨rfl, Nat.lt_add_one 3, rfl⟩
  | refill k' index num =>
    rw [hs] at h hcaller
    obtain rfl := Option.some.inj hcaller
    obtain ⟨⟨span, heap⟩, -, h⟩ := bind_eq_ok h
    obtain rfl := Except.ok.inj h
    right
    rw [setPc_pc]
    exact ⟨rfl, Nat.lt_add_one 2, rfl⟩
  | carve k' index num span =>
    rw [hs] at h hcaller
    obtain rfl := Option.some.inj hcaller
    simp only [continueCall] at h
    exact endFetch_advances h rfl (Nat.lt_add_one 1)
  | insert k' index batch =>
    rw [hs] at h hcaller
    obtain rfl := Option.some.inj hcaller
    simp only [continueCall, finishFetch] at h
    left
    cases k' with
    | threadInit i =>
      obtain rfl := Except.ok.inj h
      exact ⟨setPc_pc _ _ _, rfl⟩
    | allocate n =>
      obtain ⟨⟨o, l⟩, -, h⟩ := bind_eq_ok h
      obtain rfl := Except.ok.inj h
      refine ⟨?_, _, rfl, rfl⟩
      unfold returnBlock
      rw [setPc_pc]
  | _ =>
    rw [hs] at hcaller
    cases hcaller

theorem next_advances (hserve : Serves s e nbytes left) (hsmall : SmallRequest s e)
    (h : next env s e = .ok s') : Advances e.1 (.allocate nbytes) left s s' := by
  obtain ⟨t, act⟩ := e
  cases act with
  | init => exact hserve.elim
  | free ptr => exact hserve.elim
  | malloc size =>
    obtain ⟨rfl, rfl⟩ := hserve
    simp only [next, tcMalloc, if_pos hsmall.2] at h
    exact allocate_advances h
  | run =>
    obtain ⟨hcaller, rfl⟩ := hserve
    exact continueCall_advances hcaller h

theorem sizeClass_small {i : Nat} (h : sizeClass nbytes = .ok i) : nbytes ≤ THRESHALLOC := by
  obtain ⟨hi, -, hle⟩ := sizeClass_ok h
  exact hle.trans (indexToSize_le hi)

/-- A call of `allocate` is for a small block. -/
theorem SysInv.serves_small (hi : SysInv d env s f) (hserve : Serves s e nbytes left)
    (hsmall : SmallRequest s e) : nbytes ≤ THRESHALLOC := by
  obtain ⟨t, act⟩ := e
  cases act with
  | init => exact hserve.elim
  | free ptr => exact hserve.elim
  | malloc size =>
    obtain ⟨rfl, -⟩ := hserve
    exact hsmall.2
  | run =>
    obtain ⟨hcaller, -⟩ := hserve
    have hok := hi.threads.pcOk t
    cases hs : s.pc t with
    | fetch k index num =>
      rw [hs] at hok hcaller
      obtain rfl := Option.some.inj hcaller
      exact sizeClass_small hok.2.2
    | refill k index num =>
      rw [hs] at hok hcaller
      obtain rfl := Option.some.inj hcaller
      exact sizeClass_small hok.2.2
    | carve k index num span =>
      rw [hs] at hok hcaller
      obtain rfl := Option.some.inj hcaller
      exact sizeClass_small hok.2.2.1
    | insert k index batch =>
      rw [hs] at hok hcaller
      obtain rfl := Option.some.inj hcaller
      exact sizeClass_small hok.2.1
    | _ =>
      rw [hs] at hcaller
      cases hcaller

/-- A live object is as `allocate` promises. -/
theorem SysInv.served (hi : SysInv d env s f) {b : Block} (hb : b ∈ s.live) (hsmall : b.Small)
    (hsize : b.size = nbytes) : Served s.heap nbytes b := by
  obtain ⟨-, i, hobj, hle⟩ := hi.objs.block hb hsmall
  obtain ⟨p, hp, hS⟩ := hobj.1
  have hcarved := hi.heap.kinds.carved hp hS
  have hstart := (hi.heap.pages.owned hS).start
  obtain ⟨hge, -⟩ := hobj.inside hi.heap
  have hini := env.ini_pos
  refine ⟨hsize, ?_, b.span, i, hi.mapAddr hb, hcarved.cls, hcarved.objsSize, hsize ▸ hle⟩
  omega

theorem SmallRequest.requestFits (h : SmallRequest s e) : RequestFits s e := by
  obtain ⟨t, act⟩ := e
  cases act with
  | malloc size =>
    have hle : size ≤ 32768 := h.2
    show size < 2 ^ 32
    omega
  | _ => trivial

theorem Booting.smallRequest (h : Booting s e) : SmallRequest s e := by
  obtain ⟨t, act⟩ := e
  cases act with
  | malloc size => exact absurd rfl (h.2 size)
  | _ => trivial

/-- A step of a run with small requests ends well, or at the end of the page map. -/
theorem small_sat (hs : env.Succeeds) (hi : SysInv .base env s f)
    (hr : ∀ r ∈ s.heap.regions, r < 2 ^ 32) (he : Enabled s e) (hsmall : SmallRequest s e) :
    Sat (next env s e) (fun s' => ∃ f', SysInv .base env s' f') (· = .pageMap) := by
  have hmet : StepMet .base s e := stepMet_base (fetchMet_of_small hi hr hsmall.requestFits)
  have hsat := step_sat hs hi he hmet
  obtain ⟨t, act⟩ := e
  cases act with
  | init => exact hsat
  | free ptr =>
    cases hrun : next env s (t, .free ptr) with
    | ok s' => exact hsat.of_ok hrun
    | error err =>
      simp only [Enabled] at he
      have hpc : s.pc t = .ready := by
        cases hpc : s.pc t <;> rw [hpc] at he <;> first | rfl | exact he.elim
      rw [hpc] at he
      exact ((tcFree_step hi hpc he).of_error hrun).elim
  | malloc size =>
    obtain ⟨hpos, hle⟩ := hsmall
    cases hrun : next env s (t, .malloc size) with
    | ok s' => exact hsat.of_ok hrun
    | error err =>
      obtain ⟨i, hclass⟩ := sizeClass_le hpos hle
      simp only [next, tcMalloc, if_pos hle, allocate, hclass, ok_bind] at hrun
      split at hrun
      · cases hrun
      · next o rest hobjs =>
        -- the list is not empty here
        simp only [freelistPop, hobjs, ok_bind] at hrun
        cases hrun
  | run => exact continueCall_step hs hi he hmet

/-- Every run with small requests keeps the invariant, and its regions are below 4 GiB. -/
theorem reachable_smallRequest (hs : env.Succeeds) (hr : Reachable env SmallRequest s) :
    (∃ f, SysInv .base env s f) ∧ ∀ r ∈ s.heap.regions, r < 2 ^ 32 := by
  refine reachable_small hs (fun s e hsmall => ⟨?_, False.elim, False.elim, False.elim⟩) hr
  exact hsmall.requestFits

/-- What holds of the list `i` of a thread. -/
structure ThreadListOk (h : Heap) (i : Nat) (l : ThreadList) : Prop where
  length : l.objlen = l.objs.length
  le : l.objlen ≤ l.maxLength
  max : l.maxLength ≤ MAXFETCHSIZE
  objs : ∀ o ∈ l.objs, ∃ S, mapAddrToSpan o h = .ok (some S) ∧ h.objsSize S = indexToSize i

/-- In every run with small requests the lists of the threads are in order, and every step of
`allocate` returns an object of a class that is large enough, or is one of the few that are
left until then, or runs over the end of the page map. -/
theorem threadCache_ok (hs : env.Succeeds) (hr : Reachable env SmallRequest s) :
    (∀ t i, i < CLASSES → ThreadListOk s.heap i (s.cache t i)) ∧
    ∀ e nbytes left, Enabled s e → SmallRequest s e → Serves s e nbytes left →
      Sat (next env s e)
        (fun s' => (s'.pc e.1 = .ready ∧ ∃ b, s'.live = b :: s.live ∧ Served s'.heap nbytes b) ∨
          ∃ left', left' < left ∧ Serves s' (e.1, .run) nbytes left')
        (· = .pageMap) := by
  obtain ⟨⟨f, hi⟩, hreg⟩ := reachable_smallRequest hs hr
  refine ⟨fun t i hcls => ?_, fun e nbytes left he hsmall hserve => ?_⟩
  · obtain ⟨hlen, hle, hmax, -⟩ := (reachable_caches hr t).lists i
    refine ⟨hlen, hle, hmax, fun o ho => ?_⟩
    have hobj : IsObj s.heap f i (s.origin o) o := hi.objs.sound (p := .cache t i) ho
    obtain ⟨p, hp, hS⟩ := hobj.1
    exact ⟨s.origin o, hobj.2.mapAddr hi.heap hobj.1, (hi.heap.kinds.carved hp hS).objsSize⟩
  · have hsat := small_sat hs hi hreg he hsmall
    cases hrun : next env s e with
    | error err => exact hsat.of_error hrun
    | ok s' =>
      obtain ⟨f', hi'⟩ := hsat.of_ok hrun
      rcases next_advances hserve hsmall hrun with ⟨hpc, b, hlive, hsize⟩ | ⟨hcaller, hlt, -⟩
      · left
        have hb : b ∈ s'.live := by
          rw [hlive]
          exact List.mem_cons_self
        have hbs : b.Small := by
          show b.size ≤ THRESHALLOC
          rw [hsize]
          exact hi.serves_small hserve hsmall
        exact ⟨hpc, b, hlive, hi'.served hb hbs hsize⟩
      · exact .inr ⟨_, hlt, hcaller, rfl⟩

end Serves

/-! ## The end of the page map -/

section Overrun

variable {s s' : Sys} {f : SpanPlace → List SpanPtr}

/-- No thread but 0 keeps others from the central cache. -/
structure Solo (s : Sys) : Prop where
  reach : Reachable machine SmallRequest s
  lock : ∀ t, s.centralLock = some t → t = 0

/-- Every step of `allocate(32768)` ends well. -/
def NoOverrun : Prop :=
  ∀ s e left, Reachable machine SmallRequest s → Enabled s e → SmallRequest s e →
    Serves s e 32768 left → ∃ s', next machine s e = .ok s'

theorem Solo.step {act : Act} {left : Nat} (hs : Solo s) (hok : NoOverrun)
    (he : Enabled s (0, act)) (hsmall : SmallRequest s (0, act))
    (hserve : Serves s (0, act) 32768 left) :
    ∃ s', Solo s' ∧ Advances 0 (.allocate 32768) left s s' := by
  obtain ⟨s', hrun⟩ := hok s (0, act) left hs.reach he hsmall hserve
  obtain ⟨h₀, hinit, hreach⟩ := hs.reach
  have hadv := next_advances hserve hsmall hrun
  refine ⟨s', ⟨⟨h₀, hinit, hreach.tail hsmall ⟨he, hrun⟩⟩, fun t hl => ?_⟩, hadv⟩
  have hmoved : Moved 0 s s' := (next_goes he.admits hrun).moved
  rcases hmoved.lock with ⟨heq, -⟩ | hnone | ⟨hsome, -⟩
  · exact hs.lock t (heq ▸ hl)
  · rw [hnone] at hl
    cases hl
  · exact (Option.some.inj (hsome.symm.trans hl)).symm

/-- Nobody keeps thread 0 from `centralcache_lock`. -/
theorem Solo.free (hs : Solo s) (hpc : ¬ HoldsLock (s.pc 0)) : s.centralLock = none := by
  obtain ⟨⟨f, hi⟩, -⟩ := reachable_smallRequest machine_succeeds hs.reach
  cases hl : s.centralLock with
  | none => rfl
  | some t =>
    obtain rfl := hs.lock t hl
    exact absurd ((hi.threads.lock 0).mpr hl) hpc

theorem Solo.enabled {k : Caller} (hs : Solo s) (hcaller : caller (s.pc 0) = some k) :
    Enabled s (0, .run) := by
  simp only [Enabled]
  cases hpc : s.pc 0 with
  | fetch k' index num => exact hs.free (by rw [hpc]; exact id)
  | refill k' index num => trivial
  | carve k' index num span => trivial
  | insert k' index batch => trivial
  | _ =>
    rw [hpc] at hcaller
    cases hcaller

theorem stepsLeft_pos {pc : Pc} {k : Caller} (h : caller pc = some k) : 0 < stepsLeft pc := by
  cases pc <;> simp [caller, stepsLeft] at h ⊢

/-- A call of `allocate(32768)` comes to its end. -/
theorem Solo.answer (hok : NoOverrun) : ∀ {left : Nat} {s : Sys}, Solo s →
    caller (s.pc 0) = some (.allocate 32768) → stepsLeft (s.pc 0) ≤ left →
      ∃ s', Solo s' ∧ Answered 0 s s' (.allocate 32768) := by
  intro left
  induction left with
  | zero =>
    intro s hs hcaller hle
    exact absurd hle (Nat.not_le.mpr (stepsLeft_pos hcaller))
  | succ left ih =>
    intro s hs hcaller hle
    have he : Enabled s (0, .run) := hs.enabled hcaller
    obtain ⟨s₁, hs₁, hadv⟩ := hs.step hok he trivial ⟨hcaller, rfl⟩
    rcases hadv with hans | ⟨hcaller₁, hlt, hlive⟩
    · exact ⟨s₁, hs₁, hans⟩
    · obtain ⟨s₂, hs₂, hpc, b, hb, hsize⟩ := ih hs₁ hcaller₁ (by omega)
      exact ⟨s₂, hs₂, hpc, b, by rw [hb, hlive], hsize⟩

/-- Thread 0 gets as many blocks of 32768 bytes as it asks for. -/
theorem Solo.blocks (hok : NoOverrun) (n : Nat) :
    ∃ s, Solo s ∧ s.pc 0 = .ready ∧ s.live.length = n ∧ ∀ b ∈ s.live, b.size = 32768 := by
  induction n with
  | zero =>
    obtain ⟨s, ⟨h₀, hinit, hrun⟩, hs⟩ := machine_booted
    refine ⟨s, ⟨⟨h₀, hinit, hrun.mono fun _ _ h => h.smallRequest⟩, fun t hl => ?_⟩, hs.pc,
      by rw [hs.live]; rfl, fun b hb => ?_⟩
    · rw [hs.lock] at hl
      cases hl
    · rw [hs.live] at hb
      cases hb
  | succ n ih =>
    obtain ⟨s, hs, hpc, hlen, hsizes⟩ := ih
    have hgrow : ∃ s', Solo s' ∧ Answered 0 s s' (.allocate 32768) := by
      have he : Enabled s (0, .malloc 32768) := by
        simp only [Enabled, hpc]
        decide
      have hsmall : SmallRequest s (0, .malloc 32768) := ⟨by decide, le_rfl⟩
      obtain ⟨s₁, hs₁, hadv⟩ := hs.step hok he hsmall ⟨rfl, rfl⟩
      rcases hadv with hans | ⟨hcaller, -, hlive⟩
      · exact ⟨s₁, hs₁, hans⟩
      · obtain ⟨s₂, hs₂, hpc₂, b, hb, hsize⟩ := hs₁.answer hok hcaller le_rfl
        exact ⟨s₂, hs₂, hpc₂, b, by rw [hb, hlive], hsize⟩
    obtain ⟨s', hs', hpc', b, hb, hsize⟩ := hgrow
    refine ⟨s', hs', hpc', by rw [hb, List.length_cons, hlen], fun b' hb' => ?_⟩
    rw [hb] at hb'
    rcases List.mem_cons.mp hb' with rfl | hb'
    · exact hsize
    · exact hsizes b' hb'

/-- The page map has room for `2 ^ 20` blocks of 32768 bytes. -/
theorem SysInv.live_length {d : Discipline} {env : Env} (hi : SysInv d env s f)
    (hsizes : ∀ b ∈ s.live, b.size = 32768) : s.live.length ≤ 2 ^ 20 := by
  have hblock : ∀ b ∈ s.live, 32768 ≤ b.extent s.heap ∧ env.ini ≤ b.ptr ∧
      b.ptr + 32768 ≤ env.ini + 2 ^ 35 := by
    intro b hb
    have hsmall : b.Small := by
      show b.size ≤ 32768
      rw [hsizes b hb]
    obtain ⟨-, i, hobj, hle⟩ := hi.objs.block hb hsmall
    rw [hsizes b hb] at hle
    obtain ⟨p, hp, hS⟩ := hobj.1
    have hcarved := hi.heap.kinds.carved hp hS
    obtain ⟨hge, hend⟩ := hobj.inside hi.heap
    have ho := hi.heap.pages.owned hS
    have hstart := ho.start
    have hbrk := ho.inBrk.trans hi.inMap
    simp only [PAGEMAPSIZE] at hbrk
    refine ⟨?_, by omega, by omega⟩
    rw [Block.extent, if_pos hsmall, hcarved.objsSize]
    exact hle
  -- the blocks lie in different cells of 32768 bytes
  have hcells : (s.live.map fun b => (b.ptr - env.ini) / 32768).Nodup := by
    refine List.pairwise_map.mpr (hi.nonOverlap.blocks.imp_of_mem ?_)
    intro b b' hb hb' hapart heq
    obtain ⟨hext, hini, -⟩ := hblock b hb
    obtain ⟨hext', hini', -⟩ := hblock b' hb'
    apply hapart
    exact ⟨max b.ptr b'.ptr, le_max_left _ _, by omega, le_max_right _ _, by omega⟩
  have hsub : (s.live.map fun b => (b.ptr - env.ini) / 32768) ⊆ List.range (2 ^ 20) := by
    intro q hq
    obtain ⟨b, hb, rfl⟩ := List.mem_map.mp hq
    obtain ⟨-, -, hend⟩ := hblock b hb
    rw [List.mem_range]
    omega
  have hle := (hcells.subperm hsub).length_le
  rwa [List.length_map, List.length_range] at hle

/-- A thread that calls `tc_malloc(32768)` over and over runs over the end of the page map. -/
theorem pageMap_overrun : ∃ s e left, Reachable machine SmallRequest s ∧ Enabled s e ∧
    SmallRequest s e ∧ Serves s e 32768 left ∧ next machine s e = .error .pageMap := by
  by_contra hno
  have hok : NoOverrun := by
    intro s e left hr he hsmall hserve
    obtain ⟨⟨f, hi⟩, hreg⟩ := reachable_smallRequest machine_succeeds hr
    cases hrun : next machine s e with
    | ok s' => exact ⟨s', rfl⟩
    | error err =>
      obtain rfl := (small_sat machine_succeeds hi hreg he hsmall).of_error hrun
      exact absurd ⟨s, e, left, hr, he, hsmall, hserve, hrun⟩ hno
  obtain ⟨s, hs, -, hlen, hsizes⟩ := Solo.blocks hok (2 ^ 20 + 1)
  obtain ⟨⟨f, hi⟩, -⟩ := reachable_smallRequest machine_succeeds hs.reach
  have hle := hi.live_length hsizes
  omega

/-- `tc_malloc(32768)` after the first `tc_thread_init`. -/
theorem threadCache_ok_machine : ∃ s, Reachable machine SmallRequest s ∧
    ThreadListOk s.heap 158 (s.cache 0 158) ∧ (s.cache 0 158).objlen = 1 ∧
    Sat (next machine s (0, .malloc 32768))
      (fun s' => (s'.pc 0 = .ready ∧ ∃ b, s'.live = b :: s.live ∧ Served s'.heap 32768 b) ∨
        ∃ left', left' < 5 ∧ Serves s' (0, .run) 32768 left') (· = .pageMap) := by
  obtain ⟨s, ⟨h₀, hinit, hrun⟩, hs⟩ := machine_booted
  have hr : Reachable machine SmallRequest s := ⟨h₀, hinit, hrun.mono fun _ _ h => h.smallRequest⟩
  obtain ⟨hlists, hsteps⟩ := threadCache_ok machine_succeeds hr
  have he : Enabled s (0, .malloc 32768) := by
    simp only [Enabled, hs.pc]
    decide
  refine ⟨s, hr, hlists 0 158 (by decide), ?_,
    hsteps (0, .malloc 32768) 32768 5 he ⟨by decide, le_rfl⟩ ⟨rfl, rfl⟩⟩
  rw [(hs.classes 158 (by decide)).2]

end Overrun

end SearchEngine.TcMalloc
