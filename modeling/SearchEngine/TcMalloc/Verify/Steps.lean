import SearchEngine.TcMalloc.Verify.Invariant

/-!
# Steps keep the invariant

One lemma for each thing a thread does between two cuts outside the central cache.
Each says that the step keeps `SysInv`, with the spans in new places.
-/

namespace SearchEngine.TcMalloc

open LinkedRing Placement Outcome

section Frame

variable {d : Discipline} {env : Env} {s s' : Sys} {f f' : SpanPlace → List SpanPtr} {t : Tid}

/-! ## What a step leaves alone -/

/-- The spans of the central cache stay in their classes and keep their pages. -/
structure SameClass (h h' : Heap) (f f' : SpanPlace → List SpanPtr) : Prop where
  inClass : ∀ i S, InClass f' i S ↔ InClass f i S
  start : ∀ {i S}, InClass f i S → h'.start S = h.start S

theorem SameClass.refl (h : Heap) (f : SpanPlace → List SpanPtr) : SameClass h h f f :=
  ⟨fun _ _ => Iff.rfl, fun _ => rfl⟩

theorem SameClass.isObj {h h' : Heap} (hc : SameClass h h' f f') {i S o : Nat} :
    IsObj h' f' i S o ↔ IsObj h f i S o := by
  constructor
  · rintro ⟨hS, k, hk, e⟩
    have hS' := (hc.inClass i S).mp hS
    exact ⟨hS', k, hk, by rw [e, hc.start hS']⟩
  · rintro ⟨hS, k, hk, e⟩
    exact ⟨(hc.inClass i S).mpr hS, k, hk, by rw [e, hc.start hS]⟩

/-- Objects that stay where they are still belong there. -/
theorem Sound.frame {p : ObjPlace} {o : Nat}
    (hc : ∀ {i S}, IsObj s.heap f i S o → IsObj s'.heap f' i S o) (hs : Sound s f p o)
    (horigin : s'.origin o = s.origin o) (hpc : ∀ t, p = .hand t → s'.pc t = s.pc t) :
    Sound s' f' p o := by
  cases p with
  | span S =>
    obtain ⟨i, hi⟩ := hs
    exact ⟨i, hc hi⟩
  | cache t i =>
    have hi : IsObj s.heap f i (s.origin o) o := hs
    show IsObj s'.heap f' i (s'.origin o) o
    rw [horigin]
    exact hc hi
  | hand t =>
    obtain ⟨i, h1, h2⟩ := hs
    exact ⟨i, by rw [hpc t rfl]; exact h1, by rw [horigin]; exact hc h2⟩
  | live =>
    obtain ⟨i, hi⟩ := hs
    exact ⟨i, by rw [horigin]; exact hc hi⟩

/-- No object moves. -/
theorem ObjInv.same (ho : ObjInv s f) (hc : SameClass s.heap s'.heap f f')
    (hg : objsAt s' = objsAt s) (horigin : s'.origin = s.origin)
    (hpc : ∀ t, handObjs (s.pc t) ≠ [] → s'.pc t = s.pc t)
    (hb : ∀ b, b ∈ s'.live → b.Small → b ∈ s.live) : ObjInv s' f' where
  placed := hg ▸ ho.placed
  sound {p o} hop := by
    rw [hg] at hop
    refine (ho.sound hop).frame hc.isObj.mpr (by rw [horigin]) fun t e => hpc t ?_
    subst e
    exact List.ne_nil_of_mem hop
  cover hi := by rw [hg]; exact ho.cover (hc.isObj.mp hi)
  block {b} hbl hsm := by
    obtain ⟨h1, i, h2, h3⟩ := ho.block (hb b hbl hsm) hsm
    exact ⟨by rw [horigin]; exact h1, i, hc.isObj.mpr h2, h3⟩

/-- The objects `m` move from one place to another. -/
theorem ObjInv.move (ho : ObjInv s f) (hc : SameClass s.heap s'.heap f f') {p q : ObjPlace}
    {m r l : List Nat} (hpq : p ≠ q) (hp : (objsAt s p).Perm (m ++ r))
    (hq : l.Perm (m ++ objsAt s q))
    (hg : objsAt s' = Function.update (Function.update (objsAt s) p r) q l)
    (hm : ∀ o ∈ m, Sound s' f' q o) (horigin : ∀ o, o ∉ m → s'.origin o = s.origin o)
    (hpc : ∀ t o, o ∈ handObjs (s.pc t) → o ∉ m → s'.pc t = s.pc t)
    (hb : ∀ {b}, b ∈ s'.live → b.Small → b.span = s'.origin b.ptr ∧
      ∃ i, IsObj s.heap f i b.span b.ptr ∧ b.size ≤ indexToSize i) : ObjInv s' f' where
  placed := hg ▸ ho.placed.move hpq hp hq
  sound {a o} hoa := by
    rw [hg] at hoa
    rcases ho.placed.mem_of_move hpq hp hq hoa with ⟨rfl, h⟩ | ⟨h, hnm⟩
    · exact hm o h
    · refine (ho.sound h).frame hc.isObj.mpr (horigin o hnm) fun t e => ?_
      subst e
      exact hpc t o h hnm
  cover hi := by
    obtain ⟨a, ha⟩ := ho.cover (hc.isObj.mp hi)
    rw [hg]
    exact exists_mem_move hpq hp hq ha
  block hbl hsm := by
    obtain ⟨h1, i, h2, h3⟩ := hb hbl hsm
    exact ⟨h1, i, hc.isObj.mpr h2, h3⟩

/-- Only the thread `t` did something. -/
theorem ThreadInv.step (ht : ThreadInv s) (hpc : ∀ t', t' ≠ t → s'.pc t' = s.pc t')
    (hcache : ∀ t', t' ≠ t → s'.cache t' = s.cache t')
    (hpage : ∀ t', t' ≠ t → ∀ S ∈ handSpans (s.pc t'), s'.heap.pageSize S = s.heap.pageSize S)
    (hlock : (HoldsLock (s'.pc t) ↔ s'.centralLock = some t) ∧
      (s'.centralLock = s.centralLock ∨ ∀ t', t' ≠ t → s.centralLock ≠ some t' ∧
        s'.centralLock ≠ some t'))
    (hok : PcOk s'.heap (s'.pc t))
    (hbegun : ∀ j, j < CLASSES → Begun (s'.pc t) j → 1 ≤ (s'.cache t j).maxLength)
    (hfresh : ∀ j, ¬ Begun (s'.pc t) j → (s'.cache t j).objs = []) : ThreadInv s' where
  lock t' := by
    by_cases h : t' = t
    · subst h; exact hlock.1
    · rw [hpc t' h, ht.lock t']
      rcases hlock.2 with h2 | h2
      · rw [h2]
      · obtain ⟨h3, h4⟩ := h2 t' h
        exact ⟨fun e => absurd e h3, fun e => absurd e h4⟩
  pcOk t' := by
    by_cases h : t' = t
    · subst h; exact hok
    · have hpg := hpage t' h
      rw [hpc t' h]
      have hold := ht.pcOk t'
      cases hp : s.pc t' with
      | carve k i num S =>
        rw [hp] at hold hpg
        exact ⟨hold.1, hold.2.1, hold.2.2.1, (hpg S (by simp [handSpans])).trans hold.2.2.2⟩
      | _ =>
        rw [hp] at hold
        exact hold
  begun t' j hc hj := by
    by_cases h : t' = t
    · subst h; exact hbegun j hc hj
    · rw [hpc t' h] at hj
      rw [hcache t' h]
      exact ht.begun t' j hc hj
  fresh t' j hj := by
    by_cases h : t' = t
    · subst h; exact hfresh j hj
    · rw [hpc t' h] at hj
      rw [hcache t' h]
      exact ht.fresh t' j hj

@[simp] theorem setPc_pc (s : Sys) (t : Tid) (pc : Pc) : (s.setPc t pc).pc t = pc := by
  simp [Sys.setPc]

theorem setPc_pc_of_ne (s : Sys) {t t' : Tid} (pc : Pc) (h : t' ≠ t) :
    (s.setPc t pc).pc t' = s.pc t' := by
  simp [Sys.setPc, h]

@[simp] theorem setPc_cache (s : Sys) (t : Tid) (pc : Pc) : (s.setPc t pc).cache = s.cache := rfl

@[simp] theorem setPc_heap (s : Sys) (t : Tid) (pc : Pc) : (s.setPc t pc).heap = s.heap := rfl

@[simp] theorem setPc_live (s : Sys) (t : Tid) (pc : Pc) : (s.setPc t pc).live = s.live := rfl

@[simp] theorem setPc_origin (s : Sys) (t : Tid) (pc : Pc) : (s.setPc t pc).origin = s.origin := rfl

@[simp] theorem setPc_lock (s : Sys) (t : Tid) (pc : Pc) :
    (s.setPc t pc).centralLock = s.centralLock := rfl

@[simp] theorem setCache_pc (s : Sys) (t : Tid) (i : Nat) (l : ThreadList) :
    (s.setCache t i l).pc = s.pc := rfl

@[simp] theorem setCache_heap (s : Sys) (t : Tid) (i : Nat) (l : ThreadList) :
    (s.setCache t i l).heap = s.heap := rfl

@[simp] theorem setCache_live (s : Sys) (t : Tid) (i : Nat) (l : ThreadList) :
    (s.setCache t i l).live = s.live := rfl

@[simp] theorem setCache_origin (s : Sys) (t : Tid) (i : Nat) (l : ThreadList) :
    (s.setCache t i l).origin = s.origin := rfl

@[simp] theorem setCache_lock (s : Sys) (t : Tid) (i : Nat) (l : ThreadList) :
    (s.setCache t i l).centralLock = s.centralLock := rfl

@[simp] theorem setCache_self (s : Sys) (t : Tid) (i : Nat) (l : ThreadList) :
    (s.setCache t i l).cache t i = l := by
  simp [Sys.setCache]

theorem setCache_of_ne (s : Sys) {t : Tid} {i j : Nat} (l : ThreadList) (h : j ≠ i) :
    (s.setCache t i l).cache t j = s.cache t j := by
  simp [Sys.setCache, h]

theorem setCache_thread (s : Sys) {t t' : Tid} {i : Nat} (l : ThreadList) (h : t' ≠ t) :
    (s.setCache t i l).cache t' = s.cache t' := by
  simp [Sys.setCache, h]

/-- The lock is not touched. -/
theorem ThreadInv.lock_same (ht : ThreadInv s) (hl : s'.centralLock = s.centralLock)
    (hh : HoldsLock (s'.pc t) ↔ HoldsLock (s.pc t)) :
    (HoldsLock (s'.pc t) ↔ s'.centralLock = some t) ∧
      (s'.centralLock = s.centralLock ∨ ∀ t', t' ≠ t → s.centralLock ≠ some t' ∧
        s'.centralLock ≠ some t') :=
  ⟨by rw [hl, hh]; exact ht.lock t, .inl hl⟩

/-- The spans stay where they are. -/
theorem HandInv.same (hh : HandInv d s f) (hpc : ∀ t', handSpans (s'.pc t') = handSpans (s.pc t'))
    (hl : largeSpans s'.live = largeSpans s.live)
    (hb : ∀ b ∈ s'.live, ¬ b.Small → b ∈ s.live) (hheap : s'.heap = s.heap) : HandInv d s' f where
  hand t' := (hh.hand t').trans (hpc t').symm
  user := hl ▸ hh.user
  block hbl hsm := by rw [hheap]; exact hh.block (hb _ hbl hsm) hsm
  tag := by rw [hheap]; exact hh.tag

/-- A thread goes on to a cut at which it carries nothing. -/
theorem SysInv.idle (hi : SysInv d env s f) {p : Pc} (ho : handObjs (s.pc t) = handObjs p)
    (hs : handSpans (s.pc t) = handSpans p) (hne : handObjs (s.pc t) = [])
    (hl : HoldsLock p ↔ HoldsLock (s.pc t)) (hok : PcOk s.heap p)
    (hbegun : ∀ j, j < CLASSES → Begun p j → 1 ≤ (s.cache t j).maxLength)
    (hfresh : ∀ j, ¬ Begun p j → (s.cache t j).objs = []) : SysInv d env (s.setPc t p) f where
  heap := hi.heap
  inMap := hi.inMap
  hands := hi.hands.same (fun t' => by
    by_cases h : t' = t
    · subst h; rw [setPc_pc, hs]
    · rw [setPc_pc_of_ne s p h]) rfl (fun _ h _ => h) rfl
  objs := hi.objs.same (SameClass.refl _ _)
    (by
      rw [objsAt_setPc, ← ho]
      exact Function.update_eq_self _ _) rfl
    (fun t' h => by
      by_cases ht : t' = t
      · subst ht; exact absurd hne h
      · exact setPc_pc_of_ne s p ht) fun _ h _ => h
  threads := hi.threads.step (t := t) (fun t' h => setPc_pc_of_ne s p h) (fun _ _ => rfl)
    (fun _ _ _ _ => rfl) (hi.threads.lock_same rfl (by rw [setPc_pc]; exact hl))
    (by rw [setPc_pc]; exact hok) (by rw [setPc_pc]; exact hbegun) (by rw [setPc_pc]; exact hfresh)

/-! ## Thread start -/

theorem init_step (hi : SysInv d env s f) (hpc : s.pc t = .start) :
    SysInv d env (s.setPc t (.initLoop 0)) f := by
  refine hi.idle (by rw [hpc]; rfl) (by rw [hpc]; rfl) (by rw [hpc]; rfl)
    (by rw [hpc]; exact Iff.rfl)
    trivial (fun j _ hj => absurd hj (Nat.not_lt_zero j)) fun j _ => ?_
  exact hi.threads.fresh t j (by rw [hpc]; exact id)

theorem initEnd_step (hi : SysInv d env s f) {i : Nat} (hpc : s.pc t = .initLoop i)
    (hge : ¬ i < CLASSES) : SysInv d env (s.setPc t .ready) f := by
  refine hi.idle (by rw [hpc]; rfl) (by rw [hpc]; rfl) (by rw [hpc]; rfl)
    (by rw [hpc]; exact Iff.rfl)
    trivial (fun j hj _ => ?_) fun j hj => absurd trivial hj
  exact hi.threads.begun t j hj (by rw [hpc]; show j < i; omega)

/-- The head of `fetch_from_centralcache`. -/
theorem fetchAmount_spec (i : Nat) (l : ThreadList) :
    (fetchAmount i l).2.objs = l.objs ∧ l.maxLength ≤ (fetchAmount i l).2.maxLength ∧
      (1 ≤ l.maxLength → 0 < (fetchAmount i l).1) := by
  simp only [fetchAmount, MAXFETCHSIZE]
  split_ifs <;> refine ⟨rfl, ?_, ?_⟩ <;> simp only <;> omega

/-- The record of one list of the thread changes, but not its objects. -/
theorem SysInv.setCache (hi : SysInv d env s f) {i : Nat} {l : ThreadList}
    (ho : l.objs = (s.cache t i).objs) (hm : (s.cache t i).maxLength ≤ l.maxLength) :
    SysInv d env (s.setCache t i l) f where
  heap := hi.heap
  inMap := hi.inMap
  hands := hi.hands.same (fun _ => rfl) rfl (fun _ h _ => h) rfl
  objs := hi.objs.same (SameClass.refl _ _)
    (by
      rw [objsAt_setCache, ho]
      exact Function.update_eq_self _ _) rfl (fun _ _ => rfl) fun _ h _ => h
  threads := hi.threads.step (t := t) (fun _ _ => rfl) (fun _ h => setCache_thread s l h)
    (fun _ _ _ _ => rfl) (hi.threads.lock_same rfl Iff.rfl) (hi.threads.pcOk t)
    (fun j hj hb => by
      have hold := hi.threads.begun t j hj hb
      by_cases h : j = i
      · subst h; rw [setCache_self]; omega
      · rw [setCache_of_ne s l h]; exact hold)
    (fun j hb => by
      have hold := hi.threads.fresh t j hb
      by_cases h : j = i
      · subst h; rw [setCache_self, ho]; exact hold
      · rw [setCache_of_ne s l h]; exact hold)

/-- `fetch_from_centralcache` up to its lock. -/
theorem startFetch_step (hi : SysInv d env s f) {k : Caller} {i : Nat}
    (ho : handObjs (s.pc t) = []) (hs : handSpans (s.pc t) = []) (hl : ¬ HoldsLock (s.pc t))
    (hcls : i < CLASSES) (hk : CallerOk i k) (hmax : 1 ≤ (s.cache t i).maxLength)
    (hbegun : ∀ n j, j ≠ i → Begun (.fetch k i n) j → Begun (s.pc t) j)
    (hfresh : ∀ n j, ¬ Begun (.fetch k i n) j → ¬ Begun (s.pc t) j) :
    SysInv d env (startFetch s t k i) f := by
  obtain ⟨h1, h2, h3⟩ := fetchAmount_spec i (s.cache t i)
  have hi' := hi.setCache h1 h2
  refine hi'.idle (p := .fetch k i (fetchAmount i (s.cache t i)).1) ho hs ho
    ⟨False.elim, fun h => absurd h hl⟩ ⟨hcls, h3 hmax, hk⟩ (fun j hj hb => ?_) fun j hb => ?_
  · by_cases h : j = i
    · subst h; rw [setCache_self]; omega
    · exact hi'.threads.begun t j hj (hbegun _ j h hb)
  · exact hi'.threads.fresh t j (hfresh _ j hb)

/-- A round of the loop of `tc_thread_init`. -/
theorem initLoop_step (hi : SysInv d env s f) {i : Nat} (hpc : s.pc t = .initLoop i)
    (hlt : i < CLASSES) :
    SysInv d env (startFetch (s.setCache t i initThreadlist) t (.threadInit i) i) f := by
  have hempty : (s.cache t i).objs = [] := hi.threads.fresh t i (by rw [hpc]; exact lt_irrefl i)
  -- the list is new, so its record may be written
  have hi' : SysInv d env (s.setCache t i initThreadlist) f := by
    refine ⟨hi.heap, hi.inMap, hi.hands.same (fun _ => rfl) rfl (fun _ h _ => h) rfl,
      hi.objs.same (SameClass.refl _ _) ?_ rfl (fun _ _ => rfl) (fun _ h _ => h),
      hi.threads.step (t := t) (fun _ _ => rfl) (fun _ h => setCache_thread s _ h)
        (fun _ _ _ _ => rfl) (hi.threads.lock_same rfl Iff.rfl) (hi.threads.pcOk t)
        (fun j hj hb => ?_) fun j hb => ?_⟩
    · rw [objsAt_setCache, show initThreadlist.objs = (s.cache t i).objs from hempty.symm]
      exact Function.update_eq_self _ _
    · by_cases h : j = i
      · subst h; rw [setCache_self]; exact le_rfl
      · rw [setCache_of_ne s _ h]; exact hi.threads.begun t j hj hb
    · by_cases h : j = i
      · subst h; rw [setCache_self]; rfl
      · rw [setCache_of_ne s _ h]; exact hi.threads.fresh t j hb
  refine startFetch_step hi' (by rw [setCache_pc, hpc]; rfl) (by rw [setCache_pc, hpc]; rfl)
    (by rw [setCache_pc, hpc]; exact id) hlt rfl (by rw [setCache_self]; exact le_rfl)
    (fun n j hj hb => ?_) fun n j hb => ?_
  · rw [setCache_pc, hpc]
    exact lt_of_le_of_ne hb hj
  · rw [setCache_pc, hpc]
    exact fun h => hb (le_of_lt h)

/-! ## `tc_malloc` -/

/-- An object leaves the cache of the thread for the user. -/
theorem returnCached_step (hi : SysInv d env s f) (hpc : s.pc t = .ready) {i n o : Nat}
    {l : ThreadList} (hcls : sizeClass n = .ok i) (hobjs : (s.cache t i).objs = o :: l.objs)
    (hmax : l.maxLength = (s.cache t i).maxLength) :
    SysInv d env (returnBlock (s.setCache t i l) t o n (s.origin o)) f := by
  obtain ⟨hlt, -, hle⟩ := sizeClass_ok hcls
  have hsmall : (⟨o, n, s.origin o⟩ : Block).Small := hle.trans (indexToSize_le hlt)
  have hobj : IsObj s.heap f i (s.origin o) o :=
    hi.objs.sound (p := .cache t i) (by show o ∈ (s.cache t i).objs; rw [hobjs]; simp)
  have hpc' : ∀ t', t' ≠ t → (returnBlock (s.setCache t i l) t o n (s.origin o)).pc t' = s.pc t' :=
    fun t' h => setPc_pc_of_ne _ _ h
  have hpct : (returnBlock (s.setCache t i l) t o n (s.origin o)).pc t = .ready := setPc_pc _ _ _
  have hlive : (returnBlock (s.setCache t i l) t o n (s.origin o)).live =
      ⟨o, n, s.origin o⟩ :: s.live := rfl
  refine ⟨hi.heap, hi.inMap, hi.hands.same (fun t' => ?_) ?_ (fun b hb hns => ?_) rfl,
    hi.objs.move (p := .cache t i) (q := .live) (m := [o]) (r := l.objs)
    (l := o :: smallPtrs s.live)
      (SameClass.refl _ _) (by simp) (by show ((s.cache t i).objs).Perm _; rw [hobjs]; simp)
      (by simp [objsAt]) ?_ (fun x hx => ?_) (fun _ _ => rfl) (fun t' x hx _ => ?_)
      fun {b} hb hs => ?_,
    hi.threads.step (t := t) hpc' (fun t' h => setCache_thread s l h) (fun _ _ _ _ => rfl)
      (hi.threads.lock_same rfl (by rw [hpct, hpc])) (by rw [hpct]; trivial) (fun j hj _ => ?_)
      fun j hb => absurd trivial (by rw [hpct] at hb; exact hb)⟩
  · by_cases h : t' = t
    · subst h; rw [hpct, hpc]
    · rw [hpc' t' h]
  · rw [hlive, largeSpans_cons, if_pos hsmall]
  · rw [hlive] at hb
    rcases List.mem_cons.mp hb with rfl | hb
    · exact absurd hsmall hns
    · exact hb
  · simp only [returnBlock, objsAt_setPc, objsAt_live, objsAt_setCache, smallPtrs_cons,
      if_pos hsmall, setCache_live, handObjs]
    exact Function.update_eq_self_iff.mpr (by simp [objsAt, hpc, handObjs])
  · rw [List.mem_singleton.mp hx]
    exact ⟨i, hobj⟩
  · by_cases h : t' = t
    · subst h; rw [hpc] at hx; cases hx
    · exact hpc' t' h
  · rw [hlive] at hb
    rcases List.mem_cons.mp hb with rfl | hb
    · exact ⟨rfl, i, hobj, hle⟩
    · exact hi.objs.block hb hs
  · have hold := hi.threads.begun t j hj (by rw [hpc]; trivial)
    show 1 ≤ ((s.setCache t i l).cache t j).maxLength
    by_cases h : j = i
    · subst h; rw [setCache_self, hmax]; exact hold
    · rw [setCache_of_ne s l h]; exact hold

/-- `allocate`, up to its return or to the lock of `fetch_from_centralcache`. -/
theorem allocate_step (hi : SysInv d env s f) (hpc : s.pc t = .ready) (n : Nat) :
    Sat (allocate s t n) (fun s' => SysInv d env s' f) (· = .badIndex) := by
  simp only [allocate]
  cases hcls : sizeClass n with
  | error e =>
    simp only [sizeClass] at hcls
    split_ifs at hcls
    cases hcls
    rfl
  | ok i =>
    rw [ok_bind]
    cases hobjs : (s.cache t i).objs with
    | nil =>
      obtain ⟨hlt, -, -⟩ := sizeClass_ok hcls
      exact startFetch_step hi (by rw [hpc]; rfl) (by rw [hpc]; rfl)
        (by rw [hpc]; exact id) hlt hcls
        (hi.threads.begun t i hlt (by rw [hpc]; trivial)) (fun _ _ _ _ => by rw [hpc]; trivial)
        fun _ _ hb => absurd trivial hb
    | cons o rest =>
      simp only [freelistPop, hobjs, ok_bind]
      exact returnCached_step hi hpc hcls hobjs rfl

theorem SpanPlace.not_isPg_of_cls {p : SpanPlace} {i : Nat} (hp : p.cls? = some i) :
    ¬ p.IsPg := by
  rintro ⟨j, rfl⟩
  cases hp

theorem Quiet.sameClass {dst : SpanPlace} {h h' : Heap} (hq : Quiet dst h h' f f')
    (hd : dst.Loose) : SameClass h h' f f' := by
  have key : ∀ {p : SpanPlace} {i}, p.cls? = some i → f' p = f p := fun hp =>
    hq.places _ (SpanPlace.not_isPg_of_cls hp)
      (SpanPlace.ne_of_loose (SpanPlace.not_loose_of_cls hp) hd)
  refine ⟨fun i S => ⟨?_, ?_⟩, ?_⟩
  · rintro ⟨p, hp, hS⟩
    exact ⟨p, hp, key hp ▸ hS⟩
  · rintro ⟨p, hp, hS⟩
    exact ⟨p, hp, (key hp).symm ▸ hS⟩
  · rintro i S ⟨p, hp, hS⟩
    exact (hq.same (SpanPlace.not_isPg_of_cls hp) hS).2.1

/-- A span goes from the page heap to the user. -/
theorem mallocLarge_step (hi : SysInv d env s f) (hpc : s.pc t = .ready) {n : Nat}
    (hn : ¬ n ≤ THRESHALLOC) {h' : Heap} {S : SpanPtr}
    (hf : Fetched d env .user f f' s.heap h' S) (htag : d.tags → h'.loc S = .isolated) :
    SysInv d env (returnBlock { s with heap := h' } t (h'.start S) n S) f' := by
  have hq := hf.quiet
  have hpc' : ∀ t', t' ≠ t →
      (returnBlock { s with heap := h' } t (h'.start S) n S).pc t' = s.pc t' :=
    fun t' h => setPc_pc_of_ne _ _ h
  have hpct : (returnBlock { s with heap := h' } t (h'.start S) n S).pc t = .ready := setPc_pc _ _ _
  have hns : ¬ (⟨h'.start S, n, S⟩ : Block).Small := hn
  have hlive : (returnBlock { s with heap := h' } t (h'.start S) n S).live =
      ⟨h'.start S, n, S⟩ :: s.live := rfl
  have huser : ¬ SpanPlace.user.IsPg := by rintro ⟨j, hj⟩; cases hj
  have hhand : ∀ t', ¬ (SpanPlace.hand t').IsPg := by rintro t' ⟨j, hj⟩; cases hj
  refine ⟨hf.inv, hf.inMap, ⟨fun t' => ?_, ?_, fun {b} hb hbs => ?_, fun ht x hx => ?_⟩,
    hi.objs.same (hq.sameClass trivial) ?_ rfl (fun t' h => ?_) (fun b hb hs => ?_),
    hi.threads.step (t := t) hpc' (fun _ _ => rfl) (fun t' h x hx => ?_)
      (hi.threads.lock_same rfl (by rw [hpct, hpc])) (by rw [hpct]; trivial)
      (fun j hj _ => hi.threads.begun t j hj (by rw [hpc]; trivial))
      fun j hb => absurd trivial (by rw [hpct] at hb; exact hb)⟩
  · rw [hq.places _ (hhand t') (by simp), hi.hands.hand t']
    by_cases h : t' = t
    · subst h; rw [hpct, hpc]
    · rw [hpc' t' h]
  · rw [hf.dst, hlive, largeSpans_cons, if_neg hns]
    exact hi.hands.user.cons S
  · rw [hlive] at hb
    rcases List.mem_cons.mp hb with rfl | hb
    · rfl
    · have hbu : b.span ∈ f .user := by
        refine hi.hands.user.mem_iff.mpr (List.mem_map.mpr ⟨b, ?_, rfl⟩)
        exact List.mem_filter.mpr ⟨hb, by simpa using hbs⟩
      show b.ptr = h'.start b.span
      rw [(hq.same huser hbu).2.1]
      exact hi.hands.block hb hbs
  · show h'.loc x = .isolated
    rw [hf.dst] at hx
    rcases List.mem_cons.mp hx with rfl | hx
    · exact htag ht
    · rw [(hq.same huser hx).2.2]
      exact hi.hands.tag ht x hx
  · funext p
    cases p with
    | span x => exact congrFun hq.objs x
    | cache t' i => rfl
    | hand t' =>
      by_cases h : t' = t
      · subst h
        show handObjs _ = handObjs _
        rw [hpct, hpc]
      · show handObjs _ = handObjs _
        rw [hpc' t' h]
    | live =>
      show smallPtrs _ = smallPtrs _
      rw [hlive, smallPtrs_cons, if_neg hns]
  · by_cases ht : t' = t
    · subst ht; rw [hpc] at h; exact absurd rfl h
    · exact hpc' t' ht
  · rw [hlive] at hb
    rcases List.mem_cons.mp hb with rfl | hb
    · exact absurd hs hns
    · exact hb
  · exact (hq.same (hhand t') (by rw [hi.hands.hand t']; exact hx)).1

/-! ## `tc_free` -/

/-- A span goes from hand to hand. -/
theorem HeapInv.handOver {h : Heap} {p q : SpanPlace} {S : SpanPtr} (hi : HeapInv d env h f)
    (hS : S ∈ f p) (hp : p.Loose) (hq : q.Loose) (hpq : p ≠ q) :
    HeapInv d env h (moved f p q S) where
  record := hi.record
  pages := hi.pages.congr_places (placed_moved hi.pages.placed hpq hS)
    fun _ _ hx => exists_of_mem_moved hi.pages.placed hpq hS hx
  links := hi.links.congr_loose fun _ hr =>
    moved_of_ne (SpanPlace.ne_of_loose hr hp) (SpanPlace.ne_of_loose hr hq)
  kinds := hi.kinds.place hi.pages.placed hpq hS (fun _ _ => ⟨rfl, rfl, rfl, rfl, rfl, rfl⟩)
    (Kind.of_loose hq ((hi.kinds.kind hS).clean hp.cls_eq)) hi.kinds.noStray

theorem sameClass_handOver {h : Heap} {p q : SpanPlace} {S : SpanPtr} (hp : p.Loose)
    (hq : q.Loose) :
    SameClass h h f (moved f p q S) := by
  have key : ∀ {r : SpanPlace} {i}, r.cls? = some i → moved f p q S r = f r := fun hr =>
    moved_of_ne (SpanPlace.ne_of_loose (SpanPlace.not_loose_of_cls hr) hp)
      (SpanPlace.ne_of_loose (SpanPlace.not_loose_of_cls hr) hq)
  refine ⟨fun i x => ⟨?_, ?_⟩, fun _ => rfl⟩
  · rintro ⟨r, hr, hx⟩
    exact ⟨r, hr, key hr ▸ hx⟩
  · rintro ⟨r, hr, hx⟩
    exact ⟨r, hr, (key hr).symm ▸ hx⟩

theorem mem_user {b : Block} (hh : HandInv d s f) (hb : b ∈ s.live) (hs : ¬ b.Small) :
    b.span ∈ f .user := by
  refine hh.user.mem_iff.mpr (List.mem_map.mpr ⟨b, ?_, rfl⟩)
  exact List.mem_filter.mpr ⟨hb, by simpa using hs⟩

/-- The page map gives the span of every live block. -/
theorem SysInv.mapAddr (hi : SysInv d env s f) {b : Block} (hb : b ∈ s.live) :
    mapAddrToSpan b.ptr s.heap = .ok (some b.span) := by
  by_cases hs : b.Small
  · obtain ⟨-, i, hobj, -⟩ := hi.objs.block hb hs
    exact hobj.2.mapAddr hi.heap hobj.1
  · have hu := mem_user hi.hands hb hs
    have ho := hi.heap.pages.owned hu
    have hpos := ho.pos
    rw [hi.hands.block hb hs]
    exact ho.mapAddr hi.heap.record.ini le_rfl (by omega)

/-- The block that `tc_free` takes from the live ones. -/
theorem exists_freed {live : List Block} {ptr : Nat} (h : ∃ b ∈ live, b.ptr = ptr) :
    ∃ b, b.ptr = ptr ∧ live.Perm (b :: live.eraseP fun b => b.ptr = ptr) := by
  obtain ⟨b, hb, hp⟩ := h
  obtain ⟨a, l₁, l₂, -, ha, hl, he⟩ :=
    List.exists_of_eraseP (p := fun b : Block => decide (b.ptr = ptr)) hb (by simpa using hp)
  exact ⟨a, by simpa using ha, by rw [he, hl]; exact List.perm_middle⟩

theorem smallPtrs_perm {l l' : List Block} (h : l.Perm l') : (smallPtrs l).Perm (smallPtrs l') :=
  (h.filter _).map _

theorem largeSpans_perm {l l' : List Block} (h : l.Perm l') :
    (largeSpans l).Perm (largeSpans l') :=
  (h.filter _).map _

/-- A freed object goes to the cache of the thread. -/
theorem cacheFreed_step (hi : SysInv d env s f) (hpc : s.pc t = .ready) {b : Block}
    {live : List Block} (hlive : s.live.Perm (b :: live)) (hs : b.Small) {i n : Nat}
    (hobj : IsObj s.heap f i b.span b.ptr) :
    SysInv d env (({ s with live := live } : Sys).setCache t i
      { s.cache t i with objs := b.ptr :: (s.cache t i).objs, objlen := n }) f := by
  have hb : b ∈ s.live := hlive.mem_iff.mpr List.mem_cons_self
  have horigin := (hi.objs.block hb hs).1
  have hsub : ∀ x ∈ live, x ∈ s.live := fun x hx => hlive.mem_iff.mpr (List.mem_cons_of_mem _ hx)
  have hsp := smallPtrs_perm hlive
  have hls := largeSpans_perm hlive
  rw [smallPtrs_cons, if_pos hs] at hsp
  rw [largeSpans_cons, if_pos hs] at hls
  refine ⟨hi.heap, hi.inMap, ⟨hi.hands.hand, hi.hands.user.trans hls,
    fun hx hxs => hi.hands.block (hsub _ hx) hxs, hi.hands.tag⟩,
    hi.objs.move (p := .live) (q := .cache t i) (m := [b.ptr]) (r := smallPtrs live)
      (l := b.ptr :: (s.cache t i).objs) (SameClass.refl _ _) (by simp) hsp (List.Perm.refl _)
      (by simp) (fun x hx => ?_) (fun _ _ => rfl) (fun _ _ _ _ => rfl)
      fun hx hxs => hi.objs.block (hsub _ hx) hxs,
    hi.threads.step (t := t) (fun _ _ => rfl) (fun t' h => setCache_thread _ _ h)
      (fun _ _ _ _ => rfl) (hi.threads.lock_same rfl Iff.rfl) (hi.threads.pcOk t)
      (fun j hj hb => ?_)
      fun j hb => ?_⟩
  · rw [List.mem_singleton.mp hx]
    show IsObj s.heap f i (s.origin b.ptr) b.ptr
    rw [← horigin]
    exact hobj
  · have hold := hi.threads.begun t j hj hb
    by_cases h : j = i
    · subst h; rw [setCache_self]; exact hold
    · rw [setCache_of_ne _ _ h]; exact hold
  · have hb' : ¬ Begun (s.pc t) j := hb
    rw [hpc] at hb'
    exact absurd trivial hb'

/-- The whole cache of a class leaves for the central cache. -/
theorem flushStart_step (hi : SysInv d env s f) (hpc : s.pc t = .ready) {i : Nat}
    (hcls : i < CLASSES)
    (hne : (s.cache t i).objs ≠ []) :
    SysInv d env ((s.setCache t i { s.cache t i with objs := [], objlen := 0 }).setPc t
      (.flush (s.cache t i).objs (indexToSize i))) f := by
  have hpc' : ∀ t', t' ≠ t → ((s.setCache t i { s.cache t i with objs := [], objlen := 0 }).setPc t
      (.flush (s.cache t i).objs (indexToSize i))).pc t' = s.pc t' := fun t' h =>
      setPc_pc_of_ne _ _ h
  have hnil : objsAt s (.hand t) = [] := by simp [objsAt, hpc, handObjs]
  refine ⟨hi.heap, hi.inMap, hi.hands.same (fun t' => ?_) rfl (fun _ h _ => h) rfl,
    hi.objs.move (p := .cache t i) (q := .hand t) (m := (s.cache t i).objs) (r := [])
      (l := (s.cache t i).objs) (SameClass.refl _ _) (by simp) (by simp [objsAt])
      (by rw [hnil, List.append_nil]) (by simp [handObjs]) (fun x hx => ?_) (fun _ _ => rfl)
      (fun t' x hx _ => ?_) fun hx hxs => hi.objs.block hx hxs,
    hi.threads.step (t := t) hpc' (fun t' h => setCache_thread _ _ h) (fun _ _ _ _ => rfl)
      (hi.threads.lock_same rfl (by rw [setPc_pc, hpc]; exact Iff.rfl))
      (by rw [setPc_pc]; exact ⟨hne, i, hcls, rfl⟩) (fun j hj _ => ?_)
      fun j hb => absurd trivial (by rw [setPc_pc] at hb; exact hb)⟩
  · by_cases h : t' = t
    · subst h; rw [setPc_pc, hpc]; rfl
    · rw [hpc' t' h]
  · have hobj : Sound s f (.cache t i) x := hi.objs.sound hx
    exact ⟨i, by rw [setPc_pc]; rfl, hobj⟩
  · by_cases h : t' = t
    · subst h; rw [hpc] at hx; cases hx
    · exact hpc' t' h
  · have hold := hi.threads.begun t j hj (by rw [hpc]; trivial)
    by_cases h : j = i
    · subst h; rw [setPc_cache, setCache_self]; exact hold
    · rw [setPc_cache, setCache_of_ne _ _ h]; exact hold

theorem setCache_setCache (s : Sys) (t i : Nat) (l l' : ThreadList) :
    (s.setCache t i l).setCache t i l' = s.setCache t i l' := by
  simp [Sys.setCache]

/-- A span goes from the user to the thread that frees it. -/
theorem freeLarge_step (hi : SysInv d env s f) (hpc : s.pc t = .ready) {b : Block}
    {live : List Block} (hlive : s.live.Perm (b :: live)) (hs : ¬ b.Small) :
    SysInv d env (({ s with live := live } : Sys).setPc t (.freeLarge b.span))
      (moved f .user (.hand t) b.span) := by
  have hb : b ∈ s.live := hlive.mem_iff.mpr List.mem_cons_self
  have hu := mem_user hi.hands hb hs
  have hsub : ∀ x ∈ live, x ∈ s.live := fun x hx => hlive.mem_iff.mpr (List.mem_cons_of_mem _ hx)
  have hsp := smallPtrs_perm hlive
  have hls := largeSpans_perm hlive
  rw [smallPtrs_cons, if_neg hs] at hsp
  rw [largeSpans_cons, if_neg hs] at hls
  have hpc' : ∀ t', t' ≠ t →
      (({ s with live := live } : Sys).setPc t (.freeLarge b.span)).pc t' = s.pc t' :=
    fun t' h => setPc_pc_of_ne _ _ h
  have hne : SpanPlace.user ≠ .hand t := by simp
  have hplaced := hi.heap.pages.placed
  have hnil : f (.hand t) = [] := by rw [hi.hands.hand t, hpc]; rfl
  refine ⟨hi.heap.handOver hu trivial trivial hne, hi.inMap, ⟨fun t' => ?_, ?_,
    fun hx hxs => hi.hands.block (hsub _ hx) hxs, fun ht x hx => ?_⟩, ?_,
    hi.threads.step (t := t) hpc' (fun _ _ => rfl) (fun _ _ _ _ => rfl)
      (hi.threads.lock_same rfl (by rw [setPc_pc, hpc]; exact Iff.rfl)) (by rw [setPc_pc]; trivial)
      (fun j hj _ => hi.threads.begun t j hj (by rw [hpc]; trivial))
      fun j hb => absurd trivial (by rw [setPc_pc] at hb; exact hb)⟩
  · by_cases h : t' = t
    · subst h
      rw [moved_self, hnil, setPc_pc]
      rfl
    · rw [moved_of_ne (by simp) (by simpa using h), hi.hands.hand t', hpc' t' h]
  · have h1 : moved f .user (.hand t) b.span .user = (f .user).erase b.span := by
      simp only [moved, Function.update_of_ne hne, Function.update_self]
    rw [h1]
    have h2 := (hi.hands.user.trans hls).erase b.span
    rwa [List.erase_cons_head] at h2
  · rcases mem_moved hplaced hne hu hx with ⟨e, -⟩ | ⟨-, hx⟩
    · cases e
    · exact hi.hands.tag ht x hx
  · have hc : SameClass s.heap s.heap f (moved f .user (.hand t) b.span) :=
      sameClass_handOver trivial trivial
    -- no object moves, but the live ones are listed in another order
    refine hi.objs.move (p := .live) (q := .hand t) (m := []) (r := smallPtrs live) (l := []) hc
      (by simp) hsp (by simp [objsAt, hpc, handObjs]) (by simp [handObjs]) (fun x hx => by cases hx)
      (fun _ _ => rfl) (fun t' x hx _ => ?_) fun hx hxs => hi.objs.block (hsub _ hx) hxs
    by_cases h : t' = t
    · subst h; rw [hpc] at hx; cases hx
    · exact hpc' t' h

/-- `tc_free` of a live pointer does not fault. -/
theorem tcFree_step (hi : SysInv d env s f) (hpc : s.pc t = .ready) {ptr : Nat}
    (hptr : ∃ b ∈ s.live, b.ptr = ptr) :
    Sat (tcFree s t ptr) (fun s' => ∃ f', SysInv d env s' f') (fun _ => False) := by
  obtain ⟨b, rfl, hlive⟩ := exists_freed hptr
  have hb : b ∈ s.live := hlive.mem_iff.mpr List.mem_cons_self
  simp only [tcFree, hi.mapAddr hb, ok_bind]
  by_cases hs : b.Small
  · obtain ⟨-, i, hobj, -⟩ := hi.objs.block hb hs
    obtain ⟨p, hp, hS⟩ := hobj.1
    have hk := hi.heap.kinds.carved hp hS
    have hpos := indexToSize_pos i
    rw [hk.objsSize, if_pos ⟨by omega, indexToSize_le hk.cls⟩]
    simp only [deallocate, sizeClass_indexToSize hk.cls, ok_bind]
    split_ifs with hfull
    · have hi₁ := cacheFreed_step (t := t) (n := 0) hi hpc hlive hs hobj
      have hi₂ := flushStart_step (t := t) (i := i) hi₁ hpc hk.cls (by rw [setCache_self]; simp)
      rw [setCache_setCache, setCache_self] at hi₂
      exact ⟨f, hi₂⟩
    · exact ⟨f, cacheFreed_step hi hpc hlive hs hobj⟩
  · have hu := mem_user hi.hands hb hs
    have hc : Clean s.heap b.span := (hi.heap.kinds.kind hu).clean rfl
    rw [hc.objsSize, if_neg (by simp)]
    exact ⟨_, freeLarge_step hi hpc hlive hs⟩

end Frame

end SearchEngine.TcMalloc
