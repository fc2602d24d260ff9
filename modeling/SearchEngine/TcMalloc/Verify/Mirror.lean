import SearchEngine.TcMalloc.Verify.FreeLists

/-!
# The code on pointers follows the code on lists

`m.Shows s`: the pointers of `m` lead through the free lists of `s`. Then each step of `System` is a
step of `FreeLists` too, which ends in pointers that lead through the lists after the step; it
writes in the first bytes of free objects only, and `allocate` returns the same object
(`step_mirrored`). Before there are threads the same holds of `tc_central_init`.
-/

namespace SearchEngine.TcMalloc

open ByteMemory LinkedPath LinkedRing Placement Outcome Reach

/-- The objects on the free lists, and in the hands of the threads. -/
def freeAt (s : Sys) : ObjPlace → List Nat
  | .live => []
  | p => objsAt s p

section FreeAt

variable {s : Sys} {p : ObjPlace} {o : Nat}

theorem freeAt_sublist (s : Sys) (p : ObjPlace) : (freeAt s p).Sublist (objsAt s p) := by
  cases p with
  | live => exact List.nil_sublist _
  | _ => exact List.Sublist.refl _

theorem mem_objsAt_of_free (h : o ∈ freeAt s p) : o ∈ objsAt s p := (freeAt_sublist s p).subset h

theorem ne_live_of_free (h : o ∈ freeAt s p) : p ≠ .live := by
  rintro rfl
  cases h

@[simp] theorem freeAt_setPc (s : Sys) (t : Tid) (pc : Pc) :
    freeAt (s.setPc t pc) = Function.update (freeAt s) (.hand t) (handObjs pc) := by
  funext p
  cases p with
  | live => rfl
  | hand t' =>
    by_cases ht : t' = t
    · subst ht
      simp [freeAt]
    · simp [freeAt, ht]
  | _ => simp [freeAt]

theorem freeAt_setPc_same {t : Tid} {pc : Pc} (h : freeAt s (.hand t) = handObjs pc) :
    freeAt (s.setPc t pc) = freeAt s := by
  rw [freeAt_setPc, ← h, Function.update_eq_self]

@[simp] theorem freeAt_setCache (s : Sys) (t : Tid) (i : Nat) (l : ThreadList) :
    freeAt (s.setCache t i l) = Function.update (freeAt s) (.cache t i) l.objs := by
  funext p
  cases p with
  | live => rfl
  | cache t' i' =>
    by_cases h : ObjPlace.cache t' i' = .cache t i
    · rw [h]
      simp [freeAt]
    · rw [Function.update_of_ne h]
      simp only [freeAt, objsAt_setCache, Function.update_of_ne h]
  | _ => simp [freeAt]

/-- The live blocks, the lock and the origins are on no list. -/
theorem freeAt_eq {s' : Sys} (hobjs : s'.heap.objs = s.heap.objs)
    (hcache : ∀ t i, (s'.cache t i).objs = (s.cache t i).objs)
    (hhand : ∀ t, handObjs (s'.pc t) = handObjs (s.pc t)) : freeAt s' = freeAt s := by
  funext p
  cases p with
  | live => rfl
  | span S => exact congrFun hobjs S
  | cache t i => exact hcache t i
  | hand t => exact hhand t

theorem freeAt_congr {s' : Sys} (hobjs : s'.heap.objs = s.heap.objs) (hcache : s'.cache = s.cache)
    (hpc : s'.pc = s.pc) : freeAt s' = freeAt s :=
  freeAt_eq hobjs (fun t i => by rw [hcache]) fun t => by rw [hpc]

theorem freeAt_heap {s' : Sys} {h : Heap} (hobjs : s'.heap.objs = h.objs)
    (hcache : s'.cache = s.cache) (hpc : s'.pc = s.pc) : freeAt s' = withSpans (freeAt s) h := by
  funext p
  cases p with
  | live => rfl
  | span S => exact congrFun hobjs S
  | cache t i => exact congrArg (fun c => (c t i).objs) hcache
  | hand t => exact congrArg (fun c => handObjs (c t)) hpc

/-- The list of one span changes. -/
theorem freeAt_span {s' : Sys} {S : SpanPtr} {l : List Nat}
    (hobjs : s'.heap.objs = Function.update s.heap.objs S l) (hcache : s'.cache = s.cache)
    (hpc : s'.pc = s.pc) : freeAt s' = Function.update (freeAt s) (.span S) l := by
  rw [freeAt_heap (h := s'.heap) rfl hcache hpc]
  funext p
  cases p with
  | span S' =>
    rw [withSpans, hobjs]
    by_cases h : S' = S
    · subst h
      rw [Function.update_self, Function.update_self]
    · rw [Function.update_of_ne h, Function.update_of_ne (by simpa using h)]
      rfl
  | _ => rfl

/-- The block returned to the user is on no list. -/
theorem freeAt_returnBlock (s : Sys) (t : Tid) (ptr size : Nat) (S : SpanPtr) :
    freeAt (returnBlock s t ptr size S) = Function.update (freeAt s) (.hand t) [] := by
  have hsame : freeAt { s with live := ⟨ptr, size, S⟩ :: s.live } = freeAt s :=
    freeAt_congr rfl rfl rfl
  rw [returnBlock, freeAt_setPc, hsame]
  rfl

end FreeAt

/-! ## Where the objects are -/

section Objects

variable {d : Discipline} {env : Env} {s : Sys} {h : Heap} {f : SpanPlace → List SpanPtr}
  {S S' : SpanPtr} {p q : ObjPlace} {i j o o' : Nat}

theorem SysInv.exists_isObj (hi : SysInv d env s f) (ho : o ∈ objsAt s p) :
    ∃ i S, IsObj s.heap f i S o := by
  have hsound := hi.objs.sound ho
  cases p with
  | span S =>
    obtain ⟨i, hobj⟩ := hsound
    exact ⟨i, S, hobj⟩
  | cache t i => exact ⟨i, _, hsound⟩
  | hand t =>
    obtain ⟨i, -, hobj⟩ := hsound
    exact ⟨i, _, hobj⟩
  | live =>
    obtain ⟨i, hobj⟩ := hsound
    exact ⟨i, _, hobj⟩

/-- The address of an object fits in a pointer. -/
theorem IsObj.isNode (hi : HeapInv d env h f) (ho : IsObj h f i S o) : IsNode PTRBYTES o := by
  obtain ⟨h1, h2⟩ := ho.inside hi
  obtain ⟨p, -, hS⟩ := ho.1
  have hown := hi.pages.owned hS
  have hmap := hown.inMap
  have hst := hown.start
  have h3 := env.ini_pos
  have h4 := env.ini_lt
  have h5 := indexToSize_pos i
  simp only [PAGEMAPSIZE] at hmap
  refine ⟨by omega, ?_⟩
  have hpow : 256 ^ PTRBYTES = 2 ^ 64 := by decide
  rw [hpow]
  omega

/-- The first bytes of two objects do not overlap. -/
theorem IsObj.apart (hi : HeapInv d env h f) (ho : IsObj h f i S o) (ho' : IsObj h f j S' o')
    (hne : o ≠ o') : Apart PTRBYTES o o' := by
  have hno := ho.not_meets hi ho' hne
  have h1 := indexToSize_pos i
  have h2 := indexToSize_pos j
  have hptr : PTRBYTES = 8 := rfl
  by_contra hmeet
  rw [Apart] at hmeet
  exact hno ⟨max o o', by omega, by omega, by omega, by omega⟩

/-- A pointer image that leads through the lists of the state. -/
def Image.Shows (m : Image) (s : Sys) : Prop := m.Lists (freeAt s)

theorem SysInv.apart (hi : SysInv d env s f) (ho : o ∈ objsAt s p) (ho' : o' ∈ objsAt s q)
    (hne : o ≠ o') : Apart PTRBYTES o o' := by
  obtain ⟨i, S, hobj⟩ := hi.exists_isObj ho
  obtain ⟨j, S', hobj'⟩ := hi.exists_isObj ho'
  exact hobj.apart hi.heap hobj' hne

theorem SysInv.isNode (hi : SysInv d env s f) (ho : o ∈ objsAt s p) : IsNode PTRBYTES o := by
  obtain ⟨i, S, hobj⟩ := hi.exists_isObj ho
  exact hobj.isNode hi.heap

/-- An object does not reach into a span that is not carved. -/
theorem SysInv.outside (hi : SysInv d env s f) (ho : o ∈ objsAt s p) {P : SpanPlace}
    (hS : S ∈ f P) (hP : P.cls? = none) (hpos : 0 < s.heap.pageSize S) :
    o + PTRBYTES ≤ s.heap.start S ∨ s.heap.start S + s.heap.pageSize S * 4096 ≤ o := by
  obtain ⟨i, S', hobj⟩ := hi.exists_isObj ho
  obtain ⟨q, hq, hS'⟩ := hobj.1
  have hne : S' ≠ S := by
    rintro rfl
    rw [hi.heap.pages.placed.unique hS' hS, hP] at hq
    cases hq
  have hno := hi.heap.not_meets hS' hS hne (hobj.inside hi.heap) ⟨le_rfl, le_rfl⟩
  have hsize := indexToSize_pos i
  have hptr : PTRBYTES = 8 := rfl
  by_contra hin
  exact hno ⟨max o (s.heap.start S), by omega, by omega, by omega, by omega⟩

end Objects

/-! ## One step -/

/-- What a step of the thread `t` does to the pointers and the bytes. -/
structure Mirrored (t : Tid) (s s' : Sys) (m m' : Image) : Prop where
  lists : m'.Shows s'
  kept : Touches (fun o => (∃ p, o ∈ freeAt s p) ∨ ∃ p, o ∈ freeAt s' p) m.mem m'.mem
  ret : ∀ b ∈ s'.live, b ∉ s.live → b.Small → m'.ret t = some b.ptr

section Steps

variable {env : Env} {s s' : Sys} {f : SpanPlace → List SpanPtr} {m : Image} {t : Tid} {i : Nat}

/-- A step without a free list. -/
theorem Mirrored.same (hm : m.Shows s) (hfree : freeAt s' = freeAt s)
    (hlive : ∀ b ∈ s'.live, b ∉ s.live → ¬ b.Small) : Mirrored t s s' m m where
  lists := by rwa [Image.Shows, hfree]
  kept := .refl
  ret b hb hnew hsmall := absurd hsmall (hlive b hb hnew)

/-- A step that clears a list. -/
theorem Mirrored.drop {p : ObjPlace} {m' : Image} (hm : m.Shows s)
    (hfree : freeAt s' = Function.update (freeAt s) p [])
    (hhead : m'.head = Function.update m.head p none) (hmem : m'.mem = m.mem)
    (hlive : s'.live = s.live) : Mirrored t s s' m m' where
  lists := by
    rw [Image.Shows, Image.Lists, hfree, hhead, hmem]
    exact Threaded.drop hm p
  kept := hmem ▸ .refl
  ret b hb hnew _ := absurd (hlive ▸ hb) hnew

/-- `allocate(nbytes)` -/
theorem allocate_mirrored {nbytes : Nat} (hm : m.Shows s) (hpc : s.pc t = .ready)
    (hrun : allocate s t nbytes = .ok s') :
    ∃ m', m.allocate t nbytes = .ok m' ∧ Mirrored t s s' m m' := by
  have hhand : freeAt s (.hand t) = [] := by simp only [freeAt, objsAt, hpc, handObjs]
  obtain ⟨i, hi, hrun⟩ := bind_eq_ok hrun
  simp only [Image.allocate, hi, ok_bind]
  cases hobjs : (s.cache t i).objs with
  | nil =>
    rw [hobjs] at hrun
    obtain rfl := Except.ok.inj hrun
    have hhead : m.cache t i = none := hm.head_eq_none (p := .cache t i) |>.mpr hobjs
    rw [hhead]
    refine ⟨m, rfl, Mirrored.same hm ?_ fun b hb hnew => absurd hb hnew⟩
    have hsame : (fetchAmount i (s.cache t i)).2.objs = freeAt s (.cache t i) :=
      (fetchAmount_spec i _).1
    have hcache : freeAt (s.setCache t i (fetchAmount i (s.cache t i)).2) = freeAt s := by
      rw [freeAt_setCache, hsame, Function.update_eq_self]
    exact (freeAt_setPc_same (hcache ▸ hhand)).trans hcache
  | cons o l =>
    rw [hobjs] at hrun
    obtain ⟨⟨pop, c⟩, hpop, hrun⟩ := bind_eq_ok hrun
    simp only [freelistPop, hobjs] at hpop
    obtain ⟨rfl, rfl⟩ := Prod.mk.inj (Except.ok.inj hpop)
    obtain rfl := Except.ok.inj hrun
    obtain ⟨m', hpop', hlists, hmem⟩ := Image.Lists.freelistPop hm (t := t) (i := i) hobjs
    have hhead : m.cache t i = some o := (Threaded.pop hm (p := .cache t i) hobjs).1
    rw [hhead, hpop']
    refine ⟨m'.setRet t o, rfl, ?_, ?_, ?_⟩
    · have hfree : freeAt (returnBlock (s.setCache t i { s.cache t i with
          objs := l, objlen := (s.cache t i).objlen - 1 }) t o nbytes (s.origin o)) =
          Function.update (freeAt s) (.cache t i) l := by
        have hne : ObjPlace.cache t i ≠ .hand t := by simp
        rw [freeAt_returnBlock, freeAt_setCache, Function.update_comm hne, ← hhand,
          Function.update_eq_self]
      rw [Image.Shows, hfree]
      exact hlists
    · exact hmem ▸ .refl
    · intro b hb hnew _
      rcases List.mem_cons.mp hb with rfl | hb
      · simp [Image.setRet]
      · exact absurd hb hnew

/-- `tc_free` of a small block. -/
theorem tcFree_mirrored {d : Discipline} {ptr : Nat} (hi : SysInv d env s f) (hm : m.Shows s)
    (hpc : s.pc t = .ready) (hlive : ∃ b ∈ s.live, b.ptr = ptr) (hrun : tcFree s t ptr = .ok s') :
    ∃ m', m.tcFree s t ptr = .ok m' ∧ Mirrored t s s' m m' := by
  obtain ⟨b, hb, rfl⟩ := hlive
  have hmap := hi.mapAddr hb
  simp only [tcFree, hmap, ok_bind] at hrun
  simp only [Image.tcFree, hmap, ok_bind]
  have hhand : freeAt s (.hand t) = [] := by simp only [freeAt, objsAt, hpc, handObjs]
  obtain ⟨s₁, hs₁⟩ : ∃ s₁ : Sys, s₁ = { s with live := s.live.eraseP fun c => c.ptr = b.ptr } :=
    ⟨_, rfl⟩
  have hfree₁ : freeAt s₁ = freeAt s := by
    rw [hs₁]
    exact freeAt_congr rfl rfl rfl
  have hfewer : s₁.live ⊆ s.live := by
    rw [hs₁]
    exact List.eraseP_subset
  rw [← hs₁] at hrun
  split_ifs at hrun ⊢ with hsize
  · -- the block is an object
    have hsmall : b.Small := by
      by_contra hlarge
      have hclean := hi.heap.kinds.kind (mem_user hi.hands hb hlarge)
      have hzero : s.heap.objsSize b.span = 0 := hclean.objsSize
      omega
    have hobj := mem_objsAt_live hb hsmall
    have hnew (q) : b.ptr ∉ freeAt s q := fun hq =>
      ne_live_of_free hq (hi.objs.placed.unique (mem_objsAt_of_free hq) hobj)
    obtain ⟨i, hi', hrun⟩ := bind_eq_ok hrun
    simp only [hi', ok_bind]
    obtain ⟨hlists, htouch⟩ := Image.Lists.deallocate (t := t) (i := i) (c := s.cache t i) hm hhand
      hnew (fun q o ho => hi.apart hobj (mem_objsAt_of_free ho) fun e => hnew q (e ▸ ho))
      (hi.isNode hobj)
    have hcache : s₁.cache = s.cache := by rw [hs₁]
    have hone (p) (hp : b.ptr ∈ freeAt s' p) : Touches
        (fun o => (∃ p, o ∈ freeAt s p) ∨ ∃ p, o ∈ freeAt s' p) m.mem
        (m.deallocate t i (s.cache t i) b.ptr).mem :=
      htouch.mono fun o ho => .inr ⟨p, ho ▸ hp⟩
    simp only [hcache] at hrun
    refine ⟨_, rfl, ?_⟩
    split_ifs at hrun hlists with hfull
    · obtain rfl := Except.ok.inj hrun
      have hfree : freeAt ((s₁.setCache t i { s.cache t i with objs := [], objlen := 0 }).setPc t
          (.flush (b.ptr :: (s.cache t i).objs) (s.heap.objsSize b.span))) =
          Function.update (Function.update (freeAt s) (.cache t i) []) (.hand t)
            (b.ptr :: freeAt s (.cache t i)) := by
        rw [freeAt_setPc, freeAt_setCache, hfree₁]
        rfl
      refine ⟨by rwa [Image.Shows, hfree], hone (.hand t) ?_, fun c hc hno => ?_⟩
      · rw [hfree, Function.update_self]
        exact List.mem_cons_self
      · exact absurd (hfewer hc) hno
    · obtain rfl := Except.ok.inj hrun
      have hfree : freeAt (s₁.setCache t i { s.cache t i with
          objs := b.ptr :: (s.cache t i).objs, objlen := (s.cache t i).objlen + 1 }) =
          Function.update (freeAt s) (.cache t i) (b.ptr :: freeAt s (.cache t i)) := by
        rw [freeAt_setCache, hfree₁]
        rfl
      refine ⟨by rwa [Image.Shows, hfree], hone (.cache t i) ?_, fun c hc hno => ?_⟩
      · rw [hfree, Function.update_self]
        exact List.mem_cons_self
      · exact absurd (hfewer hc) hno
  · obtain rfl := Except.ok.inj hrun
    refine ⟨m, rfl, Mirrored.same hm ?_ fun c hc hno => absurd (hfewer hc) hno⟩
    exact (freeAt_setPc_same (hfree₁ ▸ hhand)).trans hfree₁

/-- `tc_malloc` of a large block. -/
theorem mallocLarge_mirrored {h : Heap} {S : SpanPtr} {size : Nat} (hm : m.Shows s)
    (hpc : s.pc t = .ready) (hlarge : ¬ size ≤ THRESHALLOC) (hobjs : h.objs = s.heap.objs) :
    Mirrored t s (returnBlock { s with heap := h } t (h.start S) size S) m m := by
  have hsame : freeAt { s with heap := h } = freeAt s := freeAt_congr hobjs rfl rfl
  refine Mirrored.same hm ?_ fun b hb hnew => ?_
  · have hhand : freeAt s (.hand t) = [] := by simp only [freeAt, objsAt, hpc, handObjs]
    rw [freeAt_returnBlock, hsame, ← hhand, Function.update_eq_self]
  · rcases List.mem_cons.mp hb with rfl | hb
    · exact hlarge
    · exact absurd hb hnew

/-- The end of `fetch_objs`. -/
theorem endFetch_mirrored {k : Caller} {num : Nat} {S : SpanPtr} (hm : m.Shows s)
    (hhand : freeAt s (.hand t) = []) (hrun : endFetch s t k i num S = .ok s') :
    ∃ m', m.fetchObjs t num S s.heap = .ok m' ∧ Mirrored t s s' m m' ∧
      ∀ p, ∀ o ∈ freeAt s p, ∃ q, o ∈ freeAt s' q := by
  obtain ⟨⟨batch, h'⟩, htake, hrun⟩ := bind_eq_ok hrun
  obtain rfl := Except.ok.inj hrun
  obtain ⟨hne, rfl, hobjs, -⟩ := takeObjs_objs htake
  obtain ⟨n, hn⟩ : ∃ n, n = Image.maxIter num S s.heap := ⟨_, rfl⟩
  have hfirst : (freeAt s (.span S)).take (Image.maxIter num S s.heap) ≠ [] := hne
  obtain ⟨m', hrun', hlists, htouch⟩ := Image.Lists.fetchObjs hm hhand hfirst
  rw [← hn] at hobjs hlists ⊢
  obtain ⟨s₁, hs₁⟩ : ∃ s₁ : Sys, s₁ = { s with
      heap := h'
      centralLock := none
      origin := fun obj => if obj ∈ (s.heap.objs S).take n then S else s.origin obj } := ⟨_, rfl⟩
  rw [← hs₁]
  have hspan : freeAt s₁ = Function.update (freeAt s) (.span S) ((freeAt s (.span S)).drop n) := by
    rw [hs₁]
    exact freeAt_span hobjs rfl rfl
  have hlive : s₁.live = s.live := by rw [hs₁]
  have hfree : freeAt (s₁.setPc t (.insert k i ((s.heap.objs S).take n))) =
      Function.update (Function.update (freeAt s) (.span S) ((freeAt s (.span S)).drop n)) (.hand t)
        ((freeAt s (.span S)).take n) := by
    rw [freeAt_setPc, hspan]
    rfl
  refine ⟨m', hrun', ⟨by rwa [Image.Shows, hfree], ?_, fun b hb hno => absurd (hlive ▸ hb) hno⟩,
    fun p o ho => ?_⟩
  · exact htouch.mono fun o ho => .inl ⟨_, ho⟩
  · rw [hfree]
    by_cases hp : p = .span S
    · subst hp
      rw [← List.take_append_drop n (freeAt s (.span S)), List.mem_append] at ho
      rcases ho with ho | ho
      · exact ⟨.hand t, by rwa [Function.update_self]⟩
      · exact ⟨.span S, by rwa [Function.update_of_ne (by simp), Function.update_self]⟩
    · by_cases hpt : p = .hand t
      · subst hpt
        rw [hhand] at ho
        cases ho
      · exact ⟨p, by rwa [Function.update_of_ne hpt, Function.update_of_ne hp]⟩

/-- Steps follow each other. -/
theorem Mirrored.trans {s₁ : Sys} {m₁ m' : Image} (h : Mirrored t s s₁ m m₁)
    (h' : Mirrored t s₁ s' m₁ m') (hstay : ∀ p, ∀ o ∈ freeAt s₁ p, ∃ q, o ∈ freeAt s' q)
    (hlive : s₁.live = s.live) : Mirrored t s s' m m' where
  lists := h'.lists
  kept := by
    refine (h.kept.mono fun o ho => ?_).trans (h'.kept.mono fun o ho => ?_)
    · rcases ho with ho | ⟨p, ho⟩
      · exact .inl ho
      · exact .inr (hstay p o ho)
    · rcases ho with ⟨p, ho⟩ | ho
      · exact .inr (hstay p o ho)
      · exact .inr ho
  ret b hb hno hsmall := h'.ret b hb (hlive ▸ hno) hsmall

/-- The part of `get_span_central` after `fetch_span`. -/
theorem carveSpan_mirrored {d : Discipline} {S : SpanPtr} (hi : SysInv d env s f) (hm : m.Shows s)
    (hS : S ∈ f (.hand t)) (hpages : s.heap.pageSize S = BATCH) (hcls : i < CLASSES) :
    Mirrored t s { s with heap := carveSpan (indexToSize i) i S s.heap } m
      (m.carveSpan (indexToSize i) S s.heap) := by
  have hsize := indexToSize_pos i
  have hown := hi.heap.pages.owned hS
  have hbytes : pagesToBytes32 (s.heap.pageSize S) = 524288 := by rw [hpages]; rfl
  have hst := hown.start
  have hmap := hown.inMap
  have h1 := env.ini_pos
  have h2 := env.ini_lt
  simp only [PAGEMAPSIZE, hpages, BATCH] at hmap
  have hpow : 256 ^ PTRBYTES = 2 ^ 64 := by decide
  have hout : ∀ q, ∀ b ∈ freeAt s q, b + PTRBYTES ≤ s.heap.start S ∨
      s.heap.start S + pagesToBytes32 (s.heap.pageSize S) ≤ b := fun q b hb => by
    have hout := hi.outside (mem_objsAt_of_free hb) hS rfl hown.pos
    rw [hpages] at hout
    rw [hbytes]
    simp only [BATCH] at hout
    omega
  have hcarve := Image.Lists.carveLoop hm (S := S) hsize (by omega) (by rw [hpow, hbytes]; omega)
    hout
  rw [Nat.add_sub_cancel_left, hbytes, show 524288 / indexToSize i = capacity i from rfl] at hcarve
  obtain ⟨hlists, htouch⟩ := hcarve
  have hobjs : (carveSpan (indexToSize i) i S s.heap).objs = Function.update s.heap.objs S
      ((objsFrom (s.heap.start S) (indexToSize i) (capacity i)).reverse ++ s.heap.objs S) := by
    rw [carveSpan_eq hpages hcls]
    rfl
  have hfree : freeAt { s with heap := carveSpan (indexToSize i) i S s.heap } =
      Function.update (freeAt s) (.span S)
        ((objsFrom (s.heap.start S) (indexToSize i) (capacity i)).reverse ++ freeAt s (.span S)) :=
    freeAt_span hobjs rfl rfl
  have himage : m.carveSpan (indexToSize i) S s.heap =
      m.carveLoop (indexToSize i) (s.heap.start S + 524288) S (s.heap.start S) := by
    rw [Image.carveSpan, hbytes]
  rw [himage]
  refine ⟨by rwa [Image.Shows, hfree], htouch.mono fun o ho => .inr ⟨.span S, ?_⟩,
    fun b hb hno => absurd hb hno⟩
  rw [hfree, Function.update_self]
  exact List.mem_append_left _ (List.mem_reverse.mpr ho)

/-- A list is shorter than the heap. -/
theorem SysInv.length_le {d : Discipline} (hi : SysInv d env s f) (p : ObjPlace) :
    (objsAt s p).length ≤ s.heap.brk + 1 := by
  have hsub : objsAt s p ⊆ List.range s.heap.brk := by
    intro o ho
    obtain ⟨i, S, hobj⟩ := hi.exists_isObj ho
    obtain ⟨q, -, hS⟩ := hobj.1
    have hin := hobj.inside hi.heap
    have hown := hi.heap.pages.owned hS
    have hbrk := hown.inBrk
    have hst := hown.start
    have hsize := indexToSize_pos i
    obtain ⟨h1, h2⟩ := hin
    exact List.mem_range.mpr (by omega)
  have hle := (List.Nodup.subperm (hi.objs.placed.nodup p) hsub).length_le
  rw [List.length_range] at hle
  omega

/-- The rest of `fetch_from_centralcache`. -/
theorem finishFetch_mirrored {d : Discipline} {k : Caller} {batch : List Nat}
    (hi : SysInv d env s f) (hm : m.Shows s) (hpc : s.pc t = .insert k i batch)
    (hrun : finishFetch s t k i batch = .ok s') :
    ∃ m', m.continueCall s t (.insert k i batch) = .ok m' ∧ Mirrored t s s' m m' := by
  have hhand : freeAt s (.hand t) = batch := by simp only [freeAt, objsAt, hpc, handObjs]
  have hlen : batch.length ≤ s.heap.brk + 1 := hhand ▸ hi.length_le (.hand t)
  have hne : ObjPlace.cache t i ≠ .hand t := by simp
  obtain ⟨m₁, hrun₁, hlists₁, htouch₁⟩ :=
    Image.Lists.insertToThreadcache (t := t) (i := i) hm hhand hlen
  have hkept : Touches (fun o => (∃ p, o ∈ freeAt s p) ∨ ∃ p, o ∈ freeAt s' p) m.mem m₁.mem :=
    htouch₁.mono fun o ho => .inl ⟨.hand t, hhand ▸ ho⟩
  simp only [finishFetch, insertToThreadcache_eq] at hrun
  simp only [Image.continueCall, hrun₁, ok_bind]
  cases k with
  | threadInit j =>
    obtain rfl := Except.ok.inj hrun
    refine ⟨m₁, rfl, ?_, hkept, fun b hb hno => absurd hb hno⟩
    rw [Image.Shows, freeAt_setPc, freeAt_setCache, Function.update_comm hne]
    exact hlists₁
  | allocate nbytes =>
    obtain ⟨⟨pop, c⟩, hpop, hrun⟩ := bind_eq_ok hrun
    obtain rfl := Except.ok.inj hrun
    cases hbatch : batch.reverse ++ (s.cache t i).objs with
    | nil =>
      simp only [freelistPop, hbatch] at hpop
      cases hpop
    | cons o l =>
      simp only [freelistPop, hbatch] at hpop
      obtain ⟨rfl, rfl⟩ := Prod.mk.inj (Except.ok.inj hpop)
      have hcache : Function.update (Function.update (freeAt s) (.hand t) []) (.cache t i)
          (batch.reverse ++ freeAt s (.cache t i)) (.cache t i) = o :: l := by
        rw [Function.update_self]
        exact hbatch
      obtain ⟨m₂, hrun₂, hlists₂, hmem₂⟩ := hlists₁.freelistPop hcache
      rw [hrun₂]
      refine ⟨m₂.setRet t o, rfl, ?_, ?_, ?_⟩
      · rw [Function.update_idem] at hlists₂
        have hfree : freeAt (returnBlock
          (s.setCache t i ⟨l, (s.cache t i).objlen + batch.length - 1,
            (s.cache t i).maxLength⟩) t o nbytes (s.origin o)) =
            Function.update (Function.update (freeAt s) (.hand t) []) (.cache t i) l := by
          rw [freeAt_returnBlock, freeAt_setCache, Function.update_comm hne]
        rw [Image.Shows, hfree]
        exact hlists₂
      · exact hmem₂ ▸ hkept
      · intro b hb hno _
        rcases List.mem_cons.mp hb with rfl | hb
        · simp [Image.setRet]
        · exact absurd hb hno

/-- `return_objs_to_centralcache` up to its call of `return_span_to_pgcache`. -/
theorem returnObjs_mirrored {d : Discipline} {batch : List Nat} {nbytes : Nat} {h : Heap}
    {o : Option SpanPtr} (hi : SysInv d env s f) (hm : m.Shows s)
    (hpc : s.pc t = .flush batch nbytes) (hrun : returnObjs batch nbytes s.heap = .ok (o, h))
    (hs' : freeAt s' = Function.update (withSpans (freeAt s) h) (.hand t) [])
    (hlive : s'.live = s.live) :
    ∃ m', m.returnObjs t s.heap = .ok m' ∧ Mirrored t s s' m m' := by
  have hhand : freeAt s (.hand t) = batch := by simp only [freeAt, objsAt, hpc, handObjs]
  have hlen : batch.length ≤ s.heap.brk + 1 := hhand ▸ hi.length_le (.hand t)
  obtain ⟨S, h₁, hloop, hobjs, -⟩ := returnObjs_objs hrun
  obtain ⟨m₁, hrun₁, hlists₁, htouch₁⟩ :=
    Image.Lists.returnLoop hm hhand (fun _ => rfl) hlen hloop
  have hfree {g : Heap} : Function.update (withSpans (freeAt s) g) (.hand t) [] =
      withSpans (Function.update (freeAt s) (.hand t) []) g := by
    funext p
    cases p with
    | hand t' =>
      by_cases ht : t' = t
      · subst ht
        simp [withSpans]
      · simp [withSpans, ht]
    | _ => simp [withSpans]
  rw [hfree] at hs'
  simp only [Image.returnObjs, hrun₁, ok_bind]
  have hkept : Touches (fun o => (∃ p, o ∈ freeAt s p) ∨ ∃ p, o ∈ freeAt s' p) m.mem m₁.mem :=
    htouch₁.mono fun o ho => .inl ⟨.hand t, hhand ▸ ho⟩
  split_ifs at hobjs ⊢ with hzero
  · refine ⟨_, rfl, ?_, hkept, fun b hb hno => absurd (hlive ▸ hb) hno⟩
    have hdrop : withSpans (Function.update (freeAt s) (.hand t) []) h =
        Function.update (withSpans (Function.update (freeAt s) (.hand t) []) h₁) (.span S) [] := by
      funext p
      cases p with
      | span S' =>
        simp only [withSpans, hobjs]
        by_cases hS : S' = S
        · subst hS
          simp
        · simp [hS, withSpans]
      | _ => simp [withSpans]
    rw [Image.Shows, Image.Lists, hs', hdrop, Image.head_setObjs]
    exact Threaded.drop hlists₁ (.span S)
  · refine ⟨_, rfl, ?_, hkept, fun b hb hno => absurd (hlive ▸ hb) hno⟩
    have hsame : withSpans (Function.update (freeAt s) (.hand t) []) h =
        withSpans (Function.update (freeAt s) (.hand t) []) h₁ := by
      funext p
      cases p with
      | span S' => simp only [withSpans, hobjs]
      | _ => rfl
    rwa [Image.Shows, hs', hsame]

/-- After the loop every list holds objects of its span. -/
theorem returnLoop_isObj {d : Discipline} {batch : List Nat} {nbytes : Nat} {h : Heap}
    {last : Option SpanPtr} (hi : SysInv d env s f) (hpc : s.pc t = .flush batch nbytes)
    (hloop : returnLoop batch none s.heap = .ok (last, h)) (ho : o ∈ h.objs S) :
    ∃ i, IsObj s.heap f i S o := by
  obtain ⟨-, -, hold⟩ := returnLoop_objs hloop
  rcases hold S o ho with ⟨hbatch, hmap⟩ | ho
  · have hhand : o ∈ objsAt s (.hand t) := by simpa only [objsAt, hpc, handObjs] using hbatch
    obtain ⟨i, -, hobj⟩ := hi.objs.sound hhand
    obtain rfl : s.origin o = S :=
      Option.some.inj (Except.ok.inj ((hobj.2.mapAddr hi.heap hobj.1).symm.trans hmap))
    exact ⟨i, hobj⟩
  · exact hi.objs.sound (p := .span S) ho

/-- Where the links of the objects that were returned lead: to an object of the same span. The two
are on its list, unless it is the span that goes to the page heap. -/
theorem returnObjs_links {d : Discipline} {batch : List Nat} {nbytes a b : Nat} {h : Heap}
    {last : Option SpanPtr} {m' : Image} (hi : SysInv d env s f) (hm : m.Shows s)
    (hpc : s.pc t = .flush batch nbytes) (hrun : returnObjs batch nbytes s.heap = .ok (last, h))
    (himage : m.returnObjs t s.heap = .ok m') (ha : a ∈ batch)
    (hb : link PTRBYTES m'.mem a = some b) :
    ∃ S, ((a ∈ h.objs S ∧ b ∈ h.objs S) ∨ last = some S) ∧ (∃ i, IsObj s.heap f i S a) ∧
      ∃ i, IsObj s.heap f i S b := by
  have hhand : freeAt s (.hand t) = batch := by simp only [freeAt, objsAt, hpc, handObjs]
  have hlen : batch.length ≤ s.heap.brk + 1 := hhand ▸ hi.length_le (.hand t)
  obtain ⟨S, h₁, hloop, hobjs, hlast, -, -⟩ := returnObjs_objs hrun
  obtain ⟨m₁, hrun₁, hlists₁, -⟩ := Image.Lists.returnLoop hm hhand (fun _ => rfl) hlen hloop
  have hmem : m'.mem = m₁.mem := by
    simp only [Image.returnObjs, hrun₁, ok_bind] at himage
    split at himage
    · obtain rfl := Except.ok.inj himage
      rfl
    · obtain rfl := Except.ok.inj himage
      rfl
  obtain ⟨hin, -, -⟩ := returnLoop_objs hloop
  obtain ⟨S', hS'⟩ := hin a ha
  rw [hmem] at hb
  have hnext : b ∈ h₁.objs S' := (hlists₁.path (.span S')).next_mem hS' hb
  refine ⟨S', ?_, returnLoop_isObj hi hpc hloop hS', returnLoop_isObj hi hpc hloop hnext⟩
  by_cases hzero : h₁.objRefcount S = 0
  · rw [if_pos hzero] at hobjs hlast
    by_cases hS : S' = S
    · exact .inr (hS ▸ hlast)
    · rw [hobjs, Function.update_of_ne hS]
      exact .inl ⟨hS', hnext⟩
  · rw [if_neg hzero] at hobjs
    exact .inl (hobjs ▸ ⟨hS', hnext⟩)

/-- `return_span_to_pgcache` -/
theorem returnSpan_mirrored {h : Heap} {S : SpanPtr} {l : Option Tid} (hm : m.Shows s)
    (hhand : freeAt s (.hand t) = []) (hrun : returnSpanToPgcache S s.heap = .ok h) :
    Mirrored t s (({ s with heap := h, centralLock := l } : Sys).setPc t .ready) m
      (m.setObjs S none) := by
  have hspan : freeAt { s with heap := h, centralLock := l } =
      Function.update (freeAt s) (.span S) [] :=
      freeAt_span (returnSpanToPgcache_objs hrun).1 rfl rfl
  have hempty : freeAt { s with heap := h, centralLock := l } (.hand t) = handObjs .ready := by
    rw [hspan, Function.update_of_ne (by simp)]
    exact hhand
  have hfree := (freeAt_setPc_same hempty).trans hspan
  exact Mirrored.drop hm hfree Image.head_setObjs rfl rfl

/-- The search by pointers finds what the search by lists does. -/
theorem Image.Shows.scanCentral (hm : m.Shows s) (i : Nat) :
    m.scanCentral i s.heap = TcMalloc.scanCentral i s.heap := by
  have htest : (fun S => decide (m.objs S ≠ none)) = fun S => decide (s.heap.objs S ≠ []) := by
    funext S
    have hiff : m.objs S = none ↔ s.heap.objs S = [] := hm.head_eq_none (p := .span S)
    exact decide_eq_decide.mpr (not_congr hiff)
  rw [Image.scanCentral, htest]
  rfl

/-- A step of a call in progress. -/
theorem continueCall_mirrored {d : Discipline} (hs : env.Succeeds) (hi : SysInv d env s f)
    (hm : m.Shows s) (hmet : FetchMet s (t, .run)) (hrun : continueCall env s t (s.pc t) = .ok s') :
    ∃ m', m.continueCall s t (s.pc t) = .ok m' ∧ Mirrored t s s' m m' := by
  have hsame {l : Option Tid} {pc : Pc} (hhand : freeAt s (.hand t) = handObjs pc) :
      Mirrored t s (({ s with centralLock := l } : Sys).setPc t pc) m m := by
    have hlock : freeAt { s with centralLock := l } = freeAt s := freeAt_congr rfl rfl rfl
    exact Mirrored.same hm ((freeAt_setPc_same (hlock ▸ hhand)).trans hlock)
      fun b hb hno => absurd hb hno
  have hempty (hpc : handObjs (s.pc t) = []) : freeAt s (.hand t) = [] := hpc
  have hok := hi.threads.pcOk t
  simp only [FetchMet] at hmet
  cases hpc : s.pc t with
  | start | ready =>
    rw [hpc] at hrun
    obtain rfl := Except.ok.inj hrun
    exact ⟨m, rfl, Mirrored.same hm rfl fun b hb hno => absurd hb hno⟩
  | initLoop i =>
    rw [hpc] at hrun
    have hhand := hempty (by rw [hpc]; rfl)
    simp only [continueCall, Image.continueCall] at hrun ⊢
    split_ifs at hrun ⊢ with hlt
    · obtain rfl := Except.ok.inj hrun
      refine ⟨_, rfl, Mirrored.drop (p := .cache t i) hm ?_ Image.head_setCache rfl rfl⟩
      have hobjs : (fetchAmount i ((s.setCache t i initThreadlist).cache t i)).2.objs = [] := by
        rw [(fetchAmount_spec i _).1]
        simp [Sys.setCache, initThreadlist]
      simp only [startFetch]
      refine (freeAt_setPc_same ?_).trans ?_
      · rw [freeAt_setCache, freeAt_setCache, Function.update_of_ne (by simp),
          Function.update_of_ne (by simp)]
        exact hhand
      · rw [freeAt_setCache, freeAt_setCache, Function.update_idem, hobjs]
    · obtain rfl := Except.ok.inj hrun
      exact ⟨m, rfl, hsame hhand⟩
  | fetch k i num =>
    rw [hpc] at hrun
    have hhand := hempty (by rw [hpc]; rfl)
    simp only [continueCall, Image.continueCall, hm.scanCentral] at hrun ⊢
    obtain ⟨found, hscan, hrun⟩ := bind_eq_ok hrun
    rw [hscan, ok_bind]
    cases found with
    | some S =>
      obtain ⟨m', hrun', hmir, -⟩ := endFetch_mirrored hm hhand hrun
      exact ⟨m', hrun', hmir⟩
    | none =>
      obtain rfl := Except.ok.inj hrun
      exact ⟨m, rfl, hsame hhand⟩
  | refill k i num =>
    rw [hpc] at hrun hmet
    have hhand := hempty (by rw [hpc]; rfl)
    obtain ⟨⟨S, h⟩, hfetch, hrun⟩ := bind_eq_ok hrun
    obtain rfl := Except.ok.inj hrun
    obtain ⟨f', hf, -⟩ := (fetchSpan_sat hs hi.heap hi.inMap (by decide) hmet
      (show (SpanPlace.hand t).Loose from trivial)).of_ok hfetch
    have hheap : freeAt { s with heap := h } = freeAt s := freeAt_congr hf.quiet.objs rfl rfl
    refine ⟨m, rfl, Mirrored.same hm ?_ fun b hb hno => absurd hb hno⟩
    exact (freeAt_setPc_same (hheap ▸ hhand)).trans hheap
  | carve k i num S =>
    rw [hpc] at hrun hok
    have hhand := hempty (by rw [hpc]; rfl)
    have hS : S ∈ f (.hand t) := by
      rw [hi.hands.hand t, hpc]
      exact List.mem_cons_self
    have hcarve := carveSpan_mirrored hi hm hS hok.2.2.2 hok.1
    have hhand₁ : freeAt { s with heap := carveSpan (indexToSize i) i S s.heap }
      (.hand t) = [] := hhand
    obtain ⟨m', hrun', hmir, hstay⟩ := endFetch_mirrored hcarve.lists hhand₁ hrun
    exact ⟨m', hrun', hcarve.trans hmir hstay rfl⟩
  | insert k i batch =>
    rw [hpc] at hrun
    exact finishFetch_mirrored hi hm hpc hrun
  | flush batch nbytes =>
    rw [hpc] at hrun
    obtain ⟨⟨o, h⟩, hobjs, hrun⟩ := bind_eq_ok hrun
    have hfree {l : Option Tid} {pc : Pc} (hnil : handObjs pc = []) :
        freeAt (({ s with heap := h, centralLock := l } : Sys).setPc t pc) =
          Function.update (withSpans (freeAt s) h) (.hand t) [] := by
      have hheap : freeAt { s with heap := h, centralLock := l } = withSpans (freeAt s) h :=
        freeAt_heap rfl rfl rfl
      rw [freeAt_setPc, hheap, hnil]
    cases o with
    | none =>
      obtain rfl := Except.ok.inj hrun
      exact returnObjs_mirrored hi hm hpc hobjs (hfree rfl) rfl
    | some S =>
      obtain rfl := Except.ok.inj hrun
      exact returnObjs_mirrored hi hm hpc hobjs (hfree rfl) rfl
  | recycle S | freeLarge S =>
    rw [hpc] at hrun
    have hhand := hempty (by rw [hpc]; rfl)
    obtain ⟨h, hret, hrun⟩ := bind_eq_ok hrun
    obtain rfl := Except.ok.inj hrun
    exact ⟨_, rfl, returnSpan_mirrored hm hhand hret⟩

theorem Enabled.malloc_ready {size : Nat} (h : Enabled s (t, .malloc size)) : s.pc t = .ready := by
  simp only [Enabled] at h
  cases hpc : s.pc t with
  | ready => rfl
  | _ =>
    rw [hpc] at h
    exact h.elim

theorem Enabled.free_ready {ptr : Nat} (h : Enabled s (t, .free ptr)) :
    s.pc t = .ready ∧ ∃ b ∈ s.live, b.ptr = ptr := by
  simp only [Enabled] at h
  cases hpc : s.pc t with
  | ready =>
    rw [hpc] at h
    exact ⟨rfl, h⟩
  | _ =>
    rw [hpc] at h
    exact h.elim

/-- The code on pointers follows a step of `System`. -/
theorem step_mirrored {d : Discipline} {e : Event} (hs : env.Succeeds) (hi : SysInv d env s f)
    (hm : m.Shows s) (hmet : FetchMet s e) (hstep : Step env s e s') :
    ∃ m', m.step s e = .ok m' ∧ Mirrored e.1 s s' m m' := by
  obtain ⟨t, act⟩ := e
  obtain ⟨hen, hrun⟩ := hstep
  cases act with
  | init =>
    obtain rfl := Except.ok.inj hrun
    simp only [Enabled] at hen
    cases hpc : s.pc t with
    | start =>
      have hhand : freeAt s (.hand t) = [] := by simp only [freeAt, objsAt, hpc, handObjs]
      exact ⟨m, rfl, Mirrored.same hm (freeAt_setPc_same hhand) fun b hb hno => absurd hb hno⟩
    | _ =>
      rw [hpc] at hen
      exact hen.elim
  | malloc size =>
    have hpc := Enabled.malloc_ready hen
    simp only [next, tcMalloc] at hrun
    simp only [Image.step, Image.tcMalloc]
    split_ifs at hrun ⊢ with hsize
    · exact allocate_mirrored hm hpc hrun
    · obtain ⟨⟨S, h⟩, hfetch, hrun⟩ := bind_eq_ok hrun
      obtain rfl := Except.ok.inj hrun
      have hlt : THRESHALLOC < size := not_le.mp hsize
      have hpos := bytesToPages_pos hlt
      obtain ⟨f', hf, -⟩ := (fetchSpan_sat hs hi.heap hi.inMap hpos (hmet hlt)
        (show SpanPlace.user.Loose from trivial)).of_ok hfetch
      exact ⟨m, rfl, mallocLarge_mirrored hm hpc hsize hf.quiet.objs⟩
  | free ptr =>
    obtain ⟨hpc, hlive⟩ := Enabled.free_ready hen
    exact tcFree_mirrored hi hm hpc hlive hrun
  | run => exact continueCall_mirrored hs hi hm hmet hrun

end Steps

/-! ## The start -/

section Start

variable {d : Discipline} {env : Env} {h h' : Heap} {f : SpanPlace → List SpanPtr} {m : Image}
  {i : Nat}

/-- `tc_central_init` between `fetch_span` and the carving. -/
theorem SysInv.fetched_init {S : SpanPtr} (hs : env.Succeeds) (hi : SysInv d env (Sys.initial h) f)
    (hr : ∀ r ∈ h.regions, r < 2 ^ 32) (hcls : i < CLASSES)
    (hrun : fetchSpan env BATCH h = .ok (S, h')) : ∃ s f', SysInv d env s f' ∧ s.heap = h' ∧
      S ∈ f' (.hand 0) ∧ h'.pageSize S = BATCH ∧ freeAt s = freeAt (Sys.initial h) ∧
      ∀ g, freeAt { s with heap := g } = freeAt (Sys.initial g) := by
  have hother (pc : Pc) {t : Tid} (ht : t ≠ 0) : (initThread h pc).pc t = .start := by
    simp [initThread, ht]
  have hself (pc : Pc) : (initThread h pc).pc 0 = pc := by simp [initThread]
  have hi₁ := hi.init_refill hcls
  have hok : FetchOk h BATCH := hi.heap.fetchOk hr (fun _ => by decide) fun _ => by decide
  obtain ⟨f', hf, hsz, -⟩ := (fetchSpan_sat hs hi.heap hi.inMap (by decide) hok
    (show (SpanPlace.hand 0).Loose from trivial)).of_ok hrun
  have hpages := hsz.trans hi.heap.fetchedPages_batch
  have hi₂ := refill_step (t := 0) (k := .threadInit i) (i := i) (n := 1) hi₁ (hself _) hf hpages
  have hhand (t : Tid) : handObjs ((({ initThread h (.refill (.threadInit i) i 1) with
      heap := h' } : Sys).setPc 0 (.carve (.threadInit i) i 1 S)).pc t) = [] := by
    by_cases ht : t = 0
    · subst ht
      rw [setPc_pc]
      rfl
    · rw [setPc_pc_of_ne _ _ ht]
      exact congrArg handObjs (hother _ ht)
  refine ⟨_, f', hi₂, rfl, ?_, hpages, freeAt_eq hf.quiet.objs (fun _ _ => rfl) hhand,
    fun g => freeAt_eq rfl (fun _ _ => rfl) hhand⟩
  rw [hf.dst]
  exact List.mem_cons_self

/-- A round of the loop of `tc_central_init`. -/
theorem getSpanCentral_shows {S : SpanPtr} (hs : env.Succeeds)
    (hi : SysInv d env (Sys.initial h) f) (hr : ∀ r ∈ h.regions, r < 2 ^ 32) (hcls : i < CLASSES)
    (hm : m.Shows (Sys.initial h)) (hrun : getSpanCentral env (indexToSize i) h = .ok (S, h')) :
    ∃ m', m.getSpanCentral env (indexToSize i) h = .ok m' ∧ m'.Shows (Sys.initial h') := by
  have hscan : m.scanCentral i h = scanCentral i h := hm.scanCentral i
  simp only [getSpanCentral, sizeClass_indexToSize hcls, ok_bind] at hrun
  simp only [Image.getSpanCentral, sizeClass_indexToSize hcls, ok_bind, hscan]
  obtain ⟨found, hfound, hrun⟩ := bind_eq_ok hrun
  rw [hfound, ok_bind]
  cases found with
  | some S' =>
    obtain ⟨-, rfl⟩ := Prod.mk.inj (Except.ok.inj hrun)
    exact ⟨m, rfl, hm⟩
  | none =>
    obtain ⟨⟨S', h₁⟩, hfetch, hrun⟩ := bind_eq_ok hrun
    obtain ⟨rfl, rfl⟩ := Prod.mk.inj (Except.ok.inj hrun)
    obtain ⟨s, f', hi₁, rfl, hS, hpages, hsame, hinit⟩ := hi.fetched_init hs hr hcls hfetch
    simp only [hfetch]
    have hshows : m.Shows s := by rwa [Image.Shows, hsame]
    have hcarve := carveSpan_mirrored hi₁ hshows hS hpages hcls
    refine ⟨_, rfl, ?_⟩
    rw [Image.Shows, ← hinit]
    exact hcarve.lists

theorem centralInitLoop_shows {n : Nat} (hs : env.Succeeds) (hi : SysInv d env (Sys.initial h) f)
    (hr : ∀ r ∈ h.regions, r < 2 ^ 32) (hin : i + n = CLASSES) (hm : m.Shows (Sys.initial h))
    (hrun : centralInitLoop env n i h = .ok h') :
    ∃ m', m.centralInitLoop env n i h = .ok m' ∧ m'.Shows (Sys.initial h') := by
  induction n generalizing i h f m with
  | zero =>
    obtain rfl := Except.ok.inj hrun
    exact ⟨m, rfl, hm⟩
  | succ n ih =>
    obtain ⟨⟨S, h₁⟩, hget, hrun⟩ := bind_eq_ok hrun
    obtain ⟨m₁, hget₁, hm₁⟩ := getSpanCentral_shows hs hi hr (by omega) hm hget
    obtain ⟨⟨f₁, hi₁⟩, hr₁⟩ := (getSpanCentral_init hs hi hr (by omega)).of_ok hget
    obtain ⟨m', hloop, hm'⟩ := ih hi₁ hr₁ (by omega) hm₁ hrun
    refine ⟨m', ?_, hm'⟩
    rw [Image.centralInitLoop, hget₁, ok_bind, hget, ok_bind]
    exact hloop

/-- After `tc_central_init`, whatever the memory held before, the pointers lead through the lists
of the carved spans. -/
theorem tcCentralInit_shows (mem : Memory) (hs : env.Succeeds) (hrun : tcCentralInit env = .ok h) :
    ∃ m, (Image.initial mem).centralInitLoop env CLASSES 0 (initGlobals env) = .ok m ∧
      m.Shows (Sys.initial h) := by
  refine centralInitLoop_shows hs (initGlobals_inv .base env) (fun _ h => by cases h)
    (by decide) ?_ hrun
  have hnil (p) : freeAt (Sys.initial (initGlobals env)) p = [] := by cases p <;> rfl
  refine ⟨fun p => ?_, ⟨fun p => ?_, fun {p q o} ho => ?_⟩, fun {p q a b} ha =>
    ?_, fun {p a} ha => ?_⟩
  · rw [hnil, path_nil]
    cases p <;> rfl
  · rw [hnil]
    exact List.nodup_nil
  all_goals
    first
      | rw [hnil] at ho; cases ho
      | rw [hnil] at ha; cases ha

end Start

end SearchEngine.TcMalloc
