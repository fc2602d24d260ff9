import SearchEngine.TcMalloc.Verify.Steps

/-!
# The steps of the central cache keep the invariant

What a thread does in `fetch_from_centralcache`, in `return_objs_to_centralcache` and in
`return_span_to_pgcache`, between two cuts.
-/

namespace SearchEngine.TcMalloc

open LinkedRing Placement Outcome

section Frame

variable {d : Discipline} {env : Env} {s s' : Sys} {f f' : SpanPlace → List SpanPtr} {t : Tid}

/-! ## `fetch_from_centralcache` -/

/-- A place holds fewer spans than there are addresses below the break. -/
theorem HeapInv.ring_length {h : Heap} (hi : HeapInv d env h f) (p : SpanPlace) :
    (f p).length < h.brk + 1 := by
  have hsub : f p ⊆ List.range h.brk := by
    intro S hS
    have h1 := (hi.pages.owned hS).below
    have h2 := hi.record.room
    exact List.mem_range.mpr (by omega)
  have := (List.Nodup.subperm (hi.pages.placed.nodup p) hsub).length_le
  rw [List.length_range] at this
  omega

/-- The ring scan of `get_span_central` ends, and finds a span with a free object if the
list has one. -/
theorem scanCentral_eq {h : Heap} (hi : HeapInv d env h f) (i : Nat) :
    scanCentral i h = .ok ((f (.list i)).find? fun S => h.objs S ≠ []) := by
  have hd := hi.pages.placed.nodup (.list i)
  have hscan := scan_ring (hi.links.ring (.list i)) hd (fun S => h.objs S ≠ []) (hi.ring_length _)
  have hhead : h.list i = (f (.list i)).head? := hi.links.head (.list i)
  simp only [scanCentral, hhead]
  rw [show RingHead.place (.list i) = .list i from rfl] at hscan
  rw [hscan]

theorem endFetch_setPc (s : Sys) (t : Tid) (pc : Pc) (k : Caller) (i num : Nat) (S : SpanPtr) :
    endFetch (s.setPc t pc) t k i num S = endFetch s t k i num S := by
  simp only [endFetch, setPc_heap]
  cases takeObjs num i S s.heap with
  | error e => rfl
  | ok r => simp [bind, Except.bind, Sys.setPc]

namespace Taken

variable {h h' : Heap} {i : Nat} {S : SpanPtr} {batch : List Nat} {p : SpanPlace}

theorem place_of_ne (htk : Taken d env i S f f' h h' batch) (h1 : p ≠ .list i) (h2 : p ≠ .idle i) :
    f' p = f p := by
  rcases htk.places with ⟨rfl, -⟩ | ⟨rfl, -⟩
  · rfl
  · exact moved_of_ne h1 h2

/-- The span may become idle; no other span moves. -/
theorem sameClass (htk : Taken d env i S f f' h h' batch) (hp : Placed f) (hS : S ∈ f (.list i)) :
    SameClass h h' f f' := by
  have hne : SpanPlace.list i ≠ .idle i := by simp
  refine ⟨fun j x => ?_, fun _ => by rw [htk.start]⟩
  rcases htk.places with ⟨rfl, -⟩ | ⟨rfl, -⟩
  · exact Iff.rfl
  · constructor
    · rintro ⟨p, hpc, hx⟩
      rcases mem_moved hp hne hS hx with ⟨rfl, rfl⟩ | ⟨-, hx⟩
      · exact ⟨.list i, hpc, hS⟩
      · exact ⟨p, hpc, hx⟩
    · rintro ⟨p, hpc, hx⟩
      by_cases hxS : x = S
      · subst hxS
        obtain rfl := hp.unique hx hS
        exact ⟨.idle i, hpc, by rw [moved_self]; exact List.mem_cons_self⟩
      · exact ⟨p, hpc, mem_moved_of_ne hne hxS hx⟩

end Taken

/-- `s'` is `s` after the thread `t` has taken the batch off the span `S`. -/
structure BatchTaken (s s' : Sys) (t : Tid) (k : Caller) (i : Nat) (batch : List Nat) (h' : Heap)
    (S : SpanPtr) : Prop where
  heap : s'.heap = h'
  lock : s'.centralLock = none
  pc : s'.pc t = .insert k i batch
  other : ∀ t', t' ≠ t → s'.pc t' = s.pc t'
  origin : ∀ o, s'.origin o = if o ∈ batch then S else s.origin o
  live : s'.live = s.live
  cache : s'.cache = s.cache

namespace BatchTaken

variable {h' : Heap} {k : Caller} {i : Nat} {S : SpanPtr} {batch : List Nat}

theorem objsAt_eq (hb : BatchTaken s s' t k i batch h' S)
    (hobjs : ∀ x, x ≠ S → h'.objs x = s.heap.objs x) : objsAt s' =
      Function.update (Function.update (objsAt s) (.span S) (h'.objs S)) (.hand t) batch := by
  funext p
  cases p with
  | span x =>
    rw [Function.update_of_ne (by simp)]
    show s'.heap.objs x = _
    rw [hb.heap]
    by_cases hx : x = S
    · subst hx
      rw [Function.update_self]
    · rw [Function.update_of_ne (by simpa using hx)]
      exact hobjs x hx
  | cache t' j =>
    rw [Function.update_of_ne (by simp), Function.update_of_ne (by simp)]
    show (s'.cache t' j).objs = _
    rw [hb.cache]
    rfl
  | hand t' =>
    show handObjs (s'.pc t') = _
    by_cases h : t' = t
    · subst h
      rw [Function.update_self, hb.pc]
      rfl
    · rw [Function.update_of_ne (by simpa using h), Function.update_of_ne (by simp), hb.other t' h]
      rfl
  | live =>
    rw [Function.update_of_ne (by simp), Function.update_of_ne (by simp)]
    show smallPtrs s'.live = _
    rw [hb.live]
    rfl

theorem objInv (hb : BatchTaken s s' t k i batch h' S) (hi : SysInv d env s f)
    (ho : handObjs (s.pc t) = []) (hS : S ∈ f (.list i))
    (htk : Taken d env i S f f' s.heap h' batch) : ObjInv s' f' := by
  have hp := hi.heap.pages.placed
  have hc : SameClass s.heap s'.heap f f' := hb.heap ▸ htk.sameClass hp hS
  have hnil : objsAt s (.hand t) = [] := ho
  have hin : ∀ o ∈ batch, o ∈ objsAt s (.span S) := fun o h => by
    show o ∈ s.heap.objs S
    rw [htk.split]
    exact List.mem_append_left _ h
  refine hi.objs.move (p := .span S) (q := .hand t) (m := batch) (r := h'.objs S) (l := batch) hc
    (by simp) (.of_eq htk.split) (by rw [hnil, List.append_nil]) (hb.objsAt_eq htk.objs)
    (fun o h => ⟨i, by rw [hb.pc]; rfl, ?_⟩) (fun o h => by rw [hb.origin, if_neg h])
    (fun t' x hx _ => ?_) fun {b} hbl hbs => ?_
  · rw [hb.origin, if_pos h]
    obtain ⟨j, hj⟩ := hi.objs.sound (hin o h)
    obtain rfl : j = i := inClass_of_eq hp hj.1 ⟨.list i, rfl, hS⟩
    exact hc.isObj.mpr hj
  · by_cases h : t' = t
    · subst h
      rw [ho] at hx
      cases hx
    · exact hb.other t' h
  · -- a block of the user is not in the batch
    rw [hb.live] at hbl
    have hnb : b.ptr ∉ batch := fun h => by
      have hlive : b.ptr ∈ objsAt s .live :=
        List.mem_map.mpr ⟨b, List.mem_filter.mpr ⟨hbl, by simpa using hbs⟩, rfl⟩
      exact absurd (hi.objs.placed.unique (hin _ h) hlive) (by simp)
    rw [hb.origin, if_neg hnb]
    exact hi.objs.block hbl hbs

theorem handInv (hb : BatchTaken s s' t k i batch h' S) (hi : SysInv d env s f)
    (hs : handSpans (s.pc t) = []) (hS : S ∈ f (.list i))
    (htk : Taken d env i S f f' s.heap h' batch) : HandInv d s' f' := by
  have huser : f' .user = f .user := htk.place_of_ne (by simp) (by simp)
  refine ⟨fun t' => ?_, ?_, fun {b} hbl hbs => ?_, fun ht x hx => ?_⟩
  · rw [htk.place_of_ne (by simp) (by simp), hi.hands.hand t']
    by_cases h : t' = t
    · subst h
      rw [hb.pc, hs]
      rfl
    · rw [hb.other t' h]
  · rw [huser, hb.live]
    exact hi.hands.user
  · rw [hb.live] at hbl
    rw [hb.heap, htk.start]
    exact hi.hands.block hbl hbs
  · rw [huser] at hx
    have hxS : x ≠ S := by
      rintro rfl
      exact absurd (hi.heap.pages.placed.unique hx hS) (by simp)
    rw [hb.heap, htk.loc x hxS]
    exact hi.hands.tag ht x hx

end BatchTaken

/-- The end of `fetch_objs` puts a batch in the hands of the thread. -/
theorem endFetch_step (hi : SysInv d env s f) {k : Caller} {i n : Nat} {S : SpanPtr}
    (ho : handObjs (s.pc t) = []) (hs : handSpans (s.pc t) = [])
    (hlock : s.centralLock = none ∨ s.centralLock = some t) (hcls : i < CLASSES) (hnum : 0 < n)
    (hk : CallerOk i k) (hbegun : ∀ batch j, Begun (.insert k i batch) j ↔ Begun (s.pc t) j)
    (hS : S ∈ f (.list i)) (hne : s.heap.objs S ≠ []) :
    ∃ s' f', endFetch s t k i n S = .ok s' ∧ SysInv d env s' f' := by
  obtain ⟨batch, h', f', hrun, htk, -⟩ := takeObjs_spec hi.heap hS hne hnum
  obtain ⟨s', hs'⟩ : ∃ s' : Sys, s' = ({ s with
      heap := h'
      centralLock := none
      origin := fun obj => if obj ∈ batch then S else s.origin obj } : Sys).setPc t
        (.insert k i batch) := ⟨_, rfl⟩
  have hb : BatchTaken s s' t k i batch h' S := by
    subst hs'
    exact ⟨rfl, rfl, setPc_pc _ _ _, fun _ h => setPc_pc_of_ne _ _ h, fun _ => rfl, rfl, rfl⟩
  refine ⟨s', f', by rw [hs']; simp only [endFetch, hrun, ok_bind], hb.heap ▸ htk.inv, ?_,
    hb.handInv hi hs hS htk, hb.objInv hi ho hS htk,
    hi.threads.step (t := t) hb.other (fun t' _ => by rw [hb.cache])
      (fun t' _ x _ => by rw [hb.heap, htk.pageSize]) ⟨?_, .inr fun t' h => ?_⟩
      (by rw [hb.pc]; exact ⟨hcls, hk, htk.nonempty⟩) (fun j hj hbg => ?_) fun j hbg => ?_⟩
  · rw [hb.heap, InMap, htk.brk]
    exact hi.inMap
  · rw [hb.pc, hb.lock]
    exact ⟨False.elim, fun e => by cases e⟩
  · rw [hb.lock]
    refine ⟨fun e => ?_, fun e => by cases e⟩
    rcases hlock with h1 | h1
    · rw [h1] at e
      cases e
    · rw [h1] at e
      exact h (Option.some.inj e).symm
  · rw [hb.pc] at hbg
    rw [hb.cache]
    exact hi.threads.begun t j hj ((hbegun batch j).mp hbg)
  · rw [hb.pc] at hbg
    rw [hb.cache]
    exact hi.threads.fresh t j fun h => hbg ((hbegun batch j).mpr h)

/-- `get_span_central` has found nothing and keeps the lock. -/
theorem takeLock_step (hi : SysInv d env s f) {k : Caller} {i num : Nat}
    (hpc : s.pc t = .fetch k i num) (hfree : s.centralLock = none) :
    SysInv d env (({ s with centralLock := some t } : Sys).setPc t (.refill k i num)) f := by
  have hok := hi.threads.pcOk t
  rw [hpc] at hok
  have hpc' : ∀ t', t' ≠ t →
      (({ s with centralLock := some t } : Sys).setPc t (.refill k i num)).pc t' = s.pc t' :=
    fun t' h => setPc_pc_of_ne _ _ h
  have hbegun : ∀ j, Begun (.refill k i num) j ↔ Begun (s.pc t) j := by
    intro j
    rw [hpc]
    cases k <;> exact Iff.rfl
  refine ⟨hi.heap, hi.inMap, hi.hands.same (fun t' => ?_) rfl (fun _ h _ => h) rfl,
    hi.objs.same (SameClass.refl _ _) ?_ rfl (fun t' h => ?_) fun _ h _ => h,
    hi.threads.step (t := t) hpc' (fun _ _ => rfl) (fun _ _ _ _ => rfl) ⟨?_, .inr fun t' h => ?_⟩
      (by rw [setPc_pc]; exact hok) (fun j hj hb => ?_) fun j hb => ?_⟩
  · by_cases h : t' = t
    · subst h; rw [setPc_pc, hpc]; rfl
    · rw [hpc' t' h]
  · rw [objsAt_setPc]
    exact Function.update_eq_self_iff.mpr (by simp [objsAt, hpc, handObjs])
  · by_cases ht : t' = t
    · subst ht; rw [hpc] at h; exact absurd rfl h
    · exact hpc' t' ht
  · rw [setPc_pc]
    exact ⟨fun _ => rfl, fun _ => trivial⟩
  · exact ⟨by rw [hfree]; simp, fun e => h (Option.some.inj e).symm⟩
  · rw [setPc_pc] at hb
    exact hi.threads.begun t j hj ((hbegun j).mp hb)
  · rw [setPc_pc] at hb
    exact hi.threads.fresh t j fun h => hb ((hbegun j).mpr h)

/-- A span goes from the page heap to the thread that carves it. -/
theorem refill_step (hi : SysInv d env s f) {k : Caller} {i n : Nat}
    (hpc : s.pc t = .refill k i n) {h' : Heap} {S : SpanPtr}
    (hf : Fetched d env (.hand t) f f' s.heap h' S) (hsize : h'.pageSize S = BATCH) :
    SysInv d env (({ s with heap := h' } : Sys).setPc t (.carve k i n S)) f' := by
  have hq := hf.quiet
  have hok := hi.threads.pcOk t
  rw [hpc] at hok
  have hpc' : ∀ t', t' ≠ t →
      (({ s with heap := h' } : Sys).setPc t (.carve k i n S)).pc t' = s.pc t' :=
    fun t' h => setPc_pc_of_ne _ _ h
  have huser : ¬ SpanPlace.user.IsPg := by rintro ⟨j, hj⟩; cases hj
  have hhand : ∀ t', ¬ (SpanPlace.hand t').IsPg := by rintro t' ⟨j, hj⟩; cases hj
  have hfu : f' .user = f .user := hq.places _ huser (by simp)
  have hbegun : ∀ j, Begun (.carve k i n S) j ↔ Begun (s.pc t) j := by
    intro j
    rw [hpc]
    cases k <;> exact Iff.rfl
  refine ⟨hf.inv, hf.inMap, ⟨fun t' => ?_, by rw [hfu]; exact hi.hands.user, fun {b} hb hbs => ?_,
    fun ht x hx => ?_⟩,
    hi.objs.same (hq.sameClass trivial) ?_ rfl (fun t' h => ?_) (fun _ h _ => h),
    hi.threads.step (t := t) hpc' (fun _ _ => rfl) (fun t' h x hx => ?_)
      (hi.threads.lock_same rfl (by rw [setPc_pc, hpc]; exact Iff.rfl))
      (by rw [setPc_pc]; exact ⟨hok.1, hok.2.1, hok.2.2, hsize⟩) (fun j hj hb => ?_) fun j hb => ?_⟩
  · by_cases h : t' = t
    · subst h
      rw [hf.dst, hi.hands.hand t', hpc, setPc_pc]
      rfl
    · rw [hq.places _ (hhand t') (by simpa using h), hi.hands.hand t', hpc' t' h]
  · show b.ptr = h'.start b.span
    rw [(hq.same huser (mem_user hi.hands hb hbs)).2.1]
    exact hi.hands.block hb hbs
  · rw [hfu] at hx
    show h'.loc x = .isolated
    rw [(hq.same huser hx).2.2]
    exact hi.hands.tag ht x hx
  · rw [objsAt_setPc]
    have hobjs : objsAt { s with heap := h' } = objsAt s := by
      funext p
      cases p with
      | span x => exact congrFun hq.objs x
      | _ => rfl
    rw [hobjs]
    exact Function.update_eq_self_iff.mpr (by simp [objsAt, hpc, handObjs])
  · by_cases ht : t' = t
    · subst ht; rw [hpc] at h; exact absurd rfl h
    · exact hpc' t' ht
  · exact (hq.same (hhand t') (by rw [hi.hands.hand t']; exact hx)).1
  · rw [setPc_pc] at hb
    exact hi.threads.begun t j hj ((hbegun j).mp hb)
  · rw [setPc_pc] at hb
    exact hi.threads.fresh t j fun h => hb ((hbegun j).mpr h)

/-- An object is mapped to one span. -/
theorem IsObj.span_eq {h : Heap} {i j S S' o : Nat} (hi : HeapInv d env h f) (ho : IsObj h f i S o)
    (ho' : IsObj h f j S' o) : S = S' := by
  have h1 := ho.2.mapAddr hi ho.1
  have h2 := ho'.2.mapAddr hi ho'.1
  rw [h1] at h2
  exact Option.some.inj (Except.ok.inj h2)

/-- `h'` is `h` after the span `S` has been carved into the objects `m` of class `i`. -/
structure SpanCarved (i : Nat) (S : SpanPtr) (m : List Nat) (h h' : Heap) : Prop where
  start : h'.start = h.start
  pageSize : h'.pageSize = h.pageSize
  brk : h'.brk = h.brk
  loc : ∀ x, x ≠ S → h'.loc x = h.loc x
  objs : h'.objs = Function.update h.objs S m
  mem : ∀ o, o ∈ m ↔ ObjOf h S i o
  nodup : m.Nodup

theorem carveSpan_carved {h : Heap} {i : Nat} {S : SpanPtr} (hclean : Clean h S)
    (hcls : i < CLASSES)
    (hsize : h.pageSize S = BATCH) :
    ∃ m, SpanCarved i S m h (carveSpan (indexToSize i) i S h) := by
  refine ⟨(objsFrom (h.start S) (indexToSize i) (capacity i)).reverse, ?_⟩
  rw [carveSpan_eq hsize hcls]
  refine ⟨rfl, rfl, rfl, fun x hx => ?_, ?_, fun o => ?_, ?_⟩
  · simp [Heap.setLoc, hx]
    rfl
  · show Function.update h.objs S _ = _
    rw [hclean.objs, List.append_nil]
  · rw [List.mem_reverse]
    exact mem_objsFrom
  · rw [List.nodup_reverse]
    have := indexToSize_pos i
    exact nodup_objsFrom (by omega)

/-- The class of a span that a thread puts on its list gains that span. -/
theorem inClass_handed {i j : Nat} {S x : SpanPtr} (hp : Placed f) (hS : S ∈ f (.hand t)) :
    InClass (moved f (.hand t) (.list i) S) j x ↔ InClass f j x ∨ (j = i ∧ x = S) := by
  have hne : SpanPlace.hand t ≠ .list i := by simp
  constructor
  · rintro ⟨p, hpc, hx⟩
    rcases mem_moved hp hne hS hx with ⟨rfl, rfl⟩ | ⟨-, hx⟩
    · exact .inr ⟨(Option.some.inj hpc).symm, rfl⟩
    · exact .inl ⟨p, hpc, hx⟩
  · rintro (⟨p, hpc, hx⟩ | ⟨rfl, rfl⟩)
    · have hxS : x ≠ S := by
        rintro rfl
        rw [hp.unique hx hS] at hpc
        cases hpc
      exact ⟨p, hpc, mem_moved_of_ne hne hxS hx⟩
    · exact ⟨.list j, rfl, by rw [moved_self]; exact List.mem_cons_self⟩

namespace SpanCarved

variable {i j : Nat} {S x : SpanPtr} {o : Nat} {m : List Nat} {h h' : Heap} {pc : Pc}

theorem isObj_iff (hc : SpanCarved i S m h h') (hp : Placed f) (hS : S ∈ f (.hand t)) :
    IsObj h' (moved f (.hand t) (.list i) S) j x o ↔
      IsObj h f j x o ∨ (j = i ∧ x = S ∧ o ∈ m) := by
  rw [IsObj, inClass_handed hp hS, show ObjOf h' x j o ↔ ObjOf h x j o by
    rw [ObjOf, hc.start, ObjOf], hc.mem]
  constructor
  · rintro ⟨h1 | ⟨rfl, rfl⟩, h2⟩
    · exact .inl ⟨h1, h2⟩
    · exact .inr ⟨rfl, rfl, h2⟩
  · rintro (⟨h1, h2⟩ | ⟨rfl, rfl, h2⟩)
    · exact ⟨.inl h1, h2⟩
    · exact ⟨.inr ⟨rfl, rfl⟩, h2⟩

/-- The new objects are nowhere yet. -/
theorem not_mem_objsAt (hc : SpanCarved i S m s.heap h') (hi : SysInv d env s f)
    (hS : S ∈ f (.hand t)) (hsize : s.heap.pageSize S = BATCH) (ho : o ∈ m) (p : ObjPlace) :
    o ∉ objsAt s p := by
  intro hp
  have hmapS : mapAddrToSpan o s.heap = .ok (some S) := by
    have hr := ((hc.mem o).mp ho).range hsize
    have := indexToSize_pos i
    exact (hi.heap.pages.owned hS).mapAddr hi.heap.record.ini hr.1 (by omega)
  have hall : ∀ {j x}, ¬ IsObj s.heap f j x o := by
    rintro j x ⟨⟨q, hq, hxq⟩, hx⟩
    have := hx.mapAddr hi.heap ⟨q, hq, hxq⟩
    rw [hmapS] at this
    obtain rfl := Option.some.inj (Except.ok.inj this)
    rw [hi.heap.pages.placed.unique hxq hS] at hq
    cases hq
  have hsound := hi.objs.sound hp
  cases p with
  | span x =>
    obtain ⟨j, hj⟩ := hsound
    exact hall hj
  | cache t' j => exact hall hsound
  | hand t' =>
    obtain ⟨j, -, hj⟩ := hsound
    exact hall hj
  | live =>
    obtain ⟨j, hj⟩ := hsound
    exact hall hj

theorem objsAt_eq (hc : SpanCarved i S m s.heap h') (hpc : handObjs (s.pc t) = handObjs pc) :
    objsAt (({ s with heap := h' } : Sys).setPc t pc) =
      Function.update (objsAt s) (.span S) m := by
  have hheap : objsAt { s with heap := h' } = Function.update (objsAt s) (.span S) m := by
    funext p
    cases p with
    | span x =>
      show h'.objs x = _
      rw [hc.objs]
      by_cases hx : x = S
      · subst hx
        simp
      · rw [Function.update_of_ne hx, Function.update_of_ne (by simpa using hx)]
        rfl
    | _ => rfl
  rw [objsAt_setPc, hheap]
  refine Function.update_eq_self_iff.mpr ?_
  rw [Function.update_of_ne (by simp)]
  exact hpc.symm

theorem objInv (hc : SpanCarved i S m s.heap h') (hi : SysInv d env s f) (hS : S ∈ f (.hand t))
    (hsize : s.heap.pageSize S = BATCH) (hold : handObjs (s.pc t) = []) (hnew : handObjs pc = []) :
    ObjInv (({ s with heap := h' } : Sys).setPc t pc) (moved f (.hand t) (.list i) S) := by
  have hplaced := hi.heap.pages.placed
  have hat : objsAt (({ s with heap := h' } : Sys).setPc t pc) =
      Function.update (objsAt s) (.span S) m := hc.objsAt_eq (hold.trans hnew.symm)
  have hnil : objsAt s (.span S) = [] := ((hi.heap.kinds.kind hS).clean rfl).objs
  refine ⟨?_, fun {p o} ho => ?_, fun {j x o} ho => ?_, fun {b} hb hs => ?_⟩
  · rw [hat]
    exact hi.objs.placed.add (m := m) hc.nodup (fun o ho p => hc.not_mem_objsAt hi hS hsize ho p)
      (by rw [hnil, List.append_nil])
  · rw [hat] at ho
    by_cases hp : p = .span S
    · subst hp
      rw [Function.update_self] at ho
      exact ⟨i, (hc.isObj_iff hplaced hS).mpr (.inr ⟨rfl, rfl, ho⟩)⟩
    · rw [Function.update_of_ne hp] at ho
      refine (hi.objs.sound ho).frame (fun hx => ?_) rfl fun t' e => ?_
      · exact (hc.isObj_iff hplaced hS).mpr (.inl hx)
      · subst e
        refine setPc_pc_of_ne _ _ fun h => ?_
        have hmem : o ∈ handObjs (s.pc t') := ho
        rw [h, hold] at hmem
        cases hmem
  · rw [hat]
    rcases (hc.isObj_iff hplaced hS).mp ho with ho | ⟨-, -, ho⟩
    · obtain ⟨p, hp⟩ := hi.objs.cover ho
      refine ⟨p, ?_⟩
      by_cases hpS : p = .span S
      · subst hpS
        rw [hnil] at hp
        cases hp
      · rwa [Function.update_of_ne hpS]
    · exact ⟨.span S, by rwa [Function.update_self]⟩
  · obtain ⟨h1, j, h2, h3⟩ := hi.objs.block hb hs
    exact ⟨h1, j, (hc.isObj_iff hplaced hS).mpr (.inl h2), h3⟩

theorem handInv (hc : SpanCarved i S m s.heap h') (hi : SysInv d env s f)
    (hpc : handSpans (s.pc t) = [S]) (hnew : handSpans pc = []) :
    HandInv d (({ s with heap := h' } : Sys).setPc t pc) (moved f (.hand t) (.list i) S) := by
  have hne : SpanPlace.hand t ≠ .list i := by simp
  have hS : S ∈ f (.hand t) := by
    rw [hi.hands.hand t, hpc]
    exact List.mem_singleton_self S
  have huser : moved f (.hand t) (.list i) S .user = f .user := moved_of_ne (by simp) (by simp)
  refine ⟨fun t' => ?_, ?_, fun {b} hb hbs => ?_, fun ht x hx => ?_⟩
  · by_cases h : t' = t
    · subst h
      have hself : moved f (.hand t') (.list i) S (.hand t') = (f (.hand t')).erase S := by
        simp only [moved, Function.update_of_ne hne, Function.update_self]
      rw [hself, hi.hands.hand t', hpc, setPc_pc, hnew]
      simp
    · rw [moved_of_ne (by simpa using h) (by simp), hi.hands.hand t', setPc_pc_of_ne _ _ h]
  · rw [huser]
    exact hi.hands.user
  · show b.ptr = h'.start b.span
    rw [hc.start]
    exact hi.hands.block hb hbs
  · rw [huser] at hx
    have hxS : x ≠ S := by
      rintro rfl
      exact absurd (hi.heap.pages.placed.unique hx hS) (by simp)
    show h'.loc x = .isolated
    rw [hc.loc x hxS]
    exact hi.hands.tag ht x hx

end SpanCarved

/-- The thread has carved its span and put it on the list; it has yet to take objects
off it. -/
theorem carve_step (hi : SysInv d env s f) {k : Caller} {i num : Nat} {S : SpanPtr}
    (hpc : s.pc t = .carve k i num S) :
    SysInv d env (({ s with heap := carveSpan (indexToSize i) i S s.heap } : Sys).setPc t
      (.refill k i num)) (moved f (.hand t) (.list i) S) := by
  have hok := hi.threads.pcOk t
  rw [hpc] at hok
  obtain ⟨hcls, hnum, hk, hsize⟩ := hok
  have hS : S ∈ f (.hand t) := by rw [hi.hands.hand t, hpc]; exact List.mem_cons_self
  have hclean : Clean s.heap S := hi.heap.kinds.kind hS
  have hinv := carveSpan_spec hi.heap hS trivial hcls hsize
  obtain ⟨m, hc⟩ := carveSpan_carved hclean hcls hsize
  have hbegun : ∀ j, Begun (.refill k i num) j ↔ Begun (s.pc t) j := by
    intro j
    rw [hpc]
    cases k <;> exact Iff.rfl
  refine ⟨hinv, by rw [setPc_heap, InMap, hc.brk]; exact hi.inMap,
    hc.handInv hi (by rw [hpc]; rfl) rfl, hc.objInv hi hS hsize (by rw [hpc]; rfl) rfl,
    hi.threads.step (t := t) (fun _ h => setPc_pc_of_ne _ _ h) (fun _ _ => rfl)
      (fun _ _ _ _ => by rw [setPc_heap, hc.pageSize])
      (hi.threads.lock_same rfl (by rw [setPc_pc, hpc]; exact Iff.rfl))
      (by rw [setPc_pc]; exact ⟨hcls, hnum, hk⟩) (fun j hj hb => ?_) fun j hb => ?_⟩
  · rw [setPc_pc] at hb
    exact hi.threads.begun t j hj ((hbegun j).mp hb)
  · rw [setPc_pc] at hb
    exact hi.threads.fresh t j fun h => hb ((hbegun j).mpr h)

theorem insertToThreadcache_eq (batch : List Nat) (l : ThreadList) :
    insertToThreadcache batch l =
      ⟨batch.reverse ++ l.objs, l.objlen + batch.length, l.maxLength⟩ := by
  induction batch generalizing l with
  | nil => rfl
  | cons o rest ih =>
    rw [insertToThreadcache, ih]
    simp [Nat.add_assoc, Nat.add_comm 1]

/-- The batch goes from the hand of the thread to its cache. -/
theorem insert_step (hi : SysInv d env s f) {k : Caller} {i : Nat} {batch : List Nat} {p : Pc}
    (hpc : s.pc t = .insert k i batch) (ho : handObjs p = []) (hs : handSpans p = [])
    (hl : ¬ HoldsLock p) (hok : PcOk s.heap p) (hbegun : ∀ j, Begun p j ↔ Begun (s.pc t) j) :
    SysInv d env ((s.setCache t i (insertToThreadcache batch (s.cache t i))).setPc t p) f := by
  obtain ⟨l, hleq⟩ : ∃ l, l = insertToThreadcache batch (s.cache t i) := ⟨_, rfl⟩
  have hobjs : l.objs = batch.reverse ++ (s.cache t i).objs := by
    rw [hleq, insertToThreadcache_eq]
  have hmax : l.maxLength = (s.cache t i).maxLength := by rw [hleq, insertToThreadcache_eq]
  rw [← hleq]
  obtain ⟨hcls, -, hne⟩ : i < CLASSES ∧ CallerOk i k ∧ batch ≠ [] := by
    have := hi.threads.pcOk t
    rwa [hpc] at this
  have hpc' : ∀ t', t' ≠ t → ((s.setCache t i l).setPc t p).pc t' = s.pc t' :=
    fun t' h => setPc_pc_of_ne _ _ h
  have hhand : objsAt s (.hand t) = batch := by simp [objsAt, hpc, handObjs]
  refine ⟨hi.heap, hi.inMap, hi.hands.same (fun t' => ?_) rfl (fun _ h _ => h) rfl,
    hi.objs.move (p := .hand t) (q := .cache t i) (m := batch) (r := []) (l := l.objs)
      (SameClass.refl _ _) (by simp) (by rw [hhand, List.append_nil])
      (by rw [hobjs]; exact (List.reverse_perm batch).append_right _) ?_ (fun x hx => ?_)
      (fun _ _ => rfl) (fun t' x hx hnx => ?_) fun hx hxs => hi.objs.block hx hxs,
    hi.threads.step (t := t) hpc' (fun t' h => setCache_thread s l h) (fun _ _ _ _ => rfl)
      (hi.threads.lock_same rfl (by
        rw [setPc_pc, hpc]; exact ⟨fun h => absurd h hl, False.elim⟩))
      (by rw [setPc_pc]; exact hok) (fun j hj hb => ?_) fun j hb => ?_⟩
  · by_cases h : t' = t
    · subst h; rw [setPc_pc, hpc, hs]; rfl
    · rw [hpc' t' h]
  · rw [objsAt_setPc, objsAt_setCache, ho]
    exact Function.update_comm (by simp) _ _ _
  · have hmem : x ∈ objsAt s (.hand t) := by rw [hhand]; exact hx
    obtain ⟨j, hj, hobj⟩ := hi.objs.sound hmem
    rw [hpc] at hj
    obtain rfl : i = j := hj
    exact hobj
  · by_cases h : t' = t
    · subst h
      rw [hpc] at hx
      exact absurd hx hnx
    · exact hpc' t' h
  · rw [setPc_pc] at hb
    have hold := hi.threads.begun t j hj ((hbegun j).mp hb)
    by_cases h : j = i
    · subst h; rw [setPc_cache, setCache_self, hmax]; exact hold
    · rw [setPc_cache, setCache_of_ne s l h]; exact hold
  · rw [setPc_pc] at hb
    have hnb : ¬ Begun (s.pc t) j := fun h => hb ((hbegun j).mpr h)
    have hold := hi.threads.fresh t j hnb
    have hji : j ≠ i := by
      rintro rfl
      refine hnb ?_
      rw [hpc]
      cases k with
      | threadInit i₀ =>
        have hk := hi.threads.pcOk t
        rw [hpc] at hk
        obtain rfl : i₀ = j := hk.2.1
        exact le_rfl
      | allocate n => trivial
    rw [setPc_cache, setCache_of_ne s l hji]
    exact hold

/-- The rest of `fetch_from_centralcache`, and the return of its caller. -/
theorem finishFetch_step (hi : SysInv d env s f) {k : Caller} {i : Nat} {batch : List Nat}
    (hpc : s.pc t = .insert k i batch) :
    ∃ s', finishFetch s t k i batch = .ok s' ∧ SysInv d env s' f := by
  obtain ⟨hcls, hk, hne⟩ : i < CLASSES ∧ CallerOk i k ∧ batch ≠ [] := by
    have := hi.threads.pcOk t
    rwa [hpc] at this
  cases k with
  | threadInit i₀ =>
    obtain rfl : i₀ = i := hk
    refine ⟨_, rfl, insert_step hi hpc rfl rfl id trivial fun j => ?_⟩
    rw [hpc]
    exact Nat.lt_succ_iff
  | allocate n =>
    have hi' := insert_step (p := .ready) hi hpc rfl rfl id trivial fun j => by
      rw [hpc]; exact Iff.rfl
    obtain ⟨l, hleq⟩ : ∃ l, l = insertToThreadcache batch (s.cache t i) := ⟨_, rfl⟩
    rw [← hleq] at hi'
    have hlne : l.objs ≠ [] := by
      rw [hleq, insertToThreadcache_eq]
      simp [hne]
    obtain ⟨o, rest, hobjs⟩ := List.exists_cons_of_ne_nil hlne
    have hpop : freelistPop l = .ok (o, { l with objs := rest, objlen := l.objlen - 1 }) := by
      simp only [freelistPop, hobjs]
    refine ⟨returnBlock (s.setCache t i { l with objs := rest, objlen := l.objlen - 1 }) t o n
      (s.origin o), by simp only [finishFetch, ← hleq, hpop, ok_bind], ?_⟩
    have hret := returnCached_step (t := t) (o := o)
      (l := { l with objs := rest, objlen := l.objlen - 1 }) hi' (setPc_pc _ _ _) hk
      (by rw [setPc_cache, setCache_self]; exact hobjs) (by rw [setPc_cache, setCache_self])
    have hsame : ∀ (b : Block) (l' : ThreadList),
        ({ ((s.setCache t i l).setPc t .ready).setCache t i l' with live := b :: s.live } :
          Sys).setPc
          t .ready = ({ s.setCache t i l' with live := b :: s.live } : Sys).setPc t .ready := by
      intro b l'
      simp [Sys.setPc, Sys.setCache]
    rw [returnBlock, setCache_live, setPc_live, setCache_live, hsame] at hret
    exact hret

/-- A span goes from the thread to the page heap, and the lock is released if the
thread holds it. -/
theorem returnSpan_step (hi : SysInv d env s f) {S : SpanPtr} (hpc : handSpans (s.pc t) = [S])
    (hobj : handObjs (s.pc t) = []) (hbegun : ∀ j, Begun (s.pc t) j) {l : Option Tid}
    (hlock : l ≠ some t ∧ (l = s.centralLock ∨ s.centralLock = some t ∧ l = none)) :
    ∃ h' f', returnSpanToPgcache S s.heap = .ok h' ∧
      SysInv d env (({ s with heap := h', centralLock := l } : Sys).setPc t .ready) f' := by
  have hplaced := hi.heap.pages.placed
  have hS : S ∈ f (.hand t) := by rw [hi.hands.hand t, hpc]; exact List.mem_singleton_self S
  have hd : (SpanPlace.hand t).Loose := trivial
  obtain ⟨h', hrun, hinv, hbrk, -, hobjs, -, -, -, hpages, hstart, hloc⟩ :=
    returnSpan_sat hi.heap hS hd
  obtain ⟨b, hb⟩ : ∃ b, b = bucket (s.heap.pageSize S) := ⟨_, rfl⟩
  rw [← hb] at hinv
  have hne : SpanPlace.hand t ≠ .pg b := by simp
  have hc : SameClass s.heap h' f (moved f (.hand t) (.pg b) S) := by
    have key : ∀ {p : SpanPlace} {i}, p.cls? = some i → moved f (.hand t) (.pg b) S p = f p :=
      fun hp => moved_of_ne (by rintro rfl; cases hp) (by rintro rfl; cases hp)
    refine ⟨fun i x => ⟨?_, ?_⟩, fun _ => by rw [hstart]⟩
    · rintro ⟨p, hp, hx⟩
      exact ⟨p, hp, key hp ▸ hx⟩
    · rintro ⟨p, hp, hx⟩
      exact ⟨p, hp, (key hp).symm ▸ hx⟩
  have hpc' : ∀ t', t' ≠ t →
      (({ s with heap := h', centralLock := l } : Sys).setPc t .ready).pc t' = s.pc t' :=
    fun t' h => setPc_pc_of_ne _ _ h
  refine ⟨h', _, hrun, hinv, by rw [setPc_heap, InMap, hbrk]; exact hi.inMap,
    ⟨fun t' => ?_, ?_, fun {b} hb hbs => ?_, fun ht x hx => ?_⟩,
    hi.objs.same hc ?_ rfl (fun t' h => ?_) (fun _ h _ => h),
    hi.threads.step (t := t) hpc' (fun _ _ => rfl) (fun _ _ _ _ => by rw [setPc_heap, hpages])
      ⟨?_, ?_⟩ (by rw [setPc_pc]; trivial) (fun j hj _ => hi.threads.begun t j hj (hbegun j))
      fun j hb => absurd trivial (by rw [setPc_pc] at hb; exact hb)⟩
  · by_cases h : t' = t
    · subst h
      have h1 : moved f (.hand t') (.pg b) S (.hand t') = (f (.hand t')).erase S := by
        simp only [moved, Function.update_of_ne hne, Function.update_self]
      rw [h1, hi.hands.hand t', hpc, setPc_pc]
      simp [handSpans]
    · rw [moved_of_ne (by simpa using h) (by simp), hi.hands.hand t', hpc' t' h]
  · rw [moved_of_ne (by simp) (by simp)]
    exact hi.hands.user
  · show b.ptr = h'.start b.span
    rw [hstart]
    exact hi.hands.block hb hbs
  · rw [moved_of_ne (by simp) (by simp)] at hx
    have hxS : x ≠ S := by
      rintro rfl
      exact absurd (hplaced.unique hx hS) (by simp)
    show h'.loc x = .isolated
    rw [hloc x hxS]
    exact hi.hands.tag ht x hx
  · rw [objsAt_setPc]
    have hsame : objsAt { s with heap := h', centralLock := l } = objsAt s := by
      funext p
      cases p with
      | span x => exact congrFun hobjs x
      | _ => rfl
    rw [hsame]
    exact Function.update_eq_self_iff.mpr hobj.symm
  · by_cases ht : t' = t
    · subst ht; exact absurd hobj h
    · exact hpc' t' ht
  · rw [setPc_pc, setPc_lock]
    exact ⟨False.elim, fun e => absurd e hlock.1⟩
  · rcases hlock.2 with h1 | ⟨h1, h2⟩
    · exact .inl h1
    · refine .inr fun t' h => ⟨fun e => h ?_, by rw [setPc_lock]; simp [h2]⟩
      rw [h1] at e
      exact (Option.some.inj e).symm

/-! ## `return_objs_to_centralcache` -/

/-- Free lists hold objects of their spans, each once. -/
theorem SysInv.freeInv (hi : SysInv d env s f) : FreeInv s.heap f where
  nodup _ := hi.objs.placed.nodup (.span _)
  sound {i S o} hS ho := by
    obtain ⟨j, hj⟩ := hi.objs.sound (p := .span S) ho
    obtain rfl := inClass_of_eq hi.heap.pages.placed hj.1 hS
    exact hj.2

/-- The places of the objects after `batch` has gone back to the free lists. -/
def scatteredAt (s s' : Sys) (batch : List Nat) : ObjPlace → List Nat
  | .span S => (ownedBy s.heap batch S).reverse ++ s.heap.objs S
  | p => objsAt s' p

theorem IsObj.owner_eq {h : Heap} {j S x : Nat} (hx : IsObj h f j S x) (hi : HeapInv d env h f) :
    owner h x = some S :=
  TcMalloc.owner_eq (hx.2.mapAddr hi hx.1)

theorem mem_ownedBy {h : Heap} {batch : List Nat} {S : SpanPtr} {x : Nat} :
    x ∈ ownedBy h batch S ↔ x ∈ batch ∧ owner h x = some S := by
  simp [ownedBy]

/-- The objects that a thread gives back are objects of one class. -/
theorem SysInv.flushed_isObj (hi : SysInv d env s f) {i x : Nat} {batch : List Nat}
    (hpc : s.pc t = .flush batch (indexToSize i)) (hcls : i < CLASSES) (hx : x ∈ batch) :
    IsObj s.heap f i (s.origin x) x := by
  have hhand : x ∈ objsAt s (.hand t) := by
    simpa [objsAt, hpc, handObjs] using hx
  obtain ⟨j, hj, hobj⟩ := hi.objs.sound hhand
  rw [hpc] at hj
  have hsize : indexToSize i = indexToSize j := hj
  obtain ⟨p, hp, hS⟩ := hobj.1
  have hclass := sizeClass_indexToSize hcls
  rw [hsize, sizeClass_indexToSize (hi.heap.kinds.carved hp hS).cls] at hclass
  obtain rfl := Except.ok.inj hclass
  exact hobj

namespace Returned

variable {dst : SpanPlace} {i j x : Nat} {S : SpanPtr} {batch : List Nat} {h h' : Heap}
  {o : Option SpanPtr}

theorem mem_dst (hr : Returned d env i batch dst f f' h h' o) (hS : o = some S) : S ∈ f' dst := by
  rw [hr.dst, hS]
  exact List.mem_cons_self

/-- The span that leaves the central cache is cleared. -/
theorem objs_gone (hr : Returned d env i batch dst f f' h h' o) (hd : dst.Loose) (hS : o = some S) :
    h'.objs S = [] :=
  ((hr.inv.kinds.kind (hr.mem_dst hS)).clean hd.cls_eq).objs

/-- The other spans stay in their classes. -/
theorem inClass_iff (hr : Returned d env i batch dst f f' h h' o) (hd : dst.Loose) :
    InClass f' j S ↔ InClass f j S ∧ o ≠ some S := by
  by_cases hj : j = i
  · subst hj
    exact hr.inClass S
  have hplace : ∀ {p : SpanPlace}, p.cls? = some j → f' p = f p := fun {p} hp =>
    hr.places p (by rw [hp]; simpa using hj)
      (SpanPlace.ne_of_loose (SpanPlace.not_loose_of_cls hp) hd)
  constructor
  · rintro ⟨p, hp, hS⟩
    refine ⟨⟨p, hp, by rwa [← hplace hp]⟩, fun e => ?_⟩
    obtain rfl := hr.inv.pages.placed.unique hS (hr.mem_dst e)
    exact SpanPlace.not_loose_of_cls hp hd
  · rintro ⟨⟨p, hp, hS⟩, -⟩
    exact ⟨p, hp, by rwa [hplace hp]⟩

theorem isObj_iff (hr : Returned d env i batch dst f f' h h' o) (hd : dst.Loose) :
    IsObj h' f' j S x ↔ IsObj h f j S x ∧ o ≠ some S := by
  unfold IsObj ObjOf
  rw [hr.inClass_iff hd, hr.start]
  exact and_right_comm

end Returned

/-- `s'` is `s` after the thread `t` has given its batch back; a span whose objects are all
back is in its hand. -/
structure BatchBack (s s' : Sys) (t : Tid) (h' : Heap) (o : Option SpanPtr) : Prop where
  heap : s'.heap = h'
  lock : s'.centralLock = o.map fun _ => t
  pc : s'.pc t = o.elim .ready .recycle
  other : ∀ t', t' ≠ t → s'.pc t' = s.pc t'
  origin : s'.origin = s.origin
  live : s'.live = s.live
  cache : s'.cache = s.cache

namespace BatchBack

variable {h' : Heap} {o : Option SpanPtr} {i x : Nat} {S : SpanPtr} {batch : List Nat}
  {p : ObjPlace}

theorem objsAt_span (hb : BatchBack s s' t h' o) (S : SpanPtr) :
    objsAt s' (.span S) = h'.objs S := by
  show s'.heap.objs S = _
  rw [hb.heap]

theorem objsAt_hand (hb : BatchBack s s' t h' o) : objsAt s' (.hand t) = [] := by
  show handObjs (s'.pc t) = []
  rw [hb.pc]
  cases o <;> rfl

theorem objsAt_other (hb : BatchBack s s' t h' o) (hp : p ≠ .hand t) (hpS : ∀ S, p ≠ .span S) :
    objsAt s' p = objsAt s p := by
  cases p with
  | span S => exact absurd rfl (hpS S)
  | cache t' j =>
    show (s'.cache t' j).objs = _
    rw [hb.cache]
    rfl
  | hand t' =>
    show handObjs (s'.pc t') = handObjs (s.pc t')
    rw [hb.other t' fun e => hp (by rw [e])]
  | live =>
    show smallPtrs s'.live = _
    rw [hb.live]
    rfl

/-- An object of the span that leaves was on its free list or in the batch. -/
theorem place_gone (hi : SysInv d env s f) (hpc : s.pc t = .flush batch (indexToSize i))
    (hr : Returned d env i batch (.hand t) f f' s.heap h' o) {j : Nat} (hS : o = some S)
    (hx : IsObj s.heap f j S x) (hxp : x ∈ objsAt s p) : p = .hand t ∨ p = .span S := by
  obtain ⟨hcls, hall⟩ := hr.gone S hS
  obtain rfl := inClass_of_eq hi.heap.pages.placed hx.1 hcls
  rcases List.mem_append.mp (hall x hx.2) with h | h
  · left
    refine hi.objs.placed.unique hxp ?_
    show x ∈ handObjs (s.pc t)
    rw [hpc]
    exact (mem_ownedBy.mp (List.mem_reverse.mp h)).1
  · exact .inr (hi.objs.placed.unique hxp h)

/-- Where an object is afterwards: on the free list of its span, or where it was. -/
theorem mem_cases (hb : BatchBack s s' t h' o)
    (hr : Returned d env i batch (.hand t) f f' s.heap h' o) (hx : x ∈ objsAt s' p) :
    (∃ S, p = .span S ∧ x ∈ ownedBy s.heap batch S ∧ o ≠ some S) ∨
    (x ∈ objsAt s p ∧ p ≠ .hand t ∧ ∀ S, o = some S → p ≠ .span S) := by
  by_cases hp : p = .hand t
  · subst hp
    rw [hb.objsAt_hand] at hx
    cases hx
  by_cases hpS : ∃ S, p = .span S
  · obtain ⟨S, rfl⟩ := hpS
    rw [hb.objsAt_span] at hx
    have hne : o ≠ some S := fun e => by
      rw [hr.objs_gone trivial e] at hx
      cases hx
    rw [hr.objs S hne] at hx
    rcases List.mem_append.mp hx with h | h
    · exact .inl ⟨S, rfl, List.mem_reverse.mp h, hne⟩
    · refine .inr ⟨h, hp, fun S' hS' e => hne ?_⟩
      rw [hS', ObjPlace.span.inj e]
  · have hpS : ∀ S, p ≠ .span S := fun S e => hpS ⟨S, e⟩
    rw [hb.objsAt_other hp hpS] at hx
    exact .inr ⟨hx, hp, fun S _ => hpS S⟩

/-- The batch is scattered over the spans, and the list of the one that leaves is cleared. -/
theorem placed (hb : BatchBack s s' t h' o) (hi : SysInv d env s f)
    (hpc : s.pc t = .flush batch (indexToSize i)) (hcls : i < CLASSES)
    (hr : Returned d env i batch (.hand t) f f' s.heap h' o) : Placed (objsAt s') := by
  have hscat : Placed (scatteredAt s s' batch) := by
    refine hi.objs.placed.scatter (p := .hand t)
      (fun x => ObjPlace.span ((owner s.heap x).getD 0)) hb.objsAt_hand fun q hq => ?_
    cases q with
    | span S =>
      show ((ownedBy s.heap batch S).reverse ++ s.heap.objs S).Perm _
      refine List.Perm.append_right _ ((List.reverse_perm _).trans (List.Perm.of_eq ?_))
      rw [show objsAt s (.hand t) = batch by simp [objsAt, hpc, handObjs], ownedBy]
      refine List.filter_congr fun x hx => ?_
      rw [(hi.flushed_isObj hpc hcls hx).owner_eq hi.heap]
      simp
    | cache t' j =>
      show (objsAt s' (.cache t' j)).Perm _
      rw [hb.objsAt_other (by simp) (by simp)]
      simp
    | hand t' =>
      show (objsAt s' (.hand t')).Perm _
      rw [hb.objsAt_other hq (by simp)]
      simp
    | live =>
      show (objsAt s' .live).Perm _
      rw [hb.objsAt_other (by simp) (by simp)]
      simp
  refine hscat.sublist fun p => ?_
  cases p with
  | span S =>
    rw [hb.objsAt_span]
    by_cases hS : o = some S
    · rw [hr.objs_gone trivial hS]
      exact List.nil_sublist _
    · rw [hr.objs S hS]
      exact List.Sublist.refl _
  | _ => exact List.Sublist.refl _

theorem objInv (hb : BatchBack s s' t h' o) (hi : SysInv d env s f)
    (hpc : s.pc t = .flush batch (indexToSize i)) (hcls : i < CLASSES)
    (hr : Returned d env i batch (.hand t) f f' s.heap h' o) : ObjInv s' f' := by
  have hd : (SpanPlace.hand t).Loose := trivial
  refine ⟨hb.placed hi hpc hcls hr, fun {p x} hx => ?_, fun {j S x} hx => ?_,
    fun {b} hbl hbs => ?_⟩
  · rcases hb.mem_cases hr hx with ⟨S, rfl, hxS, hne⟩ | ⟨hxp, hph, hpS⟩
    · obtain ⟨hxb, hown⟩ := mem_ownedBy.mp hxS
      have hix := hi.flushed_isObj hpc hcls hxb
      rw [hix.owner_eq hi.heap] at hown
      rw [Option.some.inj hown] at hix
      exact ⟨i, by rw [hb.heap]; exact (hr.isObj_iff hd).mpr ⟨hix, hne⟩⟩
    · refine (hi.objs.sound hxp).frame (fun {j S} hjx => ?_) (by rw [hb.origin]) fun t' e => ?_
      · rw [hb.heap]
        refine (hr.isObj_iff hd).mpr ⟨hjx, fun hS => ?_⟩
        exact (place_gone hi hpc hr hS hjx hxp).elim hph (hpS S hS)
      · subst e
        exact hb.other t' (by simpa using hph)
  · rw [hb.heap] at hx
    obtain ⟨hx₀, hne⟩ := (hr.isObj_iff hd).mp hx
    obtain ⟨p, hp⟩ := hi.objs.cover hx₀
    have hin : x ∈ ownedBy s.heap batch S ∨ x ∈ s.heap.objs S → ∃ q, x ∈ objsAt s' q := fun h => by
      refine ⟨.span S, ?_⟩
      rw [hb.objsAt_span, hr.objs S hne]
      exact List.mem_append.mpr (h.imp List.mem_reverse.mpr id)
    by_cases hpt : p = .hand t
    · subst hpt
      rw [show objsAt s (.hand t) = batch by simp [objsAt, hpc, handObjs]] at hp
      exact hin (.inl (mem_ownedBy.mpr ⟨hp, hx₀.owner_eq hi.heap⟩))
    · by_cases hps : ∃ S', p = .span S'
      · obtain ⟨S', rfl⟩ := hps
        obtain ⟨j', hj'⟩ := hi.objs.sound hp
        obtain rfl := hx₀.span_eq hi.heap hj'
        exact hin (.inr hp)
      · exact ⟨p, by rw [hb.objsAt_other hpt fun S' e => hps ⟨S', e⟩]; exact hp⟩
  · rw [hb.live] at hbl
    obtain ⟨h1, j, h2, h3⟩ := hi.objs.block hbl hbs
    refine ⟨by rw [hb.origin]; exact h1, j, ?_, h3⟩
    rw [hb.heap]
    -- a block of the user is neither free nor in the batch
    refine (hr.isObj_iff hd).mpr ⟨h2, fun hS => ?_⟩
    have hlive : b.ptr ∈ objsAt s .live :=
      List.mem_map.mpr ⟨b, List.mem_filter.mpr ⟨hbl, by simpa using hbs⟩, rfl⟩
    rcases place_gone hi hpc hr hS h2 hlive with e | e <;> cases e

theorem handInv (hb : BatchBack s s' t h' o) (hi : SysInv d env s f)
    (hpc : s.pc t = .flush batch (indexToSize i))
    (hr : Returned d env i batch (.hand t) f f' s.heap h' o) : HandInv d s' f' := by
  have huser : f' .user = f .user := hr.places _ (by simp [SpanPlace.cls?]) (by simp)
  refine ⟨fun t' => ?_, ?_, fun {b} hbl hbs => ?_, fun ht x hx => ?_⟩
  · by_cases h : t' = t
    · subst h
      rw [hr.dst, hi.hands.hand t', hpc, hb.pc]
      cases o <;> rfl
    · rw [hr.places _ (by simp [SpanPlace.cls?]) (by simpa using h), hi.hands.hand t',
        hb.other t' h]
  · rw [huser, hb.live]
    exact hi.hands.user
  · rw [hb.live] at hbl
    rw [hb.heap, hr.start]
    exact hi.hands.block hbl hbs
  · rw [huser] at hx
    rw [hb.heap, hr.loc]
    exact hi.hands.tag ht x hx

theorem threadInv (hb : BatchBack s s' t h' o) (hi : SysInv d env s f)
    (hpc : s.pc t = .flush batch (indexToSize i)) (hfree : s.centralLock = none)
    (hpages : h'.pageSize = s.heap.pageSize) : ThreadInv s' := by
  refine hi.threads.step (t := t) hb.other (fun t' _ => by rw [hb.cache])
    (fun _ _ _ _ => by rw [hb.heap, hpages]) ⟨?_, .inr fun t' h => ⟨by rw [hfree]; simp, ?_⟩⟩ ?_
    (fun j hj _ => ?_) fun j hj => ?_
  · rw [hb.pc, hb.lock]
    cases o with
    | none => exact ⟨False.elim, fun e => by cases e⟩
    | some S => exact ⟨fun _ => rfl, fun _ => trivial⟩
  · rw [hb.lock]
    cases o with
    | none => simp
    | some S => exact fun e => h (Option.some.inj e).symm
  · rw [hb.pc]
    cases o <;> trivial
  · rw [hb.cache]
    exact hi.threads.begun t j hj (by rw [hpc]; trivial)
  · rw [hb.pc] at hj
    cases o <;> exact absurd trivial hj

end BatchBack

/-- A thread gives its batch back; a span whose objects are all back stays in its
hand. -/
theorem returnBatch_step (hi : SysInv d env s f) {i : Nat} {batch : List Nat}
    (hpc : s.pc t = .flush batch (indexToSize i)) (hcls : i < CLASSES)
    (hfree : s.centralLock = none)
    {h' : Heap} {o : Option SpanPtr} (hr : Returned d env i batch (.hand t) f f' s.heap h' o)
    {pc : Pc} (hpcO : pc = o.elim .ready .recycle) :
    SysInv d env (({ s with heap := h', centralLock := o.map fun _ => t } : Sys).setPc t pc)
    f' := by
  have hb : BatchBack s (({ s with heap := h', centralLock := o.map fun _ => t } : Sys).setPc t pc)
    t
      h' o :=
    ⟨rfl, rfl, by rw [setPc_pc, hpcO], fun _ h => setPc_pc_of_ne _ _ h, rfl, rfl, rfl⟩
  refine ⟨hr.inv, ?_, hb.handInv hi hpc hr, hb.objInv hi hpc hcls hr,
    hb.threadInv hi hpc hfree hr.pageSize⟩
  rw [setPc_heap, InMap, hr.brk]
  exact hi.inMap

end Frame

end SearchEngine.TcMalloc
