import SearchEngine.TcMalloc.Verify.LastClass

/-!
# The objects of a span

Every object of a carved span is in exactly one place, and `obj_refcount` counts those
that are not on the free list of the span (`objects_conserved`). While every flush
returns the last objects of one span, `obj_len` counts the objects of the span
(`lengths_exact`); a flush that leaves the span in the central cache makes it larger.
-/

namespace SearchEngine.TcMalloc

open LinkedRing Placement Outcome Reach

/-- The addresses of the objects that the span was carved into. -/
def objectsOf (h : Heap) (S : SpanPtr) : List Nat :=
  objsFrom (h.start S) (h.objsSize S) (h.pageSize S * 4096 / h.objsSize S)

/-- A span whose objects are accounted for. -/
structure Conserved (s : Sys) (S : SpanPtr) : Prop where
  unique : ∀ o ∈ objectsOf s.heap S, ∃! p, o ∈ objsAt s p
  once : ∀ o ∈ objectsOf s.heap S, ∀ p, (objsAt s p).count o ≤ 1
  place : ∀ o ∈ objectsOf s.heap S, ∀ S', o ∈ s.heap.objs S' → S' = S
  refcount : s.heap.objRefcount S =
    ((objectsOf s.heap S).filter fun o => o ∉ s.heap.objs S).length

/-- The objects are conserved, a flush does not take a reference count below zero, and
a span goes back to the page heap only when none of its bytes is outstanding. -/
structure ObjectsConserved (s : Sys) : Prop where
  spans : ∀ S, InCentral s.heap S → Conserved s S
  noUnderflow : ∀ t batch n, s.pc t = .flush batch n →
    ∀ S, (ownedBy s.heap batch S).length ≤ s.heap.objRefcount S
  recycle : ∀ t S, s.pc t = .recycle S → ∀ p o, o ∈ objsAt s p →
    ¬ (s.heap.start S ≤ o ∧ o < s.heap.start S + s.heap.pageSize S * 4096)

/-- The free objects of a span in the central cache are counted by `obj_len` and
`obj_refcount`. -/
structure LengthExact (h : Heap) (S : SpanPtr) : Prop where
  objLen : h.objLen S = (objectsOf h S).length
  free : h.objRefcount S ≤ h.objLen S ∧ h.objLen S - h.objRefcount S = (h.objs S).length

/-- The counts are exact, and `fetch_objs` makes a span idle exactly when it has taken
the last free object. -/
structure LengthsExact (h : Heap) : Prop where
  spans : ∀ S, InCentral h S → LengthExact h S
  idle : ∀ {i num S batch h'}, OnRing h.next (h.list i) S → h.objs S ≠ [] → 0 < num →
    takeObjs num i S h = .ok (batch, h') →
    (h'.objRefcount S = h'.objLen S ↔ h'.objs S = []) ∧
    (OnRing h'.next (h'.idle i) S ↔ h'.objs S = [])

section Accounting

variable {d : Discipline} {env : Env} {s : Sys} {h : Heap} {f : SpanPlace → List SpanPtr}
  {S : SpanPtr}

theorem HeapInv.objectsOf_eq (hi : HeapInv d env h f) {i : Nat} (hS : InClass f i S) :
    objectsOf h S = objsFrom (h.start S) (indexToSize i) (capacity i) := by
  obtain ⟨-, h1, h2⟩ := hi.inClass_of_size hS
  rw [objectsOf, h1, h2]
  rfl

theorem HeapInv.mem_objectsOf (hi : HeapInv d env h f) {i : Nat} (hS : InClass f i S) {o : Nat} :
    o ∈ objectsOf h S ↔ IsObj h f i S o := by
  rw [hi.objectsOf_eq hS, mem_objsFrom]
  exact ⟨fun ho => ⟨hS, ho⟩, And.right⟩

/-- The sublist that a list without repetitions cuts out of another has its length. -/
theorem length_filter_mem {l m : List Nat} (hl : l.Nodup) (hm : m.Nodup) (hsub : m ⊆ l) :
    (l.filter fun o => o ∈ m).length = m.length := by
  refine ((List.perm_ext_iff_of_nodup (hl.filter _) hm).mpr fun o => ?_).length_eq
  simp only [List.mem_filter, decide_eq_true_eq]
  exact ⟨And.right, fun h => ⟨hsub h, h⟩⟩

theorem SysInv.conserved (hi : SysInv d env s f) (hS : InCentral s.heap S) : Conserved s S := by
  obtain ⟨i, hcls⟩ := hi.heap.inCentral.mp hS
  obtain ⟨p, hp, hSp⟩ := hcls
  have hcls : InClass f i S := ⟨p, hp, hSp⟩
  have hk := hi.heap.kinds.carved hp hSp
  have hpos := indexToSize_pos i
  have hfree := hi.freeInv
  refine ⟨fun o ho => ?_, fun o _ q => List.nodup_iff_count_le_one.mp (hi.objs.placed.nodup q) o,
    fun o ho S' hoS' => ?_, ?_⟩
  · obtain ⟨q, hq⟩ := hi.objs.cover ((hi.heap.mem_objectsOf hcls).mp ho)
    exact ⟨q, hq, fun q' hq' => hi.objs.placed.unique hq' hq⟩
  · obtain ⟨j, hj⟩ := hi.objs.sound (p := .span S') hoS'
    exact hj.span_eq hi.heap ((hi.heap.mem_objectsOf hcls).mp ho)
  · have hnd : (objectsOf s.heap S).Nodup := by
      rw [hi.heap.objectsOf_eq hcls]; exact nodup_objsFrom (by omega)
    have hlen : (objectsOf s.heap S).length = capacity i := by
      rw [hi.heap.objectsOf_eq hcls, length_objsFrom]
    have hmem := length_filter_mem hnd (hfree.nodup hcls) fun o ho => by
      rw [hi.heap.mem_objectsOf hcls]
      exact ⟨hcls, hfree.sound hcls ho⟩
    have hsplit := List.length_eq_length_filter_add (l := objectsOf s.heap S)
      fun o => decide (o ∈ s.heap.objs S)
    have hcount := hk.count
    simp only [← decide_not] at hsplit
    omega

theorem SysInv.objectsConserved (hi : SysInv d env s f) : ObjectsConserved s where
  spans _ hS := hi.conserved hS
  noUnderflow t batch n hpc S := by
    by_cases hnil : ownedBy s.heap batch S = []
    · rw [hnil]; exact Nat.zero_le _
    obtain ⟨o, ho⟩ := List.exists_mem_of_ne_nil _ hnil
    have hhand : objsAt s (.hand t) = batch := by simp [objsAt, hpc, handObjs]
    -- the objects of the batch are objects of their span, and not on its free list
    have hobj : ∀ {x}, x ∈ ownedBy s.heap batch S → ∃ i, IsObj s.heap f i S x ∧ x ∈ batch := by
      intro x hx
      obtain ⟨hxb, hown⟩ := List.mem_filter.mp hx
      obtain ⟨i, -, hobj⟩ := hi.objs.sound (p := .hand t) (by rw [hhand]; exact hxb)
      have := owner_eq (hobj.2.mapAddr hi.heap hobj.1)
      simp only [decide_eq_true_eq] at hown
      rw [this] at hown
      rw [Option.some.inj hown] at hobj
      exact ⟨i, hobj, hxb⟩
    obtain ⟨i, hio, -⟩ := hobj ho
    have hcons := hi.conserved (hi.heap.inCentral.mpr ⟨i, hio.1⟩)
    rw [hcons.refcount]
    refine (List.Nodup.subperm ?_ fun x hx => ?_).length_le
    · refine List.Nodup.filter _ ?_
      rw [← hhand]
      exact hi.objs.placed.nodup _
    · obtain ⟨j, hjx, hxb⟩ := hobj hx
      obtain rfl := inClass_of_eq hi.heap.pages.placed hio.1 hjx.1
      refine List.mem_filter.mpr ⟨(hi.heap.mem_objectsOf hio.1).mpr hjx, ?_⟩
      simp only [decide_not, Bool.not_eq_eq_eq_not, Bool.not_true, decide_eq_false_iff_not]
      intro hxS
      cases hi.objs.placed.unique (p := .hand t) (q := .span S) (by rw [hhand]; exact hxb) hxS
  recycle t S hpc p o ho := by
    rintro ⟨h1, h2⟩
    have hS : S ∈ f (.hand t) := by rw [hi.hands.hand t, hpc]; exact List.mem_singleton_self S
    have howns := hi.heap.pages.owned hS
    have hmap := howns.mapAddr hi.heap.record.ini h1 h2
    have hno : ∀ {j S'}, ¬ IsObj s.heap f j S' o := by
      intro j S' hobj
      have hmap' := hobj.2.mapAddr hi.heap hobj.1
      rw [hmap] at hmap'
      obtain rfl := Option.some.inj (Except.ok.inj hmap')
      obtain ⟨q, hq, hSq⟩ := hobj.1
      rw [hi.heap.pages.placed.unique hSq hS] at hq
      cases hq
    have hsound := hi.objs.sound ho
    cases p with
    | span S' => obtain ⟨j, hj⟩ := hsound; exact hno hj
    | cache t' j => exact hno hsound
    | hand t' => obtain ⟨j, -, hj⟩ := hsound; exact hno hj
    | live => obtain ⟨j, hj⟩ := hsound; exact hno hj

theorem HeapInv.lengthExact (hi : HeapInv d env h f) (hl : d.lens) (hS : InCentral h S) :
    LengthExact h S := by
  obtain ⟨i, p, hp, hSp⟩ := hi.inCentral.mp hS
  have hk := hi.kinds.carved hp hSp
  have hexact := hk.exact hl
  have hcount := hk.count
  refine ⟨?_, by omega, by omega⟩
  rw [hi.objectsOf_eq ⟨p, hp, hSp⟩, length_objsFrom]
  exact hexact

theorem HeapInv.lengthsExact (hi : HeapInv d env h f) (hl : d.lens) : LengthsExact h where
  spans _ hS := hi.lengthExact hl hS
  idle {i num S batch h'} hS hne hnum hrun := by
    have hS : S ∈ f (.list i) := (hi.links.onRing_iff (r := .list i)).mp hS
    obtain ⟨batch', h'', f', hrun', htk, -⟩ := takeObjs_spec hi hS hne hnum
    obtain ⟨rfl, rfl⟩ := Prod.mk.inj (Except.ok.inj (hrun'.symm.trans hrun))
    have hpl := hi.pages.placed
    have hcls : InClass f' i S := ((htk.sameClass hpl hS).inClass i S).mpr ⟨.list i, rfl, hS⟩
    have hlen := htk.inv.lengthExact hl (htk.inv.inCentral.mpr ⟨i, hcls⟩)
    have hiff : h''.objRefcount S = h''.objLen S ↔ h''.objs S = [] := by
      rw [List.eq_nil_iff_length_eq_zero, ← hlen.free.2]
      have := hlen.free.1
      omega
    refine ⟨hiff, ?_⟩
    rw [← hiff]
    have hring : OnRing h''.next (h''.idle i) S ↔ S ∈ f' (.idle i) :=
      htk.inv.links.onRing_iff (r := .idle i)
    rw [hring]
    rcases htk.places with ⟨rfl, hr⟩ | ⟨rfl, hr⟩
    · refine ⟨fun h => ?_, fun h => absurd h hr⟩
      cases hpl.unique hS h
    · exact ⟨fun _ => hr, fun _ => by rw [moved_self]; exact List.mem_cons_self⟩

/-! ## Every run -/

/-- In a run whose fetches compute with sizes that fit, every object is in one place. -/
theorem objects_conserved (hs : env.Succeeds) (hr : Reachable env FetchMet s) :
    ObjectsConserved s := by
  obtain ⟨f, hi⟩ := reachable_base hs hr
  exact hi.objectsConserved

theorem objects_conserved_machine :
    ∃ s, Reachable machine FetchMet s ∧ s.live ≠ [] ∧ ObjectsConserved s := by
  obtain ⟨s, ⟨h₀, hinit, hrun⟩, hlive, -⟩ := machine_block
  have hr : Reachable machine FetchMet s := ⟨h₀, hinit, hrun.mono fun _ _ h => h.fetchMet⟩
  exact ⟨s, hr, hlive, objects_conserved machine_succeeds hr⟩

/-- The block of `malloc_wrapped`, freed, puts a free object of the last class into the cache
of the thread. -/
theorem object_twice : ∃ s, Reachable machine Any s ∧ ¬ ObjectsConserved s := by
  obtain ⟨s₀, ⟨h₀, hinit, hrun₀⟩, hs₀⟩ := machine_ready
  obtain ⟨s₁, hr₁, hw⟩ := hs₀.wrapped
  have hsame : Intact s₀.heap s₁.heap 14400 := hw.same
  obtain ⟨B, S, hlive, -⟩ := hw.live
  have hsingle : Single s₀.heap 158 14400 46624 1 := (hs₀.classes 158 (by decide)).1
  have hd : Drawn s₁ [191467520] 2 (s₁.live.map Block.ptr) :=
    ⟨by rw [hw.cache]; exact (hs₀.classes 158 (by decide)).2, hw.pc, hw.lock.trans hs₀.lock, rfl⟩
  have hsize : s₁.heap.objsSize 14400 = 32768 := hsame.objsSize.trans hsingle.objsSize
  obtain ⟨s₂, hstep, hd₂, hheap⟩ := hd.put (o := 190976000) (by decide)
    (by rw [hlive]; exact List.mem_cons_self) hw.found hsize
  refine ⟨s₂, ⟨h₀, hinit, ((hrun₀.mono fun _ _ _ => trivial).trans hr₁).tail trivial hstep⟩,
    fun hc => ?_⟩
  -- the lowest object of the span is on its list and in the cache
  have hfree : 190976000 ∈ objsAt s₂ (.span 14400) := by
    show 190976000 ∈ s₂.heap.objs 14400
    rw [hheap, hsame.objs, hsingle.objs]
    decide
  have hcached : 190976000 ∈ objsAt s₂ (.cache 0 158) := by
    show 190976000 ∈ (s₂.cache 0 158).objs
    rw [hd₂.cache]
    exact List.mem_cons_self
  have hin : InCentral s₂.heap 14400 := by
    rw [InCentral, hheap, hsize]
    decide
  have hobj : 190976000 ∈ objectsOf s₂.heap 14400 := by
    rw [objectsOf, hheap, hsame.start, hsame.pageSize, hsize, hsingle.start, hsingle.pageSize]
    decide
  cases ((hc.spans 14400 hin).unique _ hobj).unique hfree hcached

/-- The conditions under which `obj_len` counts the objects of a span. -/
def LenStep (s : Sys) (e : Event) : Prop := FetchMet s e ∧ LenMet s e

/-- In a run whose flushes return the last objects of one span each, the free objects
are counted exactly. -/
theorem lengths_exact (hs : env.Succeeds) (hr : Reachable env LenStep s) : LengthsExact s.heap := by
  obtain ⟨f, hi⟩ := reachable_inv (d := ⟨False, False, True⟩) hs
    (fun _ _ h => ⟨h.1, False.elim, False.elim, fun _ => h.2⟩) hr
  exact hi.heap.lengthsExact trivial

theorem lengths_exact_machine :
    ∃ s, Reachable machine LenStep s ∧ s.live ≠ [] ∧ LengthsExact s.heap := by
  obtain ⟨s, ⟨h₀, hinit, hrun⟩, hlive, -⟩ := machine_block
  have hr : Reachable machine LenStep s :=
    ⟨h₀, hinit, hrun.mono fun _ _ h => ⟨h.fetchMet, h.flushFree.2.2⟩⟩
  exact ⟨s, hr, hlive, lengths_exact machine_succeeds hr⟩

/-- A flush counts the objects it returns a second time. -/
theorem length_wrong : ∃ s, Reachable machine Any s ∧ ¬ LengthsExact s.heap := by
  obtain ⟨s, hr, hsize, hpages, hlen⟩ := counted_twice
  refine ⟨s, hr, fun hexact => ?_⟩
  have hin : InCentral s.heap 14400 := by
    rw [InCentral, hsize]
    decide
  have hcount := (hexact.spans 14400 hin).objLen
  rw [objectsOf, length_objsFrom, hlen, hsize, hpages] at hcount
  exact absurd hcount (by decide)

end Accounting

end SearchEngine.TcMalloc
