import SearchEngine.TcMalloc.Verify.Central
import Mathlib.Data.List.Perm.Subperm

/-!
# Returning objects to the central cache

`return_objs_to_centralcache` pushes each object of a batch on the free list of its
span (`returnLoop_spec`), takes the span of the last one off the idle list, as far as
its tag says that it is there (`leaveIdle_spec`), and takes that span out of the
central cache when all its objects are back (`recycle_spec`). `returnObjs_sat` joins
the three; the conditions under which the tags stay true and no span leaves its list
are `FlushTagOk` and `FlushListOk`.
-/

namespace SearchEngine.TcMalloc

open LinkedRing Placement Outcome

section Objects

variable {d : Discipline} {env : Env} {h h' : Heap} {f f' : SpanPlace → List SpanPtr}
  {s o i : Nat} {dst : SpanPlace}

/-! ## Returning objects -/

/-- The span that the page map gives for an address. -/
@[irreducible] def owner (h : Heap) (o : Nat) : Option SpanPtr := (mapAddrToSpan o h).toOption.join

theorem owner_eq (hm : mapAddrToSpan o h = .ok (some s)) : owner h o = some s := by
  rw [owner, hm]
  rfl

theorem owner_congr (h1 : h'.pageMapping = h.pageMapping) (h2 : h'.iniBrkAddr = h.iniBrkAddr) :
    owner h' = owner h := by
  funext o
  simp only [owner, mapAddrToSpan, h1, h2]

/-- The objects of `batch` that belong to the span `s`. -/
def ownedBy (h : Heap) (batch : List Nat) (s : SpanPtr) : List Nat :=
  batch.filter fun o => owner h o = some s

/-- The discipline of every run. -/
def Discipline.base : Discipline := ⟨False, False, False⟩

/-- What a discipline asks beyond the base. -/
structure Strict (d : Discipline) (h : Heap) (f : SpanPlace → List SpanPtr) : Prop where
  listLoc : d.tags → ∀ i s, s ∈ f (.list i) → h.loc s = .centralList
  idleEmpty : d.lists → ∀ i s, s ∈ f (.idle i) → h.objs s = []
  noLost : d.tags ∨ d.lists → ∀ i, f (.lost i) = []
  noStray : d.tags → ¬ h.stray
  exact : d.lens → ∀ i s, InClass f i s → h.objLen s = capacity i

theorem Carved.base {i : Nat} {s : SpanPtr} (hc : Carved d h i s) : Carved .base h i s :=
  ⟨hc.cls, hc.objsSize, hc.pageSize, hc.count, hc.objLen, False.elim⟩

theorem KindInv.base (hk : KindInv d h f) : KindInv .base h f where
  kind {p s} hs := by
    have hks := hk.kind hs
    cases p with
    | pg i => exact hks
    | list i => exact ⟨hks.1.base, False.elim⟩
    | idle i => exact ⟨hks.1.base, hks.2.1, False.elim⟩
    | lost i => exact ⟨hks.1.base, id, id⟩
    | hand t => exact hks
    | user => exact hks
  unused := hk.unused
  noStray := False.elim

theorem KindInv.strict (hk : KindInv d h f) : Strict d h f where
  listLoc ht _ _ hs := (hk.kind hs).2 ht
  idleEmpty hl _ _ hs := (hk.kind hs).2.2 hl
  noLost := hk.noLost
  noStray := hk.noStray
  exact hl _ _ hs := by
    obtain ⟨p, hp, hsp⟩ := hs
    exact (hk.carved hp hsp).exact hl

theorem Strict.kindInv (hs : Strict d h f) (hk : KindInv .base h f) : KindInv d h f where
  kind {p s} hx := by
    have hks := hk.kind hx
    have hcarved : ∀ {i}, p.cls? = some i → Carved .base h i s → Carved d h i s := fun hp hc =>
      ⟨hc.cls, hc.objsSize, hc.pageSize, hc.count, hc.objLen,
        fun hl => hs.exact hl _ _ ⟨p, hp, hx⟩⟩
    cases p with
    | pg i => exact hks
    | list i => exact ⟨hcarved rfl hks.1, fun ht => hs.listLoc ht i s hx⟩
    | idle i => exact ⟨hcarved rfl hks.1, hks.2.1, fun hl => hs.idleEmpty hl i s hx⟩
    | lost i =>
      refine ⟨hcarved rfl hks.1, fun ht => ?_, fun hl => ?_⟩
      · rw [hs.noLost (.inl ht)] at hx; cases hx
      · rw [hs.noLost (.inr hl)] at hx; cases hx
    | hand t => exact hks
    | user => exact hks
  unused := hk.unused
  noStray := hs.noStray

theorem HeapInv.base (hi : HeapInv d env h f) : HeapInv .base env h f :=
  ⟨hi.record, hi.pages, hi.links, hi.kinds.base⟩

/-- The free lists hold objects of their spans, each once. -/
structure FreeInv (h : Heap) (f : SpanPlace → List SpanPtr) : Prop where
  nodup : ∀ {i s}, InClass f i s → (h.objs s).Nodup
  sound : ∀ {i s o}, InClass f i s → o ∈ h.objs s → ObjOf h s i o

/-- The free list of a span with an object outstanding is not full. -/
theorem FreeInv.length_lt (hf : FreeInv h f) (hs : InClass f i s) (ho : ObjOf h s i o)
    (hno : o ∉ h.objs s) : (h.objs s).length < capacity i := by
  have hsub : o :: h.objs s ⊆ objsFrom (h.start s) (indexToSize i) (capacity i) := by
    intro x hx
    refine mem_objsFrom.mpr ?_
    rcases List.mem_cons.mp hx with rfl | hx
    · exact ho
    · exact hf.sound hs hx
  have hnd : (o :: h.objs s).Nodup := List.nodup_cons.mpr ⟨hno, hf.nodup hs⟩
  simpa [Nat.succ_le_iff] using (List.Nodup.subperm hnd hsub).length_le

/-- One object goes back to its span. -/
theorem returnObj_spec (hi : HeapInv .base env h f) (hf : FreeInv h f) (hs : InClass f i s)
    (ho : ObjOf h s i o) (hno : o ∉ h.objs s) :
    ∃ h', returnObj o h = .ok (s, h') ∧ 0 < h.objRefcount s ∧
      h' = { h with
        objs := Function.update h.objs s (o :: h.objs s)
        objLen := Function.update h.objLen s (h.objLen s + 1)
        objRefcount := Function.update h.objRefcount s (h.objRefcount s - 1) } ∧
      HeapInv .base env h' f ∧ FreeInv h' f := by
  obtain ⟨p, hp, hsp⟩ := hs
  have hcls : InClass f i s := ⟨p, hp, hsp⟩
  have hk : Carved .base h i s := hi.kinds.carved hp hsp
  have hlt := hf.length_lt hcls ho hno
  have hcap := capacity_le i
  have hcount := hk.count
  have hmod : (h.objRefcount s + 2 ^ 32 - 1) % 2 ^ 32 = h.objRefcount s - 1 := by omega
  have hrun : returnObj o h = .ok (s, { h with
      objs := Function.update h.objs s (o :: h.objs s)
      objLen := Function.update h.objLen s (h.objLen s + 1)
      objRefcount := Function.update h.objRefcount s (h.objRefcount s - 1) }) := by
    simp only [returnObj, ho.mapAddr hi hcls, ok_bind, freelistPush, hmod]
  refine ⟨_, hrun, by omega, rfl, ⟨hi.record.congr rfl rfl rfl rfl fun x hx hb => ?_,
    hi.pages.congr rfl rfl rfl rfl rfl fun _ => ⟨rfl, rfl, rfl⟩, hi.links,
    hi.kinds.stay (s := s) (fun x hx => ⟨by simp [hx], by simp [hx], rfl, by simp [hx], rfl, rfl⟩)
      (fun q hq => ?_) (fun hu => absurd hsp (hu _)) False.elim⟩, fun {j x} hx => ?_,
    fun {j x y} hx hy => ?_⟩
  · have hxs : x ≠ s := by have := (hi.pages.owned hsp).below; omega
    exact hb.congr (by simp [hxs]) (by simp [hxs]) rfl rfl rfl (by simp [hxs]) rfl rfl
  · obtain rfl := hi.pages.placed.unique hq hsp
    have hk' : Carved .base { h with
        objs := Function.update h.objs s (o :: h.objs s)
        objLen := Function.update h.objLen s (h.objLen s + 1)
        objRefcount := Function.update h.objRefcount s (h.objRefcount s - 1) } i s := by
      refine ⟨hk.cls, hk.objsSize, hk.pageSize, ?_, ?_, False.elim⟩
      · simp only [Function.update_self, List.length_cons]; omega
      · simp only [Function.update_self]; exact hk.objLen.trans (Nat.le_succ _)
    have hks := hi.kinds.kind hsp
    cases q with
    | list j => exact ⟨Option.some.inj hp ▸ hk', False.elim⟩
    | idle j => exact ⟨Option.some.inj hp ▸ hk', hks.2.1, False.elim⟩
    | lost j => exact ⟨Option.some.inj hp ▸ hk', id, id⟩
    | _ => simp [SpanPlace.cls?] at hp
  · by_cases hxs : x = s
    · subst hxs
      simpa using ⟨hno, hf.nodup hcls⟩
    · simpa [hxs] using hf.nodup hx
  · by_cases hxs : x = s
    · subst hxs
      obtain ⟨q, hq, hxq⟩ := hx
      obtain rfl : p = q := hi.pages.placed.unique hsp hxq
      obtain rfl : i = j := Option.some.inj (hp.symm.trans hq)
      simp only [Function.update_self, List.mem_cons] at hy
      rcases hy with rfl | hy
      · exact ho
      · exact hf.sound hcls hy
    · simp only [Function.update_of_ne hxs] at hy
      exact hf.sound hx hy

/-- What the loop of `return_objs_to_centralcache` does. -/
structure Pushed (env : Env) (f : SpanPlace → List SpanPtr) (batch : List Nat) (h h' : Heap) :
    Prop where
  inv : HeapInv .base env h' f
  free : FreeInv h' f
  links : h'.toLinks = h.toLinks
  loc : h'.loc = h.loc
  start : h'.start = h.start
  pageSize : h'.pageSize = h.pageSize
  objsSize : h'.objsSize = h.objsSize
  brk : h'.brk = h.brk
  owner : owner h' = owner h
  objs : ∀ s, h'.objs s = (ownedBy h batch s).reverse ++ h.objs s
  objLen : ∀ s, h'.objLen s = h.objLen s + (ownedBy h batch s).length
  refcount : ∀ s, h'.objRefcount s + (ownedBy h batch s).length = h.objRefcount s

theorem returnLoop_spec :
    ∀ {b : List Nat} {l : Option SpanPtr} {h : Heap}, HeapInv .base env h f → FreeInv h f →
      (∀ o ∈ b, ∃ s, InClass f i s ∧ ObjOf h s i o) → b.Nodup → (∀ o ∈ b, ∀ s, o ∉ h.objs s) →
      ∃ last h', returnLoop b l h = .ok (last, h') ∧ Pushed env f b h h' ∧
        last = ((b.getLast?.map (owner h)).getD l)
  | [], last, h, hi, hf, _, _, _ => by
    refine ⟨last, h, rfl, ⟨hi, hf, rfl, rfl, rfl, rfl, rfl, rfl, rfl, fun s => ?_, fun s => ?_,
      fun s => ?_⟩, rfl⟩ <;> simp [ownedBy]
  | o :: rest, last, h, hi, hf, hob, hnd, hno => by
    obtain ⟨s, hs, ho⟩ := hob o List.mem_cons_self
    obtain ⟨h₁, hrun, hpos, hh₁, hi₁, hf₁⟩ :=
      returnObj_spec hi hf hs ho (hno o List.mem_cons_self s)
    have hown : owner h o = some s := owner_eq (ho.mapAddr hi hs)
    have howner : owner h₁ = owner h := owner_congr (by rw [hh₁]) (by rw [hh₁])
    have hnd' := List.nodup_cons.mp hnd
    obtain ⟨last', h₂, hrun₂, hp, hlast⟩ := returnLoop_spec (b := rest) (l := some s) hi₁ hf₁
      (fun x hx => by
        obtain ⟨s', hs', hx'⟩ := hob x (List.mem_cons_of_mem _ hx)
        exact ⟨s', hs', by rw [hh₁]; exact hx'⟩) hnd'.2
      (fun x hx s' hxs => by
        have hxo : x ≠ o := fun e => hnd'.1 (e ▸ hx)
        have hx' := hno x (List.mem_cons_of_mem _ hx) s'
        rw [hh₁] at hxs
        by_cases hss : s' = s
        · subst hss
          simp only [Function.update_self, List.mem_cons] at hxs
          exact hxs.elim hxo hx'
        · simp only [Function.update_of_ne hss] at hxs
          exact hx' hxs)
    have hcount : ∀ x, ownedBy h₁ rest x = ownedBy h rest x := fun x => by
      simp only [ownedBy, howner]
    have hcons : ∀ x, ownedBy h (o :: rest) x =
        if x = s then o :: ownedBy h rest x else ownedBy h rest x := by
      intro x
      simp only [ownedBy, List.filter_cons, hown, Option.some.injEq, decide_eq_true_eq,
        eq_comm (a := s)]
    refine ⟨last', h₂, by simp only [returnLoop, hrun, ok_bind, hrun₂], ⟨hp.inv, hp.free,
      hp.links.trans (by rw [hh₁]), hp.loc.trans (by rw [hh₁]), hp.start.trans (by rw [hh₁]),
      hp.pageSize.trans (by rw [hh₁]), hp.objsSize.trans (by rw [hh₁]), hp.brk.trans (by rw [hh₁]),
      hp.owner.trans howner, fun x => ?_, fun x => ?_, fun x => ?_⟩, ?_⟩
    · rw [hp.objs, hcount, hcons, hh₁]
      by_cases hx : x = s
      · subst hx; simp
      · simp [hx]
    · rw [hp.objLen, hcount, hcons, hh₁]
      by_cases hx : x = s
      · subst hx; simp; omega
      · simp [hx]
    · have hrc := hp.refcount x
      rw [hcount, hh₁] at hrc
      rw [hcons]
      by_cases hx : x = s
      · subst hx
        simp only [Function.update_self] at hrc
        simp only [if_true, List.length_cons]
        omega
      · simp only [Function.update_of_ne hx] at hrc
        rw [if_neg hx]
        exact hrc
    · rw [hlast, howner]
      cases rest with
      | nil => simp [hown]
      | cons y t =>
        rw [List.getLast?_cons_cons, List.getLast?_eq_some_getLast (List.cons_ne_nil y t)]
        rfl

/-! ## Leaving the idle list -/

theorem inClass_of_eq {j : Nat} (hp : Placed f) (hs : InClass f i s) (hs' : InClass f j s) :
    i = j := by
  obtain ⟨p, hpi, hsp⟩ := hs
  obtain ⟨q, hqj, hsq⟩ := hs'
  obtain rfl := hp.unique hsp hsq
  exact Option.some.inj (hpi.symm.trans hqj)

/-- The spans of a class are rearranged among its places. -/
theorem KindInv.rearrange (hk : KindInv .base h f)
    (hmem : ∀ {p s}, s ∈ f' p → s ∈ f p ∨ ∃ i, (p = .list i ∨ p = .lost i) ∧ InClass f i s)
    (hcov : ∀ {p s}, s ∈ f p → ∃ q, s ∈ f' q) : KindInv .base h f' where
  kind {p s} hs := by
    rcases hmem hs with hs | ⟨i, hp, q, hq, hsq⟩
    · exact hk.kind hs
    · have hc := hk.carved hq hsq
      rcases hp with rfl | rfl
      · exact ⟨hc, False.elim⟩
      · exact ⟨hc, id, id⟩
  unused hs := hk.unused fun p hp => by
    obtain ⟨q, hq⟩ := hcov hp
    exact hs q hq
  noStray := False.elim

/-- What `f'` makes of the spans of class `i`: they stay in the class, and the other
places stay as they are. -/
structure Rearranged (i : Nat) (f f' : SpanPlace → List SpanPtr) : Prop where
  placed : Placed f'
  other : ∀ p : SpanPlace, p.cls? ≠ some i → f' p = f p
  idle : f' (.idle i) ⊆ f (.idle i)
  inClass : ∀ s, InClass f' i s ↔ InClass f i s

theorem Rearranged.heapInv {l : Links} (hr : Rearranged i f f') (hi : HeapInv .base env h f)
    (hl : LinkInv l f') : HeapInv .base env { h with toLinks := l } f' := by
  have hmem : ∀ {p s}, s ∈ f' p → s ∈ f p ∨ ∃ i, (p = .list i ∨ p = .lost i) ∧ InClass f i s := by
    intro p s hs
    by_cases hp : p.cls? = some i
    · cases p with
      | list j => exact .inr ⟨j, .inl rfl, Option.some.inj hp ▸ (hr.inClass s).mp ⟨_, hp, hs⟩⟩
      | lost j => exact .inr ⟨j, .inr rfl, Option.some.inj hp ▸ (hr.inClass s).mp ⟨_, hp, hs⟩⟩
      | idle j =>
        obtain rfl : j = i := Option.some.inj hp
        exact .inl (hr.idle hs)
      | _ => simp [SpanPlace.cls?] at hp
    · exact .inl (hr.other p hp ▸ hs)
  refine hi.relink hl hr.placed (fun p s hs => ?_) ?_
  · rcases hmem hs with hs | ⟨j, -, q, -, hq⟩
    · exact ⟨p, hs⟩
    · exact ⟨q, hq⟩
  · refine KindInv.rearrange (f := f) (hi.kinds.congr rfl rfl rfl rfl False.elim
      fun _ _ => ⟨rfl, rfl⟩) hmem fun {p s} hs => ?_
    by_cases hp : p.cls? = some i
    · obtain ⟨q, -, hq⟩ := (hr.inClass s).mpr ⟨p, hp, hs⟩
      exact ⟨q, hq⟩
    · exact ⟨p, hr.other p hp ▸ hs⟩

theorem inClass_cases (hs : InClass f i s) :
    s ∈ f (.list i) ∨ s ∈ f (.idle i) ∨ s ∈ f (.lost i) := by
  obtain ⟨p, hp, hs⟩ := hs
  cases p with
  | list j => exact .inl (Option.some.inj hp ▸ hs)
  | idle j => exact .inr (.inl (Option.some.inj hp ▸ hs))
  | lost j => exact .inr (.inr (Option.some.inj hp ▸ hs))
  | _ => simp [SpanPlace.cls?] at hp

/-- A span of the class goes from one of its places to the list. -/
theorem rearranged_moved (hp : Placed f) {p : SpanPlace} (hpc : p.cls? = some i)
    (hne : p ≠ .list i) (hs : s ∈ f p) : Rearranged i f (moved f p (.list i) s) where
  placed := placed_moved hp hne hs
  other q hq := moved_of_ne (fun e => hq (e ▸ hpc)) (fun e => hq (e ▸ rfl))
  idle := by
    intro x hx
    rcases mem_moved hp hne hs hx with ⟨e, -⟩ | ⟨-, hx⟩
    · cases e
    · exact hx
  inClass x := by
    constructor
    · rintro ⟨q, hq, hx⟩
      rcases mem_moved hp hne hs hx with ⟨-, rfl⟩ | ⟨-, hx⟩
      · exact ⟨p, hpc, hs⟩
      · exact ⟨q, hq, hx⟩
    · rintro ⟨q, hq, hx⟩
      by_cases hxs : x = s
      · exact ⟨.list i, rfl, by rw [moved_self, hxs]; exact List.mem_cons_self⟩
      · exact ⟨q, hq, mem_moved_of_ne hne hxs hx⟩

theorem perm_cutOff {l : List SpanPtr} (hs : s ∈ l) :
    l.Perm (cutOff s l ++ s :: keptBehind s l) := by
  rw [cutOff, keptBehind]
  split_ifs with hh
  · obtain ⟨t, rfl⟩ : ∃ t, l = s :: t := by
      cases l with
      | nil => cases hs
      | cons a t => exact ⟨t, by rw [Option.some.inj hh]⟩
    exact (List.perm_append_singleton s t).symm
  · exact List.perm_cons_erase hs

theorem keptBehind_of_not_mem {l : List SpanPtr} (hs : s ∉ l) : keptBehind s l = l := by
  rw [keptBehind, if_neg fun h : l.head? = some s => hs (List.mem_of_mem_head? h),
    List.erase_of_not_mem hs]

/-- The spans behind the first one are cut off its list. -/
theorem rearranged_detach (hp : Placed f) (hs : s ∈ f (.list i)) :
    Rearranged i f (Function.update (Function.update f (.list i) (s :: keptBehind s (f (.list i))))
      (.lost i) (cutOff s (f (.list i)) ++ f (.lost i))) := by
  have hne : SpanPlace.list i ≠ .lost i := by simp
  have hperm := perm_cutOff hs
  refine ⟨hp.move hne hperm (List.Perm.refl _), fun q hq => ?_, ?_, fun x => ⟨?_, ?_⟩⟩
  · have h1 : q ≠ .list i := by rintro rfl; exact hq rfl
    have h2 : q ≠ .lost i := by rintro rfl; exact hq rfl
    rw [Function.update_of_ne h2, Function.update_of_ne h1]
  · rw [Function.update_of_ne (by simp), Function.update_of_ne (by simp)]
    exact List.Subset.refl _
  · rintro ⟨q, hq, hx⟩
    rcases hp.mem_of_move hne hperm (List.Perm.refl _) hx with ⟨-, hx⟩ | ⟨hx, -⟩
    · exact ⟨_, rfl, hperm.mem_iff.mpr (List.mem_append_left _ hx)⟩
    · exact ⟨q, hq, hx⟩
  · rintro ⟨q, hq, hx⟩
    by_cases hql : q = .list i
    · subst hql
      rcases List.mem_append.mp (hperm.mem_iff.mp hx) with hx | hx
      · exact ⟨.lost i, rfl, by rw [Function.update_self]; exact List.mem_append_left _ hx⟩
      · exact ⟨.list i, rfl, by rw [Function.update_of_ne hne, Function.update_self]; exact hx⟩
    · by_cases hqo : q = .lost i
      · subst hqo
        exact ⟨.lost i, rfl, by rw [Function.update_self]; exact List.mem_append_right _ hx⟩
      · exact ⟨q, hq, by rwa [Function.update_of_ne hqo, Function.update_of_ne hql]⟩

/-- A span with an object on its free list leaves the idle list, or is taken for one
that does. -/
structure LeftIdle (i : Nat) (s : SpanPtr) (f f' : SpanPlace → List SpanPtr) (h : Heap)
    (l : Links) : Prop where
  links : LinkInv l f'
  moves : Rearranged i f f'
  found : s ∈ f' (.list i) ∨ s ∈ f' (.lost i)
  notIdle : s ∉ f' (.idle i)
  stays : h.loc s ≠ .centralIdle → f' = f ∧ l = h.toLinks
  leaves : s ∈ f (.idle i) → f' = moved f (.idle i) (.list i) s ∧ (l.stray ↔ h.stray)
  tagged : h.loc s = .centralIdle → f' (.list i) = s :: keptBehind s (f (.list i)) ∧
    f' (.idle i) = (f (.idle i)).erase s
  lost : ¬ (h.list i = some s ∧ h.next s ≠ some s) → (∀ j, f (.lost j) = []) →
    ∀ j, f' (.lost j) = []

theorem leaveIdle_run (hloc : h.loc s = .centralIdle) (hne : h.objRefcount s ≠ h.objLen s)
    {l : Links} (hrem : removeSpan (.centralIdle i) s h.toLinks = .ok l) :
    leaveIdle i s h = .ok { h with toLinks := spanlistPush (.centralList i) s l } := by
  rw [leaveIdle, if_pos ⟨hloc, hne⟩]
  simp only [Heap.remove, hrem]
  rfl

/-- The tag says that the span is not idle, and it is not. -/
theorem leftIdle_untagged (hi : HeapInv .base env h f) (hs : InClass f i s)
    (hloc : h.loc s ≠ .centralIdle) : LeftIdle i s f f h h.toLinks := by
  have hnot : s ∉ f (.idle i) := fun h' => hloc (hi.kinds.kind h').2.1
  refine ⟨hi.links, ⟨hi.pages.placed, fun _ _ => rfl, List.Subset.refl _, fun _ => Iff.rfl⟩, ?_,
    hnot,
    fun _ => ⟨rfl, rfl⟩, fun h' => absurd h' hnot, fun h' => absurd h' hloc, fun _ h' => h'⟩
  rcases inClass_cases hs with h' | h' | h'
  · exact .inl h'
  · exact absurd h' hnot
  · exact .inr h'

/-- A stale tag: the span is on the list, and is unlinked as if it were idle. -/
theorem leftIdle_stale (hi : HeapInv .base env h f) (hl : s ∈ f (.list i))
    (hloc : h.loc s = .centralIdle) :
    ∃ l f', removeSpan (.centralIdle i) s h.toLinks = .ok l ∧
      LeftIdle i s f f' h (spanlistPush (.centralList i) s l) := by
  have hp := hi.pages.placed
  obtain ⟨l', hrem, hlinks⟩ := hi.links.detach hp (r := .list i) (q := .idle i) hl (by simp) i
  have hne : SpanPlace.list i ≠ .lost i := by simp
  have hidle : s ∉ f (.idle i) := hp.not_mem_of_ne hl (by simp)
  have hmoves := rearranged_detach hp hl
  refine ⟨l', _, hrem, hlinks, hmoves, .inl ?_, fun h' => hidle (hmoves.idle h'),
    fun h' => absurd hloc h', fun h' => absurd h' hidle, fun _ => ⟨?_, ?_⟩, fun hc hlost j => ?_⟩
  · rw [show RingHead.place (.list i) = .list i from rfl, Function.update_of_ne hne,
      Function.update_self]
    exact List.mem_cons_self
  · rw [show RingHead.place (.list i) = .list i from rfl, Function.update_of_ne hne,
      Function.update_self]
  · rw [show RingHead.place (.list i) = .list i from rfl, Function.update_of_ne (by simp),
      Function.update_of_ne (by simp), List.erase_of_not_mem hidle]
  · show Function.update (Function.update f (.list i) _) (.lost i) _ (.lost j) = []
    by_cases hj : j = i
    · subst hj
      rw [Function.update_self, show RingHead.place (.list j) = .list j from rfl, cutOff, hlost]
      split_ifs with hh
      · -- the span is the first on its list, so it is alone there
        have hhead : h.list j = some s := (hi.links.head (.list j)).trans hh
        have hnext : h.next s = some s := by
          by_contra hn
          exact hc ⟨hhead, hn⟩
        have hf : f (.list j) = [s] := (hi.links.ring (.list j)).eq_singleton (hp.nodup _) hl hnext
        rw [hf]
        rfl
      · rfl
    · rw [Function.update_of_ne (by simpa using hj), Function.update_of_ne (by simp), hlost]

/-- The span is idle, and goes to the list. -/
theorem leftIdle_idle (hi : HeapInv .base env h f) (hl : s ∈ f (.idle i))
    (hloc : h.loc s = .centralIdle) :
    ∃ l f', removeSpan (.centralIdle i) s h.toLinks = .ok l ∧
      LeftIdle i s f f' h (spanlistPush (.centralList i) s l) := by
  have hp := hi.pages.placed
  obtain ⟨l', hrem, hlinks, hst⟩ := hi.links.transfer hp (r := .idle i) (q := .list i) (by simp) hl
  have hne : SpanPlace.idle i ≠ .list i := by simp
  have hmoves := rearranged_moved (i := i) hp rfl hne hl
  have hin : s ∈ moved f (.idle i) (.list i) s (.list i) := by
    rw [moved_self]
    exact List.mem_cons_self
  refine ⟨l', _, hrem, hlinks, hmoves, .inl hin, hmoves.placed.not_mem_of_ne hin (by simp),
    fun h' => absurd hloc h',
    fun _ => ⟨rfl, (Iff.of_eq (spanlistPush_stray (.list i) s l')).trans hst⟩,
    fun _ => ⟨?_, ?_⟩, fun _ hlost j => (moved_of_ne (Ne.symm ((RingHead.idle i).place_ne_lost j))
      (Ne.symm ((RingHead.list i).place_ne_lost j))).trans (hlost j)⟩
  · rw [keptBehind_of_not_mem (hp.not_mem_of_ne hl hne)]
    exact moved_self
  · exact (Function.update_of_ne hne _ _).trans (Function.update_self ..)

/-- The span is with those that no head leads to, and goes back to the list. -/
theorem leftIdle_lost (hi : HeapInv .base env h f) (hl : s ∈ f (.lost i))
    (hloc : h.loc s = .centralIdle) :
    ∃ l f', removeSpan (.centralIdle i) s h.toLinks = .ok l ∧
      LeftIdle i s f f' h (spanlistPush (.centralList i) s l) := by
  have hp := hi.pages.placed
  obtain ⟨l', hrem, hlinks⟩ := hi.links.remove_lost hp (.idle i) hl
  have hne : SpanPlace.lost i ≠ .list i := by simp
  have hmoves := rearranged_moved (i := i) hp rfl hne hl
  have hp' : Placed (Function.update f (.lost i) ((f (.lost i)).erase s)) :=
    hp.sublist fun q => by
      by_cases hq : q = .lost i
      · subst hq
        rw [Function.update_self]
        exact List.erase_sublist
      · rw [Function.update_of_ne hq]
  have hun : ∀ q, s ∉ Function.update f (.lost i) ((f (.lost i)).erase s) q := by
    intro q hq
    by_cases hqi : q = .lost i
    · subst hqi
      rw [Function.update_self] at hq
      exact absurd rfl ((hp.nodup _).mem_erase_iff.mp hq).1
    · rw [Function.update_of_ne hqi] at hq
      exact hqi (hp.unique hq hl)
  have hput := hlinks.push hp' (.list i) (not_linked_of_unplaced hun)
  rw [show RingHead.place (.list i) = .list i from rfl, Function.update_of_ne (Ne.symm hne)] at hput
  have hin : s ∈ moved f (.lost i) (.list i) s (.list i) := by
    rw [moved_self]
    exact List.mem_cons_self
  refine ⟨l', _, hrem, hput, hmoves, .inl hin, hmoves.placed.not_mem_of_ne hin (by simp),
    fun h' => absurd hloc h', fun h' => ?_, fun _ => ⟨?_, ?_⟩, fun _ hlost j => ?_⟩
  · exact absurd (hp.unique hl h') (by simp)
  · rw [keptBehind_of_not_mem (hp.not_mem_of_ne hl hne)]
    exact moved_self
  · have hidle : s ∉ f (.idle i) := fun h' => by cases hp.unique hl h'
    rw [List.erase_of_not_mem hidle]
    exact moved_of_ne (p := .lost i) (q := .list i) (fun e => by cases e) fun e => by cases e
  · rw [hlost i] at hl
    cases hl

theorem leaveIdle_spec (hi : HeapInv .base env h f) (hs : InClass f i s)
    (hne : h.objRefcount s ≠ h.objLen s) :
    ∃ l f', leaveIdle i s h = .ok { h with toLinks := l } ∧ LeftIdle i s f f' h l := by
  by_cases hloc : h.loc s = .centralIdle
  · have hleft : ∃ l f', removeSpan (.centralIdle i) s h.toLinks = .ok l ∧
        LeftIdle i s f f' h (spanlistPush (.centralList i) s l) := by
      rcases inClass_cases hs with hl | hl | hl
      · exact leftIdle_stale hi hl hloc
      · exact leftIdle_idle hi hl hloc
      · exact leftIdle_lost hi hl hloc
    obtain ⟨l, f', hrem, hleft⟩ := hleft
    exact ⟨_, f', leaveIdle_run hloc hne hrem, hleft⟩
  · exact ⟨h.toLinks, f, by rw [leaveIdle, if_neg fun h' => hloc h'.1],
      leftIdle_untagged hi hs hloc⟩

/-! ## Returning a batch -/

/-- The end of `return_objs_to_centralcache` when the last object of the span `s` is
back. -/
def recycled (h : Heap) (l : Links) (s : SpanPtr) : Heap :=
  { h with
    toLinks := { l with
      next := Function.update l.next s (some s)
      prev := Function.update l.prev s (some s) }
    objsSize := Function.update h.objsSize s 0
    objLen := Function.update h.objLen s 0
    objs := Function.update h.objs s [] }

theorem recycle_spec (hi : HeapInv .base env h f) {p : SpanPlace} (hp : p = .list i ∨ p = .lost i)
    (hs : s ∈ f p) (hz : h.objRefcount s = 0) (hd : dst.Loose) :
    ∃ l, h.remove (.centralList i) s = .ok { h with toLinks := l } ∧
      HeapInv .base env (recycled h l s) (moved f p dst s) ∧
      (p = .list i → (l.stray ↔ h.stray)) := by
  have hpl := hi.pages.placed
  have hnl : ¬ p.Loose := by rcases hp with rfl | rfl <;> exact id
  have hne : p ≠ dst := SpanPlace.ne_of_loose hnl hd
  obtain ⟨l, hrem, hl, hst⟩ : ∃ l, removeSpan (.centralList i) s h.toLinks = .ok l ∧
      LinkInv l (moved f p dst s) ∧ (p = .list i → (l.stray ↔ h.stray)) := by
    rcases hp with rfl | rfl
    · obtain ⟨l, hrem, hl, hst⟩ := hi.links.takeOff hpl (r := .list i) hs hd
      exact ⟨l, hrem, hl, fun _ => hst⟩
    · obtain ⟨l, hrem, hl⟩ := hi.links.remove_lost hpl (.list i) hs
      refine ⟨l, hrem, hl.congr_loose fun q hq => ?_, fun e => by cases e⟩
      simp only [moved, Function.update_of_ne (SpanPlace.ne_of_loose hq hd)]
  have hpm := placed_moved hpl hne hs
  have hsd : s ∈ moved f p dst s dst := by rw [moved_self]; exact List.mem_cons_self
  have hun := not_linked_of_loose hpm hsd hd
  refine ⟨l, by simp only [Heap.remove, hrem]; rfl, ⟨hi.record.congr rfl rfl rfl rfl
    fun x hx hb => ?_, PageInv.congr_places (f := f) (hi.pages.congr rfl rfl rfl rfl rfl
    fun _ => ⟨rfl, rfl, rfl⟩) hpm fun _ _ hx => exists_of_mem_moved hpl hne hs hx,
    hl.congr_links (fun r => by cases r <;> rfl) fun x hx => ?_, hi.kinds.place hpl hne hs
    (fun x hx => ⟨by simp [recycled, hx], by simp [recycled, hx], by simp [recycled, hx], rfl, rfl,
      rfl⟩) (Kind.of_loose hd ⟨by simp [recycled], by simp [recycled], by simp [recycled], hz⟩)
    False.elim⟩, hst⟩
  · have hxs : x ≠ s := by have := (hi.pages.owned hs).below; omega
    exact hb.congr (by simp [recycled, hxs]) (by simp [recycled, hxs]) rfl rfl
      (by simp [recycled, hxs]) rfl rfl rfl
  · have hxs : x ≠ s := fun e => hun (e ▸ hx)
    simp [recycled, hxs]

/-- The span of the last object of a batch. -/
def lastOwner (h : Heap) (batch : List Nat) : Option SpanPtr := batch.getLast?.bind (owner h)

/-- A flush that keeps the tags true: a span it takes from the idle list is one whose
objects are all back. -/
def FlushTagOk (h : Heap) (batch : List Nat) : Prop :=
  ∀ s, lastOwner h batch = some s → h.loc s = .centralIdle →
    h.objRefcount s = (ownedBy h batch s).length

/-- A flush that loses no span: only the span of the last object may be idle, and that
span is not, by a stale tag, the first of several on the list. -/
def FlushListOk (h : Heap) (i : Nat) (batch : List Nat) : Prop :=
  (∀ o ∈ batch, ∀ s, owner h o = some s → OnRing h.next (h.idle i) s →
    lastOwner h batch = some s) ∧
  ∀ s, lastOwner h batch = some s → h.loc s = .centralIdle →
    ¬ (h.list i = some s ∧ h.next s ≠ some s)

/-- A flush after which `obj_len` still counts the objects: it returns the last objects
of one span, and that span leaves the central cache. -/
def FlushLenOk (h : Heap) (batch : List Nat) : Prop :=
  ∀ o ∈ batch, ∀ s, owner h o = some s → lastOwner h batch = some s ∧
    h.objRefcount s = (ownedBy h batch s).length

/-- What `return_objs_to_centralcache` does, up to the return of the span `o` to the
page heap. -/
structure Returned (d : Discipline) (env : Env) (i : Nat) (batch : List Nat) (dst : SpanPlace)
    (f f' : SpanPlace → List SpanPtr) (h h' : Heap) (o : Option SpanPtr) : Prop where
  inv : HeapInv d env h' f'
  start : h'.start = h.start
  pageSize : h'.pageSize = h.pageSize
  brk : h'.brk = h.brk
  loc : h'.loc = h.loc
  places : ∀ p : SpanPlace, p.cls? ≠ some i → p ≠ dst → f' p = f p
  objs : ∀ s, o ≠ some s → h'.objs s = (ownedBy h batch s).reverse ++ h.objs s
  inClass : ∀ s, InClass f' i s ↔ InClass f i s ∧ o ≠ some s
  dst : f' dst = o.toList ++ f dst
  gone : ∀ s, o = some s → InClass f i s ∧
    ∀ x, ObjOf h s i x → x ∈ (ownedBy h batch s).reverse ++ h.objs s

/-- A full free list holds every object of its span. -/
theorem FreeInv.full (hf : FreeInv h f) (hs : InClass f i s)
    (hlen : (h.objs s).length = capacity i) {x : Nat} (hx : ObjOf h s i x) : x ∈ h.objs s := by
  by_contra hno
  have := hf.length_lt hs hx hno
  omega

/-- The places of a class hold fewer spans of it, and no others. -/
theorem Rearranged.inClass_of {j : Nat} (hr : Rearranged i f f') (hs : InClass f' j s) :
    InClass f j s := by
  obtain ⟨q, hq, hsq⟩ := hs
  by_cases hj : j = i
  · subst hj
    exact (hr.inClass s).mp ⟨q, hq, hsq⟩
  · exact ⟨q, hq, by rwa [← hr.other q (by rw [hq]; simpa using hj)]⟩

/-- The objects of a batch are back, and the span `s` of the last one has left the idle list. -/
structure ObjsBack (env : Env) (i : Nat) (batch : List Nat) (s : SpanPtr)
    (f f₁ : SpanPlace → List SpanPtr) (h h₁ : Heap) (l : Links) : Prop where
  pushed : Pushed env f batch h h₁
  inv : HeapInv .base env { h₁ with toLinks := l } f₁
  inClass : InClass f i s
  last : lastOwner h batch = some s
  counted : 0 < (ownedBy h batch s).length
  left : LeftIdle i s f f₁ h l
  gone : h₁.objRefcount s = 0 → ∀ l',
    Heap.remove (.centralList i) s { h₁ with toLinks := l } = .ok { h₁ with toLinks := l' } →
    returnObjs batch (indexToSize i) h = .ok (some s, recycled h₁ l' s)
  stays : h₁.objRefcount s ≠ 0 →
    returnObjs batch (indexToSize i) h = .ok (none, { h₁ with toLinks := l })

theorem returnObjs_back (hi : HeapInv d env h f) (hf : FreeInv h f) {batch : List Nat} {y : Nat}
    (hcls : i < CLASSES) (hy : batch.getLast? = some y) (hs : InClass f i s) (hys : ObjOf h s i y)
    (hob : ∀ o ∈ batch, ∃ s, InClass f i s ∧ ObjOf h s i o) (hnd : batch.Nodup)
    (hno : ∀ o ∈ batch, ∀ s, o ∉ h.objs s) :
    ∃ h₁ l f₁, ObjsBack env i batch s f f₁ h h₁ l := by
  obtain ⟨last, h₁, hloop, hpu, hlast⟩ := returnLoop_spec (l := none) hi.base hf hob hnd hno
  have howner : owner h y = some s := owner_eq (hys.mapAddr hi hs)
  rw [hy] at hlast
  simp only [Option.map_some, Option.getD_some, howner] at hlast
  subst hlast
  have hcount : 0 < (ownedBy h batch s).length := by
    refine List.length_pos_of_mem (a := y) (List.mem_filter.mpr ⟨List.mem_of_mem_getLast? hy, ?_⟩)
    simpa using howner
  -- the counts differ, so the tag alone decides
  have hne : h₁.objRefcount s ≠ h₁.objLen s := by
    obtain ⟨p, hp, hsp⟩ := hs
    have hk := hi.kinds.carved hp hsp
    have h1 := hk.count
    have h2 := hk.objLen
    have h3 := hpu.objLen s
    have h4 := hpu.refcount s
    omega
  obtain ⟨l, f₁, hleave, hli⟩ := leaveIdle_spec hpu.inv hs hne
  have hleft : LeftIdle i s f f₁ h l := by
    have hloc := congrFun hpu.loc s
    obtain ⟨h1, h2, h3, h4, h5, h6, h7, h8⟩ := hli
    rw [hpu.links] at h5 h6 h8
    rw [hloc] at h5 h7
    exact ⟨h1, h2, h3, h4, h5, h6, h7, h8⟩
  refine ⟨h₁, l, f₁, hpu, hli.moves.heapInv hpu.inv hli.links, hs, ?_, hcount, hleft,
    fun hz l' hrem => ?_, fun hz => ?_⟩
  · rw [lastOwner, hy, Option.bind_some, howner]
  · simp only [returnObjs, sizeClass_indexToSize hcls, ok_bind, hloop, hleave]
    rw [if_pos hz, hrem]
    rfl
  · simp only [returnObjs, sizeClass_indexToSize hcls, ok_bind, hloop, hleave]
    exact if_neg hz

namespace ObjsBack

variable {h₁ : Heap} {f₁ : SpanPlace → List SpanPtr} {batch : List Nat} {l : Links} {j x : Nat}

theorem place (hb : ObjsBack env i batch s f f₁ h h₁ l) :
    ∃ p, (p = .list i ∨ p = .lost i) ∧ s ∈ f₁ p := by
  rcases hb.left.found with hs | hs
  · exact ⟨_, .inl rfl, hs⟩
  · exact ⟨_, .inr rfl, hs⟩

/-- With true tags, a span with the tag of an idle span is idle. -/
theorem idle (hb : ObjsBack env i batch s f f₁ h h₁ l) (hst : Strict d h f) (ht : d.tags)
    (hloc : h.loc s = .centralIdle) : s ∈ f (.idle i) := by
  rcases inClass_cases hb.inClass with hin | hin | hin
  · rw [hst.listLoc ht i s hin] at hloc
    cases hloc
  · exact hin
  · rw [hst.noLost (.inl ht)] at hin
    cases hin

theorem noLost (hb : ObjsBack env i batch s f f₁ h h₁ l) (hi : HeapInv d env h f)
    (hlists : d.lists → FlushListOk h i batch) (hd : d.tags ∨ d.lists) (j : Nat) :
    f₁ (.lost j) = [] := by
  have hst := hi.kinds.strict
  by_cases hloc : h.loc s = .centralIdle
  · refine hb.left.lost ?_ (hst.noLost hd) j
    rcases hd with ht | hl
    · -- with true tags the span is idle, and so not on the list
      rintro ⟨hhead, -⟩
      have hin : s ∈ f (.list i) :=
        List.mem_of_mem_head? ((hi.links.head (.list i)).symm.trans hhead)
      cases hi.pages.placed.unique hin (hb.idle hst ht hloc)
    · exact (hlists hl).2 s hb.last hloc
  · rw [(hb.left.stays hloc).1]
    exact hst.noLost hd j

theorem idleEmpty (hb : ObjsBack env i batch s f f₁ h h₁ l) (hi : HeapInv d env h f)
    (hob : ∀ o ∈ batch, ∃ s, InClass f i s ∧ ObjOf h s i o) (hlists : FlushListOk h i batch)
    (hl : d.lists) (hx : x ∈ f₁ (.idle j)) : h₁.objs x = [] := by
  have hxf : x ∈ f (.idle j) := by
    by_cases hj : j = i
    · subst hj
      exact hb.left.moves.idle hx
    · rwa [← hb.left.moves.other (.idle j) (by simpa [SpanPlace.cls?] using hj)]
  rw [hb.pushed.objs, hi.kinds.strict.idleEmpty hl j x hxf, List.append_nil,
    List.reverse_eq_nil_iff, ownedBy, List.filter_eq_nil_iff]
  intro o ho hox
  simp only [decide_eq_true_eq] at hox
  obtain ⟨x', hx', hox'⟩ := hob o ho
  obtain rfl : x' = x := Option.some.inj ((owner_eq (hox'.mapAddr hi hx')).symm.trans hox)
  obtain rfl : i = j := inClass_of_eq hi.pages.placed hx' ⟨.idle j, rfl, hxf⟩
  -- an idle span that gets an object back is the one that leaves
  have hring : OnRing h.next (h.idle i) x' := (hi.links.onRing_iff (r := .idle i)).mpr hxf
  have hlast := hlists.1 o ho x' hox hring
  obtain rfl : x' = s := Option.some.inj (hlast.symm.trans hb.last)
  exact hb.left.notIdle hx

theorem noStray (hb : ObjsBack env i batch s f f₁ h h₁ l) (hst : Strict d h f) (ht : d.tags) :
    ¬ l.stray := by
  intro hs
  refine hst.noStray ht ?_
  by_cases hloc : h.loc s = .centralIdle
  · exact (hb.left.leaves (hb.idle hst ht hloc)).2.mp hs
  · rwa [(hb.left.stays hloc).2] at hs

theorem listLoc (hb : ObjsBack env i batch s f f₁ h h₁ l) (hi : HeapInv d env h f) (ht : d.tags)
    (hx : x ∈ f₁ (.list j)) (hxs : x ≠ s) : h₁.loc x = .centralList := by
  have hst := hi.kinds.strict
  rw [hb.pushed.loc]
  by_cases hloc : h.loc s = .centralIdle
  · have hin := hb.idle hst ht hloc
    rw [(hb.left.leaves hin).1] at hx
    rcases mem_moved hi.pages.placed (by simp) hin hx with ⟨-, e⟩ | ⟨-, hx⟩
    · exact absurd e hxs
    · exact hst.listLoc ht j x hx
  · rw [(hb.left.stays hloc).1] at hx
    exact hst.listLoc ht j x hx

/-- No object came back to a span other than `s`. -/
theorem lenExact (hb : ObjsBack env i batch s f f₁ h h₁ l) (hst : Strict d h f)
    (hlens : FlushLenOk h batch) (hl : d.lens) (hx : InClass f₁ j x) (hxs : x ≠ s) :
    h₁.objLen x = capacity j := by
  have hnone : ownedBy h batch x = [] := by
    refine List.filter_eq_nil_iff.mpr fun o ho hox => hxs ?_
    have hlast := (hlens o ho x (by simpa using hox)).1
    exact Option.some.inj (hlast.symm.trans hb.last)
  rw [hb.pushed.objLen, hnone, List.length_nil, Nat.add_zero]
  exact hst.exact hl j x (hb.left.moves.inClass_of hx)

/-- All objects of the span are back. -/
theorem full (hb : ObjsBack env i batch s f f₁ h h₁ l) (hz : h₁.objRefcount s = 0)
    (hx : ObjOf h s i x) : x ∈ (ownedBy h batch s).reverse ++ h.objs s := by
  obtain ⟨p, hp, hsp⟩ := hb.inClass
  have hcount := (hb.pushed.inv.kinds.carved hp hsp).count
  rw [← hb.pushed.objs]
  refine hb.pushed.free.full ⟨p, hp, hsp⟩ (by omega) ?_
  obtain ⟨k, hk, e⟩ := hx
  exact ⟨k, hk, by rw [hb.pushed.start]; exact e⟩

/-- The span leaves the central cache when all its objects are back. -/
theorem returned_gone (hb : ObjsBack env i batch s f f₁ h h₁ l) (hi : HeapInv d env h f)
    (hob : ∀ o ∈ batch, ∃ s, InClass f i s ∧ ObjOf h s i o) (hd : dst.Loose)
    (hlists : d.lists → FlushListOk h i batch) (hlens : d.lens → FlushLenOk h batch)
    (hz : h₁.objRefcount s = 0) :
    ∃ h' f', returnObjs batch (indexToSize i) h = .ok (some s, h') ∧
      Returned d env i batch dst f f' h h' (some s) := by
  obtain ⟨p, hp, hsp⟩ := hb.place
  obtain ⟨l', hrem, hi', hstray⟩ := recycle_spec hb.inv hp hsp hz hd
  have hst := hi.kinds.strict
  have hpcls : p.cls? = some i := by rcases hp with rfl | rfl <;> rfl
  have hpd : p ≠ dst := SpanPlace.ne_of_loose (SpanPlace.not_loose_of_cls hpcls) hd
  have hp₁ := hb.left.moves.placed
  have hobjs : ∀ x, x ≠ s → (recycled h₁ l' s).objs x = h₁.objs x := fun x hx => by
    simp [recycled, hx]
  have hobjLen : ∀ x, x ≠ s → (recycled h₁ l' s).objLen x = h₁.objLen x := fun x hx => by
    simp [recycled, hx]
  -- what is in a place of a class was there, and is another span
  have hmem : ∀ {q x}, ¬ q.Loose → x ∈ moved f₁ p dst s q → x ≠ s ∧ x ∈ f₁ q := by
    intro q x hq hx
    rcases mem_moved hp₁ hpd hsp hx with ⟨rfl, -⟩ | hx
    · exact absurd hd hq
    · exact hx
  have hstrict : Strict d (recycled h₁ l' s) (moved f₁ p dst s) := by
    refine ⟨fun ht j x hx => ?_, fun hl j x hx => ?_, fun hdd j => ?_, fun ht he => ?_,
      fun hl j x hx => ?_⟩
    · obtain ⟨hxs, hx⟩ := hmem id hx
      exact hb.listLoc hi ht hx hxs
    · obtain ⟨hxs, hx⟩ := hmem id hx
      rw [hobjs x hxs]
      exact hb.idleEmpty hi hob (hlists hl) hl hx
    · refine List.eq_nil_iff_forall_not_mem.mpr fun x hx => ?_
      have hx := (hmem id hx).2
      rw [hb.noLost hi hlists hdd j] at hx
      cases hx
    · rcases hp with rfl | rfl
      · exact hb.noStray hst ht ((hstray rfl).mp he)
      · rw [hb.noLost hi hlists (.inl ht)] at hsp
        cases hsp
    · obtain ⟨q, hq, hx⟩ := hx
      obtain ⟨hxs, hx⟩ := hmem (SpanPlace.not_loose_of_cls hq) hx
      rw [hobjLen x hxs]
      exact hb.lenExact hst (hlens hl) hl ⟨q, hq, hx⟩ hxs
  refine ⟨_, moved f₁ p dst s, hb.gone hz l' hrem, ⟨⟨hi'.record, hi'.pages, hi'.links,
    hstrict.kindInv hi'.kinds⟩, hb.pushed.start, hb.pushed.pageSize, hb.pushed.brk, hb.pushed.loc,
    fun q hq hqd => ?_, fun x hx => ?_, fun x => ?_, ?_, fun x hx => ?_⟩⟩
  · rw [moved_of_ne (by rintro rfl; exact hq hpcls) hqd, hb.left.moves.other q hq]
  · rw [hobjs x fun e => hx (by rw [e]), hb.pushed.objs]
  · rw [← hb.left.moves.inClass]
    constructor
    · rintro ⟨q, hq, hx⟩
      obtain ⟨hxs, hx⟩ := hmem (SpanPlace.not_loose_of_cls hq) hx
      exact ⟨⟨q, hq, hx⟩, fun e => hxs (Option.some.inj e).symm⟩
    · rintro ⟨⟨q, hq, hx⟩, hxs⟩
      exact ⟨q, hq, mem_moved_of_ne hpd (fun e => hxs (by rw [e])) hx⟩
  · rw [moved_self, hb.left.moves.other dst (by rw [hd.cls_eq]; simp)]
    rfl
  · obtain rfl : s = x := Option.some.inj hx
    exact ⟨hb.inClass, fun z hz' => hb.full hz hz'⟩

/-- The span stays in the central cache while an object of it is outstanding. -/
theorem returned_stays (hb : ObjsBack env i batch s f f₁ h h₁ l) (hi : HeapInv d env h f)
    (hob : ∀ o ∈ batch, ∃ s, InClass f i s ∧ ObjOf h s i o) (hd : dst.Loose)
    (htags : d.tags → FlushTagOk h batch) (hlists : d.lists → FlushListOk h i batch)
    (hlens : d.lens → FlushLenOk h batch) (hz : h₁.objRefcount s ≠ 0) :
    ∃ h' f', returnObjs batch (indexToSize i) h = .ok (none, h') ∧
      Returned d env i batch dst f f' h h' none := by
  have hst := hi.kinds.strict
  have href := hb.pushed.refcount s
  have hstrict : Strict d { h₁ with toLinks := l } f₁ := by
    refine ⟨fun ht j x hx => ?_, fun hl j x hx => hb.idleEmpty hi hob (hlists hl) hl hx,
      hb.noLost hi hlists, hb.noStray hst, fun hl => ?_⟩
    · -- with true tags and objects outstanding, the span was not idle
      have hloc : h.loc s ≠ .centralIdle := fun hloc => by
        have := htags ht s hb.last hloc
        omega
      rw [(hb.left.stays hloc).1] at hx
      exact (congrFun hb.pushed.loc x).trans (hst.listLoc ht j x hx)
    · -- the span of the last object would have left the central cache
      obtain ⟨o, ho⟩ := List.exists_mem_of_length_pos hb.counted
      obtain ⟨hob, hos⟩ := List.mem_filter.mp ho
      have := (hlens hl o hob s (by simpa using hos)).2
      omega
  refine ⟨_, f₁, hb.stays hz, ⟨⟨hb.inv.record, hb.inv.pages, hb.inv.links,
    hstrict.kindInv hb.inv.kinds⟩, hb.pushed.start, hb.pushed.pageSize, hb.pushed.brk,
    hb.pushed.loc,
    fun q hq _ => hb.left.moves.other q hq, fun x _ => hb.pushed.objs x, fun x => ?_, ?_,
    fun x hx => by cases hx⟩⟩
  · rw [hb.left.moves.inClass]
    simp
  · rw [hb.left.moves.other dst (by rw [hd.cls_eq]; simp)]
    rfl

end ObjsBack

theorem returnObjs_sat (hi : HeapInv d env h f) (hf : FreeInv h f) {batch : List Nat}
    (hcls : i < CLASSES) (hne : batch ≠ []) (hob : ∀ o ∈ batch, ∃ s, InClass f i s ∧ ObjOf h s i o)
    (hnd : batch.Nodup) (hno : ∀ o ∈ batch, ∀ s, o ∉ h.objs s) (hd : dst.Loose)
    (htags : d.tags → FlushTagOk h batch) (hlists : d.lists → FlushListOk h i batch)
    (hlens : d.lens → FlushLenOk h batch) :
    ∃ o h' f', returnObjs batch (indexToSize i) h = .ok (o, h') ∧
      Returned d env i batch dst f f' h h' o := by
  obtain ⟨s, hs, hys⟩ := hob _ (List.getLast_mem hne)
  obtain ⟨h₁, l, f₁, hb⟩ :=
    returnObjs_back hi hf hcls (List.getLast?_eq_some_getLast hne) hs hys hob
    hnd hno
  by_cases hz : h₁.objRefcount s = 0
  · exact ⟨some s, hb.returned_gone hi hob hd hlists hlens hz⟩
  · exact ⟨none, hb.returned_stays hi hob hd htags hlists hlens hz⟩

end Objects

end SearchEngine.TcMalloc
