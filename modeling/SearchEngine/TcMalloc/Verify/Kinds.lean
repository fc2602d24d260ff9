import SearchEngine.TcMalloc.Verify.Pages
import SearchEngine.TcMalloc.CentralCache

/-!
# The invariant of the shared state

`KindInv` says what the record of a span holds in each place: a span in the page heap
or with the user has no free list, and a span of size class `i` accounts for each of
its `capacity i` objects by its free list or its reference count. Together with the
invariants of the records, the page map and the lists it makes up `HeapInv`.

Some parts of the invariant hold only of runs that keep a further condition; they are
guarded by the fields of a `Discipline`.
-/

namespace SearchEngine.TcMalloc

open LinkedRing Placement Outcome

/-- Which further conditions the run keeps: that the tags `loc` stay true, that no span
with free objects leaves its list, and that `obj_len` counts the objects of a span. -/
structure Discipline where
  tags : Prop
  lists : Prop
  lens : Prop

/-- The places without links. -/
def SpanPlace.Loose : SpanPlace → Prop
  | .hand _ | .user => True
  | _ => False

/-- The number of objects a span of class `i` is carved into. -/
def capacity (i : Nat) : Nat := 524288 / indexToSize i

/-- The record of a span that is not carved. -/
structure Clean (h : Heap) (s : SpanPtr) : Prop where
  objs : h.objs s = []
  objLen : h.objLen s = 0
  objsSize : h.objsSize s = 0
  objRefcount : h.objRefcount s = 0

/-- The record of a span of class `i`. -/
structure Carved (d : Discipline) (h : Heap) (i : Nat) (s : SpanPtr) : Prop where
  cls : i < CLASSES
  objsSize : h.objsSize s = indexToSize i
  pageSize : h.pageSize s = BATCH
  count : h.objRefcount s + (h.objs s).length = capacity i
  objLen : capacity i ≤ h.objLen s
  exact : d.lens → h.objLen s = capacity i

/-- The record of a span in the place `p`. -/
def Kind (d : Discipline) (h : Heap) (p : SpanPlace) (s : SpanPtr) : Prop :=
  match p with
  | .pg i => Clean h s ∧ bucket (h.pageSize s) = i ∧ h.loc s = .pageheap
  | .list i => Carved d h i s ∧ (d.tags → h.loc s = .centralList)
  | .idle i => Carved d h i s ∧ h.loc s = .centralIdle ∧ (d.lists → h.objs s = [])
  | .lost i => Carved d h i s ∧ ¬ d.tags ∧ ¬ d.lists
  | .hand _ | .user => Clean h s

/-- The records of the spans in each place, and of those in none. -/
structure KindInv (d : Discipline) (h : Heap) (f : SpanPlace → List SpanPtr) : Prop where
  kind : ∀ {p s}, s ∈ f p → Kind d h p s
  unused : ∀ {s}, (∀ p, s ∉ f p) → Clean h s
  noStray : d.tags → ¬ h.stray

/-- The invariant of the shared state. -/
structure HeapInv (d : Discipline) (env : Env) (h : Heap) (f : SpanPlace → List SpanPtr) :
    Prop where
  record : RecordInv env h
  pages : PageInv env h f
  links : LinkInv h.toLinks f
  kinds : KindInv d h f

/-! ## Places -/

section Places

variable {f : SpanPlace → List SpanPtr} {s : SpanPtr}

theorem RingHead.place_not_loose (r : RingHead) : ¬ r.place.Loose := by
  cases r <;> exact id

theorem SpanPlace.lost_not_loose (i : Nat) : ¬ (SpanPlace.lost i).Loose := id

/-- A span in one place is linked only if that place is. -/
theorem not_linked_of_loose (hp : Placed f) {p : SpanPlace} (hs : s ∈ f p) (hl : p.Loose) :
    ¬ Linked f s := by
  rintro (⟨r, hr⟩ | ⟨i, hi⟩)
  · exact r.place_not_loose (hp.unique hs hr ▸ hl)
  · exact SpanPlace.lost_not_loose i (hp.unique hs hi ▸ hl)

theorem not_linked_of_unplaced (hs : ∀ p, s ∉ f p) : ¬ Linked f s := by
  rintro (⟨r, hr⟩ | ⟨i, hi⟩)
  · exact hs _ hr
  · exact hs _ hi

/-- Only the places with links matter for the links. -/
theorem LinkInv.congr_loose {l : Links} {f' : SpanPlace → List SpanPtr} (hl : LinkInv l f)
    (hf : ∀ p : SpanPlace, ¬ p.Loose → f' p = f p) : LinkInv l f' :=
  hl.congr_places (fun r => hf _ r.place_not_loose) fun i => hf _ (SpanPlace.lost_not_loose i)

/-- `s` goes from the place `p` to the place `q`. -/
def moved (f : SpanPlace → List SpanPtr) (p q : SpanPlace) (s : SpanPtr) :
    SpanPlace → List SpanPtr :=
  Function.update (Function.update f p ((f p).erase s)) q (s :: f q)

theorem placed_moved (hp : Placed f) {p q : SpanPlace} (hpq : p ≠ q) (hs : s ∈ f p) :
    Placed (moved f p q s) :=
  hp.move (m := [s]) hpq (by simpa using List.perm_cons_erase hs) (by simp)

theorem mem_moved (hp : Placed f) {p q r : SpanPlace} (hpq : p ≠ q) (hs : s ∈ f p) {x : SpanPtr}
    (hx : x ∈ moved f p q s r) : (r = q ∧ x = s) ∨ (x ≠ s ∧ x ∈ f r) := by
  by_cases hxs : x = s
  · subst hxs
    exact .inl ⟨(placed_moved hp hpq hs).unique hx (by simp [moved]), rfl⟩
  · refine .inr ⟨hxs, ?_⟩
    rcases hp.mem_of_move (m := [s]) hpq (by simpa using List.perm_cons_erase hs) (by simp) hx with
      ⟨-, h⟩ | ⟨h, -⟩
    · exact absurd (List.mem_singleton.mp h) hxs
    · exact h

theorem moved_self {p q : SpanPlace} : moved f p q s q = s :: f q := by simp [moved]

theorem moved_of_ne {p q r : SpanPlace} (hp : r ≠ p) (hq : r ≠ q) : moved f p q s r = f r := by
  simp [moved, hp, hq]

theorem mem_moved_of_ne {p q r : SpanPlace} {x : SpanPtr} (hpq : p ≠ q) (hs : x ≠ s)
    (hx : x ∈ f r) : x ∈ moved f p q s r := by
  by_cases hrq : r = q
  · subst hrq; rw [moved_self]; exact List.mem_cons_of_mem _ hx
  · by_cases hrp : r = p
    · subst hrp
      simp only [moved, Function.update_of_ne hrq, Function.update_self]
      exact (List.mem_erase_of_ne hs).mpr hx
    · rwa [moved_of_ne hrp hrq]

theorem exists_of_mem_moved (hp : Placed f) {p q r : SpanPlace} (hpq : p ≠ q) (hs : s ∈ f p)
    {x : SpanPtr} (hx : x ∈ moved f p q s r) : ∃ r', x ∈ f r' := by
  rcases mem_moved hp hpq hs hx with ⟨-, rfl⟩ | ⟨-, hx⟩
  · exact ⟨p, hs⟩
  · exact ⟨r, hx⟩

end Places

/-! ## What the parts depend on -/

section Congr

variable {d : Discipline} {env : Env} {h h' : Heap} {f f' : SpanPlace → List SpanPtr}

theorem RecordInv.congr (hr : RecordInv env h) (h1 : h'.iniBrkAddr = h.iniBrkAddr)
    (h2 : h'.brk = h.brk) (h3 : h'.bound = h.bound) (h4 : h'.remBytes = h.remBytes)
    (hf : ∀ s : Nat, h.bound ≤ s → Blank h s → Blank h' s) : RecordInv env h' where
  ini := h1.trans hr.ini
  brk := by simpa only [BrkAt, h2] using hr.brk
  room := by rw [h2, h3, h4]; exact hr.room
  fresh s hs := hf s (h3 ▸ hs) (hr.fresh s (h3 ▸ hs))

theorem PageInv.congr (hp : PageInv env h f) (h1 : h'.bound = h.bound) (h2 : h'.brk = h.brk)
    (h3 : h'.pageMapping = h.pageMapping) (h4 : h'.chunks = h.chunks) (h5 : h'.regions = h.regions)
    (hs : ∀ {p x}, x ∈ f p → h'.pageSize x = h.pageSize x ∧ h'.pageId x = h.pageId x ∧
      h'.start x = h.start x) : PageInv env h' f where
  placed := hp.placed
  owned hx := (hp.owned hx).mono h1.ge h2.ge (h5 ▸ List.Subset.refl _) (hs hx).1 (hs hx).2.1
    (hs hx).2.2 fun k _ _ => by rw [h3]
  chunks c hc := by
    obtain ⟨⟨hb, k, hk, hkb, hm⟩, hcf⟩ := hp.chunks c (h4 ▸ hc)
    exact ⟨⟨h1 ▸ hb, k, hk, h2 ▸ hkb, h3 ▸ hm⟩, hcf⟩

theorem Clean.congr {s : SpanPtr} (hc : Clean h s) (h1 : h'.objs s = h.objs s)
    (h2 : h'.objLen s = h.objLen s) (h3 : h'.objsSize s = h.objsSize s)
    (h4 : h'.objRefcount s = h.objRefcount s) : Clean h' s :=
  ⟨h1.trans hc.objs, h2.trans hc.objLen, h3.trans hc.objsSize, h4.trans hc.objRefcount⟩

theorem Carved.congr {i : Nat} {s : SpanPtr} (hc : Carved d h i s) (h1 : h'.objs s = h.objs s)
    (h2 : h'.objLen s = h.objLen s) (h3 : h'.objsSize s = h.objsSize s)
    (h4 : h'.objRefcount s = h.objRefcount s) (h5 : h'.pageSize s = h.pageSize s) :
    Carved d h' i s :=
  ⟨hc.cls, h3.trans hc.objsSize, h5.trans hc.pageSize, by rw [h1, h4]; exact hc.count,
    h2 ▸ hc.objLen, fun hl => h2.trans (hc.exact hl)⟩

theorem SpanPlace.not_loose_of_cls {p : SpanPlace} {i : Nat} (hp : p.cls? = some i) :
    ¬ p.Loose := by
  cases p <;> simp_all [SpanPlace.cls?, SpanPlace.Loose]

/-- The two records agree, the page range and the links apart. -/
structure SameRecord (h h' : Heap) (s : SpanPtr) : Prop where
  objs : h'.objs s = h.objs s
  objLen : h'.objLen s = h.objLen s
  objsSize : h'.objsSize s = h.objsSize s
  objRefcount : h'.objRefcount s = h.objRefcount s
  pageSize : h'.pageSize s = h.pageSize s
  loc : h'.loc s = h.loc s

theorem Kind.congr {p : SpanPlace} {s : SpanPtr} (hk : Kind d h p s) (hs : SameRecord h h' s) :
    Kind d h' p s := by
  have hcl : Clean h s → Clean h' s := fun hc =>
    hc.congr hs.objs hs.objLen hs.objsSize hs.objRefcount
  have hca : ∀ {i}, Carved d h i s → Carved d h' i s := fun hc =>
    hc.congr hs.objs hs.objLen hs.objsSize hs.objRefcount hs.pageSize
  cases p with
  | pg i => exact ⟨hcl hk.1, by rw [hs.pageSize]; exact hk.2.1, hs.loc.trans hk.2.2⟩
  | list i => exact ⟨hca hk.1, fun ht => hs.loc.trans (hk.2 ht)⟩
  | idle i => exact ⟨hca hk.1, hs.loc.trans hk.2.1, fun hl => hs.objs.trans (hk.2.2 hl)⟩
  | lost i => exact ⟨hca hk.1, hk.2⟩
  | hand t => exact hcl hk
  | user => exact hcl hk

theorem Kind.clean {p : SpanPlace} {s : SpanPtr} (hk : Kind d h p s) (hp : p.cls? = none) :
    Clean h s := by
  cases p with
  | pg i => exact hk.1
  | hand t => exact hk
  | user => exact hk
  | _ => simp [SpanPlace.cls?] at hp

theorem Kind.carved {p : SpanPlace} {s : SpanPtr} {i : Nat} (hk : Kind d h p s)
    (hp : p.cls? = some i) : Carved d h i s := by
  cases p with
  | list j => exact Option.some.inj hp ▸ hk.1
  | idle j => exact Option.some.inj hp ▸ hk.1
  | lost j => exact Option.some.inj hp ▸ hk.1
  | _ => simp [SpanPlace.cls?] at hp

theorem Kind.of_loose {p : SpanPlace} {s : SpanPtr} (hp : p.Loose) (hc : Clean h s) :
    Kind d h p s := by
  cases p with
  | hand t => exact hc
  | user => exact hc
  | _ => exact hp.elim

theorem SpanPlace.Loose.cls_eq {p : SpanPlace} (hp : p.Loose) : p.cls? = none := by
  cases p <;> simp_all [SpanPlace.cls?, SpanPlace.Loose]

namespace KindInv

theorem bucket (hk : KindInv d h f) {i : Nat} {s : SpanPtr} (hs : s ∈ f (.pg i)) :
    bucket (h.pageSize s) = i := (hk.kind hs).2.1

theorem pgLoc (hk : KindInv d h f) {i : Nat} {s : SpanPtr} (hs : s ∈ f (.pg i)) :
    h.loc s = .pageheap := (hk.kind hs).2.2

theorem carved (hk : KindInv d h f) {p : SpanPlace} {i : Nat} {s : SpanPtr}
    (hp : p.cls? = some i) (hs : s ∈ f p) : Carved d h i s := (hk.kind hs).carved hp

/-- A span that is not in the central cache has no objects. -/
theorem clean (hk : KindInv d h f) {s : SpanPtr} (hs : ∀ p, s ∈ f p → p.cls? = none) :
    Clean h s := by
  by_cases hp : ∃ p, s ∈ f p
  · obtain ⟨p, hp⟩ := hp
    exact (hk.kind hp).clean (hs p hp)
  · exact hk.unused fun p hsp => hp ⟨p, hsp⟩

theorem noLost (hk : KindInv d h f) (hd : d.tags ∨ d.lists) (i : Nat) : f (.lost i) = [] := by
  refine List.eq_nil_iff_forall_not_mem.mpr fun s hs => ?_
  obtain ⟨-, h1, h2⟩ := hk.kind hs
  exact hd.elim h1 h2

theorem congr (hk : KindInv d h f) (h1 : h'.objs = h.objs) (h2 : h'.objLen = h.objLen)
    (h3 : h'.objsSize = h.objsSize) (h4 : h'.objRefcount = h.objRefcount)
    (hst : d.tags → h'.stray → h.stray)
    (hs : ∀ {p : SpanPlace} {x}, ¬ p.Loose → x ∈ f p →
      h'.pageSize x = h.pageSize x ∧ h'.loc x = h.loc x) : KindInv d h' f where
  kind {p x} hx := by
    by_cases hp : p.Loose
    · exact Kind.of_loose hp (((hk.kind hx).clean hp.cls_eq).congr (by rw [h1]) (by rw [h2])
        (by rw [h3]) (by rw [h4]))
    · obtain ⟨h5, h6⟩ := hs hp hx
      exact (hk.kind hx).congr ⟨by rw [h1], by rw [h2], by rw [h3], by rw [h4], h5, h6⟩
  unused hx := (hk.unused hx).congr (by rw [h1]) (by rw [h2]) (by rw [h3]) (by rw [h4])
  noStray ht := fun he => hk.noStray ht (hst ht he)

theorem congr_loose (hk : KindInv d h f)
    (hf : ∀ p : SpanPlace, ¬ p.Loose → f' p = f p) (hl : ∀ {p : SpanPlace} {s}, p.Loose → s ∈ f' p →
      Clean h s) : KindInv d h f' where
  kind {p s} hs := by
    by_cases hp : p.Loose
    · exact Kind.of_loose hp (hl hp hs)
    · exact hk.kind (hf p hp ▸ hs)
  unused hx := hk.clean fun p hxp => by
    by_cases hpl : p.Loose
    · exact hpl.cls_eq
    · exact absurd (hf p hpl ▸ hxp) (hx p)
  noStray := hk.noStray

/-- The record of one span changes, and the span stays where it is. -/
theorem stay (hk : KindInv d h f) {s : SpanPtr} (hother : ∀ x, x ≠ s → SameRecord h h' x)
    (hs : ∀ p, s ∈ f p → Kind d h' p s) (hu : (∀ p, s ∉ f p) → Clean h' s)
    (hst : d.tags → ¬ h'.stray) : KindInv d h' f where
  kind {p x} hx := by
    by_cases hxs : x = s
    · subst hxs; exact hs p hx
    · exact (hk.kind hx).congr (hother x hxs)
  unused {x} hx := by
    by_cases hxs : x = s
    · subst hxs; exact hu hx
    · have hsame := hother x hxs
      exact (hk.unused hx).congr hsame.objs hsame.objLen hsame.objsSize hsame.objRefcount
  noStray := hst

/-- The record of one span changes, and the span goes to the place `q`. -/
theorem place (hk : KindInv d h f) (hp : Placed f) {p q : SpanPlace} {s : SpanPtr}
    (hpq : p ≠ q) (hs : s ∈ f p) (hother : ∀ x, x ≠ s → SameRecord h h' x) (hq : Kind d h' q s)
    (hst : d.tags → ¬ h'.stray) : KindInv d h' (moved f p q s) where
  kind {r x} hx := by
    rcases mem_moved hp hpq hs hx with ⟨rfl, rfl⟩ | ⟨hxs, hx⟩
    · exact hq
    · exact (hk.kind hx).congr (hother x hxs)
  unused {x} hx := by
    have hxs : x ≠ s := fun e => hx q (by rw [moved_self, e]; exact List.mem_cons_self)
    have hsame := hother x hxs
    exact (hk.unused fun r hr => hx r (mem_moved_of_ne hpq hxs hr)).congr hsame.objs hsame.objLen
      hsame.objsSize hsame.objRefcount
  noStray := hst

end KindInv

end Congr

/-! ## Moves on and off the lists -/

section Moves

variable {d : Discipline} {env : Env} {h : Heap} {f : SpanPlace → List SpanPtr} {s : SpanPtr}
  {p dst : SpanPlace}

@[simp] theorem spanlistPush_stray (r : RingHead) (s : SpanPtr) (l : Links) :
    (spanlistPush r.ref s l).stray = l.stray := by
  simp only [spanlistPush]
  split
  · cases r <;> rfl
  · split <;> cases r <;> rfl

theorem SpanPlace.ne_of_loose {p q : SpanPlace} (hp : ¬ p.Loose) (hq : q.Loose) : p ≠ q :=
  fun e => hp (e ▸ hq)

theorem LinkInv.takeOff {l : Links} (hl : LinkInv l f) (hp : Placed f) {r : RingHead}
    (hs : s ∈ f r.place) (hd : dst.Loose) :
    ∃ l', removeSpan r.ref s l = .ok l' ∧ LinkInv l' (moved f r.place dst s) ∧
      (l'.stray ↔ l.stray) := by
  obtain ⟨l', hrem, hl', hst⟩ := hl.remove hp hs
  refine ⟨l', hrem, hl'.congr_loose fun q hq => ?_, hst⟩
  simp only [moved, Function.update_of_ne (SpanPlace.ne_of_loose hq hd)]

theorem LinkInv.putOn {l : Links} (hl : LinkInv l f) (hp : Placed f) (r : RingHead)
    (hs : s ∈ f p) (hd : p.Loose) : LinkInv (spanlistPush r.ref s l) (moved f p r.place s) := by
  refine (hl.push hp r (not_linked_of_loose hp hs hd)).congr_loose fun q hq => ?_
  by_cases hqr : q = r.place
  · subst hqr
    simp [moved]
  · simp [moved, hqr, SpanPlace.ne_of_loose hq hd]

theorem moved_moved {p q r : SpanPlace} (hpq : p ≠ q) (hpr : p ≠ r) (hqr : q ≠ r) :
    moved (moved f p q s) q r s = moved f p r s := by
  funext x
  by_cases hxr : x = r
  · subst hxr
    rw [moved_self, moved_self, moved_of_ne (Ne.symm hpr) (Ne.symm hqr)]
  · by_cases hxq : x = q
    · subst hxq
      simp only [moved, Function.update_of_ne hxr, Function.update_self, List.erase_cons_head,
        Function.update_of_ne (Ne.symm hpq)]
    · rw [moved_of_ne hxq hxr]
      simp only [moved, Function.update_of_ne hxq, Function.update_of_ne hxr]

/-- A span goes from one list to another. -/
theorem LinkInv.transfer {l : Links} (hl : LinkInv l f) (hp : Placed f) {r q : RingHead}
    (hr : r ≠ q) (hs : s ∈ f r.place) :
    ∃ l', removeSpan r.ref s l = .ok l' ∧
      LinkInv (spanlistPush q.ref s l') (moved f r.place q.place s) ∧ (l'.stray ↔ l.stray) := by
  have hloose : SpanPlace.user.Loose := trivial
  have hru := SpanPlace.ne_of_loose r.place_not_loose hloose
  have hru' := SpanPlace.ne_of_loose q.place_not_loose hloose
  obtain ⟨l', hrem, hl', hst⟩ := hl.takeOff hp hs hloose
  have hput := hl'.putOn (placed_moved hp hru hs) q (s := s) (p := .user)
    (by rw [moved_self]; exact List.mem_cons_self) hloose
  rw [moved_moved hru (fun e => hr (RingHead.place_inj e)) (Ne.symm hru')] at hput
  exact ⟨l', hrem, hput, hst⟩

namespace HeapInv

/-- Only the links changed. -/
theorem relink (hi : HeapInv d env h f) {l : Links} {f' : SpanPlace → List SpanPtr}
    (hl : LinkInv l f') (hp : Placed f') (hmem : ∀ p s, s ∈ f' p → ∃ q, s ∈ f q)
    (hk : KindInv d { h with toLinks := l } f') : HeapInv d env { h with toLinks := l } f' where
  record := hi.record.congr rfl rfl rfl rfl fun _ _ hb => hb.congr rfl rfl rfl rfl rfl rfl rfl rfl
  pages :=
    have hpages : PageInv env { h with toLinks := l } f :=
      hi.pages.congr rfl rfl rfl rfl rfl fun _ => ⟨rfl, rfl, rfl⟩
    hpages.congr_places hp hmem
  links := hl
  kinds := hk

/-- A span is taken off its list in the page heap. -/
theorem takeOff (hi : HeapInv d env h f) {i : Nat} (hs : s ∈ f (.pg i)) (hd : dst.Loose) :
    ∃ l, h.remove (.pgList i) s = .ok { h with toLinks := l } ∧
      HeapInv d env { h with toLinks := l } (moved f (.pg i) dst s) ∧ (l.stray ↔ h.stray) := by
  have hne : SpanPlace.pg i ≠ dst := SpanPlace.ne_of_loose id hd
  have hp := hi.pages.placed
  obtain ⟨l, hrem, hl, hst⟩ := hi.links.takeOff hp (r := .pg i) hs hd
  refine ⟨l, ?_, hi.relink hl (placed_moved hp hne hs)
    (fun _ _ hx => exists_of_mem_moved hp hne hs hx) ?_, hst⟩
  · have hrem' : removeSpan (.pgList i) s h.toLinks = .ok l := hrem
    simp only [Heap.remove, hrem']
    rfl
  · exact hi.kinds.place hp hne hs (fun _ _ => ⟨rfl, rfl, rfl, rfl, rfl, rfl⟩)
      (Kind.of_loose hd ((hi.kinds.kind hs).1.congr rfl rfl rfl rfl))
      fun ht he => hi.kinds.noStray ht (hst.mp he)

/-- A span without objects is put on its list in the page heap. -/
theorem putPg (hi : HeapInv d env h f) (hs : s ∈ f dst) (hd : dst.Loose)
    (hloc : h.loc s = .pageheap) :
    HeapInv d env (h.push (.pgList (bucket (h.pageSize s))) s)
      (moved f dst (.pg (bucket (h.pageSize s))) s) := by
  have hne : dst ≠ SpanPlace.pg (bucket (h.pageSize s)) := (SpanPlace.ne_of_loose id hd).symm
  have hp := hi.pages.placed
  have hl := hi.links.putOn hp (.pg (bucket (h.pageSize s))) hs hd
  refine hi.relink hl (placed_moved hp hne hs) (fun _ _ hx => exists_of_mem_moved hp hne hs hx)
    (hi.kinds.place hp hne hs (fun _ _ => ⟨rfl, rfl, rfl, rfl, rfl, rfl⟩)
      ⟨?_, rfl, hloc⟩ fun ht => ?_)
  · exact ((hi.kinds.kind hs).clean hd.cls_eq).congr rfl rfl rfl rfl
  · exact fun he => hi.kinds.noStray ht ((Iff.of_eq (spanlistPush_stray (.pg _) s _)).mp he)

end HeapInv

end Moves

end SearchEngine.TcMalloc
