import SearchEngine.TcMalloc.Verify.LastClass

/-!
# The span lists

Every list head leads to a ring of spans that belong there (`lists_wellFormed`). The
tags `loc` say on which list a span is, and no span with free objects leaves its list,
in the runs that meet `TagMet` and `ListMet` (`tags_truthful`, `lists_complete`).
-/

namespace SearchEngine.TcMalloc

open LinkedRing Placement Outcome Reach

/-- The first span of a list. -/
def Heap.first (h : Heap) (r : RingHead) : Option SpanPtr := h.toLinks.head r.ref

/-- The lists are rings of the spans that belong to them, and no span is on two. -/
structure ListsWellFormed (h : Heap) : Prop where
  ring : ∀ r, ∃ l : List SpanPtr, IsRing h.next h.prev l ∧ l.Nodup ∧ h.first r = l.head? ∧
    ∀ S, OnRing h.next (h.first r) S ↔ S ∈ l
  apart : ∀ {r r' S}, OnRing h.next (h.first r) S → OnRing h.next (h.first r') S → r = r'
  pages : ∀ {i S}, OnRing h.next (h.pgList i) S →
    (i < PAGEHEAPSIZE - 1 → h.pageSize S = i + 1) ∧
    (¬ i < PAGEHEAPSIZE - 1 → i = PAGEHEAPSIZE - 1 ∧ PAGEHEAPSIZE ≤ h.pageSize S)
  list : ∀ {i S}, OnRing h.next (h.list i) S → h.objsSize S = indexToSize i
  idle : ∀ {i S}, OnRing h.next (h.idle i) S → h.objsSize S = indexToSize i

/-- The scans of a list, in `get_span_central` and in `fetch_span`, end. -/
def ScansEnd (h : Heap) : Prop :=
  ∀ (r : RingHead) (test : SpanPtr → Bool), scan h.next test (h.first r) (h.brk + 1)
  (h.first r) ≠ none

/-- The span `S` is with its class, its page list or the user as its tag says. -/
structure TagTrue (s : Sys) (S : SpanPtr) : Prop where
  pageheap : s.heap.loc S = .pageheap ↔ InPageHeap s.heap S
  centralList : s.heap.loc S = .centralList ↔
    ∃ i, i < CLASSES ∧ s.heap.objsSize S = indexToSize i ∧ OnRing s.heap.next (s.heap.list i) S
  centralIdle : s.heap.loc S = .centralIdle ↔
    ∃ i, i < CLASSES ∧ s.heap.objsSize S = indexToSize i ∧ OnRing s.heap.next (s.heap.idle i) S
  isolated : s.heap.loc S = .isolated ↔ Held s S

/-- The tags are true, and no `remove_span` met a span that was not on its list. -/
def TagsTruthful (s : Sys) : Prop := (∀ S, InUse s S → TagTrue s S) ∧ ¬ s.heap.stray

/-- Every span with free objects is on the list of its class, and none on the idle
list has any. -/
structure ListsComplete (h : Heap) : Prop where
  free : ∀ {i S}, i < CLASSES → h.objsSize S = indexToSize i → h.objs S ≠ [] →
    OnRing h.next (h.list i) S
  idle : ∀ {i S}, OnRing h.next (h.idle i) S → h.objs S = []

section Lists

variable {d : Discipline} {env : Env} {s s' : Sys} {h : Heap} {f : SpanPlace → List SpanPtr}
  {S : SpanPtr}

theorem HeapInv.scansEnd (hi : HeapInv d env h f) : ScansEnd h := by
  intro r test
  have hhead : h.first r = (f r.place).head? := hi.links.head r
  rw [hhead, scan_ring (hi.links.ring r) (hi.pages.placed.nodup _) test (hi.ring_length _)]
  simp

theorem HeapInv.listsWellFormed (hi : HeapInv d env h f) : ListsWellFormed h where
  ring r := ⟨f r.place, hi.links.ring r, hi.pages.placed.nodup _, hi.links.head r,
    fun S => hi.links.onRing_iff⟩
  apart hS hS' := by
    have h1 := hi.links.onRing_iff.mp hS
    have h2 := hi.links.onRing_iff.mp hS'
    exact RingHead.place_inj (hi.pages.placed.unique h1 h2)
  pages {i S} hS := by
    have hS : S ∈ f (.pg i) := (hi.links.onRing_iff (r := .pg i)).mp hS
    have hb := hi.kinds.bucket hS
    have hpos := (hi.pages.owned hS).pos
    by_cases hlt : h.pageSize S < 256
    · rw [bucket_of_lt hpos hlt] at hb
      simp only [PAGEHEAPSIZE]
      omega
    · rw [bucket_of_le (by omega)] at hb
      simp only [PAGEHEAPSIZE]
      omega
  list {i S} hS :=
    (hi.inClass_of_size ⟨.list i, rfl, (hi.links.onRing_iff (r := .list i)).mp hS⟩).2.1
  idle {i S} hS :=
    (hi.inClass_of_size ⟨.idle i, rfl, (hi.links.onRing_iff (r := .idle i)).mp hS⟩).2.1

/-! ## Tags -/

theorem SpanPlace.cases_of_inUse (hi : SysInv d env s f) (hS : InUse s S) :
    (∃ i, S ∈ f (.pg i)) ∨ (∃ i, InClass f i S) ∨ S ∈ f .user := by
  rcases hS with h | h | h
  · exact .inl (hi.heap.inPageHeap.mp h)
  · exact .inr (.inl (hi.heap.inCentral.mp h))
  · exact .inr (.inr (hi.held.mp h))

/-- While the tags are kept, the tag of a span tells its place. -/
theorem SysInv.tagTrue (hi : SysInv d env s f) (ht : d.tags) (hS : InUse s S) : TagTrue s S := by
  have hpl := hi.heap.pages.placed
  have hlist : (∃ i, i < CLASSES ∧ s.heap.objsSize S = indexToSize i ∧
      OnRing s.heap.next (s.heap.list i) S) ↔ ∃ i, S ∈ f (.list i) := by
    constructor
    · rintro ⟨i, -, -, h⟩
      exact ⟨i, (hi.heap.links.onRing_iff (r := .list i)).mp h⟩
    · rintro ⟨i, h⟩
      have hc := hi.heap.inClass_of_size (i := i) ⟨.list i, rfl, h⟩
      exact ⟨i, hc.1, hc.2.1, (hi.heap.links.onRing_iff (r := .list i)).mpr h⟩
  have hidle : (∃ i, i < CLASSES ∧ s.heap.objsSize S = indexToSize i ∧
      OnRing s.heap.next (s.heap.idle i) S) ↔ ∃ i, S ∈ f (.idle i) := by
    constructor
    · rintro ⟨i, -, -, h⟩
      exact ⟨i, (hi.heap.links.onRing_iff (r := .idle i)).mp h⟩
    · rintro ⟨i, h⟩
      have hc := hi.heap.inClass_of_size (i := i) ⟨.idle i, rfl, h⟩
      exact ⟨i, hc.1, hc.2.1, (hi.heap.links.onRing_iff (r := .idle i)).mpr h⟩
  -- the place of the span, and its tag there
  obtain ⟨p, hp, hcase⟩ : ∃ p, S ∈ f p ∧
      ((∃ i, p = .pg i) ∧ s.heap.loc S = .pageheap ∨
        (∃ i, p = .list i) ∧ s.heap.loc S = .centralList ∨
        (∃ i, p = .idle i) ∧ s.heap.loc S = .centralIdle ∨
        p = .user ∧ s.heap.loc S = .isolated) := by
    rcases SpanPlace.cases_of_inUse hi hS with ⟨i, h⟩ | ⟨i, h⟩ | h
    · exact ⟨_, h, .inl ⟨⟨i, rfl⟩, hi.heap.kinds.pgLoc h⟩⟩
    · rcases inClass_cases h with h | h | h
      · exact ⟨_, h, .inr (.inl ⟨⟨i, rfl⟩, (hi.heap.kinds.kind h).2 ht⟩)⟩
      · exact ⟨_, h, .inr (.inr (.inl ⟨⟨i, rfl⟩, (hi.heap.kinds.kind h).2.1⟩))⟩
      · rw [hi.heap.kinds.noLost (.inl ht)] at h
        cases h
    · exact ⟨_, h, .inr (.inr (.inr ⟨rfl, hi.hands.tag ht S h⟩))⟩
  have huniq : ∀ {q}, S ∈ f q → p = q := fun hq => hpl.unique hp hq
  refine ⟨?_, ?_, ?_, ?_⟩
  · rw [hi.heap.inPageHeap]
    rcases hcase with ⟨⟨i, rfl⟩, hl⟩ | ⟨⟨i, rfl⟩, hl⟩ | ⟨⟨i, rfl⟩, hl⟩ | ⟨rfl, hl⟩
    · exact ⟨fun _ => ⟨i, hp⟩, fun _ => hl⟩
    all_goals
      refine ⟨fun h => ?_, fun ⟨j, h⟩ => ?_⟩
      · rw [hl] at h; cases h
      · cases huniq h
  · rw [hlist]
    rcases hcase with ⟨⟨i, rfl⟩, hl⟩ | ⟨⟨i, rfl⟩, hl⟩ | ⟨⟨i, rfl⟩, hl⟩ | ⟨rfl, hl⟩
    case inr.inl => exact ⟨fun _ => ⟨i, hp⟩, fun _ => hl⟩
    all_goals
      refine ⟨fun h => ?_, fun ⟨j, h⟩ => ?_⟩
      · rw [hl] at h; cases h
      · cases huniq h
  · rw [hidle]
    rcases hcase with ⟨⟨i, rfl⟩, hl⟩ | ⟨⟨i, rfl⟩, hl⟩ | ⟨⟨i, rfl⟩, hl⟩ | ⟨rfl, hl⟩
    case inr.inr.inl => exact ⟨fun _ => ⟨i, hp⟩, fun _ => hl⟩
    all_goals
      refine ⟨fun h => ?_, fun ⟨j, h⟩ => ?_⟩
      · rw [hl] at h; cases h
      · cases huniq h
  · rw [hi.held]
    rcases hcase with ⟨⟨i, rfl⟩, hl⟩ | ⟨⟨i, rfl⟩, hl⟩ | ⟨⟨i, rfl⟩, hl⟩ | ⟨rfl, hl⟩
    case inr.inr.inr => exact ⟨fun _ => hp, fun _ => hl⟩
    all_goals
      refine ⟨fun h => ?_, fun h => ?_⟩
      · rw [hl] at h; cases h
      · cases huniq h

theorem SysInv.listsComplete (hi : SysInv d env s f) (hl : d.lists) : ListsComplete s.heap where
  free {i S} hcls hsz hne := by
    have hidle := hi.heap.kinds.strict.idleEmpty hl i
    rcases inClass_cases ((hi.heap.inClass_iff hcls).mpr hsz) with h | h | h
    · exact (hi.heap.links.onRing_iff (r := .list i)).mpr h
    · exact absurd (hidle S h) hne
    · rw [hi.heap.kinds.noLost (.inr hl)] at h
      cases h
  idle {i S} hS :=
    hi.heap.kinds.strict.idleEmpty hl i S ((hi.heap.links.onRing_iff (r := .idle i)).mp hS)

/-! ## Every run -/

/-- In every run with requests below 4 GiB the lists are well formed, their scans end,
and no step runs into an endless loop. -/
theorem lists_wellFormed (hs : env.Succeeds) (hr : Reachable env RequestFits s) :
    ListsWellFormed s.heap ∧ ScansEnd s.heap ∧
      ∀ e, Enabled s e → RequestFits s e → next env s e ≠ .error .endless := by
  obtain ⟨⟨f, hi⟩, hreg⟩ := reachable_small (d := .base) hs
    (fun _ _ h => ⟨h, False.elim, False.elim, False.elim⟩) hr
  refine ⟨hi.heap.listsWellFormed, hi.heap.scansEnd, fun e he hfit hend => ?_⟩
  have hsat := step_sat hs hi he (stepMet_base (fetchMet_of_small hi hreg hfit))
  rcases hsat.of_error hend with h | h <;> cases h

theorem lists_wellFormed_machine : ∃ s, Reachable machine RequestFits s ∧ s.live ≠ [] ∧
    ListsWellFormed s.heap ∧ ScansEnd s.heap := by
  obtain ⟨s, ⟨h₀, hinit, hrun⟩, hlive, -⟩ := machine_block
  have hr : Reachable machine RequestFits s := ⟨h₀, hinit, hrun.mono fun _ _ h => h.requestFits⟩
  obtain ⟨h1, h2, -⟩ := lists_wellFormed machine_succeeds hr
  exact ⟨s, hr, hlive, h1, h2⟩

/-- The conditions under which the tags stay true. -/
def TagStep (s : Sys) (e : Event) : Prop := FetchMet s e ∧ TagMet s e

/-- In a run whose large blocks are cut for their callers, and whose flushes return all
objects of a span they take off the idle list, the tags are true. -/
theorem tags_truthful (hs : env.Succeeds) (hr : Reachable env TagStep s) : TagsTruthful s := by
  obtain ⟨f, hi⟩ := reachable_inv (d := ⟨True, False, False⟩) hs
    (fun _ _ h => ⟨h.1, fun _ => h.2, False.elim, False.elim⟩) hr
  exact ⟨fun S hS => hi.tagTrue trivial hS, hi.heap.kinds.noStray trivial⟩

theorem tags_truthful_machine : ∃ s, Reachable machine TagStep s ∧ s.live ≠ [] ∧
    TagsTruthful s := by
  obtain ⟨s, ⟨h₀, hinit, hrun⟩, hlive, -⟩ := machine_block
  have hr : Reachable machine TagStep s :=
    ⟨h₀, hinit, hrun.mono fun _ _ h => ⟨h.fetchMet, h.flushFree.1⟩⟩
  exact ⟨s, hr, hlive, tags_truthful machine_succeeds hr⟩

/-- The block of `tc_malloc(32769)` is tagged as a span of the page heap. -/
theorem tag_stale : ∃ s, Reachable machine Any s ∧ ¬ TagsTruthful s := by
  obtain ⟨s, ⟨h₀, hinit, hrun⟩, hs⟩ := machine_ready
  obtain ⟨s', S, hstep, hlive, -, hloc⟩ := hs.undersized
  refine ⟨s', ⟨h₀, hinit, (hrun.mono fun _ _ _ => trivial).tail trivial hstep⟩, fun htags => ?_⟩
  have hheld : Held s' S :=
    ⟨⟨s'.heap.start S, 32769, S⟩, by rw [hlive]; exact List.mem_cons_self,
      show ¬ 32769 ≤ 32768 by decide, rfl⟩
  have hiso := (htags.1 S (.inr (.inr hheld))).isolated.mpr hheld
  rw [hloc] at hiso
  cases hiso

/-- The conditions under which no span is lost. -/
def ListStep (s : Sys) (e : Event) : Prop := FetchMet s e ∧ ListMet s e

/-- In a run whose flushes concern no idle span but that of the last object, every span
with free objects is on the list of its class. -/
theorem lists_complete (hs : env.Succeeds) (hr : Reachable env ListStep s) :
    ListsComplete s.heap := by
  obtain ⟨f, hi⟩ := reachable_inv (d := ⟨False, True, False⟩) hs
    (fun _ _ h => ⟨h.1, False.elim, fun _ => h.2, False.elim⟩) hr
  exact hi.listsComplete trivial

theorem lists_complete_machine :
    ∃ s, Reachable machine ListStep s ∧ s.live ≠ [] ∧ ListsComplete s.heap := by
  obtain ⟨s, ⟨h₀, hinit, hrun⟩, hlive, -⟩ := machine_block
  have hr : Reachable machine ListStep s :=
    ⟨h₀, hinit, hrun.mono fun _ _ h => ⟨h.fetchMet, h.flushFree.2.1⟩⟩
  exact ⟨s, hr, hlive, lists_complete machine_succeeds hr⟩

/-- A flush leaves a span with free objects on the idle list. -/
theorem span_lost : ∃ s, Reachable machine Any s ∧ ¬ ListsComplete s.heap := by
  obtain ⟨s, hr, hidle, hobjs⟩ := left_idle
  exact ⟨s, hr, fun hc => hobjs (hc.idle ⟨14400, hidle, .refl⟩)⟩

end Lists

end SearchEngine.TcMalloc
