import SearchEngine.TcMalloc.Verify.CentralSteps
import SearchEngine.TcMalloc.Verify.Regions

/-!
# Every run keeps the invariant

`step_sat` joins the step lemmas: from a state with `SysInv`, a step whose fetch
computes with numbers that fit (`FetchMet`) keeps `SysInv`, or ends at one of the two
faults of the page heap. `reachable_inv` carries this over runs from the end of
`tc_central_init`. The further conditions `TagMet`, `ListMet` and `LenMet` are asked
only of a run that keeps the corresponding discipline.
-/

namespace SearchEngine.TcMalloc

open LinkedRing Placement Outcome Reach

/-! ## Conditions on a step -/

/-- The call of `fetch_span` in the step, if there is one, computes with numbers that
fit. -/
def FetchMet (s : Sys) : Event → Prop
  | (_, .malloc size) => THRESHALLOC < size → FetchOk s.heap (bytesToPages size)
  | (t, .run) => match s.pc t with
    | .refill .. => FetchOk s.heap BATCH
    | _ => True
  | _ => True

/-- `fetch_span(npage)` does not take the head of the list of `npage`, and cuts a span
for its caller. -/
def CutFor (h : Heap) (npage : Nat) : Prop :=
  h.pgList (bucket npage) = none ∧ 8 < npage ∧
    (npage < 256 ∨ (firstFit h.pgList (toInt npage).toNat).isSome)

/-- A large block comes from a span that is cut for it, and a flush that takes a span
off the idle list returns all objects of that span. -/
def TagMet (s : Sys) : Event → Prop
  | (_, .malloc size) => THRESHALLOC < size → CutFor s.heap (bytesToPages size)
  | (t, .run) => match s.pc t with
    | .flush batch _ => FlushTagOk s.heap batch
    | _ => True
  | _ => True

/-- A flush loses no span. -/
def ListMet (s : Sys) : Event → Prop
  | (t, .run) => match s.pc t with
    | .flush batch nbytes => ∀ i, sizeClass nbytes = .ok i → FlushListOk s.heap i batch
    | _ => True
  | _ => True

/-- A flush returns the last objects of one span. -/
def LenMet (s : Sys) : Event → Prop
  | (t, .run) => match s.pc t with
    | .flush batch _ => FlushLenOk s.heap batch
    | _ => True
  | _ => True

/-- What a discipline asks of a step. -/
structure StepMet (d : Discipline) (s : Sys) (e : Event) : Prop where
  fetch : FetchMet s e
  tags : d.tags → TagMet s e
  lists : d.lists → ListMet s e
  lens : d.lens → LenMet s e

section Steps

variable {d : Discipline} {env : Env} {s s' : Sys} {f f' : SpanPlace → List SpanPtr} {t : Tid}

/-- A span fetched for the central cache has `BATCH` pages. -/
theorem HeapInv.fetchedPages_batch {h : Heap} (hi : HeapInv d env h f) :
    fetchedPages h BATCH = BATCH := by
  rw [fetchedPages]
  cases hh : h.pgList (bucket BATCH) with
  | some tmp =>
    have hmem : tmp ∈ f (.pg (bucket BATCH)) :=
      List.mem_of_mem_head? ((hi.links.head (.pg (bucket BATCH))).symm.trans hh)
    have hb := hi.kinds.bucket hmem
    have hpos := (hi.pages.owned hmem).pos
    rw [show bucket BATCH = 127 from rfl] at hb
    show h.pageSize tmp = 128
    by_cases hlt : h.pageSize tmp < 256
    · rw [bucket_of_lt hpos hlt] at hb
      omega
    · rw [bucket_of_le (by omega)] at hb
      exact absurd hb (by decide)
  | none =>
    cases firstFit h.pgList (toInt BATCH).toNat with
    | some _ => rfl
    | none => rfl

theorem CutFor.loc {h : Heap} {npage : Nat} (hc : CutFor h npage) :
    fetchedLoc h npage = .isolated := by
  obtain ⟨h1, h2, h3⟩ := hc
  simp only [fetchedLoc, h1]
  cases hff : firstFit h.pgList (toInt npage).toNat with
  | some _ => simp [h2]
  | none =>
    rw [hff] at h3
    have : npage < 256 := h3.resolve_right (by simp)
    simp [h2, this]

theorem bytesToPages_pos {size : Nat} (hlarge : THRESHALLOC < size) : 0 < bytesToPages size := by
  simp only [THRESHALLOC] at hlarge
  simp only [bytesToPages]
  omega

/-- `tc_malloc`. -/
theorem tcMalloc_step (hs : env.Succeeds) (hi : SysInv d env s f) (hpc : s.pc t = .ready)
    {size : Nat} (hm : StepMet d s (t, .malloc size)) :
    Sat (tcMalloc env s t size) (fun s' => ∃ f', SysInv d env s' f')
      (fun e => e = .pageMap ∨ e = .badIndex) := by
  rw [tcMalloc]
  split_ifs with hsz
  · exact (allocate_step hi hpc size).mono (fun _ h => ⟨f, h⟩) fun _ => Or.inr
  · have hlt : THRESHALLOC < size := not_le.mp hsz
    have hpos := bytesToPages_pos hlt
    refine ((fetchSpan_sat hs hi.heap hi.inMap hpos (hm.fetch hlt)
      (show SpanPlace.user.Loose from trivial)).mono
      (fun _ => id) (fun _ he => he.imp id And.left)).bind ?_
    rintro ⟨S, h'⟩ ⟨f', hf, -, hloc⟩
    exact ⟨f', mallocLarge_step hi hpc hsz hf fun ht => hloc.trans (hm.tags ht hlt).loc⟩

/-- The new span is carved, and the objects of the caller are taken off it. -/
theorem carved_step {k : Caller} {i num : Nat} {S : SpanPtr} (hi : SysInv d env s f)
    (hpc : s.pc t = .carve k i num S) (hok : PcOk s.heap (.carve k i num S))
    (hlock : s.centralLock = some t) :
    ∃ s' f', continueCall env s t (.carve k i num S) = .ok s' ∧ SysInv d env s' f' := by
  have hcarved := carve_step hi hpc
  have hc : Clean s.heap S := hi.heap.kinds.kind (p := .hand t) (by
    rw [hi.hands.hand t, hpc]; exact List.mem_cons_self)
  have hne : (carveSpan (indexToSize i) i S s.heap).objs S ≠ [] := by
    have hcap := capacity_pos hok.1
    rw [carveSpan_eq hok.2.2.2 hok.1]
    refine List.ne_nil_of_length_pos ?_
    simp [carved, Heap.push, Heap.setLoc, hc.objs]
    omega
  obtain ⟨s', f', hrun, hinv⟩ := endFetch_step (t := t) (k := k) (n := num) hcarved
    (by rw [setPc_pc]; rfl) (by rw [setPc_pc]; rfl) (.inr hlock) hok.1 hok.2.1
    hok.2.2.1 (fun batch j => by rw [setPc_pc]; cases k <;> exact Iff.rfl)
    (by rw [moved_self]; exact List.mem_cons_self) hne
  rw [endFetch_setPc] at hrun
  exact ⟨s', f', by simp only [continueCall, hrun], hinv⟩

/-- The objects of a full cache go back to their spans. -/
theorem flush_step {i : Nat} {batch : List Nat} (hi : SysInv d env s f)
    (hpc : s.pc t = .flush batch (indexToSize i)) (hcls : i < CLASSES) (hne : batch ≠ [])
    (he : s.centralLock = none) (htag : d.tags → FlushTagOk s.heap batch)
    (hlist : d.lists → FlushListOk s.heap i batch) (hlen : d.lens → FlushLenOk s.heap batch) :
    ∃ s' f', continueCall env s t (.flush batch (indexToSize i)) = .ok s' ∧ SysInv d env s' f' := by
  have hhand : objsAt s (.hand t) = batch := by simp [objsAt, hpc, handObjs]
  have hpl := hi.objs.placed
  obtain ⟨o, h', f', hrun, hr⟩ := returnObjs_sat (d := d) hi.heap hi.freeInv hcls hne
    (fun x hx => ⟨_, hi.flushed_isObj hpc hcls hx⟩) (by rw [← hhand]; exact hpl.nodup _)
    (fun x hx S hxS => absurd (hpl.unique (p := .hand t) (q := .span S)
      (by rw [hhand]; exact hx) hxS) (by simp))
    (show (SpanPlace.hand t).Loose from trivial) htag hlist hlen
  have hinv := returnBatch_step hi hpc hcls he hr rfl
  simp only [continueCall, hrun, ok_bind]
  cases o with
  | none =>
    have hsame : ({ s with heap := h', centralLock := (none : Option SpanPtr).map fun _ => t } :
      Sys) =
        { s with heap := h' } := by rw [Option.map_none, ← he]
    rw [hsame] at hinv
    exact ⟨_, f', rfl, hinv⟩
  | some S => exact ⟨_, f', rfl, hinv⟩

/-- A step of a call in progress; it ends at a fault in `fetch_span` only. -/
theorem continueCall_sat (hs : env.Succeeds) (hi : SysInv d env s f)
    (he : Enabled s (t, .run)) (hm : StepMet d s (t, .run)) :
    Sat (continueCall env s t (s.pc t)) (fun s' => ∃ f', SysInv d env s' f')
      (fun e => e = .pageMap ∧ ∃ k i num, s.pc t = .refill k i num) := by
  have hmf : FetchMet s (t, .run) := hm.fetch
  have htag := hm.tags
  have hlist := hm.lists
  have hlen := hm.lens
  simp only [Enabled, FetchMet, TagMet, ListMet, LenMet] at he hmf htag hlist hlen
  have hok := hi.threads.pcOk t
  have hlock := hi.threads.lock t
  cases hpc : s.pc t with
  | start => rw [hpc] at he; exact he.elim
  | ready => rw [hpc] at he; exact he.elim
  | initLoop i =>
    simp only [continueCall]
    split_ifs with hlt
    · exact ⟨f, initLoop_step hi hpc hlt⟩
    · exact ⟨f, initEnd_step hi hpc hlt⟩
  | fetch k i num =>
    rw [hpc] at he hok
    simp only [continueCall, scanCentral_eq hi.heap, ok_bind]
    cases hfind : (f (.list i)).find? fun S => s.heap.objs S ≠ [] with
    | none => exact ⟨f, takeLock_step hi hpc he⟩
    | some S =>
      have hne : s.heap.objs S ≠ [] := by simpa using List.find?_some hfind
      obtain ⟨s', f', hrun, hinv⟩ := endFetch_step (t := t) (k := k) (n := num) hi
        (by rw [hpc]; rfl) (by rw [hpc]; rfl) (.inl he) hok.1 hok.2.1 hok.2.2
        (fun batch j => by rw [hpc]; cases k <;> exact Iff.rfl)
        (List.mem_of_find?_eq_some hfind) hne
      simp only [hrun]
      exact ⟨f', hinv⟩
  | refill k i num =>
    rw [hpc] at hmf
    simp only [continueCall]
    refine ((fetchSpan_sat hs hi.heap hi.inMap (by decide) hmf
      (show (SpanPlace.hand t).Loose from trivial)).mono
      (fun _ => id) (fun _ he => ⟨he.resolve_right fun hneg => absurd hneg.2 (by decide), k, i, num,
        rfl⟩)).bind ?_
    rintro ⟨S, h'⟩ ⟨f', hf, hsz, -⟩
    exact ⟨f', refill_step hi hpc hf (hsz.trans hi.heap.fetchedPages_batch)⟩
  | carve k i num S =>
    rw [hpc] at hok hlock
    obtain ⟨s', f', hrun, hinv⟩ := carved_step hi hpc hok (hlock.mp trivial)
    simp only [hrun]
    exact ⟨f', hinv⟩
  | insert k i batch =>
    obtain ⟨s', hrun, hinv⟩ := finishFetch_step hi hpc
    simp only [continueCall, hrun]
    exact ⟨f, hinv⟩
  | flush batch nbytes =>
    rw [hpc] at he hok htag hlist hlen
    obtain ⟨hne, i, hcls, rfl⟩ := hok
    obtain ⟨s', f', hrun, hinv⟩ := flush_step hi hpc hcls hne he htag
      (fun hl => hlist hl i (sizeClass_indexToSize hcls)) hlen
    simp only [hrun]
    exact ⟨f', hinv⟩
  | recycle S =>
    rw [hpc] at hlock
    obtain ⟨h', f', hrun, hinv⟩ := returnSpan_step hi (by rw [hpc]; rfl) (by rw [hpc]; rfl)
      (fun j => by rw [hpc]; trivial) (l := none) ⟨by simp, .inr ⟨hlock.mp trivial, rfl⟩⟩
    simp only [continueCall, hrun]
    exact ⟨f', hinv⟩
  | freeLarge S =>
    rw [hpc] at hlock
    obtain ⟨h', f', hrun, hinv⟩ := returnSpan_step hi (by rw [hpc]; rfl) (by rw [hpc]; rfl)
      (fun j => by rw [hpc]; trivial) (l := s.centralLock)
      ⟨fun e => (hlock.mpr e).elim, .inl rfl⟩
    simp only [continueCall, hrun]
    exact ⟨f', hinv⟩

theorem continueCall_step (hs : env.Succeeds) (hi : SysInv d env s f)
    (he : Enabled s (t, .run)) (hm : StepMet d s (t, .run)) :
    Sat (continueCall env s t (s.pc t)) (fun s' => ∃ f', SysInv d env s' f') (· = .pageMap) :=
  (continueCall_sat hs hi he hm).mono (fun _ => id) fun _ => And.left

/-- A step keeps the invariant, or ends at a fault of the page heap. -/
theorem step_sat (hs : env.Succeeds) (hi : SysInv d env s f) {e : Event} (he : Enabled s e)
    (hm : StepMet d s e) :
    Sat (next env s e) (fun s' => ∃ f', SysInv d env s' f')
      (fun e => e = .pageMap ∨ e = .badIndex) := by
  obtain ⟨t, a⟩ := e
  cases a with
  | init =>
    simp only [Enabled] at he
    cases hpc : s.pc t with
    | start => exact ⟨f, init_step hi hpc⟩
    | _ => rw [hpc] at he; exact he.elim
  | malloc size =>
    simp only [Enabled] at he
    cases hpc : s.pc t with
    | ready => exact tcMalloc_step hs hi hpc hm
    | _ => rw [hpc] at he; exact he.elim
  | free ptr =>
    simp only [Enabled] at he
    cases hpc : s.pc t with
    | ready =>
      rw [hpc] at he
      exact (tcFree_step hi hpc he).mono (fun _ => id) fun _ => False.elim
    | _ => rw [hpc] at he; exact he.elim
  | run => exact (continueCall_step hs hi he hm).mono (fun _ => id) fun _ => Or.inl

end Steps

/-! ## `tc_central_init` -/

section Start

variable {d : Discipline} {env : Env} {s s' : Sys} {h h' : Heap} {f : SpanPlace → List SpanPtr}

/-- What the invariant says of the spans and the objects does not depend on what the
threads are about to do. -/
theorem SysInv.restart (hi : SysInv d env s f) (hheap : s'.heap = s.heap) (hlive : s'.live = s.live)
    (horigin : s'.origin = s.origin) (hcache : ∀ t i, (s'.cache t i).objs = (s.cache t i).objs)
    (hspans : ∀ t, handSpans (s'.pc t) = handSpans (s.pc t))
    (hobjs : ∀ t, handObjs (s'.pc t) = [] ∧ handObjs (s.pc t) = []) (ht : ThreadInv s') :
    SysInv d env s' f where
  heap := hheap ▸ hi.heap
  inMap := hheap ▸ hi.inMap
  hands := hi.hands.same hspans (by rw [hlive]) (by rw [hlive]; exact fun _ h _ => h) hheap
  objs := by
    refine hi.objs.same (by rw [hheap]; exact SameClass.refl _ _) ?_ horigin
      (fun t h => absurd (hobjs t).2 h) (by rw [hlive]; exact fun _ h _ => h)
    funext p
    cases p with
    | span S => simp only [objsAt, hheap]
    | cache t i => exact hcache t i
    | hand t => exact (hobjs t).1.trans (hobjs t).2.symm
    | live => simp only [objsAt, hlive]
  threads := ht

/-- The heap is empty after `init_globals`. -/
theorem initGlobals_heapInv (d : Discipline) (env : Env) :
    HeapInv d env (initGlobals env) fun _ => [] where
  record := by
    refine ⟨rfl, ⟨0, ?_, by decide⟩, ?_, fun _ _ => ⟨rfl, rfl, rfl, rfl, rfl, rfl, rfl, rfl⟩⟩
    · simp only [BrkAt, initGlobals]; omega
    · simp only [Heap.bound, initGlobals]; omega
  pages := by
    refine ⟨⟨fun _ => List.nodup_nil, fun h => by cases h⟩, fun h => (by cases h), fun c hc => ?_⟩
    cases hc
  links := ⟨fun _ => trivial, fun r => by cases r <;> rfl, fun _ _ hx => by cases hx⟩
  kinds := by
    refine ⟨fun h => (by cases h), fun _ => ⟨rfl, rfl, rfl, rfl⟩, fun _ => ?_⟩
    simp only [initGlobals, not_false_eq_true]

theorem initGlobals_inv (d : Discipline) (env : Env) :
    SysInv d env (Sys.initial (initGlobals env)) fun _ => [] where
  heap := initGlobals_heapInv d env
  inMap := by simp only [InMap, Sys.initial, initGlobals]; omega
  hands := ⟨fun _ => rfl, List.Perm.refl _, fun h => (by cases h), fun _ S hS => by cases hS⟩
  objs := by
    have hnil : ∀ p, objsAt (Sys.initial (initGlobals env)) p = [] := fun p => by cases p <;> rfl
    refine ⟨⟨fun p => ?_, fun {p q x} hx => ?_⟩, fun {p x} hx => ?_, fun {i S o} ho => ?_,
      fun h => by cases h⟩
    · rw [hnil]; exact List.nodup_nil
    · rw [hnil] at hx; cases hx
    · rw [hnil] at hx; cases hx
    · obtain ⟨⟨p, -, hp⟩, -⟩ := ho
      cases hp
  threads := ⟨fun t => ⟨False.elim, fun h => by cases h⟩, fun _ => trivial, fun _ _ _ h => h.elim,
    fun _ _ _ => rfl⟩

/-- `tc_central_init` as a thread that fetches a span for the class `i`. -/
def initThread (h : Heap) (pc : Pc) : Sys :=
  { Sys.initial h with
    cache := fun _ _ => initThreadlist
    centralLock := some 0
    pc := Function.update (fun _ => .start) 0 pc }

theorem initThread_inv {pc : Pc} {i num : Nat} (hpc : pc = .refill (.threadInit i) i num)
    (hi : i < CLASSES) (hn : 0 < num) : ThreadInv (initThread h pc) := by
  have hat : ∀ t, t ≠ 0 → (initThread h pc).pc t = .start := fun t ht => by
    simp [initThread, ht]
  have hat0 : (initThread h pc).pc 0 = pc := by simp [initThread]
  refine ⟨fun t => ?_, fun t => ?_, fun t j _ _ => le_rfl, fun _ _ _ => rfl⟩
  · by_cases ht : t = 0
    · subst ht; rw [hat0, hpc]; exact ⟨fun _ => rfl, fun _ => trivial⟩
    · rw [hat t ht]
      exact ⟨False.elim, fun e => absurd (Option.some.inj e).symm ht⟩
  · by_cases ht : t = 0
    · subst ht; rw [hat0, hpc]; exact ⟨hi, hn, rfl⟩
    · rw [hat t ht]; trivial

/-- `tc_central_init` is in `get_span_central` like a thread that begins. -/
theorem SysInv.init_refill (hi : SysInv d env (Sys.initial h) f) {i : Nat} (hcls : i < CLASSES) :
    SysInv d env (initThread h (.refill (.threadInit i) i 1)) f := by
  refine hi.restart rfl rfl rfl (fun _ _ => rfl) (fun t => ?_) (fun t => ⟨?_, rfl⟩)
    (initThread_inv rfl hcls Nat.one_pos)
  all_goals
    by_cases ht : t = 0
    · subst ht; simp [initThread, handSpans, handObjs, Sys.initial]
    · simp [initThread, ht, handSpans, handObjs, Sys.initial]

/-- A round of the loop of `tc_central_init`. -/
theorem getSpanCentral_init (hs : env.Succeeds) (hi : SysInv d env (Sys.initial h) f)
    (hr : ∀ r ∈ h.regions, r < 2 ^ 32) {i : Nat} (hcls : i < CLASSES) :
    Sat (getSpanCentral env (indexToSize i) h)
      (fun r => (∃ f', SysInv d env (Sys.initial r.2) f') ∧ ∀ x ∈ r.2.regions, x < 2 ^ 32)
      fun _ => True := by
  have hih : HeapInv d env h f := hi.heap
  simp only [getSpanCentral, sizeClass_indexToSize hcls, ok_bind, scanCentral_eq hih]
  cases (f (.list i)).find? fun S => h.objs S ≠ [] with
  | some S => exact ⟨⟨f, hi⟩, hr⟩
  | none =>
    have hi₁ := hi.init_refill hcls
    have hok : FetchOk h BATCH := hi.heap.fetchOk hr (fun _ => by decide) fun _ => by decide
    have hfetch := fetchSpan_sat hs hi.heap hi.inMap (by decide) hok
      (show (SpanPlace.hand 0).Loose from trivial)
    have hgrown := fetchSpan_regions env BATCH h
    cases hrun : fetchSpan env BATCH h with
    | error e => trivial
    | ok r =>
      obtain ⟨S, h'⟩ := r
      obtain ⟨f', hf, hsz, -⟩ := hfetch.of_ok hrun
      have hi₂ := refill_step (t := 0) (k := .threadInit i) (i := i) (n := 1) hi₁
        (by simp [initThread]) hf (hsz.trans hi.heap.fetchedPages_batch)
      have hi₃ := carve_step (t := 0) hi₂ (setPc_pc _ _ _)
      simp only [ok_bind, sat_ok]
      refine ⟨⟨_, hi₃.restart rfl rfl rfl (fun _ _ => rfl) (fun t => ?_) (fun t => ⟨rfl, ?_⟩) ?_⟩,
        ?_⟩
      · by_cases ht : t = 0
        · subst ht; rw [setPc_pc]; rfl
        · rw [setPc_pc_of_ne _ _ ht, setPc_pc_of_ne _ _ ht]
          simp [initThread, ht, handSpans, Sys.initial]
      · by_cases ht : t = 0
        · subst ht; rw [setPc_pc]; rfl
        · rw [setPc_pc_of_ne _ _ ht, setPc_pc_of_ne _ _ ht]
          simp [initThread, ht, handObjs]
      · exact ⟨fun t => ⟨False.elim, fun h => by cases h⟩, fun _ => trivial, fun _ _ _ h => h.elim,
          fun _ _ _ => rfl⟩
      · rw [carveSpan_regions]
        refine (hgrown.of_ok hrun).forall hr fun x hx => ?_
        rcases hx with rfl | rfl | rfl
        all_goals decide

theorem centralInitLoop_inv (hs : env.Succeeds) :
    ∀ (n i : Nat) (h : Heap) (f : SpanPlace → List SpanPtr), i + n = CLASSES →
      SysInv d env (Sys.initial h) f → (∀ r ∈ h.regions, r < 2 ^ 32) →
      Sat (centralInitLoop env n i h)
        (fun h' => (∃ f', SysInv d env (Sys.initial h') f') ∧ ∀ x ∈ h'.regions, x < 2 ^ 32)
        fun _ => True
  | 0, _, _, f, _, hi, hr => ⟨⟨f, hi⟩, hr⟩
  | n + 1, i, h, f, hin, hi, hr => by
    simp only [centralInitLoop]
    refine (getSpanCentral_init hs hi hr (by omega)).bind ?_
    rintro ⟨S, h'⟩ ⟨⟨f', hi'⟩, hr'⟩
    exact centralInitLoop_inv hs n (i + 1) h' f' (by omega) hi' hr'

/-- After `tc_central_init` the invariant holds. -/
theorem tcCentralInit_inv (d : Discipline) (hs : env.Succeeds) (hrun : tcCentralInit env = .ok h) :
    (∃ f, SysInv d env (Sys.initial h) f) ∧ ∀ r ∈ h.regions, r < 2 ^ 32 :=
  (centralInitLoop_inv hs CLASSES 0 (initGlobals env) _ (by decide) (initGlobals_inv d env)
    fun _ h => by cases h).of_ok hrun

end Start

/-! ## Runs -/

section Runs

variable {d : Discipline} {env : Env} {s s' : Sys} {ok : Sys → Event → Prop}

/-- Every state reached by steps that meet the conditions of a discipline satisfies the
invariant. -/
theorem reachable_inv (hs : env.Succeeds) (hok : ∀ s e, ok s e → StepMet d s e)
    (hr : Reachable env ok s) : ∃ f, SysInv d env s f := by
  obtain ⟨h₀, hrun, hreach⟩ := hr
  refine hreach.invariant (I := fun s => ∃ f, SysInv d env s f) (tcCentralInit_inv d hs hrun).1 ?_
  rintro s e s' ⟨f, hi⟩ hmet ⟨hen, hnext⟩
  exact (step_sat hs hi hen (hok s e hmet)).of_ok hnext

theorem stepMet_base {e : Event} (h : FetchMet s e) : StepMet .base s e :=
  ⟨h, False.elim, False.elim, False.elim⟩

theorem reachable_base (hs : env.Succeeds) (hr : Reachable env FetchMet s) :
    ∃ f, SysInv .base env s f :=
  reachable_inv hs (fun _ _ h => stepMet_base h) hr

/-- A block that is live can be freed. -/
theorem Reachable.frees {t : Tid} {ptr : Nat} (hs : env.Succeeds) (hr : Reachable env FetchMet s)
    (hpc : s.pc t = .ready) (hptr : ∃ b ∈ s.live, b.ptr = ptr) :
    ∃ s', Step env s (t, .free ptr) s' := by
  obtain ⟨f, hi⟩ := reachable_base hs hr
  have hsat := tcFree_step hi hpc hptr
  cases hrun : tcFree s t ptr with
  | ok s' => exact ⟨s', by simp only [Enabled, hpc]; exact hptr, hrun⟩
  | error e => exact (hsat.of_error hrun).elim

end Runs

end SearchEngine.TcMalloc
