import SearchEngine.TcMalloc.Verify.Mirror

/-!
# The free lists of a running process

The pointers and the bytes run beside `System`, and everyone else writes in the memory: the users
in their blocks, and the rest of the program where no span in use lies. In every such run the
pointers lead through exactly the objects on the lists of `System`, so that the code on pointers
never follows a null pointer, does not loop, and returns the object that the list says
(`lists_threaded`). And a block keeps its bytes until it is freed or its own bytes are written,
whatever the threads do meanwhile (`contents_kept`).
-/

namespace SearchEngine.TcMalloc

open ByteMemory LinkedPath LinkedRing Placement Outcome Reach

/-- The state of `System`, and the pointers. -/
structure Process where
  sys : Sys
  image : Image

/-- A step of a thread in the allocator, or a byte that is written from outside. -/
inductive Process.Event where
  | call (e : TcMalloc.Event)
  | write (a : Nat) (v : UInt8)

/-- Bytes that are written from outside: those of the live blocks, and those where no span in use
lies, among them the records of the spans, which `Heap` has field by field. -/
def Writable (s : Sys) (a : Nat) : Prop :=
  (∃ b ∈ s.live, b.ptr ≤ a ∧ a < b.ptr + b.extent s.heap) ∨
    ∀ S, InUse s S → ¬ (s.heap.start S ≤ a ∧ a < s.heap.start S + s.heap.pageSize S * 4096)

/-- A step of the process. -/
inductive Process.Step (env : Env) (p : Process) : Process.Event → Process → Prop
  | call {e : TcMalloc.Event} {s : Sys} {m : Image} (sys : TcMalloc.Step env p.sys e s)
      (image : p.image.step p.sys e = .ok m) : Process.Step env p (.call e) ⟨s, m⟩
  | write {a : Nat} {v : UInt8} (may : Writable p.sys a) : Process.Step env p (.write a v)
      ⟨p.sys, { p.image with mem := Function.update p.image.mem a v }⟩

/-- The fetches of the run compute with numbers that fit. -/
def Process.Met (p : Process) : Process.Event → Prop
  | .call e => FetchMet p.sys e
  | .write .. => True

/-- Reached from the end of `tc_central_init`, whatever the memory held before. -/
def Process.Reachable (env : Env) (p : Process) : Prop :=
  ∃ h₀ mem m₀, tcCentralInit env = .ok h₀ ∧
    (Image.initial mem).centralInitLoop env CLASSES 0 (initGlobals env) = .ok m₀ ∧
    Reaches (Process.Step env) Process.Met ⟨Sys.initial h₀, m₀⟩ p

/-- The invariant of the process. -/
structure ProcessInv (env : Env) (p : Process) : Prop where
  sys : ∃ f, SysInv .base env p.sys f
  shows : p.image.Shows p.sys

section Runs

variable {env : Env} {p p' : Process} {s : Sys} {f : SpanPlace → List SpanPtr} {a : Nat}

/-- What is written from outside is in no word of a free object. -/
theorem SysInv.writable_outside (hi : SysInv .base env s f) (ha : Writable s a) {q : ObjPlace}
    {o : Nat} (ho : o ∈ freeAt s q) : ¬ (o ≤ a ∧ a < o + PTRBYTES) := by
  rintro ⟨h1, h2⟩
  obtain ⟨i, S, hobj⟩ := hi.exists_isObj (mem_objsAt_of_free ho)
  have hsize := indexToSize_pos i
  simp only [PTRBYTES] at h2
  rcases ha with ⟨b, hb, h3, h4⟩ | hout
  · refine hi.block_not_meets hb hobj (fun hsmall e => ?_) ⟨a, h3, h4, h1, by omega⟩
    subst e
    exact ne_live_of_free ho
      (hi.objs.placed.unique (mem_objsAt_of_free ho) (mem_objsAt_live hb hsmall))
  · obtain ⟨h5, h6⟩ := hobj.inside hi.heap
    exact hout S (.inr (.inl (hi.heap.inCentral.mpr ⟨i, hobj.1⟩))) ⟨by omega, by omega⟩

/-- A step keeps the invariant. -/
theorem ProcessInv.step {e : Process.Event} (hs : env.Succeeds) (h : ProcessInv env p)
    (hmet : p.Met e) (hstep : Process.Step env p e p') : ProcessInv env p' := by
  obtain ⟨f, hi⟩ := h.sys
  cases hstep with
  | @call e s m sys image =>
    have hinv := (step_sat hs hi sys.1 (stepMet_base hmet)).of_ok sys.2
    obtain ⟨m', hrun, hmir⟩ := step_mirrored hs hi h.shows hmet sys
    obtain rfl := Except.ok.inj (image.symm.trans hrun)
    exact ⟨hinv, hmir.lists⟩
  | @write a v may =>
    refine ⟨⟨f, hi⟩, Threaded.frame h.shows fun q o ho x h1 h2 => ?_⟩
    refine Function.update_of_ne ?_ _ _
    rintro rfl
    exact hi.writable_outside may ho ⟨h1, h2⟩

theorem Process.Reachable.inv (hs : env.Succeeds) (hr : p.Reachable env) : ProcessInv env p := by
  obtain ⟨h₀, mem, m₀, hinit, himage, hrun⟩ := hr
  refine hrun.invariant (I := ProcessInv env) ⟨(tcCentralInit_inv .base hs hinit).1, ?_⟩ ?_
  · obtain ⟨m, hrun', hshows⟩ := tcCentralInit_shows mem hs hinit
    obtain rfl := Except.ok.inj (himage.symm.trans hrun')
    exact hshows
  · exact fun p e p' h hmet hstep => h.step hs hmet hstep

/-- In every run, whatever the users write in their blocks, the pointers lead through the lists of
`System`; and the code on pointers can follow each of its steps, and returns the block that it
returns. -/
theorem lists_threaded (hs : env.Succeeds) (hr : p.Reachable env) :
    p.image.Shows p.sys ∧ ∀ e s, FetchMet p.sys e → Step env p.sys e s →
      ∃ m, p.image.step p.sys e = .ok m ∧
        ∀ b ∈ s.live, b ∉ p.sys.live → b.Small → m.ret e.1 = some b.ptr := by
  obtain ⟨⟨f, hi⟩, hshows⟩ := hr.inv hs
  refine ⟨hshows, fun e s hmet hstep => ?_⟩
  obtain ⟨m, hrun, hmir⟩ := step_mirrored hs hi hshows hmet hstep
  exact ⟨m, hrun, hmir.ret⟩

/-- A run of `System` is the run of a process. -/
theorem Process.exists_of_reachable (mem : Memory) (hs : env.Succeeds)
    (hr : TcMalloc.Reachable env FetchMet s) :
    ∃ m, Process.Reachable env ⟨s, m⟩ := by
  obtain ⟨h₀, hinit, hrun⟩ := hr
  obtain ⟨m₀, himage, -⟩ := tcCentralInit_shows mem hs hinit
  induction hrun with
  | refl => exact ⟨m₀, h₀, mem, m₀, hinit, himage, .refl⟩
  | tail _ met last ih =>
    obtain ⟨m, hm⟩ := ih
    obtain ⟨⟨f, hi⟩, hshows⟩ := hm.inv hs
    obtain ⟨m', hstep, -⟩ := step_mirrored hs hi hshows met last
    obtain ⟨h₁, mem₁, m₁, hinit₁, himage₁, hrun₁⟩ := hm
    exact ⟨m', h₁, mem₁, m₁, hinit₁, himage₁, hrun₁.tail (e := .call _) met (.call last hstep)⟩

theorem lists_threaded_machine : ∃ p, Process.Reachable machine p ∧ p.sys.live ≠ [] ∧
    p.image.Shows p.sys := by
  obtain ⟨s, ⟨h₀, hinit, hrun⟩, hlive, -⟩ := machine_block
  have hr : Reachable machine FetchMet s := ⟨h₀, hinit, hrun.mono fun _ _ h => h.fetchMet⟩
  obtain ⟨m, hp⟩ := Process.exists_of_reachable (fun _ => 0) machine_succeeds hr
  exact ⟨⟨s, m⟩, hp, hlive, (lists_threaded machine_succeeds hp).1⟩

end Runs

/-! ## The bytes of a block -/

section Contents

variable {env : Env} {s s' s₁ : Sys} {f : SpanPlace → List SpanPtr} {t : Tid} {b : Block}
  {p q : Process} {a : Nat}

/-- The blocks stay live, and the spans with the user keep their pages. -/
structure Keeps (f : SpanPlace → List SpanPtr) (s s' : Sys) : Prop where
  live : s.live ⊆ s'.live
  pages : ∀ S ∈ f .user, s'.heap.pageSize S = s.heap.pageSize S

theorem Keeps.same (hlive : s.live ⊆ s'.live) (hpages : s'.heap.pageSize = s.heap.pageSize) :
    Keeps f s s' :=
  ⟨hlive, fun S _ => congrFun hpages S⟩

theorem endFetch_keeps {k : Caller} {i num : Nat} {S : SpanPtr}
    (hrun : endFetch s₁ t k i num S = .ok s') (hpages : s₁.heap.pageSize = s.heap.pageSize)
    (hlive : s₁.live = s.live) : Keeps f s s' := by
  obtain ⟨⟨batch, h⟩, htake, hrun⟩ := bind_eq_ok hrun
  obtain rfl := Except.ok.inj hrun
  obtain ⟨-, -, -, hsame⟩ := takeObjs_objs htake
  exact Keeps.same (fun b hb => hlive ▸ hb) (hsame.trans hpages)

theorem allocate_keeps {nbytes : Nat} (hrun : allocate s t nbytes = .ok s') : Keeps f s s' := by
  obtain ⟨i, -, hrun⟩ := bind_eq_ok hrun
  split at hrun
  · obtain rfl := Except.ok.inj hrun
    exact Keeps.same (fun b hb => hb) rfl
  · obtain ⟨⟨o, l⟩, -, hrun⟩ := bind_eq_ok hrun
    obtain rfl := Except.ok.inj hrun
    exact Keeps.same (fun b hb => List.mem_cons_of_mem _ hb) rfl

theorem continueCall_keeps (hs : env.Succeeds) (hi : SysInv .base env s f)
    (hmet : FetchMet s (t, .run)) (hrun : continueCall env s t (s.pc t) = .ok s') :
    Keeps f s s' := by
  simp only [FetchMet] at hmet
  cases hpc : s.pc t with
  | start | ready =>
    rw [hpc] at hrun
    obtain rfl := Except.ok.inj hrun
    exact Keeps.same (fun b hb => hb) rfl
  | initLoop i =>
    rw [hpc] at hrun
    simp only [continueCall] at hrun
    split at hrun
    · obtain rfl := Except.ok.inj hrun
      exact Keeps.same (fun b hb => hb) rfl
    · obtain rfl := Except.ok.inj hrun
      exact Keeps.same (fun b hb => hb) rfl
  | fetch k i num =>
    rw [hpc] at hrun
    obtain ⟨found, -, hrun⟩ := bind_eq_ok hrun
    cases found with
    | some S => exact endFetch_keeps hrun rfl rfl
    | none =>
      obtain rfl := Except.ok.inj hrun
      exact Keeps.same (fun b hb => hb) rfl
  | refill k i num =>
    rw [hpc] at hrun hmet
    obtain ⟨⟨S, h⟩, hfetch, hrun⟩ := bind_eq_ok hrun
    obtain rfl := Except.ok.inj hrun
    obtain ⟨f', hf, -⟩ := (fetchSpan_sat hs hi.heap hi.inMap (by decide) hmet
      (show (SpanPlace.hand t).Loose from trivial)).of_ok hfetch
    refine ⟨fun b hb => hb, fun S' hS' => (hf.quiet.same (p := .user) ?_ hS').1⟩
    rintro ⟨j, hj⟩
    cases hj
  | carve k i num S =>
    rw [hpc] at hrun
    have hend : endFetch { s with heap := carveSpan (indexToSize i) i S s.heap } t k i num S =
      .ok s' := hrun
    exact endFetch_keeps hend (carveSpan_pageSize ..) rfl
  | insert k i batch =>
    rw [hpc] at hrun
    simp only [continueCall, finishFetch] at hrun
    cases k with
    | threadInit j =>
      obtain rfl := Except.ok.inj hrun
      exact Keeps.same (fun b hb => hb) rfl
    | allocate nbytes =>
      obtain ⟨⟨o, l⟩, -, hrun⟩ := bind_eq_ok hrun
      obtain rfl := Except.ok.inj hrun
      exact Keeps.same (fun b hb => List.mem_cons_of_mem _ hb) rfl
  | flush batch nbytes =>
    rw [hpc] at hrun
    obtain ⟨⟨o, h⟩, hobjs, hrun⟩ := bind_eq_ok hrun
    obtain ⟨S, h₁, -, -, -, hpages, -⟩ := returnObjs_objs hobjs
    cases o with
    | none =>
      obtain rfl := Except.ok.inj hrun
      exact Keeps.same (fun b hb => hb) hpages
    | some S =>
      obtain rfl := Except.ok.inj hrun
      exact Keeps.same (fun b hb => hb) hpages
  | recycle S | freeLarge S =>
    rw [hpc] at hrun
    obtain ⟨h, hret, hrun⟩ := bind_eq_ok hrun
    obtain rfl := Except.ok.inj hrun
    exact Keeps.same (fun b hb => hb) (returnSpanToPgcache_objs hret).2

/-- A step other than its `tc_free` leaves a block live, with the bytes it has. -/
theorem step_keeps {e : Event} (hs : env.Succeeds) (hi : SysInv .base env s f)
    (hmet : FetchMet s e) (hstep : Step env s e s') (hb : b ∈ s.live)
    (hfree : ∀ ptr, e.2 = .free ptr → ptr ≠ b.ptr) :
    b ∈ s'.live ∧ ∀ S ∈ f .user, s'.heap.pageSize S = s.heap.pageSize S := by
  obtain ⟨t, act⟩ := e
  obtain ⟨-, hrun⟩ := hstep
  cases act with
  | init =>
    obtain rfl := Except.ok.inj hrun
    exact ⟨hb, fun _ _ => rfl⟩
  | malloc size =>
    simp only [next, tcMalloc] at hrun
    split at hrun
    · have hkeeps := allocate_keeps (f := f) hrun
      exact ⟨hkeeps.live hb, hkeeps.pages⟩
    next hsize =>
      obtain ⟨⟨S, h⟩, hfetch, hrun⟩ := bind_eq_ok hrun
      obtain rfl := Except.ok.inj hrun
      have hlt : THRESHALLOC < size := not_le.mp hsize
      have hpos := bytesToPages_pos hlt
      obtain ⟨f', hf, -⟩ := (fetchSpan_sat hs hi.heap hi.inMap hpos (hmet hlt)
        (show SpanPlace.user.Loose from trivial)).of_ok hfetch
      refine ⟨List.mem_cons_of_mem _ hb, fun S' hS' => (hf.quiet.same (p := .user) ?_ hS').1⟩
      rintro ⟨j, hj⟩
      cases hj
  | free ptr =>
    have hstay : b ∈ s.live.eraseP fun c => c.ptr = ptr :=
      (List.mem_eraseP_of_neg (by simpa using (hfree ptr rfl).symm)).mpr hb
    obtain ⟨found, -, hrun⟩ := bind_eq_ok hrun
    cases found with
    | none => cases hrun
    | some span =>
      simp only at hrun
      split at hrun
      · obtain ⟨i, -, hrun⟩ := bind_eq_ok hrun
        simp only at hrun
        split at hrun
        all_goals
          obtain rfl := Except.ok.inj hrun
          exact ⟨hstay, fun _ _ => rfl⟩
      · obtain rfl := Except.ok.inj hrun
        exact ⟨hstay, fun _ _ => rfl⟩
  | run =>
    have hkeeps := continueCall_keeps hs hi hmet hrun
    exact ⟨hkeeps.live hb, hkeeps.pages⟩

/-- The block is live, and the allocator has the bytes for it that were asked for. -/
structure Process.Fits (p : Process) (b : Block) : Prop where
  live : b ∈ p.sys.live
  size : b.size ≤ b.extent p.sys.heap

/-- The events that do not end the life of a block, and do not write its bytes. -/
def Process.Spares (b : Block) (p : Process) (e : Process.Event) : Prop :=
  p.Met e ∧ match e with
    | .call e => ∀ ptr, e.2 = .free ptr → ptr ≠ b.ptr
    | .write a _ => ¬ (b.ptr ≤ a ∧ a < b.ptr + b.size)

/-- A small block has the bytes that were asked for. -/
theorem SysInv.small_fits (hi : SysInv .base env s f) (hb : b ∈ s.live) (hsmall : b.Small) :
    b.size ≤ b.extent s.heap := by
  obtain ⟨-, i, hobj, hle⟩ := hi.objs.block hb hsmall
  rwa [Block.extent, if_pos hsmall, (hi.heap.inClass_of_size hobj.1).2.1]

theorem SysInv.fits_step {e : Event} {f' : SpanPlace → List SpanPtr} (hs : env.Succeeds)
    (hi : SysInv .base env s f) (hi' : SysInv .base env s' f') (hmet : FetchMet s e)
    (hstep : Step env s e s') (hfree : ∀ ptr, e.2 = .free ptr → ptr ≠ b.ptr) (hb : b ∈ s.live)
    (hsize : b.size ≤ b.extent s.heap) : b ∈ s'.live ∧ b.size ≤ b.extent s'.heap := by
  obtain ⟨hb', hpages⟩ := step_keeps hs hi hmet hstep hb hfree
  refine ⟨hb', ?_⟩
  by_cases hsmall : b.Small
  · exact hi'.small_fits hb' hsmall
  · rw [Block.extent, if_neg hsmall, hpages _ (mem_user hi.hands hb hsmall)]
    rwa [Block.extent, if_neg hsmall] at hsize

/-- A free object has no byte of a live block. -/
theorem SysInv.free_outside (hi : SysInv .base env s f) (hb : b ∈ s.live) (h1 : b.ptr ≤ a)
    (h2 : a < b.ptr + b.extent s.heap) {P : ObjPlace} {o : Nat} (ho : o ∈ freeAt s P) :
    ¬ (o ≤ a ∧ a < o + PTRBYTES) :=
  hi.writable_outside (.inl ⟨b, hb, h1, h2⟩) ho

/-- A call leaves the bytes of the blocks that are live before it and after it. -/
theorem ProcessInv.call_bytes {e : Event} {m : Image} (hs : env.Succeeds) (h : ProcessInv env p)
    (hmet : FetchMet p.sys e) (sys : TcMalloc.Step env p.sys e s)
    (image : p.image.step p.sys e = .ok m) (hfit : p.Fits b) (hfit' : Process.Fits ⟨s, m⟩ b)
    (h1 : b.ptr ≤ a) (h2 : a < b.ptr + b.size) : m.mem a = p.image.mem a := by
  obtain ⟨f, hi⟩ := h.sys
  obtain ⟨f', hi'⟩ := (step_sat hs hi sys.1 (stepMet_base hmet)).of_ok sys.2
  obtain ⟨m', hrun, hmir⟩ := step_mirrored hs hi h.shows hmet sys
  obtain rfl := Except.ok.inj (image.symm.trans hrun)
  by_contra hne
  obtain ⟨o, ho, hword⟩ := hmir.kept a hne
  have hle := Nat.lt_of_lt_of_le h2 (Nat.add_le_add_left hfit.size _)
  have hle' := Nat.lt_of_lt_of_le h2 (Nat.add_le_add_left hfit'.size _)
  rcases ho with ⟨P, ho⟩ | ⟨P, ho⟩
  · exact hi.free_outside hfit.live h1 hle ho hword
  · exact hi'.free_outside hfit'.live h1 hle' ho hword

/-- A block keeps its bytes until it is freed, unless they are written: no call of the allocator
changes them, whichever thread makes it. -/
theorem contents_kept (hs : env.Succeeds) (hr : p.Reachable env) (hfit : p.Fits b)
    (hrun : Reaches (Process.Step env) (Process.Spares b) p q) (h1 : b.ptr ≤ a)
    (h2 : a < b.ptr + b.size) : q.image.mem a = p.image.mem a := by
  have hinv := hr.inv hs
  refine (hrun.invariant (I := fun q => ProcessInv env q ∧ q.Fits b ∧
    q.image.mem a = p.image.mem a) ⟨hinv, hfit, rfl⟩ ?_).2.2
  rintro q e q' ⟨hq, hfit, heq⟩ ⟨hmet, hspare⟩ hstep
  have hq' := hq.step hs hmet hstep
  cases hstep with
  | @call e s m sys image =>
    obtain ⟨f, hi⟩ := hq.sys
    obtain ⟨f', hi'⟩ := hq'.sys
    obtain ⟨hlive, hsize⟩ := hi.fits_step hs hi' hmet sys hspare hfit.live hfit.size
    refine ⟨hq', ⟨hlive, hsize⟩, ?_⟩
    rw [← heq]
    exact hq.call_bytes hs hmet sys image hfit ⟨hlive, hsize⟩ h1 h2
  | @write a' v may =>
    refine ⟨hq', ⟨hfit.live, hfit.size⟩, ?_⟩
    rw [← heq]
    refine Function.update_of_ne ?_ _ _
    rintro rfl
    exact hspare ⟨h1, h2⟩

theorem Process.Reachable.tail {e : Process.Event} (hr : p.Reachable env) (hmet : p.Met e)
    (hstep : Process.Step env p e q) : q.Reachable env := by
  obtain ⟨h₀, mem, m₀, hinit, himage, hrun⟩ := hr
  exact ⟨h₀, mem, m₀, hinit, himage, hrun.tail hmet hstep⟩

/-- The user writes its block, and the next call fetches from the central cache. -/
theorem contents_kept_machine : ∃ p q b, Process.Reachable machine p ∧ p.Fits b ∧
    Reaches (Process.Step machine) (Process.Spares b) p q ∧ p.image.mem b.ptr = 7 ∧
    q.image.mem b.ptr = 7 := by
  obtain ⟨s₀, ⟨h₀, hinit, hrun₀⟩, hs₀⟩ := machine_ready
  have hmet (s : Sys) : FetchMet s (0, .malloc 32768) := fun h => absurd h (by decide)
  have hcache : s₀.cache 0 158 = ⟨[191467520], 0 + 1, 2⟩ := (hs₀.classes 158 (by decide)).2
  have hstep := malloc_pop hs₀.pc hcache
  obtain ⟨b, hb⟩ : ∃ b : Block, b = ⟨191467520, 32768, s₀.origin 191467520⟩ := ⟨_, rfl⟩
  obtain ⟨s, hs⟩ : ∃ s, s = returnBlock (s₀.setCache 0 158 ⟨[], 0, 2⟩) 0 191467520 32768
    (s₀.origin 191467520) := ⟨_, rfl⟩
  rw [← hs] at hstep
  have hlive : b ∈ s.live := by
    rw [hs, hb]
    exact List.mem_cons_self
  have hr : Reachable machine FetchMet s :=
    ⟨h₀, hinit, (hrun₀.mono fun _ _ h => h.fetchMet).tail (hmet s₀) hstep⟩
  obtain ⟨m, hp⟩ := Process.exists_of_reachable (fun _ => 0) machine_succeeds hr
  obtain ⟨⟨f, hi⟩, -⟩ := hp.inv machine_succeeds
  have hsize := hi.small_fits hlive (by rw [hb]; exact le_rfl)
  have hpos : b.ptr < b.ptr + b.size := by
    rw [hb]
    exact Nat.lt_add_of_pos_right (show 0 < 32768 by decide)
  have hp' := hp.tail (e := .write b.ptr 7) trivial
    (.write (.inl ⟨b, hlive, le_rfl, Nat.lt_of_lt_of_le hpos (Nat.add_le_add_left hsize _)⟩))
  obtain ⟨-, hshows⟩ := hp'.inv machine_succeeds
  -- the cache is empty
  have hcall : Step machine s (0, .malloc 32768) (startFetch s 0 (.allocate 32768) 158) := by
    have hpc : s.pc 0 = .ready := by rw [hs]; exact setPc_pc ..
    have hempty : (s.cache 0 158).objs = [] := by simp [hs, returnBlock, Sys.setCache, Sys.setPc]
    refine ⟨by simp only [Enabled, hpc]; decide, ?_⟩
    simp only [next, tcMalloc, if_pos (le_refl 32768), allocate, sizeClass_last]
    rw [ok_bind]
    simp only [hempty]
  obtain ⟨m', himage, -⟩ := step_mirrored machine_succeeds hi hshows (hmet s) hcall
  have hspare : Process.Spares b ⟨s, { m with mem := Function.update m.mem b.ptr 7 }⟩
      (.call (0, .malloc 32768)) := ⟨hmet s, fun ptr h => by cases h⟩
  have hrun := Reaches.single hspare (Process.Step.call hcall himage)
  have hwritten : Function.update m.mem b.ptr 7 b.ptr = 7 := Function.update_self ..
  refine ⟨_, _, b, hp', ⟨hlive, hsize⟩, hrun, hwritten, ?_⟩
  exact (contents_kept machine_succeeds hp' ⟨hlive, hsize⟩ hrun le_rfl hpos).trans hwritten

end Contents

end SearchEngine.TcMalloc
