import SearchEngine.TcMalloc.Verify.LastClass
import SearchEngine.TcMalloc.Verify.Users

/-!
# `client1.c`: the end of `main`

`main` ends with `tc_free(args)` and `tc_free(args->server_addr)`. The first call writes the link of
a free object over the first bytes of `args`, where `server_addr` was. So whatever the process has
done before, the second call is not given the address of the server: it is given a null pointer, or
an object on the free list that `args` is on, or, where the span of `args` went to the page heap, an
address in that span (`exit_frees_no_block`).
-/

namespace SearchEngine.Client

open TcMalloc ByteMemory Outcome Reach

/-- `args->server_addr` -/
def serverAddr (args : Nat) (m : Memory) : Option Nat := link PTRBYTES m args

/-- `tc_free(args)` of the thread `t`, from the call to its return; the other threads have ended. -/
def FreesArgs (env : TcMalloc.Env) (t : Tid) (args : Nat) (p q : Process) : Prop :=
  ∃ p', Process.Step env p (.call (t, .free args)) p' ∧
    Reaches (Process.Step env) (fun _ e => e = .call (t, .run)) p' q ∧ q.sys.pc t = .ready

section Exit

variable {env : TcMalloc.Env} {s s' : Sys} {f : SpanPlace → List SpanPtr} {t : Tid}
  {args o : Nat} {b : TcMalloc.Block} {p q : Process} {m : Image}

/-- A block of a span at the head of a list of the central cache is an object. -/
theorem small_of_head (hi : SysInv .base env s f) {i : Nat} {S : SpanPtr}
    (hS : s.heap.list i = some S) (hmap : mapAddrToSpan b.ptr s.heap = .ok (some S))
    (hb : b ∈ s.live) : b.Small := by
  by_contra hlarge
  have hspan : some b.span = some S := Except.ok.inj ((hi.mapAddr hb).symm.trans hmap)
  have huser := mem_user hi.hands hb hlarge
  rw [Option.some.inj hspan] at huser
  have hlist : S ∈ f (.list i) := List.mem_of_head? ((hi.heap.links.head (.list i)).symm.trans hS)
  exact SpanPlace.noConfusion (hi.heap.pages.placed.unique huser hlist)

/-- The first word of `args` leads along the free list that `args` is on, or to an address in the
span of `args`, a span that `out` names. -/
def Leads (args : Nat) (out : SpanPtr → Prop) (p : Process) : Prop :=
  ∀ a, serverAddr args p.image.mem = some a →
    (∃ P, args ∈ freeAt p.sys P ∧ a ∈ freeAt p.sys P) ∨
      ∃ S, out S ∧ Inside p.sys.heap S args PTRBYTES ∧ Inside p.sys.heap S a PTRBYTES

theorem leads_of_free (hinv : ProcessInv env p) {P : ObjPlace} {out : SpanPtr → Prop}
    (ho : args ∈ freeAt p.sys P) : Leads args out p :=
  fun _ ha => .inl ⟨P, ho, (hinv.shows.path P).next_mem ho ha⟩

/-- Neither is in a live block. -/
theorem Leads.outside (hi : SysInv .base env p.sys f)
    (hleads : Leads args (InPageHeap p.sys.heap) p) {a : Nat}
    (ha : serverAddr args p.image.mem = some a) (hb : b ∈ p.sys.live) :
    ¬ (b.ptr ≤ a ∧ a < b.ptr + b.extent p.sys.heap) := by
  rintro ⟨h1, h2⟩
  rcases hleads a ha with ⟨P, -, hfree⟩ | ⟨S, hS, -, hstart, hend⟩
  · exact hi.free_outside hb h1 h2 hfree ⟨le_rfl, Nat.lt_add_of_pos_right (by decide)⟩
  · have hlt : a < p.sys.heap.start S + p.sys.heap.pageSize S * 4096 :=
      Nat.lt_of_lt_of_le (Nat.lt_add_of_pos_right (by decide)) hend
    exact hi.nonOverlap.spans b hb S hS ⟨a, h1, h2, hstart, hlt⟩

/-- The span that `return_objs_to_centralcache` took from the central cache goes to the page
heap. -/
theorem Leads.recycled (hi : SysInv .base env p.sys f) {S : SpanPtr} {h : Heap}
    (hpc : p.sys.pc t = .recycle S) (hrun : returnSpanToPgcache S p.sys.heap = .ok h)
    (hleads : Leads args (· = S) p) : Leads args (InPageHeap h)
      ⟨({ p.sys with heap := h, centralLock := none } : Sys).setPc t .ready,
        p.image.setObjs S none⟩ := by
  have hS : S ∈ f (.hand t) := by
    rw [hi.hands.hand t, hpc]
    exact List.mem_singleton_self S
  have hloose : (SpanPlace.hand t).Loose := trivial
  obtain ⟨h', hrun', hinv, -, -, hobjs, -, -, -, hpages, hstart, -⟩ :=
    returnSpan_sat hi.heap hS hloose
  obtain rfl := Except.ok.inj (hrun.symm.trans hrun')
  have hhand : freeAt { p.sys with heap := h, centralLock := none } (.hand t) =
      handObjs .ready := by
    simp only [freeAt, objsAt, hpc, handObjs]
  have hfree := (freeAt_setPc_same hhand).trans (freeAt_congr (s := p.sys) hobjs rfl rfl)
  have hinside (a : Nat) : Inside h S a PTRBYTES ↔ Inside p.sys.heap S a PTRBYTES := by
    rw [Inside, hstart, hpages, Inside]
  intro a ha
  rcases hleads a ha with ⟨P, hargs, ha⟩ | ⟨_, rfl, hargs, ha⟩
  · exact .inl ⟨P, hfree ▸ ⟨hargs, ha⟩⟩
  · have hpg : InPageHeap h _ := hinv.inPageHeap.mpr ⟨_, by
      rw [moved, Function.update_self]
      exact List.mem_cons_self⟩
    exact .inr ⟨_, hpg, (hinside args).mpr hargs, (hinside a).mpr ha⟩

/-- The batch that `args` is in goes back to the central cache; `out` names the span that is to go
to the page heap. -/
theorem Leads.flushed (hi : SysInv .base env p.sys f) (hm : p.image.Shows p.sys)
    {batch : List Nat} {nbytes : Nat} {last : Option SpanPtr} {h : Heap} {l : Option Tid} {pc : Pc}
    {out : SpanPtr → Prop} (hpc : p.sys.pc t = .flush batch nbytes) (hmem : args ∈ batch)
    (hrun : returnObjs batch nbytes p.sys.heap = .ok (last, h))
    (himage : p.image.returnObjs t p.sys.heap = .ok m) (hout : ∀ S, last = some S → out S) :
    Leads args out ⟨({ p.sys with heap := h, centralLock := l } : Sys).setPc t pc, m⟩ := by
  obtain ⟨-, -, -, -, -, hpages, hstart⟩ := returnObjs_objs hrun
  have hinside {S : SpanPtr} {o : Nat} : (∃ i, IsObj p.sys.heap f i S o) →
    Inside h S o PTRBYTES := by
    rintro ⟨i, hobj⟩
    obtain ⟨h1, h2⟩ := hobj.inside hi.heap
    have hsize := indexToSize_pos i
    rw [Inside, hstart, hpages]
    exact ⟨h1, by simp only [PTRBYTES]; omega⟩
  intro a ha
  obtain ⟨S, hlist | hlast, hargs, ha⟩ := returnObjs_links hi hm hpc hrun himage hmem ha
  · exact .inl ⟨.span S, hlist⟩
  · exact .inr ⟨S, hout S hlast, hinside hargs, hinside ha⟩

/-- Where the call of `tc_free` is: `args` is to be flushed, or its first word is a link. -/
inductive After (t : Tid) (args : Nat) (p : Process) : Prop
  | flush {batch : List Nat} {nbytes : Nat} (pc : p.sys.pc t = .flush batch nbytes)
      (mem : args ∈ batch)
  | recycle {S : SpanPtr} (pc : p.sys.pc t = .recycle S) (leads : Leads args (· = S) p)
  | returned (pc : p.sys.pc t = .ready) (leads : Leads args (InPageHeap p.sys.heap) p)

/-- `tc_free(args)` up to its first lock. -/
theorem after_free (hs : env.Succeeds) (hinv : ProcessInv env p) (hb : b ∈ p.sys.live)
    (hsmall : b.Small) (hsys : TcMalloc.Step env p.sys (t, .free b.ptr) s)
    (himage : p.image.step p.sys (t, .free b.ptr) = .ok m) : After t b.ptr ⟨s, m⟩ := by
  have hinv' := hinv.step (e := .call (t, .free b.ptr)) hs trivial (.call hsys himage)
  obtain ⟨f, hi⟩ := hinv.sys
  obtain ⟨hpc, -⟩ := Enabled.free_ready hsys.1
  have hrun : tcFree p.sys t b.ptr = .ok s := hsys.2
  have hsize : 0 < p.sys.heap.objsSize b.span ∧ p.sys.heap.objsSize b.span ≤ THRESHALLOC := by
    obtain ⟨-, i, hobj, -⟩ := hi.objs.block hb hsmall
    obtain ⟨hcls, hobjs, -⟩ := hi.heap.inClass_of_size hobj.1
    have hpos := indexToSize_pos i
    rw [hobjs]
    exact ⟨by omega, indexToSize_le hcls⟩
  simp only [tcFree, hi.mapAddr hb, ok_bind, if_pos hsize] at hrun
  obtain ⟨i, -, hrun⟩ := bind_eq_ok hrun
  simp only at hrun
  split at hrun
  · obtain rfl := Except.ok.inj hrun
    exact .flush (setPc_pc ..) List.mem_cons_self
  · obtain rfl := Except.ok.inj hrun
    refine .returned hpc (leads_of_free (P := .cache t i) hinv' ?_)
    simp [freeAt, objsAt, Sys.setCache]

/-- The call takes no span from the page heap. -/
theorem After.fetchMet (h : After t args p) : FetchMet p.sys (t, .run) := by
  cases h with
  | flush hpc | recycle hpc | returned hpc => simp only [FetchMet, hpc]

/-- A later step of the call. -/
theorem After.step (hinv : ProcessInv env p) (h : After t args p)
    (hsys : TcMalloc.Step env p.sys (t, .run) s) (himage : p.image.step p.sys (t, .run) = .ok m) :
    After t args ⟨s, m⟩ ∧ s.live = p.sys.live := by
  obtain ⟨f, hi⟩ := hinv.sys
  obtain ⟨hen, hrun⟩ := hsys
  have hrun : continueCall env p.sys t (p.sys.pc t) = .ok s := hrun
  have himage : p.image.continueCall p.sys t (p.sys.pc t) = .ok m := himage
  cases h with
  | returned hpc =>
    simp only [Enabled, hpc] at hen
  | recycle hpc hleads =>
    rw [hpc] at hrun himage
    obtain ⟨h, hreturn, hrun⟩ := bind_eq_ok hrun
    obtain rfl := Except.ok.inj hrun
    obtain rfl := Except.ok.inj himage
    exact ⟨.returned (setPc_pc ..) (hleads.recycled hi hpc hreturn), rfl⟩
  | @flush batch nbytes hpc hmem =>
    rw [hpc] at hrun himage
    obtain ⟨⟨last, h⟩, hobjs, hrun⟩ := bind_eq_ok hrun
    cases last with
    | none =>
      obtain rfl := Except.ok.inj hrun
      exact ⟨.returned (setPc_pc ..)
        (.flushed hi hinv.shows hpc hmem hobjs himage fun S hS => by cases hS), rfl⟩
    | some S =>
      obtain rfl := Except.ok.inj hrun
      exact ⟨.recycle (setPc_pc ..)
        (.flushed hi hinv.shows hpc hmem hobjs himage fun S hS => (Option.some.inj hS).symm), rfl⟩

/-- `tc_free(args->server_addr)` is given a null pointer, or an object on the free list that `args`
is on, or an address in the span of `args`, which is in the page heap then. This is no address in a
live block, and the address of the server stays live. -/
theorem exit_frees_no_block (hs : env.Succeeds) (hr : p.Reachable env) (hb : b ∈ p.sys.live)
    (hsmall : b.Small) (hrun : FreesArgs env t b.ptr p q) :
    Leads b.ptr (InPageHeap q.sys.heap) q ∧
      (∀ a, serverAddr b.ptr q.image.mem = some a →
        ∀ c ∈ q.sys.live, ¬ (c.ptr ≤ a ∧ a < c.ptr + c.extent q.sys.heap)) ∧
      q.sys.live = p.sys.live.eraseP fun c => c.ptr = b.ptr := by
  obtain ⟨p', hcall, hrest, hready⟩ := hrun
  have hinv := hr.inv hs
  cases hcall with
  | @call e s m hsys himage =>
    have hafter := after_free hs hinv hb hsmall hsys himage
    have hlive := (free_proceeds (Enabled.free_ready hsys.1).1 hsys.2).1
    have hinv' := hinv.step (e := .call (t, .free b.ptr)) hs trivial (.call hsys himage)
    obtain ⟨hend, hlast, hsame⟩ :=
      hrest.invariant (I := fun q => ProcessInv env q ∧ After t b.ptr q ∧
      q.sys.live = s.live) ⟨hinv', hafter, rfl⟩ (by
        rintro q e q' ⟨hq, hafter, hsame⟩ rfl hstep
        cases hstep with
        | call hsys himage =>
          obtain ⟨hafter', hlive'⟩ := hafter.step hq hsys himage
          exact ⟨hq.step (e := .call (t, .run)) hs hafter.fetchMet (.call hsys himage), hafter',
            hlive'.trans hsame⟩)
    cases hlast with
    | flush hpc => rw [hready] at hpc; cases hpc
    | recycle hpc => rw [hready] at hpc; cases hpc
    | returned _ hleads =>
      obtain ⟨f, hi⟩ := hend.sys
      exact ⟨hleads, fun a ha c hc => hleads.outside hi ha hc, hsame.trans hlive⟩

/-- Thread 0 has three blocks and frees one of them; the word there becomes the free object the
cache had. -/
theorem exit_frees_no_block_machine : ∃ p q b, Process.Reachable machine p ∧ b ∈ p.sys.live ∧
    FreesArgs machine 0 b.ptr p q ∧ Leads b.ptr (InPageHeap q.sys.heap) q ∧
    (∀ a, serverAddr b.ptr q.image.mem = some a →
      ∀ c ∈ q.sys.live, ¬ (c.ptr ≤ a ∧ a < c.ptr + c.extent q.sys.heap)) ∧
    q.sys.live = p.sys.live.eraseP fun c => c.ptr = b.ptr := by
  obtain ⟨s₀, ⟨h₀, hinit, hrun₀⟩, hs₀⟩ := machine_ready
  obtain ⟨s₁, hr₁, hd₁⟩ := hs₀.stage.pops
  have hb₂ : (((spanObjs 46624 158).drop 1).take 2).reverse = [191401984, 191434752] := by decide
  obtain ⟨s₂, hr₂, hd₂⟩ := hd₁.fetch (by decide) (by decide) hb₂
  have hr : TcMalloc.Reachable machine FetchMet s₂ :=
    ⟨h₀, hinit, ((hrun₀.mono fun _ _ h => h.fetchMet).trans hr₁).trans hr₂⟩
  obtain ⟨m, hp⟩ := Process.exists_of_reachable (fun _ => 0) machine_succeeds hr
  obtain ⟨⟨f, hi⟩, hshows⟩ := hp.inv machine_succeeds
  obtain ⟨b, hb, hptr⟩ : ∃ b ∈ s₂.live, b.ptr = 191401984 := by
    refine List.mem_map.mp ?_
    rw [hd₂.live]
    exact List.mem_cons_self
  -- the cache has one object
  obtain ⟨s₃, hstep, hd₃, -⟩ := hd₂.put (o := 191401984) (by decide) List.mem_cons_self
    (hd₂.single.found hd₂.pool.ini (by decide) (by decide)) hd₂.single.objsSize
  rw [← hptr] at hstep
  have hmet : FetchMet s₂ (0, .free b.ptr) := trivial
  obtain ⟨m', himage, -⟩ := step_mirrored machine_succeeds hi hshows hmet hstep
  have hfrees : FreesArgs machine 0 b.ptr ⟨s₂, m⟩ ⟨s₃, m'⟩ :=
    ⟨_, .call hstep himage, .refl, hd₃.pc⟩
  have hsmall : b.Small := by
    refine small_of_head hi hd₂.single.list ?_ hb
    rw [hptr]
    exact hd₂.single.found hd₂.pool.ini (by decide) (by decide)
  exact ⟨_, _, b, hp, hb, hfrees, exit_frees_no_block machine_succeeds hp hb hsmall hfrees⟩

end Exit

end SearchEngine.Client
