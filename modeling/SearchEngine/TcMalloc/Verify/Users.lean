import SearchEngine.Lib.BlockStore
import SearchEngine.TcMalloc.Verify.Process
import SearchEngine.TcMalloc.Verify.Sizes

/-!
# The allocator as its users see it

The threads that call the allocator see when they ask for a block, the address they are given,
and the bytes they write. `Process.store` is what they know in a state of the process. Every run
of the process shows them what a run of `BlockStore` does (`shows_store`): the page heap, the
central cache, the thread caches, the locks and the links in the free objects cannot be seen.
-/

namespace SearchEngine.TcMalloc

open ByteMemory Outcome Reach Simulation

/-- The size of the live block at an address. -/
def blockSize (live : List Block) (ptr : Nat) : Option Nat :=
  (live.find? fun b => b.ptr = ptr).map Block.size

/-- The request of a thread that is in `tc_malloc`. -/
def askedFor : Pc → Option Nat
  | .fetch (.allocate nbytes) _ _ => some nbytes
  | .refill (.allocate nbytes) _ _ => some nbytes
  | .carve (.allocate nbytes) _ _ _ => some nbytes
  | .insert (.allocate nbytes) _ _ => some nbytes
  | _ => none

/-- What the users know. -/
def Process.store (p : Process) : BlockStore.Store Tid UInt8 where
  size := blockSize p.sys.live
  byte := p.image.mem
  asked t := askedFor (p.sys.pc t)

/-- The blocks that a step of `t` returned. -/
def handed (t : Tid) (s s' : Sys) : List (BlockStore.Deed Tid UInt8) :=
  (s'.live.take (s'.live.length - s.live.length)).map fun b => .give t b.ptr

/-- What the users see of a step. -/
def Process.deeds (p p' : Process) : Process.Event → List (BlockStore.Deed Tid UInt8)
  | .call (_, .init) => []
  | .call (t, .malloc size) => .ask t size :: handed t p.sys p'.sys
  | .call (_, .free ptr) => [.free ptr]
  | .call (t, .run) => handed t p.sys p'.sys
  | .write a v => if ∃ b ∈ p.sys.live, b.ptr ≤ a ∧ a < b.ptr + b.size then [.write a v] else []

/-- The condition of the fetches, and of the large requests to get enough pages. -/
def Process.Serves (p : Process) (e : Process.Event) : Prop :=
  p.Met e ∧ ∀ t size, e = .call (t, .malloc size) → THRESHALLOC < size →
    TcMalloc.Fits p.sys.heap size

/-- A step, and what the users see of it. -/
def Process.Shows (env : Env) (p : Process) (ds : List (BlockStore.Deed Tid UInt8))
    (p' : Process) : Prop :=
  ∃ e, p.Serves e ∧ Process.Step env p e p' ∧ ds = p.deeds p' e

/-! ## The blocks -/

section Blocks

variable {live : List Block} {b : Block} {ptr : Nat}

theorem blockSize_cons : blockSize (b :: live) =
    Function.update (blockSize live) b.ptr (some b.size) := by
  funext ptr
  by_cases h : ptr = b.ptr
  · subst h
    rw [Function.update_self, blockSize, List.find?_cons_of_pos (by simp), Option.map_some]
  · rw [Function.update_of_ne h, blockSize, List.find?_cons_of_neg (by simpa using Ne.symm h),
      blockSize]

theorem blockSize_eq_none (h : ∀ b ∈ live, b.ptr ≠ ptr) : blockSize live ptr = none := by
  rw [blockSize, List.find?_eq_none.mpr fun b hb => by simpa using h b hb, Option.map_none]

/-- The addresses differ. -/
theorem blockSize_eraseP (hnd : live.Pairwise fun b b' => b.ptr ≠ b'.ptr) :
    blockSize (live.eraseP fun b => b.ptr = ptr) =
      Function.update (blockSize live) ptr none := by
  induction live with
  | nil =>
    funext q
    by_cases h : q = ptr
    · subst h
      rw [Function.update_self]
      rfl
    · rw [Function.update_of_ne h]
      rfl
  | cons b live ih =>
    obtain ⟨hb, hnd⟩ := List.pairwise_cons.mp hnd
    by_cases h : b.ptr = ptr
    · rw [List.eraseP_cons_of_pos (by simpa using h), blockSize_cons, ← h, Function.update_idem]
      have hnone : blockSize live b.ptr = none :=
        blockSize_eq_none fun b' hb' => (hb b' hb').symm
      rw [← hnone, Function.update_eq_self]
    · rw [List.eraseP_cons_of_neg (by simpa using h), blockSize_cons, blockSize_cons, ih hnd,
        Function.update_comm h]

theorem blockSize_eq_some (hnd : live.Pairwise fun b b' => b.ptr ≠ b'.ptr) {n : Nat} :
    blockSize live ptr = some n ↔ ∃ b ∈ live, b.ptr = ptr ∧ b.size = n := by
  induction live with
  | nil => simp [blockSize]
  | cons b live ih =>
    obtain ⟨hb, hnd⟩ := List.pairwise_cons.mp hnd
    rw [blockSize_cons]
    by_cases h : ptr = b.ptr
    · subst h
      rw [Function.update_self, Option.some_inj]
      refine ⟨fun e => ⟨b, List.mem_cons_self, rfl, e⟩, ?_⟩
      rintro ⟨b', hb', hp, hn⟩
      rcases List.mem_cons.mp hb' with rfl | hb'
      · exact hn
      · exact absurd hp.symm (hb b' hb')
    · rw [Function.update_of_ne h, ih hnd]
      constructor
      · rintro ⟨b', hb', hp⟩
        exact ⟨b', List.mem_cons_of_mem _ hb', hp⟩
      · rintro ⟨b', hb', hp, hn⟩
        rcases List.mem_cons.mp hb' with rfl | hb'
        · exact absurd hp.symm h
        · exact ⟨b', hb', hp, hn⟩

end Blocks

/-! ## What a step does to the calls -/

section Calls

variable {env : Env} {s s' s₁ : Sys} {t : Tid} {n : Option Nat}

/-- A step of `t` for the request `n`: it goes on, or returns a block of that size. -/
structure Proceeds (t : Tid) (n : Option Nat) (s s' : Sys) : Prop where
  others : ∀ u, u ≠ t → s'.pc u = s.pc u
  proceeds : (s'.live = s.live ∧ askedFor (s'.pc t) = n) ∨
    ∃ b, s'.live = b :: s.live ∧ n = some b.size ∧ askedFor (s'.pc t) = none

theorem Proceeds.goesOn {pc : Pc} (hpc : s₁.pc = s.pc) (hlive : s₁.live = s.live)
    (hn : askedFor pc = n) : Proceeds t n s (s₁.setPc t pc) where
  others u hu := by rw [setPc_pc_of_ne _ _ hu, hpc]
  proceeds := .inl ⟨hlive, by rw [setPc_pc, hn]⟩

theorem Proceeds.returns {ptr size : Nat} {S : SpanPtr} (hpc : s₁.pc = s.pc)
    (hlive : s₁.live = s.live) : Proceeds t (some size) s (returnBlock s₁ t ptr size S) where
  others u hu := by rw [returnBlock, setPc_pc_of_ne _ _ hu]; exact congrFun hpc u
  proceeds := by
    refine .inr ⟨⟨ptr, size, S⟩, ?_, rfl, ?_⟩
    · rw [← hlive]
      rfl
    · rw [returnBlock, setPc_pc]
      rfl

theorem startFetch_proceeds {k : Caller} {i : Nat} (hpc : s₁.pc = s.pc) (hlive : s₁.live = s.live)
    (hn : askedFor (.fetch k i (fetchAmount i (s₁.cache t i)).1) = n) :
    Proceeds t n s (startFetch s₁ t k i) := by
  rw [startFetch]
  exact Proceeds.goesOn hpc hlive hn

theorem allocate_proceeds {nbytes : Nat} (hrun : allocate s t nbytes = .ok s') :
    Proceeds t (some nbytes) s s' := by
  obtain ⟨i, -, hrun⟩ := bind_eq_ok hrun
  split at hrun
  · obtain rfl := Except.ok.inj hrun
    exact startFetch_proceeds rfl rfl rfl
  · obtain ⟨⟨o, l⟩, -, hrun⟩ := bind_eq_ok hrun
    obtain rfl := Except.ok.inj hrun
    exact Proceeds.returns rfl rfl

theorem endFetch_proceeds {k : Caller} {i num : Nat} {S : SpanPtr}
    (hrun : endFetch s₁ t k i num S = .ok s') (hpc : s₁.pc = s.pc) (hlive : s₁.live = s.live)
    (hn : ∀ batch, askedFor (.insert k i batch) = n) : Proceeds t n s s' := by
  obtain ⟨⟨batch, h⟩, -, hrun⟩ := bind_eq_ok hrun
  obtain rfl := Except.ok.inj hrun
  exact Proceeds.goesOn hpc hlive (hn batch)

theorem continueCall_proceeds (hrun : continueCall env s t (s.pc t) = .ok s') :
    Proceeds t (askedFor (s.pc t)) s s' := by
  cases hpc : s.pc t with
  | start | ready =>
    rw [hpc] at hrun
    obtain rfl := Except.ok.inj hrun
    exact ⟨fun _ _ => rfl, .inl ⟨rfl, by rw [hpc]⟩⟩
  | initLoop i =>
    rw [hpc] at hrun
    simp only [continueCall] at hrun
    split at hrun
    · obtain rfl := Except.ok.inj hrun
      exact startFetch_proceeds rfl rfl rfl
    · obtain rfl := Except.ok.inj hrun
      exact Proceeds.goesOn rfl rfl rfl
  | fetch k i num =>
    rw [hpc] at hrun
    obtain ⟨found, -, hrun⟩ := bind_eq_ok hrun
    cases found with
    | some S => exact endFetch_proceeds hrun rfl rfl fun _ => by cases k <;> rfl
    | none =>
      obtain rfl := Except.ok.inj hrun
      exact Proceeds.goesOn rfl rfl (by cases k <;> rfl)
  | refill k i num =>
    rw [hpc] at hrun
    obtain ⟨⟨S, h⟩, -, hrun⟩ := bind_eq_ok hrun
    obtain rfl := Except.ok.inj hrun
    exact Proceeds.goesOn rfl rfl (by cases k <;> rfl)
  | carve k i num S =>
    rw [hpc] at hrun
    have hend : endFetch { s with heap := carveSpan (indexToSize i) i S s.heap } t k i num S =
      .ok s' := hrun
    exact endFetch_proceeds hend rfl rfl fun _ => by cases k <;> rfl
  | insert k i batch =>
    rw [hpc] at hrun
    simp only [continueCall, finishFetch] at hrun
    cases k with
    | threadInit j =>
      obtain rfl := Except.ok.inj hrun
      exact Proceeds.goesOn rfl rfl rfl
    | allocate nbytes =>
      obtain ⟨⟨o, l⟩, -, hrun⟩ := bind_eq_ok hrun
      obtain rfl := Except.ok.inj hrun
      exact Proceeds.returns rfl rfl
  | flush batch nbytes =>
    rw [hpc] at hrun
    obtain ⟨⟨o, h⟩, -, hrun⟩ := bind_eq_ok hrun
    cases o with
    | none | some =>
      obtain rfl := Except.ok.inj hrun
      exact Proceeds.goesOn rfl rfl rfl
  | recycle S | freeLarge S =>
    rw [hpc] at hrun
    obtain ⟨h, -, hrun⟩ := bind_eq_ok hrun
    obtain rfl := Except.ok.inj hrun
    exact Proceeds.goesOn rfl rfl rfl

theorem malloc_proceeds {size : Nat} (hrun : tcMalloc env s t size = .ok s') :
    Proceeds t (some size) s s' := by
  rw [tcMalloc] at hrun
  split at hrun
  · exact allocate_proceeds hrun
  · obtain ⟨⟨S, h⟩, -, hrun⟩ := bind_eq_ok hrun
    obtain rfl := Except.ok.inj hrun
    exact Proceeds.returns rfl rfl

/-- `tc_free` takes the block away at once. -/
theorem free_proceeds {ptr : Nat} (hpc : s.pc t = .ready) (hrun : tcFree s t ptr = .ok s') :
    s'.live = s.live.eraseP (fun b => b.ptr = ptr) ∧
      ∀ u, askedFor (s'.pc u) = askedFor (s.pc u) := by
  obtain ⟨found, -, hrun⟩ := bind_eq_ok hrun
  have hset {s₁ : Sys} {pc : Pc} (h : s₁.pc = s.pc) (hn : askedFor pc = none) (u : Tid) :
      askedFor ((s₁.setPc t pc).pc u) = askedFor (s.pc u) := by
    by_cases hu : u = t
    · subst hu
      rw [setPc_pc, hpc, hn]
      rfl
    · rw [setPc_pc_of_ne _ _ hu, h]
  cases found with
  | none => cases hrun
  | some span =>
    simp only at hrun
    split at hrun
    · obtain ⟨i, -, hrun⟩ := bind_eq_ok hrun
      simp only at hrun
      split at hrun
      · obtain rfl := Except.ok.inj hrun
        exact ⟨rfl, hset rfl rfl⟩
      · obtain rfl := Except.ok.inj hrun
        exact ⟨rfl, fun _ => rfl⟩
    · obtain rfl := Except.ok.inj hrun
      exact ⟨rfl, hset rfl rfl⟩

end Calls

/-! ## What the users see -/

section Users

variable {env : Env} {s s' : Sys} {f f' : SpanPlace → List SpanPtr} {b : Block} {p q : Process}
  {t : Tid} {n : Option Nat} {a : Nat} {v : BlockStore.Store Tid UInt8} {mem : Memory}

theorem SysInv.extent_pos (hi : SysInv .base env s f) (hb : b ∈ s.live) :
    0 < b.extent s.heap := by
  rcases hi.block_cases hb with ⟨-, i, -, he⟩ | ⟨hs, hu, -⟩
  · have hpos := indexToSize_pos i
    omega
  · have hpos := (hi.heap.pages.owned hu).pos
    rw [Block.extent, if_neg hs]
    omega

/-- Live blocks have different addresses. -/
theorem SysInv.ptr_pairwise (hi : SysInv .base env s f) :
    s.live.Pairwise fun b b' => b.ptr ≠ b'.ptr := by
  refine hi.nonOverlap.blocks.imp_of_mem fun {b b'} hb hb' hno e => ?_
  have h1 := hi.extent_pos hb
  have h2 := hi.extent_pos hb'
  exact hno ⟨b.ptr, le_rfl, by omega, by omega, by omega⟩

/-- The bytes in the blocks of the users. -/
theorem SysInv.live_iff (hi : SysInv .base env s f) (hsize : v.size = blockSize s.live) :
    v.Live a ↔ ∃ b ∈ s.live, b.ptr ≤ a ∧ a < b.ptr + b.size := by
  simp only [BlockStore.Store.Live, hsize, blockSize_eq_some hi.ptr_pairwise]
  constructor
  · rintro ⟨_, _, ⟨b, hb, rfl, rfl⟩, h1, h2⟩
    exact ⟨b, hb, h1, h2⟩
  · rintro ⟨b, hb, h1, h2⟩
    exact ⟨_, _, ⟨b, hb, rfl, rfl⟩, h1, h2⟩

/-- What the call that goes on, or returns, shows. -/
theorem Proceeds.shown (h : Proceeds t n s s') (hi : SysInv .base env s f)
    (hi' : SysInv .base env s' f') (hfit : ∀ b ∈ s'.live, b.size ≤ b.extent s'.heap)
    (hsize : v.size = blockSize s.live) (hother : ∀ u, u ≠ t → v.asked u = askedFor (s.pc u))
    (ht : v.asked t = n) (hkept : ∀ a, v.Live a → v.byte a = mem a) :
    ∃ w, Shown BlockStore.Step v (handed t s s') w ∧
      w.Agrees ⟨blockSize s'.live, mem, fun u => askedFor (s'.pc u)⟩ := by
  obtain ⟨hothers, ⟨hlive, hn⟩ | ⟨b, hlive, hn, hnone⟩⟩ := h
  · have hshow : handed t s s' = [] := by
      rw [handed, hlive, Nat.sub_self]
      rfl
    rw [hshow]
    refine ⟨v, .refl, hsize.trans (by rw [hlive]), ?_, hkept⟩
    funext u
    by_cases hu : u = t
    · subst hu
      exact ht.trans hn.symm
    · exact (hother u hu).trans (congrArg askedFor (hothers u hu).symm)
  · have hshow : handed t s s' = [.give t b.ptr] := by
      rw [handed, hlive, List.length_cons, Nat.add_sub_cancel_left]
      rfl
    rw [hshow]
    have hb : b ∈ s'.live := hlive ▸ List.mem_cons_self
    have hnew : v.Free b.ptr b.size := by
      refine ⟨?_, fun a h1 h2 hold => ?_⟩
      · have hptr := hi'.ptr_pairwise
        rw [hlive, List.pairwise_cons] at hptr
        rw [hsize]
        exact blockSize_eq_none fun b' hb' => (hptr.1 b' hb').symm
      · obtain ⟨b', hb', h3, h4⟩ := (hi.live_iff hsize).mp hold
        have hno := hi'.nonOverlap.blocks
        rw [hlive, List.pairwise_cons] at hno
        have h5 := hfit b hb
        have h6 := hfit b' (hlive ▸ List.mem_cons_of_mem _ hb')
        exact hno.1 b' hb' ⟨a, h1, by omega, h3, by omega⟩
    refine ⟨_, .single (.give (ht.trans hn) hnew fun a ha => (hkept a ha).symm), ?_, ?_, ?_⟩
    · rw [hlive, blockSize_cons, hsize]
    · funext u
      by_cases hu : u = t
      · subst hu
        exact (Function.update_self ..).trans hnone.symm
      · refine (Function.update_of_ne hu ..).trans ?_
        exact (hother u hu).trans (congrArg askedFor (hothers u hu).symm)
    · exact fun a _ => rfl

/-- A request for a block that is not small is made by `tc_malloc` itself. -/
theorem PcOk.askedFor_le {h : Heap} {pc : Pc} {size : Nat} (hpc : PcOk h pc)
    (hasked : askedFor pc = some size) : size ≤ THRESHALLOC := by
  have hclass {i : Nat} (hcall : CallerOk i (.allocate size)) : size ≤ THRESHALLOC := by
    obtain ⟨hi, -, hle⟩ := sizeClass_ok hcall
    exact hle.trans (indexToSize_le hi)
  cases pc with
  | fetch k i num | refill k i num =>
    cases k with
    | threadInit => cases hasked
    | allocate => cases hasked; exact hclass hpc.2.2
  | carve k i num S =>
    cases k with
    | threadInit => cases hasked
    | allocate => cases hasked; exact hclass hpc.2.2.1
  | insert k i batch =>
    cases k with
    | threadInit => cases hasked
    | allocate => cases hasked; exact hclass hpc.2.1
  | _ => cases hasked

/-- A large block has the bytes that were asked for, if the request is served with enough pages. -/
theorem malloc_fits {size : Nat} (hs : env.Succeeds) (hi : SysInv .base env s f)
    (hlarge : THRESHALLOC < size) (hfits : Fits s.heap size)
    (hrun : tcMalloc env s t size = .ok s') (hlive : s'.live = b :: s.live) :
    b.size ≤ b.extent s'.heap := by
  rw [tcMalloc, if_neg (by omega)] at hrun
  obtain ⟨⟨S, h⟩, hfetch, hret⟩ := bind_eq_ok hrun
  obtain rfl := Except.ok.inj hret
  obtain rfl : b = ⟨h.start S, size, S⟩ := (List.cons.inj hlive).1.symm
  have hpos := bytesToPages_pos hlarge
  have hpages := (fetchSpan_pages hs hi.heap hi.inMap hpos).of_ok hfetch
  have hbig : ¬ (⟨h.start S, size, S⟩ : Block).Small := not_le.mpr hlarge
  rw [Block.extent, if_neg hbig]
  exact ((fits_iff hlarge).mpr hfits).trans_eq (by rw [← hpages]; rfl)

/-- The blocks that were live keep their size; so does the new one. -/
theorem Proceeds.fits (h : Proceeds t n s s') (hi' : SysInv .base env s' f')
    (hold : ∀ b ∈ s.live, b.size ≤ b.extent s'.heap)
    (hlarge : ∀ b, s'.live = b :: s.live → n = some b.size → ¬ b.Small →
      b.size ≤ b.extent s'.heap) : ∀ b ∈ s'.live, b.size ≤ b.extent s'.heap := by
  obtain ⟨-, ⟨hlive, -⟩ | ⟨b, hlive, hn, -⟩⟩ := h
  · rwa [hlive]
  · intro b' hb'
    by_cases hsmall : b'.Small
    · exact hi'.small_fits hb' hsmall
    · rw [hlive] at hb'
      rcases List.mem_cons.mp hb' with rfl | hb'
      · exact hlarge _ hlive hn hsmall
      · exact hold b' hb'

theorem Proceeds.subset (h : Proceeds t n s s') : s.live ⊆ s'.live := by
  obtain ⟨-, ⟨hlive, -⟩ | ⟨b, hlive, -⟩⟩ := h
  · rw [hlive]
    exact fun _ hb => hb
  · rw [hlive]
    exact fun _ hb => List.mem_cons_of_mem _ hb

/-- The process in a state that the users know as `v`. -/
structure Process.Seen (env : Env) (p : Process) (v : BlockStore.Store Tid UInt8) : Prop where
  inv : ProcessInv env p
  fits : ∀ b ∈ p.sys.live, b.size ≤ b.extent p.sys.heap
  agrees : v.Agrees p.store

/-- Bytes in the blocks that stay live keep their value over a call. -/
theorem Process.Seen.kept {e : TcMalloc.Event} {m : Image} (hs : env.Succeeds) (h : p.Seen env v)
    (hmet : FetchMet p.sys e) (sys : TcMalloc.Step env p.sys e s)
    (image : p.image.step p.sys e = .ok m) (hfit : ∀ b ∈ s.live, b.size ≤ b.extent s.heap)
    (hb : b ∈ p.sys.live) (hb' : b ∈ s.live) (h1 : b.ptr ≤ a) (h2 : a < b.ptr + b.size) :
    v.byte a = m.mem a := by
  obtain ⟨f, hi⟩ := h.inv.sys
  have hsame := h.agrees.byte a ((hi.live_iff h.agrees.size).mpr ⟨b, hb, h1, h2⟩)
  exact hsame.trans (h.inv.call_bytes hs hmet sys image ⟨hb, h.fits b hb⟩ ⟨hb', hfit b hb'⟩
    h1 h2).symm

/-- A call that goes on, or returns. -/
theorem Process.Seen.proceeds {e : TcMalloc.Event} {m : Image} {v' : BlockStore.Store Tid UInt8}
    (hs : env.Succeeds) (h : p.Seen env v) (hmet : FetchMet p.sys e)
    (sys : TcMalloc.Step env p.sys e s) (image : p.image.step p.sys e = .ok m)
    (hfree : ∀ ptr, e.2 ≠ .free ptr) (hcall : Proceeds t n p.sys s)
    (hlarge : ∀ b, s.live = b :: p.sys.live → n = some b.size → ¬ b.Small →
      b.size ≤ b.extent s.heap)
    (hv' : v' = { v with asked := Function.update v.asked t n }) :
    ∃ w, Process.Seen env ⟨s, m⟩ w ∧ Shown BlockStore.Step v' (handed t p.sys s) w := by
  obtain ⟨f, hi⟩ := h.inv.sys
  have hinv : ProcessInv env ⟨s, m⟩ := h.inv.step (e := .call e) hs hmet (.call sys image)
  obtain ⟨f', hi'⟩ := hinv.sys
  have hfit : ∀ b ∈ s.live, b.size ≤ b.extent s.heap := by
    refine hcall.fits hi' (fun b hb => ?_) hlarge
    exact (hi.fits_step hs hi' hmet sys (fun ptr he => absurd he (hfree ptr)) hb (h.fits b hb)).2
  have hsize : v'.size = blockSize p.sys.live := by
    rw [hv']
    exact h.agrees.size
  have hother (u) (hu : u ≠ t) : v'.asked u = askedFor (p.sys.pc u) := by
    rw [hv']
    exact (Function.update_of_ne hu ..).trans (congrFun h.agrees.asked u)
  have hpending : v'.asked t = n := by
    rw [hv']
    exact Function.update_self ..
  have hkept (a) (ha : v'.Live a) : v'.byte a = m.mem a := by
    obtain ⟨b, hb, h1, h2⟩ := (hi.live_iff hsize).mp ha
    have hbyte := h.kept hs hmet sys image hfit hb (hcall.subset hb) h1 h2
    rw [hv']
    exact hbyte
  obtain ⟨w, hshown, hagrees⟩ := hcall.shown hi hi' hfit hsize hother hpending hkept
  exact ⟨w, ⟨hinv, hfit, hagrees⟩, hshown⟩

/-- `tc_free` -/
theorem Process.Seen.freed {ptr : Nat} {m : Image} (hs : env.Succeeds) (h : p.Seen env v)
    (sys : TcMalloc.Step env p.sys (t, .free ptr) s)
    (image : p.image.step p.sys (t, .free ptr) = .ok m) :
    ∃ w, Process.Seen env ⟨s, m⟩ w ∧ Shown BlockStore.Step v [.free ptr] w := by
  obtain ⟨f, hi⟩ := h.inv.sys
  have hmet : FetchMet p.sys (t, .free ptr) := trivial
  have hinv : ProcessInv env ⟨s, m⟩ := h.inv.step (e := .call (t, .free ptr)) hs hmet
    (.call sys image)
  obtain ⟨f', hi'⟩ := hinv.sys
  obtain ⟨hready, b, hb, hptr⟩ := Enabled.free_ready sys.1
  obtain ⟨hlive, hasked⟩ := free_proceeds hready sys.2
  have hsize : Function.update v.size ptr none = blockSize s.live := by
    rw [hlive, blockSize_eraseP hi.ptr_pairwise, ← h.agrees.size.symm]
    rfl
  have hsub {b : Block} (hb : b ∈ s.live) : b ∈ p.sys.live := by
    rw [hlive] at hb
    exact List.mem_of_mem_eraseP hb
  have hfit : ∀ b ∈ s.live, b.size ≤ b.extent s.heap := by
    intro b hb
    refine (hi.fits_step hs hi' hmet sys (fun q hq => ?_) (hsub hb) (h.fits b (hsub hb))).2
    obtain rfl : ptr = q := by cases hq; rfl
    rintro rfl
    -- the block at `ptr` is gone
    have hsome := (blockSize_eq_some hi'.ptr_pairwise).mpr ⟨b, hb, rfl, rfl⟩
    rw [← hsize, Function.update_self] at hsome
    cases hsome
  have hblock : v.size ptr = some b.size := by
    rw [h.agrees.size]
    exact (blockSize_eq_some hi.ptr_pairwise).mpr ⟨b, hb, hptr, rfl⟩
  refine ⟨_, ⟨hinv, hfit, hsize, ?_, fun a ha => ?_⟩, .single (.free hblock)⟩
  · exact h.agrees.asked.trans (funext fun u => (hasked u).symm)
  · obtain ⟨b, hb, h1, h2⟩ := (hi'.live_iff hsize).mp ha
    have hbyte := h.kept hs hmet sys image hfit (hsub hb) hb h1 h2
    exact hbyte

/-- A thread that asks for nothing new. -/
theorem Process.Seen.asked_self (h : p.Seen env v) (t : Tid) :
    v = { v with asked := Function.update v.asked t (askedFor (p.sys.pc t)) } := by
  have hasked : askedFor (p.sys.pc t) = v.asked t := (congrFun h.agrees.asked t).symm
  rw [hasked, Function.update_eq_self]

/-- Each step of the process is a run of the store. -/
theorem Process.seen_simulates (hs : env.Succeeds) :
    Simulates (Process.Seen env) (Process.Shows env) BlockStore.Step := by
  rintro p q v ds h ⟨e, ⟨hmet, hlarge⟩, hstep, rfl⟩
  obtain ⟨f, hi⟩ := h.inv.sys
  cases hstep with
  | @call e s m sys image =>
    obtain ⟨t, act⟩ := e
    have hfetch : FetchMet p.sys (t, act) := hmet
    cases act with
    | init =>
      have hpc : askedFor (p.sys.pc t) = none := by
        have hen := sys.1
        simp only [Enabled] at hen
        cases hpc : p.sys.pc t with
        | start => rfl
        | _ => rw [hpc] at hen; exact hen.elim
      have hlive : s.live = p.sys.live := by
        obtain rfl := Except.ok.inj sys.2
        rfl
      have hcall : Proceeds t (askedFor (p.sys.pc t)) p.sys s := by
        obtain rfl := Except.ok.inj sys.2
        exact Proceeds.goesOn rfl rfl hpc.symm
      obtain ⟨w, hw, hshown⟩ := h.proceeds hs hfetch sys image (fun _ => by simp) hcall
        (fun b hb => absurd (hlive.symm.trans hb) (List.cons_ne_self _ _).symm) (h.asked_self t)
      refine ⟨w, hw, ?_⟩
      rwa [handed, hlive, Nat.sub_self, List.take_zero, List.map_nil] at hshown
    | malloc size =>
      have hpc : v.asked t = none := by
        rw [h.agrees.asked]
        simp only [Process.store, Enabled.malloc_ready sys.1, askedFor]
      obtain ⟨w, hw, hshown⟩ := h.proceeds hs hfetch sys image (fun _ => by simp)
        (malloc_proceeds sys.2) (fun b hb hn hbig => by
          obtain rfl := Option.some.inj hn
          have hlt : THRESHALLOC < b.size := not_le.mp hbig
          exact malloc_fits hs hi hlt (hlarge t _ rfl hlt) sys.2 hb) rfl
      exact ⟨w, hw, (Shown.single (.ask hpc)).trans hshown⟩
    | free ptr => exact h.freed hs sys image
    | run =>
      refine h.proceeds hs hfetch sys image (fun _ => by simp) (continueCall_proceeds sys.2)
        (fun b hb hn hbig => ?_) (h.asked_self t)
      exact absurd ((hi.threads.pcOk t).askedFor_le hn) hbig
  | @write a x may =>
    have hinv := h.inv.step (e := .write a x) hs trivial (.write may)
    by_cases hblock : ∃ b ∈ p.sys.live, b.ptr ≤ a ∧ a < b.ptr + b.size
    · rw [Process.deeds, if_pos hblock]
      have ha : v.Live a := (hi.live_iff h.agrees.size).mpr hblock
      refine ⟨{ v with byte := Function.update v.byte a x },
        ⟨hinv, h.fits, h.agrees.size, h.agrees.asked, fun a' ha' => ?_⟩, .single (.write ha)⟩
      by_cases he : a' = a
      · subst he
        have hnew : Function.update p.image.mem a' x a' = x := Function.update_self ..
        exact (Function.update_self ..).trans hnew.symm
      · have hold : Function.update p.image.mem a x a' = p.image.mem a' :=
          Function.update_of_ne he ..
        exact (Function.update_of_ne he ..).trans ((h.agrees.byte a' ha').trans hold.symm)
    · rw [Process.deeds, if_neg hblock]
      refine ⟨v, ⟨hinv, h.fits, h.agrees.size, h.agrees.asked, fun a' ha' => ?_⟩, .refl⟩
      have hne : a' ≠ a := by
        rintro rfl
        exact hblock ((hi.live_iff h.agrees.size).mp ha')
      have hold : Function.update p.image.mem a x a' = p.image.mem a' :=
        Function.update_of_ne hne ..
      exact (h.agrees.byte a' ha').trans hold.symm

/-- The process is an allocator: from any state in which the live blocks have their bytes, what the
users see of a run, in any order of the threads' steps, is what a run of `BlockStore` shows them. -/
theorem shows_store (hs : env.Succeeds) (hr : p.Reachable env)
    (hfit : ∀ b ∈ p.sys.live, b.size ≤ b.extent p.sys.heap) {ds : List (BlockStore.Deed Tid UInt8)}
    (hrun : Shown (Process.Shows env) p ds q) :
    ∃ v, v.Agrees q.store ∧ Shown BlockStore.Step p.store ds v := by
  have hseen : p.Seen env p.store := ⟨hr.inv hs, hfit, rfl, rfl, fun _ _ => rfl⟩
  obtain ⟨v, hv, hshown⟩ := (Process.seen_simulates hs).shown hseen hrun
  exact ⟨v, hv.agrees, hshown⟩

/-- A process asks for a block, writes to it and frees it. -/
theorem shows_store_machine : ∃ p q v, Process.Reachable machine p ∧
    Shown (Process.Shows machine) p
      [.ask 0 32768, .give 0 191467520, .write 191467520 65, .free 191467520] q ∧
    v.Agrees q.store ∧ Shown BlockStore.Step p.store
      [.ask 0 32768, .give 0 191467520, .write 191467520 65, .free 191467520] v := by
  obtain ⟨s, s₁, s₂, hr, hs, hmalloc, hpc, hlive, hfree⟩ := machine_freed
  have hmet : FetchMet s (0, .malloc 32768) := fun h => absurd h (by decide)
  obtain ⟨m, hp⟩ := Process.exists_of_reachable (fun _ => 0) machine_succeeds hr
  -- the block
  obtain ⟨⟨f, hi⟩, hshows⟩ := hp.inv machine_succeeds
  obtain ⟨m₁, himage₁, -⟩ := step_mirrored machine_succeeds hi hshows hmet hmalloc
  have hserves : Process.Serves ⟨s, m⟩ (.call (0, .malloc 32768)) := by
    refine ⟨hmet, fun t size he hlt => ?_⟩
    obtain rfl : 32768 = size := by cases he; rfl
    exact absurd hlt (by decide)
  have hhanded : handed 0 s s₁ = [.give 0 191467520] := by
    rw [handed, hlive, hs.live]
    rfl
  have hcall : Process.Step machine ⟨s, m⟩ (.call (0, .malloc 32768)) ⟨s₁, m₁⟩ :=
    .call hmalloc himage₁
  have hask : Process.Shows machine ⟨s, m⟩ [.ask 0 32768, .give 0 191467520] ⟨s₁, m₁⟩ :=
    ⟨_, hserves, hcall, by rw [Process.deeds, hhanded]⟩
  -- a byte of it
  have hmet' : Process.Met ⟨s, m⟩ (.call (0, .malloc 32768)) := hmet
  have hinv₁ := (hp.inv machine_succeeds).step machine_succeeds hmet' hcall
  obtain ⟨f₁, hi₁⟩ := hinv₁.sys
  have hb : (⟨191467520, 32768, s.origin 191467520⟩ : Block) ∈ s₁.live := by
    rw [hlive]
    exact List.mem_cons_self
  have hpos := hi₁.extent_pos hb
  have hsize : 0 < 32768 := by decide
  have hstore : Process.Step machine ⟨s₁, m₁⟩ (.write 191467520 65)
      ⟨s₁, { m₁ with mem := Function.update m₁.mem 191467520 65 }⟩ :=
    .write (.inl ⟨_, hb, Nat.le_refl _, Nat.lt_add_of_pos_right hpos⟩)
  have hwrite : Process.Shows machine ⟨s₁, m₁⟩ [.write 191467520 65]
      ⟨s₁, { m₁ with mem := Function.update m₁.mem 191467520 65 }⟩ := by
    refine ⟨.write 191467520 65, ⟨trivial, fun t size he => by cases he⟩, hstore, ?_⟩
    rw [Process.deeds, if_pos ⟨_, hb, Nat.le_refl _, Nat.lt_add_of_pos_right hsize⟩]
  -- and the way back
  have hmetw : Process.Met ⟨s₁, m₁⟩ (.write 191467520 65) := trivial
  obtain ⟨-, hshows₁⟩ := hinv₁.step machine_succeeds hmetw hstore
  have hmet₁ : FetchMet s₁ (0, .free 191467520) := trivial
  obtain ⟨m₂, himage₂, -⟩ := step_mirrored machine_succeeds hi₁ hshows₁ hmet₁ hfree
  have hback : Process.Shows machine ⟨s₁, { m₁ with mem := Function.update m₁.mem 191467520 65 }⟩
      [.free 191467520] ⟨s₂, m₂⟩ :=
    ⟨.call (0, .free 191467520), ⟨hmet₁, fun t size he => by cases he⟩, .call hfree himage₂, rfl⟩
  have hrun := ((Shown.single hask).tail hwrite).tail hback
  obtain ⟨v, hv, hshown⟩ := shows_store machine_succeeds hp
    (fun b hb => absurd hb (by rw [hs.live]; exact List.not_mem_nil)) hrun
  exact ⟨_, _, v, hp, hrun, hv, hshown⟩

end Users

end SearchEngine.TcMalloc
