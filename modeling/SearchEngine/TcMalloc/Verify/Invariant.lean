import SearchEngine.TcMalloc.Verify.Flush
import SearchEngine.TcMalloc.System

/-!
# The invariant of the process

`SysInv d env s f`: with the spans in the places `f`, the shared state keeps `HeapInv`,
the spans in the hands of the threads and of the user are those that the program
counters and the live blocks name, and every object of every span of the central cache
is in exactly one place (`objsAt`), where it belongs.
-/

namespace SearchEngine.TcMalloc

open LinkedRing Placement Outcome

/-! ## Places of objects -/

/-- Where an object is: on the free list of a span, in a thread cache, in the batch a
thread carries between two critical sections, or with the user. -/
inductive ObjPlace where
  | span (s : SpanPtr)
  | cache (t i : Nat)
  | hand (t : Nat)
  | live
  deriving DecidableEq

/-- The objects a thread carries. -/
def handObjs : Pc → List Nat
  | .insert _ _ batch => batch
  | .flush batch _ => batch
  | _ => []

/-- The spans a thread carries. -/
def handSpans : Pc → List SpanPtr
  | .carve _ _ _ span => [span]
  | .recycle span => [span]
  | .freeLarge span => [span]
  | _ => []

/-- The block is an object of a span. -/
def Block.Small (b : Block) : Prop := b.size ≤ THRESHALLOC

instance (b : Block) : Decidable b.Small := inferInstanceAs (Decidable (b.size ≤ THRESHALLOC))

/-- The live objects. -/
def smallPtrs (live : List Block) : List Nat := (live.filter fun b => b.Small).map Block.ptr

/-- The spans with the user. -/
def largeSpans (live : List Block) : List SpanPtr :=
  (live.filter fun b => ¬ b.Small).map Block.span

/-- The objects in each place. -/
def objsAt (s : Sys) : ObjPlace → List Nat
  | .span S => s.heap.objs S
  | .cache t i => (s.cache t i).objs
  | .hand t => handObjs (s.pc t)
  | .live => smallPtrs s.live

/-- `o` is an object of `S`, a span of class `i` in the central cache. -/
def IsObj (h : Heap) (f : SpanPlace → List SpanPtr) (i : Nat) (S : SpanPtr) (o : Nat) : Prop :=
  InClass f i S ∧ ObjOf h S i o

/-- The class of the objects a thread carries. -/
def HandClass : Pc → Nat → Prop
  | .insert _ index _, i => index = i
  | .flush _ nbytes, i => nbytes = indexToSize i
  | _, _ => False

/-- The object `o` belongs in its place. -/
def Sound (s : Sys) (f : SpanPlace → List SpanPtr) : ObjPlace → Nat → Prop
  | .span S, o => ∃ i, IsObj s.heap f i S o
  | .cache _ i, o => IsObj s.heap f i (s.origin o) o
  | .hand t, o => ∃ i, HandClass (s.pc t) i ∧ IsObj s.heap f i (s.origin o) o
  | .live, o => ∃ i, IsObj s.heap f i (s.origin o) o

/-- The objects are in their places. -/
structure ObjInv (s : Sys) (f : SpanPlace → List SpanPtr) : Prop where
  placed : Placed (objsAt s)
  sound : ∀ {p o}, o ∈ objsAt s p → Sound s f p o
  cover : ∀ {i S o}, IsObj s.heap f i S o → ∃ p, o ∈ objsAt s p
  block : ∀ {b}, b ∈ s.live → b.Small → b.span = s.origin b.ptr ∧
    ∃ i, IsObj s.heap f i b.span b.ptr ∧ b.size ≤ indexToSize i

/-! ## Threads -/

/-- `init_threadlist` has been called on list `j` of the thread. -/
def Begun : Pc → Nat → Prop
  | .start, _ => False
  | .initLoop i, j => j < i
  | .fetch (.threadInit i) _ _, j => j ≤ i
  | .refill (.threadInit i) _ _, j => j ≤ i
  | .carve (.threadInit i) _ _ _, j => j ≤ i
  | .insert (.threadInit i) _ _, j => j ≤ i
  | _, _ => True

/-- The thread holds `centralcache_lock`. -/
def HoldsLock : Pc → Prop
  | .refill .. | .carve .. | .recycle .. => True
  | _ => False

/-- The function that called `fetch_from_centralcache(index)` asked for the class
`index`. -/
def CallerOk (index : Nat) : Caller → Prop
  | .threadInit i => i = index
  | .allocate nbytes => sizeClass nbytes = .ok index

/-- What a thread knows of its call. -/
def PcOk (h : Heap) : Pc → Prop
  | .fetch k index num | .refill k index num => index < CLASSES ∧ 0 < num ∧ CallerOk index k
  | .carve k index num span =>
    index < CLASSES ∧ 0 < num ∧ CallerOk index k ∧ h.pageSize span = BATCH
  | .insert k index batch => index < CLASSES ∧ CallerOk index k ∧ batch ≠ []
  | .flush batch nbytes => batch ≠ [] ∧ ∃ i, i < CLASSES ∧ nbytes = indexToSize i
  | _ => True

/-- The threads are where their program counters say. -/
structure ThreadInv (s : Sys) : Prop where
  lock : ∀ t, HoldsLock (s.pc t) ↔ s.centralLock = some t
  pcOk : ∀ t, PcOk s.heap (s.pc t)
  begun : ∀ t j, j < CLASSES → Begun (s.pc t) j → 1 ≤ (s.cache t j).maxLength
  fresh : ∀ t j, ¬ Begun (s.pc t) j → (s.cache t j).objs = []

/-- The spans outside the lists are with the threads and with the user. -/
structure HandInv (d : Discipline) (s : Sys) (f : SpanPlace → List SpanPtr) : Prop where
  hand : ∀ t, f (.hand t) = handSpans (s.pc t)
  user : (f .user).Perm (largeSpans s.live)
  block : ∀ {b}, b ∈ s.live → ¬ b.Small → b.ptr = s.heap.start b.span
  tag : d.tags → ∀ S ∈ f .user, s.heap.loc S = .isolated

/-- The invariant of the process. -/
structure SysInv (d : Discipline) (env : Env) (s : Sys) (f : SpanPlace → List SpanPtr) : Prop where
  heap : HeapInv d env s.heap f
  inMap : InMap env s.heap
  hands : HandInv d s f
  objs : ObjInv s f
  threads : ThreadInv s

/-! ## Small facts -/

@[simp] theorem objsAt_setCache (s : Sys) (t i : Nat) (l : ThreadList) :
    objsAt (s.setCache t i l) = Function.update (objsAt s) (.cache t i) l.objs := by
  funext p
  cases p with
  | cache t' i' =>
    by_cases ht : t' = t
    · subst ht
      by_cases hi : i' = i
      · subst hi; simp [objsAt, Sys.setCache]
      · simp [objsAt, Sys.setCache, hi]
    · simp [objsAt, Sys.setCache, ht]
  | _ => simp [objsAt, Sys.setCache]

@[simp] theorem objsAt_setPc (s : Sys) (t : Nat) (pc : Pc) :
    objsAt (s.setPc t pc) = Function.update (objsAt s) (.hand t) (handObjs pc) := by
  funext p
  cases p with
  | hand t' =>
    by_cases ht : t' = t
    · subst ht; simp [objsAt, Sys.setPc]
    · simp [objsAt, Sys.setPc, ht]
  | _ => simp [objsAt, Sys.setPc]

@[simp] theorem objsAt_live (s : Sys) (live : List Block) :
    objsAt { s with live := live } = Function.update (objsAt s) .live (smallPtrs live) := by
  funext p
  cases p <;> simp [objsAt]

@[simp] theorem smallPtrs_cons (b : Block) (live : List Block) :
    smallPtrs (b :: live) = if b.Small then b.ptr :: smallPtrs live else smallPtrs live := by
  by_cases hb : b.Small <;> simp [smallPtrs, hb]

@[simp] theorem largeSpans_cons (b : Block) (live : List Block) :
    largeSpans (b :: live) = if b.Small then largeSpans live else b.span :: largeSpans live := by
  by_cases hb : b.Small <;> simp [largeSpans, hb]

end SearchEngine.TcMalloc
