import SearchEngine.TcMalloc.Verify.Accounting

/-!
# A batch and its objects one by one

`return_objs_to_centralcache` looks at the span of the last object only. `returnCall_spec`
says where a call leaves the spans, and `returnEach_spec` where the calls for the single
objects leave them; `batch_alike` compares the two. A span whose tag is stale is taken
off the idle list that it is not on, and when it is returned to twice in a row, the list
behind it is cut off.
-/

namespace SearchEngine.TcMalloc

open LinkedRing Placement Outcome Reach

/-- `return_objs_to_centralcache`. It keeps `centralcache_lock` all the time, and nothing
that it reads is changed by others between its two parts. -/
def returnObjsToCentralcache (nbytes : Nat) (start : List Nat) (h : Heap) : Except Fault Heap := do
  match ← returnObjs start nbytes h with
  | (some span, h) => returnSpanToPgcache span h
  | (none, h) => .ok h

/-- `return_objs_to_centralcache` on each object of the list separately. -/
def returnEach (nbytes : Nat) : List Nat → Heap → Except Fault Heap
  | [], h => .ok h
  | obj :: next, h => do
    let h ← returnObjsToCentralcache nbytes [obj] h
    returnEach nbytes next h

/-- Objects of class `i` that are on no free list. -/
structure Outstanding (h : Heap) (i : Nat) (batch : List Nat) : Prop where
  cls : i < CLASSES
  nodup : batch.Nodup
  objects : ∀ o ∈ batch, ∃ S, h.objsSize S = indexToSize i ∧ o ∈ objectsOf h S ∧ o ∉ h.objs S

/-- The two heaps have the same free objects and reference counts in every span, and the
span is in the same place. -/
structure SameSpans (h h' : Heap) : Prop where
  objs : ∀ S o, o ∈ h.objs S ↔ o ∈ h'.objs S
  refcount : ∀ S, h.objRefcount S = h'.objRefcount S
  list : ∀ j S, OnRing h.next (h.list j) S ↔ OnRing h'.next (h'.list j) S
  idle : ∀ j S, OnRing h.next (h.idle j) S ↔ OnRing h'.next (h'.idle j) S
  page : ∀ S, InPageHeap h S ↔ InPageHeap h' S

/-- The batch has the effect of its objects returned one by one. -/
def BatchAlike (h : Heap) (i : Nat) (batch : List Nat) : Prop :=
  ∃ h₁ h₂, returnObjsToCentralcache (indexToSize i) batch h = .ok h₁ ∧
    returnEach (indexToSize i) batch h = .ok h₂ ∧ SameSpans h₁ h₂

/-! ## Lists of spans with stale tags -/

/-- The part of `t` from the last repetition on; `head` comes before the first element. -/
def sinceRepeat : Option SpanPtr → List SpanPtr → Option (List SpanPtr)
  | _, [] => none
  | head, S :: t =>
    match sinceRepeat (some S) t with
    | some u => some u
    | none => if head = some S then some (S :: t) else none

/-- The list `l` after the spans in `t`, all with the tag of an idle span, have been taken off
and put back in turn. -/
def relisted (l : List SpanPtr) : List SpanPtr → List SpanPtr
  | [] => l
  | S :: t => relisted (S :: keptBehind S l) t

/-- The span `z` put back once, and the spans in `t` put back in turn, leave the same spans on the
list, `z` apart if it is `gone`: nothing is cut off and what is put back has been on the list, or
what has been on the list is put back after the last cut. -/
def ListAlike (onList : SpanPtr → Prop) (head : Option SpanPtr) (t : List SpanPtr) (z : SpanPtr)
    (tagged gone : Prop) : Prop :=
  match sinceRepeat head t with
  | none => ¬ (tagged ∧ head = some z) ∧ ∀ S ∈ t, S = z ∨ onList S
  | some u => (tagged ∧ head = some z → ∀ S ∈ u, S = z) ∧
      (¬ (tagged ∧ head = some z) →
        (∀ S ∈ u, S = z ∨ onList S) ∧ ∀ S, onList S → S ∈ u ∨ (S = z ∧ gone))

section Lists

variable {l t t' u : List SpanPtr} {S z : SpanPtr}

theorem relisted_append (l t t' : List SpanPtr) :
    relisted l (t ++ t') = relisted (relisted l t) t' := by
  induction t generalizing l with
  | nil => rfl
  | cons S t ih =>
    rw [List.cons_append, relisted, relisted]
    exact ih _

/-- Only what has been put back since the last repetition is on the list. -/
theorem mem_relisted (l t : List SpanPtr) (S : SpanPtr) :
    S ∈ relisted l t ↔ match sinceRepeat l.head? t with
      | some u => S ∈ u
      | none => S ∈ l ∨ S ∈ t := by
  induction t generalizing l with
  | nil =>
    unfold relisted sinceRepeat
    simp
  | cons X t ih =>
    rw [relisted, ih, sinceRepeat, List.head?_cons]
    cases sinceRepeat (some X) t with
    | some u => exact Iff.rfl
    | none =>
      simp only
      by_cases hhead : l.head? = some X
      · rw [if_pos hhead, keptBehind, if_pos hhead, List.mem_cons, List.mem_cons]
        simp
      · rw [if_neg hhead, keptBehind, if_neg hhead, List.mem_cons, List.mem_cons]
        by_cases hSX : S = X
        · simp [hSX]
        · rw [List.mem_erase_of_ne hSX]
          simp [hSX]

theorem mem_of_sinceRepeat {head : Option SpanPtr} (hu : sinceRepeat head t = some u) (hS : S ∈ u) :
    S ∈ t := by
  induction t generalizing head with
  | nil => cases hu
  | cons X t ih =>
    unfold sinceRepeat at hu
    cases hr : sinceRepeat (some X) t with
    | some v =>
      rw [hr] at hu
      exact List.mem_cons_of_mem _ (ih (hr.trans hu))
    | none =>
      rw [hr] at hu
      simp only at hu
      split_ifs at hu
      rwa [Option.some.inj hu]

/-- The last element is put back after every repetition. -/
theorem getLast_mem_sinceRepeat {head : Option SpanPtr}
    (hu : sinceRepeat head (t ++ [z]) = some u) :
    z ∈ u := by
  induction t generalizing head with
  | nil =>
    unfold sinceRepeat sinceRepeat at hu
    simp only [List.nil_append] at hu
    split_ifs at hu
    rw [← Option.some.inj hu]
    exact List.mem_singleton_self z
  | cons X t ih =>
    rw [List.cons_append, sinceRepeat] at hu
    cases hr : sinceRepeat (some X) (t ++ [z]) with
    | some v =>
      rw [hr] at hu
      exact ih (hr.trans hu)
    | none =>
      rw [hr] at hu
      simp only at hu
      split_ifs at hu
      rw [← Option.some.inj hu]
      simp

theorem not_head_of_sinceRepeat {head : Option SpanPtr} (hu : sinceRepeat head (S :: t) = none) :
    head ≠ some S := by
  intro hhead
  unfold sinceRepeat at hu
  rw [if_pos hhead] at hu
  cases hr : sinceRepeat (some S) t <;> rw [hr] at hu <;> cases hu

theorem mem_relisted_single (l : List SpanPtr) (z S : SpanPtr) :
    S ∈ relisted l [z] ↔ S = z ∨ (l.head? ≠ some z ∧ S ∈ l) := by
  rw [mem_relisted]
  unfold sinceRepeat sinceRepeat
  simp only
  by_cases hhead : l.head? = some z
  · rw [if_pos hhead]
    simp [hhead]
  · rw [if_neg hhead]
    simp [hhead, or_comm]

/-- The last span returned to has a stale tag, or has been idle. -/
theorem relisted_tagged (l t₀ : List SpanPtr) (z : SpanPtr) (gone : Prop) :
    (∀ S, (S ∈ relisted l [z] ∧ ¬ (S = z ∧ gone)) ↔
      (S ∈ relisted l (t₀ ++ [z]) ∧ ¬ (S = z ∧ gone))) ↔
    ListAlike (· ∈ l) l.head? (t₀ ++ [z]) z True gone := by
  obtain ⟨t, ht⟩ : ∃ t, t = t₀ ++ [z] := ⟨_, rfl⟩
  have hzt : z ∈ t := by
    rw [ht]
    simp
  unfold ListAlike
  rw [← ht]
  simp only [mem_relisted_single, mem_relisted l t, true_and]
  cases hr : sinceRepeat l.head? t with
  | none =>
    simp only
    by_cases hhead : l.head? = some z
    · -- the batch cuts the list, the single objects do not
      refine ⟨fun hall => ?_, fun h => absurd hhead h.1⟩
      obtain ⟨X, r, hX⟩ := List.exists_cons_of_ne_nil (List.ne_nil_of_mem hzt)
      have hXz : X ≠ z := by
        rintro rfl
        rw [hX] at hr
        exact not_head_of_sinceRepeat hr hhead
      have hXt : X ∈ t := by
        rw [hX]
        exact List.mem_cons_self
      have hin := (hall X).mpr ⟨.inr hXt, fun h => hXz h.1⟩
      rcases hin.1 with h | h
      · exact absurd h hXz
      · exact absurd hhead h.1
    · constructor
      · intro hall
        refine ⟨hhead, fun S hS => ?_⟩
        by_cases hSz : S = z
        · exact .inl hSz
        · have hin := (hall S).mpr ⟨.inr hS, fun h => hSz h.1⟩
          exact hin.1.imp id And.right
      · rintro ⟨-, hall⟩ S
        refine and_congr_left fun _ => ⟨?_, ?_⟩
        · rintro (rfl | h)
          · exact .inr hzt
          · exact .inl h.2
        · rintro (h | h)
          · exact .inr ⟨hhead, h⟩
          · exact (hall S h).imp id fun h => ⟨hhead, h⟩
  | some u =>
    simp only
    have hzu : z ∈ u := getLast_mem_sinceRepeat (ht ▸ hr)
    by_cases hhead : l.head? = some z
    · constructor
      · intro hall
        refine ⟨fun _ S hS => ?_, fun h => absurd hhead h⟩
        by_contra hSz
        have hin := (hall S).mpr ⟨hS, fun h => hSz h.1⟩
        rcases hin.1 with h | h
        · exact hSz h
        · exact h.1 hhead
      · rintro ⟨hall, -⟩ S
        refine and_congr_left fun _ => ⟨?_, fun h => .inl (hall hhead S h)⟩
        rintro (rfl | h)
        · exact hzu
        · exact absurd hhead h.1
    · constructor
      · intro hall
        refine ⟨fun h => absurd h hhead, fun _ => ⟨fun S hS => ?_, fun S hS => ?_⟩⟩
        · by_cases hSz : S = z
          · exact .inl hSz
          · have hin := (hall S).mpr ⟨hS, fun h => hSz h.1⟩
            exact hin.1.imp id And.right
        · by_cases hSz : S = z
          · exact .inl (hSz ▸ hzu)
          · exact .inl ((hall S).mp ⟨.inr ⟨hhead, hS⟩, fun h => hSz h.1⟩).1
      · rintro ⟨-, hall⟩ S
        obtain ⟨h1, h2⟩ := hall hhead
        refine and_congr_left fun hno => ⟨?_, fun h => (h1 S h).imp id fun h => ⟨hhead, h⟩⟩
        rintro (rfl | h)
        · exact hzu
        · exact (h2 S h.2).resolve_right hno

/-- The last span returned to has a true tag, and stays where it is. -/
theorem relisted_untagged (l t : List SpanPtr) (z : SpanPtr) (gone : Prop) (hz : z ∉ t) :
    (∀ S, (S ∈ l ∧ ¬ (S = z ∧ gone)) ↔ (S ∈ relisted l t ∧ ¬ (S = z ∧ gone))) ↔
    ListAlike (· ∈ l) l.head? t z False gone := by
  unfold ListAlike
  simp only [mem_relisted, false_and, not_false_eq_true, true_and, false_implies, true_implies]
  cases hr : sinceRepeat l.head? t with
  | none =>
    simp only
    constructor
    · intro hall S hS
      have hSz : S ≠ z := fun e => hz (e ▸ hS)
      exact .inr ((hall S).mpr ⟨.inr hS, fun h => hSz h.1⟩).1
    · intro hall S
      refine and_congr_left fun _ => ⟨.inl, ?_⟩
      rintro (h | h)
      · exact h
      · exact (hall S h).resolve_left fun e => hz (e ▸ h)
  | some u =>
    simp only
    have hzu : z ∉ u := fun h => hz (mem_of_sinceRepeat hr h)
    constructor
    · intro hall
      refine ⟨fun S hS => ?_, fun S hS => ?_⟩
      · have hSz : S ≠ z := fun e => hzu (e ▸ hS)
        exact .inr ((hall S).mpr ⟨hS, fun h => hSz h.1⟩).1
      · by_cases hno : S = z ∧ gone
        · exact .inr hno
        · exact .inl ((hall S).mp ⟨hS, hno⟩).1
    · rintro ⟨h1, h2⟩ S
      refine and_congr_left fun hno => ⟨fun h => (h2 S h).resolve_right hno, fun h => ?_⟩
      exact (h1 S h).resolve_left fun e => hzu (e ▸ h)

end Lists

/-! ## One call -/

/-- The objects of the batch that belong to `S`, when `own` gives the span of each. -/
def dueTo (own : Nat → SpanPtr) (batch : List Nat) (S : SpanPtr) : List Nat :=
  batch.filter fun o => own o = S

/-- The batch holds objects of class `i`, each once and none of them free; `own` gives their
spans. -/
structure Due (h : Heap) (f : SpanPlace → List SpanPtr) (i : Nat) (own : Nat → SpanPtr)
    (batch : List Nat) : Prop where
  nodup : batch.Nodup
  inClass : ∀ o ∈ batch, InClass f i (own o)
  obj : ∀ o ∈ batch, ObjOf h (own o) i o
  busy : ∀ o ∈ batch, ∀ S, o ∉ h.objs S

/-- The span of the last object of a batch, all of whose objects are back. -/
def Gone (h : Heap) (own : Nat → SpanPtr) (batch : List Nat) (z S : SpanPtr) : Prop :=
  S = z ∧ h.objRefcount z = (dueTo own batch z).length

/-- What a call of `return_objs_to_centralcache` does, `z` being the span of the last object. -/
structure Called (env : Env) (i : Nat) (own : Nat → SpanPtr) (batch : List Nat) (z : SpanPtr)
    (f f' : SpanPlace → List SpanPtr) (h h' : Heap) : Prop where
  inv : HeapInv .base env h' f'
  free : FreeInv h' f'
  start : h'.start = h.start
  refcount : ∀ S, h'.objRefcount S + (dueTo own batch S).length = h.objRefcount S
  gone : ∀ S, Gone h own batch z S → h'.objs S = []
  objs : ∀ S, ¬ Gone h own batch z S → h'.objs S = (dueTo own batch S).reverse ++ h.objs S
  loc : ∀ S, ¬ Gone h own batch z S → h'.loc S = h.loc S
  inClass : ∀ S, InClass f' i S ↔ InClass f i S ∧ ¬ Gone h own batch z S
  other : ∀ j, j ≠ i → f' (.list j) = f (.list j) ∧ f' (.idle j) = f (.idle j)
  idle : f' (.idle i) = (f (.idle i)).erase z
  list : ∀ S, ¬ Gone h own batch z S → (S ∈ f' (.list i) ↔
    S ∈ if h.loc z = .centralIdle then z :: keptBehind z (f (.list i)) else f (.list i))
  head : h.objRefcount z ≠ (dueTo own batch z).length → f' (.list i) =
    if h.loc z = .centralIdle then z :: keptBehind z (f (.list i)) else f (.list i)
  page : ∀ S, (∃ j, S ∈ f' (.pg j)) ↔ (∃ j, S ∈ f (.pg j)) ∨ Gone h own batch z S

section Call

variable {env : Env} {h h' : Heap} {f f' : SpanPlace → List SpanPtr} {i : Nat}
  {own : Nat → SpanPtr} {batch : List Nat} {z : SpanPtr}

theorem Due.ownedBy_eq (hdue : Due h f i own batch) (hi : HeapInv .base env h f) (S : SpanPtr) :
    ownedBy h batch S = dueTo own batch S := by
  unfold ownedBy dueTo
  refine List.filter_congr fun o ho => ?_
  rw [owner_eq ((hdue.obj o ho).mapAddr hi (hdue.inClass o ho))]
  simp

/-- Fewer spans in the classes, with the same free lists. -/
theorem FreeInv.fewer (hf : FreeInv h f) (hcls : ∀ {j S}, InClass f' j S → InClass f j S)
    (hobjs : ∀ {j S}, InClass f' j S → h'.objs S = h.objs S) (hstart : h'.start = h.start) :
    FreeInv h' f' where
  nodup hS := by
    rw [hobjs hS]
    exact hf.nodup (hcls hS)
  sound hS ho := by
    rw [hobjs hS] at ho
    obtain ⟨k, hk, e⟩ := hf.sound (hcls hS) ho
    exact ⟨k, hk, by rw [hstart]; exact e⟩

/-- A span with an object outstanding keeps its place. -/
theorem Due.not_gone (hdue : Due h f i own batch) (hi : HeapInv .base env h f) (hf : FreeInv h f)
    {o : Nat} {S : SpanPtr} (hS : InClass f i S) (ho : ObjOf h S i o) (hfree : o ∉ h.objs S)
    (hnot : o ∉ batch) : h.objRefcount S ≠ (dueTo own batch S).length := by
  intro href
  -- the free objects and those of the batch would be all objects of the span
  obtain ⟨p, hp, hSp⟩ := hS
  have hS : InClass f i S := ⟨p, hp, hSp⟩
  have hcount := (hi.kinds.carved hp hSp).count
  have hnd : (dueTo own batch S ++ h.objs S).Nodup := by
    refine List.Nodup.append (hdue.nodup.filter _) (hf.nodup hS) fun x hx hxS => ?_
    exact hdue.busy x (List.mem_of_mem_filter hx) S hxS
  have hsub : o :: (dueTo own batch S ++ h.objs S) ⊆
      objsFrom (h.start S) (indexToSize i) (capacity i) := by
    intro x hx
    refine mem_objsFrom.mpr ?_
    rcases List.mem_cons.mp hx with rfl | hx
    · exact ho
    · rcases List.mem_append.mp hx with hx | hx
      · obtain ⟨hxb, hown⟩ := List.mem_filter.mp hx
        obtain rfl : own x = S := by simpa using hown
        exact hdue.obj x hxb
      · exact hf.sound hS hx
  have hnd' : (o :: (dueTo own batch S ++ h.objs S)).Nodup := by
    refine List.nodup_cons.mpr ⟨fun hx => ?_, hnd⟩
    rcases List.mem_append.mp hx with hx | hx
    · exact hnot (List.mem_of_mem_filter hx)
    · exact hfree hx
  have hlen := (List.Nodup.subperm hnd' hsub).length_le
  rw [length_objsFrom, List.length_cons, List.length_append] at hlen
  omega

theorem LeftIdle.list_eq {l : Links} (hl : LeftIdle i z f f' h l) : f' (.list i) =
    if h.loc z = .centralIdle then z :: keptBehind z (f (.list i)) else f (.list i) := by
  by_cases hloc : h.loc z = .centralIdle
  · rw [if_pos hloc]
    exact (hl.tagged hloc).1
  · rw [if_neg hloc, (hl.stays hloc).1]

theorem LeftIdle.idle_eq {l : Links} (hl : LeftIdle i z f f' h l) :
    f' (.idle i) = (f (.idle i)).erase z := by
  by_cases hloc : h.loc z = .centralIdle
  · exact (hl.tagged hloc).2
  · have hnot := hl.notIdle
    rw [(hl.stays hloc).1] at hnot ⊢
    rw [List.erase_of_not_mem hnot]

namespace ObjsBack

variable {h₁ : Heap} {f₁ : SpanPlace → List SpanPtr} {l : Links}

theorem refcount (hb : ObjsBack env i batch z f f₁ h h₁ l) (hi : HeapInv .base env h f)
    (hdue : Due h f i own batch) (S : SpanPtr) :
    h₁.objRefcount S + (dueTo own batch S).length = h.objRefcount S := by
  rw [← hdue.ownedBy_eq hi]
  exact hb.pushed.refcount S

theorem objs (hb : ObjsBack env i batch z f f₁ h h₁ l) (hi : HeapInv .base env h f)
    (hdue : Due h f i own batch) (S : SpanPtr) :
    h₁.objs S = (dueTo own batch S).reverse ++ h.objs S := by
  rw [hb.pushed.objs, hdue.ownedBy_eq hi]

/-- The span of the last object goes to the page heap when all its objects are back. -/
theorem returnCall_gone (hb : ObjsBack env i batch z f f₁ h h₁ l) (hz : h₁.objRefcount z = 0)
    {p : SpanPlace} (hp : p = .list i ∨ p = .lost i) (hzp : z ∈ f₁ p) :
    ∃ h' b, returnObjsToCentralcache (indexToSize i) batch h = .ok h' ∧
      HeapInv .base env h' (moved f₁ p (.pg b) z) ∧ h'.objs = Function.update h₁.objs z [] ∧
      h'.objRefcount = h₁.objRefcount ∧ h'.start = h₁.start ∧
      ∀ S, S ≠ z → h'.loc S = h₁.loc S := by
  have hpcls : p.cls? = some i := by rcases hp with rfl | rfl <;> rfl
  have hd : SpanPlace.user.Loose := trivial
  have hpd : p ≠ .user := SpanPlace.ne_of_loose (SpanPlace.not_loose_of_cls hpcls) hd
  obtain ⟨l', hrem, hi₂, -⟩ := recycle_spec hb.inv hp hzp hz hd
  replace hi₂ : HeapInv .base env (recycled h₁ l' z) (moved f₁ p .user z) := hi₂
  have hz₂ : z ∈ moved f₁ p .user z .user := by
    rw [moved_self]
    exact List.mem_cons_self
  obtain ⟨h₃, hret, hi₃, -, -, hobjs, -, -, href, -, hstart, hloc⟩ := returnSpan_sat hi₂ hz₂ hd
  obtain ⟨b, hb₃⟩ : ∃ b, b = bucket ((recycled h₁ l' z).pageSize z) := ⟨_, rfl⟩
  have hpb : p ≠ .pg b := by rcases hp with rfl | rfl <;> simp
  rw [← hb₃, moved_moved hpd hpb (by simp)] at hi₃
  refine ⟨h₃, b, ?_, hi₃, ?_, ?_, ?_, fun S hS => ?_⟩
  · rw [returnObjsToCentralcache, hb.gone hz l' hrem, ok_bind]
    exact hret
  · rw [hobjs, recycled]
  · rw [href, recycled]
  · rw [hstart, recycled]
  · rw [hloc S hS, recycled]

theorem called_gone (hb : ObjsBack env i batch z f f₁ h h₁ l) (hi : HeapInv .base env h f)
    (hdue : Due h f i own batch) (hz : h₁.objRefcount z = 0) :
    ∃ h' f', returnObjsToCentralcache (indexToSize i) batch h = .ok h' ∧
      Called env i own batch z f f' h h' := by
  have href := hb.refcount hi hdue
  have hgone : ∀ S, Gone h own batch z S ↔ S = z := fun S =>
    ⟨And.left, fun e => ⟨e, by have := href z; omega⟩⟩
  have hother : ∀ {p : SpanPlace}, p.cls? ≠ some i → f₁ p = f p := fun hp =>
    hb.left.moves.other _ hp
  have hp₁ := hb.left.moves.placed
  obtain ⟨p, hpp, hzp⟩ := hb.place
  have hpcls : p.cls? = some i := by rcases hpp with rfl | rfl <;> rfl
  obtain ⟨h₂, b, hrun, hi₂, hobjs₂, href₂, hstart₂, hloc₂⟩ := hb.returnCall_gone hz hpp hzp
  have hpb : p ≠ .pg b := by rcases hpp with rfl | rfl <;> simp
  obtain ⟨f₂, hf₂⟩ : ∃ f₂, f₂ = moved f₁ p (.pg b) z := ⟨_, rfl⟩
  rw [← hf₂] at hi₂
  -- where the spans are: `z` in the page heap, the others where they were
  have hmem₂ : ∀ {q S}, S ∈ f₂ q → (q = .pg b ∧ S = z) ∨ (S ≠ z ∧ S ∈ f₁ q) := by
    intro q S hS
    rw [hf₂] at hS
    exact mem_moved hp₁ hpb hzp hS
  have hin₂ : ∀ {q S}, S ≠ z → S ∈ f₁ q → S ∈ f₂ q := by
    intro q S hSz hS
    rw [hf₂]
    exact mem_moved_of_ne hpb hSz hS
  have hkeep₂ : ∀ q : SpanPlace, q ≠ p → q ≠ .pg b → f₂ q = f₁ q := by
    intro q hqp hqb
    rw [hf₂, moved_of_ne hqp hqb]
  have hclass₂ : ∀ {j S}, InClass f₂ j S ↔ InClass f₁ j S ∧ S ≠ z := by
    intro j S
    constructor
    · rintro ⟨q, hq, hS⟩
      rcases hmem₂ hS with ⟨rfl, -⟩ | ⟨hSz, hS⟩
      · cases hq
      · exact ⟨⟨q, hq, hS⟩, hSz⟩
    · rintro ⟨⟨q, hq, hS⟩, hSz⟩
      exact ⟨q, hq, hin₂ hSz hS⟩
  have hobjs : ∀ S, S ≠ z → h₂.objs S = h₁.objs S := by
    intro S hSz
    rw [hobjs₂, Function.update_of_ne hSz]
  have hnil : h₂.objs z = [] := by rw [hobjs₂, Function.update_self]
  refine ⟨h₂, f₂, hrun, ?_⟩
  constructor
  case inv => exact hi₂
  case free =>
    exact hb.pushed.free.fewer (fun h => hb.left.moves.inClass_of (hclass₂.mp h).1)
      (fun h => hobjs _ (hclass₂.mp h).2) hstart₂
  case start => exact hstart₂.trans hb.pushed.start
  case refcount =>
    intro S
    rw [href₂]
    exact href S
  case gone =>
    intro S hS
    rw [(hgone S).mp hS]
    exact hnil
  case objs =>
    intro S hS
    rw [hobjs S fun e => hS ((hgone S).mpr e), hb.objs hi hdue]
  case loc =>
    intro S hS
    rw [hloc₂ S fun e => hS ((hgone S).mpr e)]
    exact congrFun hb.pushed.loc S
  case inClass =>
    intro S
    rw [hgone, ← hb.left.moves.inClass]
    exact hclass₂
  case other =>
    intro j hj
    have hjp : ∀ q : SpanPlace, q.cls? = some j → q ≠ p := by
      rintro q hq rfl
      exact hj (Option.some.inj (hq.symm.trans hpcls))
    constructor
    · rw [hkeep₂ _ (hjp _ rfl) (by simp), hother (by simpa [SpanPlace.cls?] using hj)]
    · rw [hkeep₂ _ (hjp _ rfl) (by simp), hother (by simpa [SpanPlace.cls?] using hj)]
  case idle =>
    rw [hkeep₂ _ (by rcases hpp with rfl | rfl <;> simp) (by simp), hb.left.idle_eq]
  case list =>
    intro S hS
    have hSz : S ≠ z := fun e => hS ((hgone S).mpr e)
    rw [← hb.left.list_eq]
    refine ⟨fun h => ?_, hin₂ hSz⟩
    rcases hmem₂ h with ⟨-, e⟩ | h
    · exact absurd e hSz
    · exact h.2
  case head =>
    intro hne
    have := href z
    omega
  case page =>
    intro S
    rw [hgone]
    constructor
    · rintro ⟨j, hj⟩
      rcases hmem₂ hj with ⟨-, e⟩ | ⟨-, h⟩
      · exact .inr e
      · exact .inl ⟨j, hother (p := .pg j) (by simp [SpanPlace.cls?]) ▸ h⟩
    · rintro (⟨j, hj⟩ | rfl)
      · have hSz : S ≠ z := by
          rintro rfl
          obtain ⟨q, hq, hzq⟩ := hb.inClass
          rw [hi.pages.placed.unique hzq hj] at hq
          cases hq
        exact ⟨j, hin₂ hSz (by rwa [hother (p := .pg j) (by simp [SpanPlace.cls?])])⟩
      · refine ⟨b, ?_⟩
        rw [hf₂, moved_self]
        exact List.mem_cons_self

/-- The span of the last object stays while another object of it is outstanding. -/
theorem called_stays (hb : ObjsBack env i batch z f f₁ h h₁ l) (hi : HeapInv .base env h f)
    (hdue : Due h f i own batch) (hz : h₁.objRefcount z ≠ 0) :
    ∃ h' f', returnObjsToCentralcache (indexToSize i) batch h = .ok h' ∧
      Called env i own batch z f f' h h' := by
  have href := hb.refcount hi hdue
  have hgone : ∀ S, ¬ Gone h own batch z S := by
    rintro S ⟨-, e⟩
    have := href z
    omega
  have hother : ∀ {p : SpanPlace}, p.cls? ≠ some i → f₁ p = f p := fun hp =>
    hb.left.moves.other _ hp
  refine ⟨{ h₁ with toLinks := l }, f₁, ?_, ⟨hb.inv, ?_, hb.pushed.start, href,
    fun S hS => absurd hS (hgone S), fun S _ => hb.objs hi hdue S,
    fun S _ => congrFun hb.pushed.loc S, fun S => ?_,
    fun j hj => ⟨hother (by simpa [SpanPlace.cls?] using hj),
      hother (by simpa [SpanPlace.cls?] using hj)⟩,
    hb.left.idle_eq, fun S _ => by rw [hb.left.list_eq], fun _ => hb.left.list_eq, fun S => ?_⟩⟩
  · rw [returnObjsToCentralcache, hb.stays hz]
    rfl
  · exact hb.pushed.free.fewer hb.left.moves.inClass_of (fun _ => rfl) rfl
  · rw [hb.left.moves.inClass]
    simp [hgone]
  · simp only [hgone, or_false]
    exact exists_congr fun j => by rw [hother (p := .pg j) (by simp [SpanPlace.cls?])]

end ObjsBack

/-- The span of the last object goes to its list if its tag says that it is idle, and to the page
heap if all its objects are back. -/
theorem returnCall_spec (hi : HeapInv .base env h f) (hf : FreeInv h f) (hcls : i < CLASSES)
    (hdue : Due h f i own batch) {o : Nat} (ho : batch.getLast? = some o) :
    ∃ h' f', returnObjsToCentralcache (indexToSize i) batch h = .ok h' ∧
      Called env i own batch (own o) f f' h h' := by
  have hom : o ∈ batch := List.mem_of_mem_getLast? ho
  obtain ⟨h₁, l, f₁, hb⟩ := returnObjs_back hi hf hcls ho (hdue.inClass o hom) (hdue.obj o hom)
    (fun x hx => ⟨own x, hdue.inClass x hx, hdue.obj x hx⟩) hdue.nodup hdue.busy
  by_cases hz : h₁.objRefcount (own o) = 0
  · exact hb.called_gone hi hdue hz
  · exact hb.called_stays hi hdue hz

end Call

/-! ## The objects one by one -/

/-- A span of the batch all of whose objects are back. -/
def Emptied (h : Heap) (own : Nat → SpanPtr) (batch : List Nat) (S : SpanPtr) : Prop :=
  S ∈ batch.map own ∧ h.objRefcount S = (dueTo own batch S).length

/-- The spans of the batch with the tag of an idle span, in the order of their objects. -/
def taggedOf (h : Heap) (own : Nat → SpanPtr) (batch : List Nat) : List SpanPtr :=
  (batch.map own).filter fun S => h.loc S = .centralIdle

/-- What the calls for the objects of a batch do. -/
structure Eached (env : Env) (i : Nat) (own : Nat → SpanPtr) (batch : List Nat)
    (f f' : SpanPlace → List SpanPtr) (h h' : Heap) : Prop where
  inv : HeapInv .base env h' f'
  free : FreeInv h' f'
  start : h'.start = h.start
  refcount : ∀ S, h'.objRefcount S + (dueTo own batch S).length = h.objRefcount S
  gone : ∀ S, Emptied h own batch S → h'.objs S = []
  objs : ∀ S, ¬ Emptied h own batch S → h'.objs S = (dueTo own batch S).reverse ++ h.objs S
  loc : ∀ S, ¬ Emptied h own batch S → h'.loc S = h.loc S
  inClass : ∀ S, InClass f' i S ↔ InClass f i S ∧ ¬ Emptied h own batch S
  other : ∀ j, j ≠ i → f' (.list j) = f (.list j) ∧ f' (.idle j) = f (.idle j)
  idle : ∀ S, S ∈ f' (.idle i) ↔ S ∈ f (.idle i) ∧ S ∉ batch.map own
  list : (∀ S, ¬ Emptied h own batch S) →
    f' (.list i) = relisted (f (.list i)) (taggedOf h own batch)
  page : ∀ S, (∃ j, S ∈ f' (.pg j)) ↔ (∃ j, S ∈ f (.pg j)) ∨ Emptied h own batch S

section Each

variable {env : Env} {h h₁ h' : Heap} {f f₁ f' : SpanPlace → List SpanPtr} {i o : Nat}
  {own : Nat → SpanPtr} {batch rest : List Nat} {S : SpanPtr}

theorem dueTo_cons (own : Nat → SpanPtr) (o : Nat) (rest : List Nat) (S : SpanPtr) :
    dueTo own (o :: rest) S = if own o = S then o :: dueTo own rest S else dueTo own rest S := by
  unfold dueTo
  rw [List.filter_cons]
  simp only [decide_eq_true_eq]

theorem dueTo_pos (hS : S ∈ batch.map own) : 0 < (dueTo own batch S).length := by
  obtain ⟨o, ho, rfl⟩ := List.mem_map.mp hS
  refine List.length_pos_of_mem (a := o) (List.mem_filter.mpr ⟨ho, ?_⟩)
  simp

theorem dueTo_eq_nil (hS : S ∉ batch.map own) : dueTo own batch S = [] := by
  refine List.filter_eq_nil_iff.mpr fun o ho => ?_
  simp only [decide_eq_true_eq]
  rintro rfl
  exact hS (List.mem_map_of_mem ho)

theorem Due.single (hdue : Due h f i own (o :: rest)) : Due h f i own [o] := by
  refine ⟨List.nodup_singleton o, fun x hx => ?_, fun x hx => ?_, fun x hx => ?_⟩
  all_goals
    obtain rfl := List.mem_singleton.mp hx
  · exact hdue.inClass x List.mem_cons_self
  · exact hdue.obj x List.mem_cons_self
  · exact hdue.busy x List.mem_cons_self

/-- The objects that are left are outstanding after a call for one of them. -/
theorem Called.due (hc : Called env i own [o] (own o) f f₁ h h₁) (hi : HeapInv .base env h f)
    (hf : FreeInv h f) (hdue : Due h f i own (o :: rest)) : Due h₁ f₁ i own rest := by
  have hnd := List.nodup_cons.mp hdue.nodup
  have hone := hdue.single
  have hkept : ∀ x ∈ rest, ¬ Gone h own [o] (own o) (own x) := by
    rintro x hx ⟨e, href⟩
    have hxr := List.mem_cons_of_mem o hx
    have hxo : x ∉ [o] := fun h => hnd.1 (List.mem_singleton.mp h ▸ hx)
    rw [← e] at href
    exact hone.not_gone hi hf (hdue.inClass x hxr) (hdue.obj x hxr) (hdue.busy x hxr _) hxo href
  refine ⟨hnd.2, fun x hx => ?_, fun x hx => ?_, fun x hx S hxS => ?_⟩
  · exact (hc.inClass _).mpr ⟨hdue.inClass x (List.mem_cons_of_mem _ hx), hkept x hx⟩
  · obtain ⟨k, hk, e⟩ := hdue.obj x (List.mem_cons_of_mem _ hx)
    exact ⟨k, hk, by rw [hc.start]; exact e⟩
  · by_cases hg : Gone h own [o] (own o) S
    · rw [hc.gone S hg] at hxS
      cases hxS
    · rw [hc.objs S hg] at hxS
      rcases List.mem_append.mp hxS with hxS | hxS
      · have := List.mem_of_mem_filter (List.mem_reverse.mp hxS)
        exact hnd.1 (List.mem_singleton.mp this ▸ hx)
      · exact hdue.busy x (List.mem_cons_of_mem _ hx) S hxS

/-- A span is emptied by the first call or by the later ones. -/
theorem Called.emptied_iff (hc : Called env i own [o] (own o) f f₁ h h₁)
    (hle : (dueTo own rest S).length ≤ h₁.objRefcount S) :
    Emptied h own (o :: rest) S ↔ Gone h own [o] (own o) S ∨ Emptied h₁ own rest S := by
  have href := hc.refcount S
  have hone : dueTo own [o] S = if own o = S then [o] else [] := dueTo_cons own o [] S
  unfold Emptied Gone
  rw [List.map_cons, List.mem_cons, dueTo_cons]
  by_cases hS : own o = S
  · obtain rfl := hS
    rw [if_pos rfl] at hone ⊢
    rw [hone] at href ⊢
    simp only [List.length_cons, List.length_nil] at href ⊢
    by_cases hr : own o ∈ rest.map own
    · have := dueTo_pos hr
      simp only [hr, true_and, true_or]
      omega
    · rw [dueTo_eq_nil hr]
      simp [hr]
  · rw [if_neg hS] at hone ⊢
    rw [hone] at href
    simp only [List.length_nil, Nat.add_zero] at href
    rw [href]
    simp [Ne.symm hS]

theorem returnEach_spec (hi : HeapInv .base env h f) (hf : FreeInv h f) (hcls : i < CLASSES)
    (hdue : Due h f i own batch) :
    ∃ h' f', returnEach (indexToSize i) batch h = .ok h' ∧ Eached env i own batch f f' h h' := by
  induction batch generalizing h f with
  | nil =>
    have hno : ∀ S, ¬ Emptied h own [] S := fun S hS => by cases hS.1
    refine ⟨h, f, rfl, ⟨hi, hf, rfl, fun S => rfl, fun S hS => absurd hS (hno S), fun S _ => rfl,
      fun _ _ => rfl, fun S => ?_, fun _ _ => ⟨rfl, rfl⟩, fun S => ?_, fun _ => rfl, fun S => ?_⟩⟩
    all_goals simp [hno]
  | cons o rest ih =>
    have hnd := List.nodup_cons.mp hdue.nodup
    obtain ⟨h₁, f₁, hrun₁, hc⟩ := returnCall_spec (o := o) hi hf hcls hdue.single rfl
    obtain ⟨h', f', hrun', he⟩ := ih hc.inv hc.free (hc.due hi hf hdue)
    have hemp : ∀ S, Emptied h own (o :: rest) S ↔
        Gone h own [o] (own o) S ∨ Emptied h₁ own rest S := fun S =>
      hc.emptied_iff (by have := he.refcount S; omega)
    have hone : ∀ S, dueTo own [o] S = if own o = S then [o] else [] := dueTo_cons own o []
    refine ⟨h', f', ?_, ⟨he.inv, he.free, he.start.trans hc.start, fun S => ?_, fun S hS => ?_,
      fun S hS => ?_, fun S hS => ?_, fun S => ?_, fun j hj => ?_, fun S => ?_, fun hno => ?_,
      fun S => ?_⟩⟩
    · unfold returnEach
      rw [hrun₁, ok_bind]
      exact hrun'
    · have h1 := hc.refcount S
      have h2 := he.refcount S
      rw [hone] at h1
      rw [dueTo_cons]
      split_ifs at h1 ⊢ with hS
      · simp only [List.length_cons, List.length_nil] at h1 ⊢
        omega
      · simp only [List.length_nil] at h1
        omega
    · by_cases hr : Emptied h₁ own rest S
      · exact he.gone S hr
      · have hg := ((hemp S).mp hS).resolve_right hr
        have hnot : S ∉ rest.map own := by
          intro hm
          have h1 := hc.refcount S
          have h2 := he.refcount S
          obtain ⟨rfl, hz⟩ := hg
          have := dueTo_pos hm
          omega
        rw [he.objs S hr, dueTo_eq_nil hnot, hc.gone S hg]
        rfl
    · rw [hemp, not_or] at hS
      rw [he.objs S hS.2, hc.objs S hS.1, hone, dueTo_cons]
      split_ifs with hoS
      · simp
      · rfl
    · rw [hemp, not_or] at hS
      rw [he.loc S hS.2, hc.loc S hS.1]
    · rw [he.inClass, hc.inClass, hemp, not_or, and_assoc]
    · exact ⟨(he.other j hj).1.trans (hc.other j hj).1, (he.other j hj).2.trans (hc.other j hj).2⟩
    · rw [he.idle, hc.idle, (hi.pages.placed.nodup (.idle i)).mem_erase_iff, List.map_cons,
        List.mem_cons, not_or, and_assoc]
      tauto
    · have hno₁ : ∀ S, ¬ Gone h own [o] (own o) S := fun S hS => hno S ((hemp S).mpr (.inl hS))
      have hno₂ : ∀ S, ¬ Emptied h₁ own rest S := fun S hS => hno S ((hemp S).mpr (.inr hS))
      have hloc : h₁.loc = h.loc := funext fun S => hc.loc S (hno₁ S)
      have htag : taggedOf h₁ own rest = taggedOf h own rest := by
        unfold taggedOf
        rw [hloc]
      rw [he.list hno₂, hc.head fun e => hno₁ (own o) ⟨rfl, e⟩, htag]
      unfold taggedOf
      rw [List.map_cons, List.filter_cons]
      by_cases hl : h.loc (own o) = .centralIdle
      · simp only [hl, if_true, decide_true]
        rw [relisted]
      · simp [hl]
    · rw [he.page, hc.page, hemp, or_assoc]

theorem returnEach_append (nbytes : Nat) (a b : List Nat) (h : Heap) :
    returnEach nbytes (a ++ b) h = (returnEach nbytes a h).bind (returnEach nbytes b) := by
  induction a generalizing h with
  | nil => rfl
  | cons o a ih =>
    rw [List.cons_append, returnEach, returnEach]
    cases returnObjsToCentralcache nbytes [o] h with
    | error e => rfl
    | ok h₁ => exact ih h₁

end Each

/-! ## The comparison -/

/-- The span of an object. -/
def spanOf (h : Heap) (o : Nat) : SpanPtr := (owner h o).getD 0

/-- The spans of the batch other than that of its last object are not idle, and have objects
outstanding afterwards; and nothing is cut off the list, or only what comes back. -/
def BatchFits (h : Heap) (i : Nat) (batch : List Nat) : Prop :=
  ∃ o, batch.getLast? = some o ∧
    (∀ S ∈ batch.map (spanOf h), S ≠ spanOf h o →
      ¬ OnRing h.next (h.idle i) S ∧ ¬ Emptied h (spanOf h) batch S) ∧
    ListAlike (OnRing h.next (h.list i)) (h.list i) (taggedOf h (spanOf h) batch) (spanOf h o)
      (h.loc (spanOf h o) = .centralIdle) (Emptied h (spanOf h) batch (spanOf h o))

section Compare

variable {d : Discipline} {env : Env} {s : Sys} {h h₁ h₂ h' : Heap}
  {f f₁ f₂ f' : SpanPlace → List SpanPtr} {i o : Nat} {own : Nat → SpanPtr} {batch a : List Nat}
  {z S : SpanPtr}

theorem dueTo_append (own : Nat → SpanPtr) (a b : List Nat) (S : SpanPtr) :
    dueTo own (a ++ b) S = dueTo own a S ++ dueTo own b S := List.filter_append ..

theorem dueTo_single (own : Nat → SpanPtr) (o : Nat) (S : SpanPtr) :
    dueTo own [o] S = if own o = S then [o] else [] := dueTo_cons own o [] S

theorem Called.mem_list (hc : Called env i own batch z f f' h h') (S : SpanPtr) :
    OnRing h'.next (h'.list i) S ↔
      S ∈ relisted (f (.list i)) (if h.loc z = .centralIdle then [z] else []) ∧
        ¬ Gone h own batch z S := by
  have hring : OnRing h'.next (h'.list i) S ↔ S ∈ f' (.list i) :=
    hc.inv.links.onRing_iff (r := .list i)
  have hre : relisted (f (.list i)) (if h.loc z = .centralIdle then [z] else []) =
      if h.loc z = .centralIdle then z :: keptBehind z (f (.list i)) else f (.list i) := by
    split_ifs <;> rfl
  rw [hring, hre]
  constructor
  · intro hS
    have hno := ((hc.inClass S).mp ⟨.list i, rfl, hS⟩).2
    exact ⟨(hc.list S hno).mp hS, hno⟩
  · rintro ⟨hS, hno⟩
    exact (hc.list S hno).mpr hS

theorem gone_iff (hz : z ∈ batch.map own) :
    Gone h own batch z S ↔ S = z ∧ Emptied h own batch z :=
  ⟨fun hS => ⟨hS.1, hz, hS.2⟩, fun hS => ⟨hS.1, hS.2.2⟩⟩

/-- If only the span of the last object can be emptied, the single returns put the tagged spans
back in turn. -/
theorem returnEach_list (hi : HeapInv .base env h f) (hf : FreeInv h f) (hcls : i < CLASSES)
    (hdue : Due h f i own (a ++ [o]))
    (hno : ∀ S, S ≠ own o → ¬ Emptied h own (a ++ [o]) S)
    (hrun : returnEach (indexToSize i) (a ++ [o]) h = .ok h₂) (S : SpanPtr) :
    OnRing h₂.next (h₂.list i) S ↔
      S ∈ relisted (f (.list i)) (taggedOf h own (a ++ [o])) ∧
        ¬ (S = own o ∧ Emptied h own (a ++ [o]) (own o)) := by
  have hda : Due h f i own a := by
    refine ⟨(List.nodup_append.mp hdue.nodup).1, fun x hx => ?_, fun x hx => ?_, fun x hx => ?_⟩
    · exact hdue.inClass x (List.mem_append_left _ hx)
    · exact hdue.obj x (List.mem_append_left _ hx)
    · exact hdue.busy x (List.mem_append_left _ hx)
  have hoa : o ∉ a := by
    intro ho
    exact (List.nodup_append.mp hdue.nodup).2.2 o ho o (List.mem_singleton_self o) rfl
  have hmem : o ∈ a ++ [o] := by simp
  obtain ⟨h₁, f₁, hrun₁, he⟩ := returnEach_spec hi hf hcls hda
  have hkeep : h.objRefcount (own o) ≠ (dueTo own a (own o)).length :=
    hda.not_gone hi hf (hdue.inClass o hmem) (hdue.obj o hmem) (hdue.busy o hmem _) hoa
  have hnone : ∀ S, ¬ Emptied h own a S := by
    rintro S ⟨hS, href⟩
    by_cases hSz : S = own o
    · exact hkeep (hSz ▸ href)
    · refine hno S hSz ⟨?_, ?_⟩
      · rw [List.map_append]
        exact List.mem_append_left _ hS
      · rw [dueTo_append, dueTo_single, if_neg (Ne.symm hSz), List.append_nil]
        exact href
  have hlast : Due h₁ f₁ i own [o] := by
    refine ⟨List.nodup_singleton o, fun x hx => ?_, fun x hx => ?_, fun x hx S hxS => ?_⟩
    all_goals
      obtain rfl := List.mem_singleton.mp hx
    · exact (he.inClass _).mpr ⟨hdue.inClass x hmem, hnone _⟩
    · obtain ⟨k, hk, e⟩ := hdue.obj x hmem
      exact ⟨k, hk, by rw [he.start]; exact e⟩
    · rw [he.objs S (hnone S)] at hxS
      rcases List.mem_append.mp hxS with hxS | hxS
      · exact hoa (List.mem_of_mem_filter (List.mem_reverse.mp hxS))
      · exact hdue.busy x hmem S hxS
  obtain ⟨h₃, f₃, hrun₃, hc⟩ := returnCall_spec (o := o) he.inv he.free hcls hlast rfl
  have hsame : h₃ = h₂ := by
    rw [returnEach_append, hrun₁] at hrun
    unfold Except.bind returnEach at hrun
    simp only [hrun₃, ok_bind, returnEach] at hrun
    exact Except.ok.inj hrun
  have hloc : h₁.loc = h.loc := funext fun S => he.loc S (hnone S)
  have htag : taggedOf h own (a ++ [o]) =
      taggedOf h own a ++ if h.loc (own o) = .centralIdle then [own o] else [] := by
    unfold taggedOf
    rw [List.map_append, List.filter_append, List.map_singleton, List.filter_singleton]
    congr 1
    by_cases hl : h.loc (own o) = .centralIdle <;> simp [hl]
  rw [← hsame, hc.mem_list S, he.list hnone, ← relisted_append, hloc, ← htag]
  refine and_congr_right fun _ => not_congr (and_congr_right fun _ => ?_)
  unfold Emptied
  have href := he.refcount (own o)
  rw [dueTo_append, dueTo_single, if_pos rfl, List.length_append, List.map_append]
  simp only [List.length_cons, List.length_nil, List.map_cons, List.map_nil, List.mem_append,
    List.mem_singleton, or_true, true_and]
  omega

/-- The spans on the list are the same exactly if `ListAlike` says so. -/
theorem list_alike_iff (hi : HeapInv .base env h f) (hf : FreeInv h f) (hcls : i < CLASSES)
    (hdue : Due h f i own (a ++ [o]))
    (hno : ∀ S, S ≠ own o → ¬ Emptied h own (a ++ [o]) S)
    (hc : Called env i own (a ++ [o]) (own o) f f₁ h h₁)
    (hrun : returnEach (indexToSize i) (a ++ [o]) h = .ok h₂) :
    (∀ S, OnRing h₁.next (h₁.list i) S ↔ OnRing h₂.next (h₂.list i) S) ↔
      ListAlike (OnRing h.next (h.list i)) (h.list i) (taggedOf h own (a ++ [o])) (own o)
        (h.loc (own o) = .centralIdle) (Emptied h own (a ++ [o]) (own o)) := by
  have hring : OnRing h.next (h.list i) = (· ∈ f (.list i)) :=
    funext fun S => propext (hi.links.onRing_iff (r := .list i))
  have hhead : h.list i = (f (.list i)).head? := hi.links.head (.list i)
  have hzmem : own o ∈ (a ++ [o]).map own := List.mem_map_of_mem (by simp)
  simp only [hc.mem_list, returnEach_list hi hf hcls hdue hno hrun, gone_iff hzmem]
  rw [hring, hhead]
  by_cases hloc : h.loc (own o) = .centralIdle
  · obtain ⟨t, ht⟩ : ∃ t, taggedOf h own (a ++ [o]) = t ++ [own o] := by
      refine ⟨taggedOf h own a, ?_⟩
      unfold taggedOf
      rw [List.map_append, List.filter_append, List.map_singleton]
      simp [hloc]
    rw [if_pos hloc, ht, eq_true hloc]
    exact relisted_tagged _ _ _ _
  · have hz : own o ∉ taggedOf h own (a ++ [o]) := fun hz => by
      have := (List.mem_filter.mp hz).2
      simp only [decide_eq_true_eq] at this
      exact hloc this
    rw [if_neg hloc, eq_false hloc]
    exact relisted_untagged _ _ _ _ hz

theorem Called.idle_iff (hc : Called env i own batch z f f₁ h h₁) (j : Nat) (S : SpanPtr) :
    OnRing h₁.next (h₁.idle j) S ↔ S ∈ f₁ (.idle j) :=
  hc.inv.links.onRing_iff (r := .idle j)

theorem Eached.idle_iff (he : Eached env i own batch f f₂ h h₂) (j : Nat) (S : SpanPtr) :
    OnRing h₂.next (h₂.idle j) S ↔ S ∈ f₂ (.idle j) :=
  he.inv.links.onRing_iff (r := .idle j)

/-- A span of the batch is not in the page heap. -/
theorem Due.not_page (hdue : Due h f i own batch) (hi : HeapInv .base env h f)
    (hS : S ∈ batch.map own) : ¬ ∃ j, S ∈ f (.pg j) := by
  rintro ⟨j, hj⟩
  obtain ⟨o, ho, rfl⟩ := List.mem_map.mp hS
  obtain ⟨q, hq, hSq⟩ := hdue.inClass o ho
  rw [hi.pages.placed.unique hSq hj] at hq
  cases hq

/-- If the spans agree in the end, the call did for the other spans of the batch all that their
own returns did: they were not idle, and are not emptied. -/
theorem SameSpans.others (hsame : SameSpans h₁ h₂) (hc : Called env i own batch z f f₁ h h₁)
    (he : Eached env i own batch f f₂ h h₂) (hi : HeapInv .base env h f)
    (hdue : Due h f i own batch) (hS : S ∈ batch.map own) (hSz : S ≠ z) :
    ¬ OnRing h.next (h.idle i) S ∧ ¬ Emptied h own batch S := by
  refine ⟨fun hidle => ?_, fun hempty => ?_⟩
  · -- the batch leaves the span idle, its own return does not
    have h0 : S ∈ f (.idle i) := (hi.links.onRing_iff (r := .idle i)).mp hidle
    have h1 : S ∈ f₁ (.idle i) := by
      rw [hc.idle]
      exact (List.mem_erase_of_ne hSz).mpr h0
    have h2 := (he.idle_iff i S).mp ((hsame.idle i S).mp ((hc.idle_iff i S).mpr h1))
    exact ((he.idle S).mp h2).2 hS
  · have h2 := he.inv.inPageHeap.mpr ((he.page S).mpr (.inr hempty))
    rcases (hc.page S).mp (hc.inv.inPageHeap.mp ((hsame.page S).mpr h2)) with h | h
    · exact hdue.not_page hi hS h
    · exact hSz h.1

/-- The call and the single returns agree if the other spans of the batch are not idle and not
emptied, and the spans on the list are the same. -/
theorem Called.sameSpans (hc : Called env i own batch z f f₁ h h₁)
    (he : Eached env i own batch f f₂ h h₂) (hi : HeapInv .base env h f) (hz : z ∈ batch.map own)
    (hspans : ∀ S ∈ batch.map own, S ≠ z →
      ¬ OnRing h.next (h.idle i) S ∧ ¬ Emptied h own batch S)
    (hlist : ∀ S, OnRing h₁.next (h₁.list i) S ↔ OnRing h₂.next (h₂.list i) S) :
    SameSpans h₁ h₂ := by
  have hgone : ∀ S, Gone h own batch z S ↔ Emptied h own batch S := by
    intro S
    rw [gone_iff hz]
    refine ⟨fun hS => hS.1 ▸ hS.2, fun hS => ?_⟩
    have hSz : S = z := by
      by_contra hSz
      exact (hspans S hS.1 hSz).2 hS
    exact ⟨hSz, hSz ▸ hS⟩
  refine ⟨fun S x => ?_, fun S => ?_, fun j S => ?_, fun j S => ?_, fun S => ?_⟩
  · by_cases hS : Emptied h own batch S
    · rw [hc.gone S ((hgone S).mpr hS), he.gone S hS]
    · rw [hc.objs S (fun h => hS ((hgone S).mp h)), he.objs S hS]
  · have h1 := hc.refcount S
    have h2 := he.refcount S
    omega
  · by_cases hj : j = i
    · subst hj
      exact hlist S
    · have h1 : OnRing h₁.next (h₁.list j) S ↔ S ∈ f₁ (.list j) :=
        hc.inv.links.onRing_iff (r := .list j)
      have h2 : OnRing h₂.next (h₂.list j) S ↔ S ∈ f₂ (.list j) :=
        he.inv.links.onRing_iff (r := .list j)
      rw [h1, h2, (hc.other j hj).1, (he.other j hj).1]
  · rw [hc.idle_iff, he.idle_iff]
    by_cases hj : j = i
    · subst hj
      have hidle : OnRing h.next (h.idle j) S ↔ S ∈ f (.idle j) :=
        hi.links.onRing_iff (r := .idle j)
      rw [hc.idle, he.idle, (hi.pages.placed.nodup (.idle j)).mem_erase_iff]
      constructor
      · rintro ⟨hSz, hS⟩
        exact ⟨hS, fun hm => (hspans S hm hSz).1 (hidle.mpr hS)⟩
      · rintro ⟨hS, hm⟩
        exact ⟨fun e => hm (e ▸ hz), hS⟩
    · rw [(hc.other j hj).2, (he.other j hj).2]
  · rw [hc.inv.inPageHeap, he.inv.inPageHeap, hc.page, he.page, hgone]

/-- The batch and the single returns end, and agree exactly if the batch fits. -/
theorem batch_alike_iff (hi : HeapInv .base env h f) (hf : FreeInv h f) (hcls : i < CLASSES)
    (hdue : Due h f i (spanOf h) batch) : BatchAlike h i batch ↔ BatchFits h i batch := by
  obtain ⟨own, hown⟩ : ∃ own, own = spanOf h := ⟨_, rfl⟩
  unfold BatchFits
  rw [← hown] at hdue ⊢
  rcases List.eq_nil_or_concat batch with rfl | ⟨a, o, rfl⟩
  · constructor
    · rintro ⟨h₁, -, hrun, -⟩
      simp only [returnObjsToCentralcache, returnObjs, sizeClass_indexToSize hcls, ok_bind,
        returnLoop] at hrun
      cases hrun
    · rintro ⟨o, ho, -⟩
      cases ho
  rw [List.concat_eq_append] at hdue ⊢
  have hlast : (a ++ [o]).getLast? = some o := List.getLast?_concat
  obtain ⟨h₁, f₁, hrun₁, hc⟩ := returnCall_spec hi hf hcls hdue hlast
  obtain ⟨h₂, f₂, hrun₂, he⟩ := returnEach_spec hi hf hcls hdue
  have hzmem : own o ∈ (a ++ [o]).map own := List.mem_map_of_mem (by simp)
  -- a span that is emptied is one of the batch
  have hlists : (∀ S ∈ (a ++ [o]).map own, S ≠ own o → ¬ Emptied h own (a ++ [o]) S) → _ :=
    fun hno => list_alike_iff hi hf hcls hdue (fun S hSz hS => hno S hS.1 hSz hS) hc hrun₂
  constructor
  · rintro ⟨h₁', h₂', hrun₁', hrun₂', hsame⟩
    obtain rfl := Except.ok.inj (hrun₁.symm.trans hrun₁')
    obtain rfl := Except.ok.inj (hrun₂.symm.trans hrun₂')
    have hspans : ∀ S ∈ (a ++ [o]).map own, S ≠ own o → _ := fun S hS hSz =>
      hsame.others hc he hi hdue hS hSz
    exact ⟨o, hlast, hspans, (hlists fun S hS hSz => (hspans S hS hSz).2).mp (hsame.list i)⟩
  · rintro ⟨o', ho', hspans, hlist⟩
    obtain rfl := Option.some.inj (hlast.symm.trans ho')
    have hrings := (hlists fun S hS hSz => (hspans S hS hSz).2).mpr hlist
    exact ⟨h₁, h₂, hrun₁, hrun₂, hc.sameSpans he hi hzmem hspans hrings⟩

theorem Outstanding.due (hout : Outstanding h i batch) (hi : HeapInv .base env h f)
    (hf : FreeInv h f) : Due h f i (spanOf h) batch := by
  have hobj : ∀ o ∈ batch, InClass f i (spanOf h o) ∧ ObjOf h (spanOf h o) i o ∧
      o ∉ h.objs (spanOf h o) := by
    intro o ho
    obtain ⟨S, hsize, hin, hfree⟩ := hout.objects o ho
    have hS := (hi.inClass_iff hout.cls).mpr hsize
    have hoS := ((hi.mem_objectsOf hS).mp hin).2
    have hspan : spanOf h o = S := by
      unfold spanOf
      rw [owner_eq (hoS.mapAddr hi hS)]
      rfl
    rw [hspan]
    exact ⟨hS, hoS, hfree⟩
  refine ⟨hout.nodup, fun o ho => (hobj o ho).1, fun o ho => (hobj o ho).2.1, fun o ho S hoS => ?_⟩
  obtain ⟨hS, hob, hfree⟩ := hobj o ho
  -- an object on a free list is one of that span
  by_cases hcls : ∃ j, InClass f j S
  · obtain ⟨j, hj⟩ := hcls
    have hsame := (owner_eq (hob.mapAddr hi hS)).symm.trans
      (owner_eq ((hf.sound hj hoS).mapAddr hi hj))
    exact hfree (Option.some.inj hsame ▸ hoS)
  · have hclean : Clean h S := hi.kinds.clean fun p hp => by
      cases hc : p.cls? with
      | none => rfl
      | some j => exact absurd ⟨j, p, hc, hp⟩ hcls
    rw [hclean.objs] at hoS
    cases hoS

/-- In a run whose fetches compute with sizes that fit, a batch of outstanding objects has
the effect of its objects returned one by one if and only if it fits. -/
theorem batch_alike (hs : env.Succeeds) (hr : Reachable env FetchMet s)
    (hout : Outstanding s.heap i batch) : BatchAlike s.heap i batch ↔ BatchFits s.heap i batch := by
  obtain ⟨f, hi⟩ := reachable_base hs hr
  exact batch_alike_iff hi.heap hi.freeInv hout.cls (hout.due hi.heap hi.freeInv)

end Compare

/-! ## Two spans of the last class -/

section Machine

variable {s : Sys} {o : Nat} {ps xs : List Nat}

/-- An object of a span of the last class that is on no free list. -/
theorem outstanding_single {h : Heap} {S p c : Nat} (hs : Single h 158 S p c)
    (ho : o ∈ (spanObjs p 158).take c) (hnd : (spanObjs p 158).Nodup) :
    h.objsSize S = indexToSize 158 ∧ o ∈ objectsOf h S ∧ o ∉ h.objs S := by
  refine ⟨hs.objsSize, ?_, fun hin => ?_⟩
  · unfold objectsOf
    rw [hs.objsSize, hs.pageSize, hs.start]
    exact List.mem_reverse.mp (List.mem_of_mem_take ho)
  · rw [hs.objs] at hin
    rw [← List.take_append_drop c (spanObjs p 158)] at hnd
    exact (List.nodup_append.mp hnd).2.2 o ho o hin rfl

theorem batch_alike_machine : ∃ s, Reachable machine FetchMet s ∧
    Outstanding s.heap 158 [190746624, 190779392] ∧
    BatchAlike s.heap 158 [190746624, 190779392] := by
  obtain ⟨s, ps, hr, -, -, -, hini, hsingle⟩ := machine_twoSpans
  have hnd : (spanObjs 46496 158).Nodup := by decide
  have hout : Outstanding s.heap 158 [190746624, 190779392] := by
    refine ⟨by decide, by decide, fun o ho => ⟨14464, outstanding_single hsingle ?_ hnd⟩⟩
    revert o
    decide
  refine ⟨s, hr, hout, (batch_alike machine_succeeds hr hout).mpr ?_⟩
  have hspan : ∀ o ∈ spanObjs 46496 158, spanOf s.heap o = 14464 := by
    intro o ho
    unfold spanOf
    rw [owner_eq (hsingle.found hini (by decide) ho)]
    rfl
  have hmap : [190746624, 190779392].map (spanOf s.heap) = [14464, 14464] := by
    simp only [List.map_cons, List.map_nil, hspan 190746624 (by decide),
      hspan 190779392 (by decide)]
  have htag : taggedOf s.heap (spanOf s.heap) [190746624, 190779392] = [] := by
    unfold taggedOf
    rw [hmap]
    simp [hsingle.loc]
  refine ⟨190779392, rfl, fun S hS hSz => ?_, ?_⟩
  · rw [hmap] at hS
    rw [hspan 190779392 (by decide)] at hSz
    exact absurd (by simpa using hS) hSz
  · rw [htag, hspan 190779392 (by decide), hsingle.loc]
    refine ⟨fun h => ?_, fun S hS => ?_⟩
    · cases h.1
    · cases hS

/-- A batch of an object of the idle span and one of the span on the list: the idle span stays
idle, though it has a free object. -/
theorem batch_differs : ∃ s, Reachable machine FetchMet s ∧
    Outstanding s.heap 158 [191434752, 190746624] ∧
    ¬ BatchAlike s.heap 158 [191434752, 190746624] := by
  obtain ⟨s, ps, hr, -, -, hspent, hini, hsingle⟩ := machine_twoSpans
  have hnd : (spanObjs 46496 158).Nodup := by decide
  have hout : Outstanding s.heap 158 [191434752, 190746624] := by
    refine ⟨by decide, by decide, fun o ho => ?_⟩
    rcases List.mem_cons.mp ho with rfl | ho
    · refine ⟨14400, hspent.objsSize, ?_, by rw [hspent.objs]; exact List.not_mem_nil⟩
      unfold objectsOf
      rw [hspent.objsSize, hspent.pageSize, hspent.start]
      decide
    · obtain rfl := List.mem_singleton.mp ho
      exact ⟨14464, outstanding_single hsingle (by decide) hnd⟩
  refine ⟨s, hr, hout, fun halike => ?_⟩
  obtain ⟨f, hi⟩ := reachable_base machine_succeeds hr
  obtain ⟨o, ho, hspans, -⟩ :=
    (batch_alike_iff hi.heap hi.freeInv hout.cls (hout.due hi.heap hi.freeInv)).mp halike
  obtain rfl : 190746624 = o := Option.some.inj ho
  have h1 : spanOf s.heap 191434752 = 14400 := by
    unfold spanOf
    rw [owner_eq (hspent.found hini (by decide))]
    rfl
  have h2 : spanOf s.heap 190746624 = 14464 := by
    unfold spanOf
    rw [owner_eq (hsingle.found hini (by decide) (by decide))]
    rfl
  refine (hspans 14400 ?_ (by rw [h2]; decide)).1 ⟨14400, hspent.idle, .refl⟩
  rw [List.map_cons, h1]
  exact List.mem_cons_self

end Machine

end SearchEngine.TcMalloc
