import SearchEngine.TcMalloc.FreeLists
import SearchEngine.TcMalloc.Verify.Partition

/-!
# The functions on the free lists

`m.Lists F`: the pointers of `m` lead through the objects `F` that are in each place. Each
function of `FreeLists` does to the lists in memory what its counterpart does to the lists of
`System`, and writes in the first bytes of the objects on them only (`Touches`).
-/

namespace SearchEngine.TcMalloc

open ByteMemory LinkedPath Placement Outcome

/-- The head of the list in each place. -/
def Image.head (m : Image) : ObjPlace → Option Nat
  | .span S => m.objs S
  | .cache t i => m.cache t i
  | .hand t => m.hand t
  | .live => none

/-- The pointers lead through the objects in each place. -/
def Image.Lists (m : Image) (F : ObjPlace → List Nat) : Prop := Threaded PTRBYTES m.mem m.head F

/-- The bytes that differ are in the words of objects with `A`. -/
def Touches (A : Nat → Prop) (m m' : Memory) : Prop :=
  ∀ x, m' x ≠ m x → ∃ o, A o ∧ o ≤ x ∧ x < o + PTRBYTES

section Image

variable {m : Image} {S : SpanPtr} {t : Tid} {i o : Nat} {v : Option Nat}

@[simp] theorem Image.head_setObjs :
    (m.setObjs S v).head = Function.update m.head (.span S) v := by
  funext p
  cases p with
  | span S' => by_cases h : S' = S <;> simp [Image.head, Image.setObjs, h]
  | _ => simp [Image.head, Image.setObjs]

@[simp] theorem Image.head_setCache :
    (m.setCache t i v).head = Function.update m.head (.cache t i) v := by
  funext p
  cases p with
  | cache t' i' =>
    by_cases ht : t' = t
    · subst ht
      by_cases hi : i' = i <;> simp [Image.head, Image.setCache, hi]
    · simp [Image.head, Image.setCache, ht]
  | _ => simp [Image.head, Image.setCache]

@[simp] theorem Image.head_setHand :
    (m.setHand t v).head = Function.update m.head (.hand t) v := by
  funext p
  cases p with
  | hand t' => by_cases h : t' = t <;> simp [Image.head, Image.setHand, h]
  | _ => simp [Image.head, Image.setHand]

@[simp] theorem Image.head_setNext : (m.setNext o v).head = m.head := rfl

@[simp] theorem Image.head_setRet : (m.setRet t o).head = m.head := rfl

@[simp] theorem Image.mem_setObjs : (m.setObjs S v).mem = m.mem := rfl

@[simp] theorem Image.mem_setCache : (m.setCache t i v).mem = m.mem := rfl

@[simp] theorem Image.mem_setHand : (m.setHand t v).mem = m.mem := rfl

@[simp] theorem Image.mem_setRet : (m.setRet t o).mem = m.mem := rfl

@[simp] theorem Image.mem_setNext : (m.setNext o v).mem = setLink PTRBYTES o v m.mem := rfl

end Image

section Touches

variable {A B : Nat → Prop} {m m₁ m₂ : Memory} {o : Nat} {v : Option Nat}

theorem Touches.refl : Touches A m m := fun _ h => absurd rfl h

theorem Touches.trans (h : Touches A m m₁) (h' : Touches A m₁ m₂) : Touches A m m₂ := by
  intro x hx
  by_cases hx₁ : m₁ x = m x
  · exact h' x (by rwa [hx₁])
  · exact h x hx₁

theorem Touches.mono (h : Touches A m m₁) (hAB : ∀ o, A o → B o) : Touches B m m₁ := by
  intro x hx
  obtain ⟨o, ho, h1, h2⟩ := h x hx
  exact ⟨o, hAB o ho, h1, h2⟩

theorem touches_setLink (ho : A o) : Touches A m (setLink PTRBYTES o v m) := by
  intro x hx
  refine ⟨o, ho, ?_⟩
  by_contra hout
  exact hx (setLink_outside (by omega))

end Touches

/-! ## Pushing and popping -/

section Lists

variable {m : Image} {F : ObjPlace → List Nat} {S : SpanPtr} {t : Tid} {i o n : Nat} {l : List Nat}

theorem Image.Lists.freelistPop (h : m.Lists F) (hF : F (.cache t i) = o :: l) :
    ∃ m', m.freelistPop t i = .ok (o, m') ∧ m'.Lists (Function.update F (.cache t i) l) ∧
      m'.mem = m.mem := by
  obtain ⟨hhead, hrest⟩ := Threaded.pop h hF
  have hc : m.cache t i = some o := hhead
  refine ⟨m.setCache t i (m.next o), by rw [Image.freelistPop, hc], ?_, rfl⟩
  rw [Image.Lists, Image.head_setCache]
  exact hrest

theorem Image.Lists.freelistPush (h : m.Lists F) (hnew : ∀ q, o ∉ F q)
    (hapart : ∀ q, ∀ b ∈ F q, Apart PTRBYTES o b) (hnode : IsNode PTRBYTES o) :
    (m.freelistPush S o).Lists (Function.update F (.span S) (o :: F (.span S))) := by
  rw [Image.Lists, Image.freelistPush, Image.head_setObjs]
  exact Threaded.push h (.span S) hnew hapart hnode

/-! ## Carving -/

/-- The loop leaves the objects from `ptr` on as the list of the span. -/
theorem Image.Lists.carveLoop {size fin ptr : Nat} (h : m.Lists F) (hsize : PTRBYTES ≤ size)
    (hpos : 0 < ptr) (hfin : fin < 256 ^ PTRBYTES)
    (hout : ∀ q, ∀ b ∈ F q, b + PTRBYTES ≤ ptr ∨ fin ≤ b) :
    (m.carveLoop size fin S ptr).Lists (Function.update F (.span S)
      ((objsFrom ptr size ((fin - ptr) / size)).reverse ++ F (.span S))) ∧
      Touches (· ∈ objsFrom ptr size ((fin - ptr) / size)) m.mem
        (m.carveLoop size fin S ptr).mem := by
  have hptr : PTRBYTES = 8 := rfl
  have hs : 0 < size := by omega
  fun_induction Image.carveLoop size fin S ptr m generalizing F with
  | case1 ptr m hc ih =>
    have hn : (fin - ptr) / size = (fin - (ptr + size)) / size + 1 := by
      rw [← Nat.add_div_right _ hs]
      congr 1
      omega
    have hnext : (m.setNext ptr none).Lists F := by
      refine Threaded.frame h fun q b hb x h1 h2 => setLink_outside ?_
      have := hout q b hb
      omega
    have hpush : ((m.setNext ptr none).freelistPush S ptr).Lists
        (Function.update F (.span S) (ptr :: F (.span S))) := by
      refine hnext.freelistPush (fun q hq => ?_) (fun q b hb => ?_) ⟨hpos, by omega⟩
      · have := hout q ptr hq
        omega
      · have := hout q b hb
        rw [Apart]
        omega
    obtain ⟨hl, ht⟩ := ih hpush (by omega) fun q b hb => by
      by_cases hq : q = .span S
      · subst hq
        rw [Function.update_self, List.mem_cons] at hb
        rcases hb with rfl | hb
        · omega
        · have := hout _ b hb
          omega
      · rw [Function.update_of_ne hq] at hb
        have := hout q b hb
        omega
    rw [hn, objsFrom_succ]
    refine ⟨?_, ?_⟩
    · rw [Function.update_idem, Function.update_self] at hl
      rwa [List.reverse_cons, List.append_assoc, List.singleton_append]
    · refine Touches.trans ?_ (ht.mono fun o ho => List.mem_cons_of_mem _ ho)
      exact (touches_setLink List.mem_cons_self).trans (touches_setLink List.mem_cons_self)
  | case2 ptr m hc =>
    have hn : (fin - ptr) / size = 0 := Nat.div_eq_of_lt (by omega)
    rw [hn]
    refine ⟨?_, Touches.refl⟩
    have hnil : (objsFrom ptr size 0).reverse ++ F (.span S) = F (.span S) := rfl
    rwa [hnil, Function.update_eq_self]

/-! ## Fetching -/

/-- The loop passes the first `n` objects. -/
theorem Image.passObjs_spec (n : Nat) (prev : Option Nat) {ptr : Option Nat}
    (h : Path m.next ptr l) :
    (m.passObjs n prev ptr).1 = (l.take n).getLast?.or prev ∧
      Path m.next (m.passObjs n prev ptr).2 (l.drop n) := by
  induction n generalizing l ptr prev with
  | zero => exact ⟨rfl, h⟩
  | succ n ih =>
    cases l with
    | nil =>
      obtain rfl : ptr = none := h
      exact ⟨rfl, rfl⟩
    | cons a l =>
      obtain ⟨rfl, h⟩ := h
      obtain ⟨h1, h2⟩ := ih (some a) h
      refine ⟨?_, h2⟩
      rw [Image.passObjs, h1, List.take_succ_cons, List.getLast?_cons]
      cases (l.take n).getLast? <;> rfl

/-- The first objects of the list of the span go to the hand of the thread. -/
theorem Image.Lists.fetchObjs {h : Heap} {num : Nat} (hm : m.Lists F) (hhand : F (.hand t) = [])
    (hne : (F (.span S)).take (Image.maxIter num S h) ≠ []) :
    ∃ m', m.fetchObjs t num S h = .ok m' ∧
      m'.Lists (Function.update (Function.update F (.span S)
        ((F (.span S)).drop (Image.maxIter num S h))) (.hand t)
        ((F (.span S)).take (Image.maxIter num S h))) ∧
      Touches (· ∈ F (.span S)) m.mem m'.mem := by
  obtain ⟨k, hk⟩ : ∃ k, k = Image.maxIter num S h := ⟨_, rfl⟩
  rw [← hk] at hne ⊢
  obtain ⟨hprev, hptr⟩ := Image.passObjs_spec k none (hm.path (.span S))
  rw [Option.or_none, List.getLast?_eq_some_getLast hne] at hprev
  have hlast : ((F (.span S)).take k).getLast hne ∈ F (.span S) :=
    List.mem_of_mem_take (List.getLast_mem hne)
  have hcut := Threaded.cut hm (show ObjPlace.span S ≠ .hand t by simp)
    (List.take_append_drop k _).symm hhand (List.getLast?_eq_some_getLast hne) hptr
  have hrun : m.fetchObjs t num S h = .ok (((m.setHand t (m.objs S)).setNext
      (((F (.span S)).take k).getLast hne) none).setObjs S (m.passObjs k none (m.objs S)).2) := by
    simp only [Image.fetchObjs, ← hk]
    rw [show (m.passObjs k none (m.objs S)).1 = _ from hprev]
  refine ⟨_, hrun, ?_, touches_setLink hlast⟩
  rw [Image.Lists, Image.head_setObjs, Image.head_setNext, Image.head_setHand,
    Function.update_comm (by simp)]
  exact hcut

/-! ## The loops -/

/-- The objects in the hand of the thread go to its cache. -/
theorem Image.Lists.insertToThreadcache (h : m.Lists F) (hF : F (.hand t) = l)
    (hn : l.length ≤ n) :
    ∃ m', m.insertToThreadcache t i n = .ok m' ∧
      m'.Lists (Function.update (Function.update F (.hand t) []) (.cache t i)
        (l.reverse ++ F (.cache t i))) ∧
      Touches (· ∈ l) m.mem m'.mem := by
  induction l generalizing m F n with
  | nil =>
    have hhand : m.hand t = none := h.head_eq_none.mpr hF
    have hrun : m.insertToThreadcache t i n = .ok m := by
      cases n <;> simp only [Image.insertToThreadcache, hhand, if_true]
    refine ⟨m, hrun, ?_, Touches.refl⟩
    rw [List.reverse_nil, List.nil_append, ← hF, Function.update_eq_self, Function.update_eq_self]
    exact h
  | cons o l ih =>
    obtain ⟨n, rfl⟩ : ∃ k, n = k + 1 := ⟨n - 1, by rw [List.length_cons] at hn; omega⟩
    have hne : ObjPlace.cache t i ≠ .hand t := by simp
    obtain ⟨hhead, hmove⟩ := Threaded.transfer h hne.symm hF
    have hhand : m.hand t = some o := hhead
    obtain ⟨m₁, hm₁⟩ : ∃ m₁, m₁ =
        ((m.setNext o (m.cache t i)).setCache t i (some o)).setHand t (m.next o) := ⟨_, rfl⟩
    have hlists₁ : m₁.Lists (Function.update (Function.update F (.hand t) l) (.cache t i)
        (o :: F (.cache t i))) := by
      rw [hm₁, Image.Lists, Image.head_setHand, Image.head_setCache, Function.update_comm hne]
      exact hmove
    obtain ⟨m', hrun, hlists, htouch⟩ := ih (n := n) hlists₁
      (by rw [Function.update_of_ne hne.symm, Function.update_self])
      (by rw [List.length_cons] at hn; omega)
    refine ⟨m', ?_, ?_, ?_⟩
    · rw [Image.insertToThreadcache, hhand]
      rw [hm₁] at hrun
      exact hrun
    · rw [Function.update_self, Function.update_comm hne, Function.update_idem,
        Function.update_idem] at hlists
      rwa [List.reverse_cons, List.append_assoc, List.singleton_append]
    · have hfirst : Touches (· ∈ o :: l) m.mem m₁.mem := by
        rw [hm₁]
        exact touches_setLink List.mem_cons_self
      exact hfirst.trans (htouch.mono fun x hx => List.mem_cons_of_mem _ hx)

/-- The lists of the spans are those of the heap. -/
def withSpans (F : ObjPlace → List Nat) (h : Heap) : ObjPlace → List Nat
  | .span S => h.objs S
  | p => F p

theorem returnObj_objs {h h' : Heap} (hrun : returnObj o h = .ok (S, h')) :
    h'.objs = Function.update h.objs S (o :: h.objs S) ∧ mapAddrToSpan o h = .ok (some S) ∧
      ∀ a, mapAddrToSpan a h' = mapAddrToSpan a h := by
  obtain ⟨found, hfound, hrun⟩ := bind_eq_ok hrun
  cases found with
  | none => cases hrun
  | some span =>
    obtain ⟨rfl, rfl⟩ := Prod.mk.inj (Except.ok.inj hrun)
    exact ⟨rfl, hfound, fun a => rfl⟩

/-- The objects of the batch are on the lists of their spans then, and nothing else is new there. -/
theorem returnLoop_objs {h h' : Heap} {last last' : Option SpanPtr}
    (hrun : TcMalloc.returnLoop l last h = .ok (last', h')) :
    (∀ o ∈ l, ∃ S, o ∈ h'.objs S) ∧ (∀ S, h.objs S ⊆ h'.objs S) ∧
      ∀ S, ∀ o ∈ h'.objs S, (o ∈ l ∧ mapAddrToSpan o h = .ok (some S)) ∨ o ∈ h.objs S := by
  induction l generalizing h last with
  | nil =>
    obtain ⟨rfl, rfl⟩ := Prod.mk.inj (Except.ok.inj hrun)
    exact ⟨fun o ho => absurd ho List.not_mem_nil, fun S => List.Subset.refl _,
      fun S o ho => .inr ho⟩
  | cons o l ih =>
    obtain ⟨⟨S, h₁⟩, hobj, hrest⟩ := bind_eq_ok hrun
    obtain ⟨hobjs, hfound, hsame⟩ := returnObj_objs hobj
    have hsub (S') : h.objs S' ⊆ h₁.objs S' := by
      rw [hobjs]
      by_cases hS : S' = S
      · subst hS
        rw [Function.update_self]
        exact List.subset_cons_self _ _
      · rw [Function.update_of_ne hS]
        exact List.Subset.refl _
    obtain ⟨hmem, hkeep, hold⟩ := ih hrest
    refine ⟨fun o' ho' => ?_, fun S' => List.Subset.trans (hsub S') (hkeep S'), fun S' o' ho' => ?_⟩
    · rcases List.mem_cons.mp ho' with rfl | ho'
      · refine ⟨S, hkeep S ?_⟩
        rw [hobjs, Function.update_self]
        exact List.mem_cons_self
      · exact hmem o' ho'
    · rcases hold S' o' ho' with ⟨ho', hmap⟩ | ho'
      · exact .inl ⟨List.mem_cons_of_mem _ ho', (hsame o').symm.trans hmap⟩
      · rw [hobjs] at ho'
        by_cases hS : S' = S
        · subst hS
          rw [Function.update_self] at ho'
          rcases List.mem_cons.mp ho' with rfl | ho'
          · exact .inl ⟨List.mem_cons_self, hfound⟩
          · exact .inr ho'
        · rw [Function.update_of_ne hS] at ho'
          exact .inr ho'

/-- The objects in the hand of the thread go to the spans that the page map names. -/
theorem Image.Lists.returnLoop {h h' : Heap} {last last' : Option SpanPtr} (hm : m.Lists F)
    (hF : F (.hand t) = l) (hspans : ∀ S, F (.span S) = h.objs S) (hn : l.length ≤ n)
    (hrun : TcMalloc.returnLoop l last h = .ok (last', h')) :
    ∃ m', m.returnLoop t n last h = .ok (last', h', m') ∧
      m'.Lists (withSpans (Function.update F (.hand t) []) h') ∧
      Touches (· ∈ l) m.mem m'.mem := by
  induction l generalizing m F n h last with
  | nil =>
    obtain ⟨rfl, rfl⟩ := Prod.mk.inj (Except.ok.inj hrun)
    have hhand : m.hand t = none := hm.head_eq_none.mpr hF
    refine ⟨m, by cases n <;> simp only [Image.returnLoop, hhand, if_true], ?_, Touches.refl⟩
    have hsame : withSpans (Function.update F (.hand t) []) h = F := by
      rw [← hF, Function.update_eq_self]
      funext p
      cases p with
      | span S => exact (hspans S).symm
      | _ => rfl
    rwa [hsame]
  | cons o l ih =>
    obtain ⟨n, rfl⟩ : ∃ k, n = k + 1 := ⟨n - 1, by rw [List.length_cons] at hn; omega⟩
    obtain ⟨⟨S, h₁⟩, hobj, hrest⟩ := bind_eq_ok hrun
    have hne : ObjPlace.span S ≠ .hand t := by simp
    obtain ⟨hhead, hmove⟩ := Threaded.transfer hm hne.symm hF
    have hhand : m.hand t = some o := hhead
    obtain ⟨m₁, hm₁⟩ : ∃ m₁, m₁ = (m.freelistPush S o).setHand t (m.next o) := ⟨_, rfl⟩
    have hlists₁ : m₁.Lists (Function.update (Function.update F (.hand t) l) (.span S)
        (o :: F (.span S))) := by
      rw [hm₁, Image.Lists, Image.head_setHand, Image.freelistPush, Image.head_setObjs,
        Function.update_comm hne]
      exact hmove
    have hobjs₁ := (returnObj_objs hobj).1
    have hspans₁ (S') : Function.update (Function.update F (.hand t) l) (.span S)
        (o :: F (.span S)) (.span S') = h₁.objs S' := by
      rw [hobjs₁]
      by_cases hS : S' = S
      · subst hS
        rw [Function.update_self, Function.update_self, hspans]
      · rw [Function.update_of_ne (by simpa using hS), Function.update_of_ne (by simp),
          Function.update_of_ne hS, hspans]
    obtain ⟨m', hrun', hlists, htouch⟩ := ih (n := n) hlists₁
      (by rw [Function.update_of_ne hne.symm, Function.update_self]) hspans₁
      (by rw [List.length_cons] at hn; omega) hrest
    refine ⟨m', ?_, ?_, ?_⟩
    · rw [Image.returnLoop, hhand]
      simp only [hobj, ok_bind]
      rwa [hm₁] at hrun'
    · have hsame : withSpans (Function.update (Function.update (Function.update F (.hand t) l)
          (.span S) (o :: F (.span S))) (.hand t) []) h' =
          withSpans (Function.update F (.hand t) []) h' := by
        rw [Function.update_comm hne, Function.update_idem]
        funext p
        cases p with
        | span S' => rfl
        | _ => simp only [withSpans, Function.update_of_ne, ne_eq, reduceCtorEq, not_false_eq_true]
      rwa [hsame] at hlists
    · have hfirst : Touches (· ∈ o :: l) m.mem m₁.mem := by
        rw [hm₁]
        exact touches_setLink List.mem_cons_self
      exact hfirst.trans (htouch.mono fun x hx => List.mem_cons_of_mem _ hx)

/-! ## The calls of the user -/

/-- The freed object goes to the cache of the thread, or to its hand with all of the cache. -/
theorem Image.Lists.deallocate {c : ThreadList} (h : m.Lists F) (hhand : F (.hand t) = [])
    (hnew : ∀ q, o ∉ F q) (hapart : ∀ q, ∀ b ∈ F q, Apart PTRBYTES o b)
    (hnode : IsNode PTRBYTES o) :
    (m.deallocate t i c o).Lists (if c.objlen = c.maxLength then
        Function.update (Function.update F (.cache t i) []) (.hand t) (o :: F (.cache t i))
      else Function.update F (.cache t i) (o :: F (.cache t i))) ∧
      Touches (· = o) m.mem (m.deallocate t i c o).mem := by
  have hne : ObjPlace.cache t i ≠ .hand t := by simp
  have hpush := Threaded.push h (.cache t i) hnew hapart hnode
  have htouch {m' : Image} (hm : m'.mem = setLink PTRBYTES o (m.cache t i) m.mem) :
      Touches (· = o) m.mem m'.mem := by
    rw [hm]
    exact touches_setLink rfl
  simp only [Image.deallocate]
  split_ifs with hfull
  · refine ⟨?_, htouch rfl⟩
    have hmove := hpush.move hne (by rw [Function.update_of_ne hne.symm, hhand])
    simp only [Function.update_self, Function.update_idem] at hmove
    rw [Image.Lists, Image.head_setHand, Image.head_setCache]
    exact hmove
  · refine ⟨?_, htouch rfl⟩
    rw [Image.Lists, Image.head_setCache]
    exact hpush

end Lists

/-! ## What `System` does to the lists -/

section Fields

variable {h h' : Heap} {S : SpanPtr} {num index nbytes : Nat} {batch : List Nat}

theorem takeObjs_objs (hrun : takeObjs num index S h = .ok (batch, h')) :
    batch ≠ [] ∧ batch = (h.objs S).take (Image.maxIter num S h) ∧
      h'.objs = Function.update h.objs S ((h.objs S).drop (Image.maxIter num S h)) ∧
      h'.pageSize = h.pageSize := by
  have hmax : min num (if h.objRefcount S ≤ h.objLen S then h.objLen S - h.objRefcount S
      else h.objLen S + 2 ^ 64 - h.objRefcount S) = Image.maxIter num S h := rfl
  simp only [takeObjs, hmax] at hrun
  generalize Image.maxIter num S h = k at hrun ⊢
  split at hrun
  · cases hrun
  next hne =>
    split at hrun
    · obtain ⟨h₁, hremove, hrun⟩ := bind_eq_ok hrun
      obtain ⟨rfl, rfl⟩ := Prod.mk.inj (Except.ok.inj hrun)
      obtain ⟨l, -, hremove⟩ := bind_eq_ok hremove
      obtain rfl := Except.ok.inj hremove
      exact ⟨hne, rfl, rfl, rfl⟩
    · obtain ⟨rfl, rfl⟩ := Prod.mk.inj (Except.ok.inj hrun)
      exact ⟨hne, rfl, rfl, rfl⟩

theorem carveLoop_pageSize (size fin : Nat) (S : SpanPtr) (ptr : Nat) (h : Heap) :
    (carveLoop size fin S ptr h).pageSize = h.pageSize := by
  fun_induction carveLoop size fin S ptr h with
  | case1 ptr h hc ih => exact ih
  | case2 ptr h hc => rfl

theorem carveSpan_pageSize (size index : Nat) (S : SpanPtr) (h : Heap) :
    (carveSpan size index S h).pageSize = h.pageSize := carveLoop_pageSize ..

theorem leaveIdle_same (hrun : leaveIdle index S h = .ok h') :
    h'.objs = h.objs ∧ h'.objRefcount = h.objRefcount ∧ h'.pageSize = h.pageSize ∧
      h'.start = h.start := by
  simp only [leaveIdle] at hrun
  split at hrun
  · obtain ⟨h₁, hremove, hrun⟩ := bind_eq_ok hrun
    obtain rfl := Except.ok.inj hrun
    obtain ⟨l, -, hremove⟩ := bind_eq_ok hremove
    obtain rfl := Except.ok.inj hremove
    exact ⟨rfl, rfl, rfl, rfl⟩
  · obtain rfl := Except.ok.inj hrun
    exact ⟨rfl, rfl, rfl, rfl⟩

theorem returnLoop_pages {last last' : Option SpanPtr}
    (hrun : returnLoop batch last h = .ok (last', h')) :
    h'.pageSize = h.pageSize ∧ h'.start = h.start := by
  induction batch generalizing last h with
  | nil =>
    obtain ⟨-, rfl⟩ := Prod.mk.inj (Except.ok.inj hrun)
    exact ⟨rfl, rfl⟩
  | cons o batch ih =>
    obtain ⟨⟨S, h₁⟩, hobj, hrun⟩ := bind_eq_ok hrun
    obtain ⟨hpages, hstart⟩ := ih hrun
    rw [hpages, hstart]
    obtain ⟨found, -, hobj⟩ := bind_eq_ok hobj
    cases found with
    | none => cases hobj
    | some span =>
      obtain ⟨-, rfl⟩ := Prod.mk.inj (Except.ok.inj hobj)
      exact ⟨rfl, rfl⟩

/-- After the loop the list of the last span is cleared if all its objects are back, and the span
is to go to the page heap. -/
theorem returnObjs_objs {o : Option SpanPtr} (hrun : returnObjs batch nbytes h = .ok (o, h')) :
    ∃ S h₁, returnLoop batch none h = .ok (some S, h₁) ∧
      h'.objs = (if h₁.objRefcount S = 0 then Function.update h₁.objs S [] else h₁.objs) ∧
      o = (if h₁.objRefcount S = 0 then some S else none) ∧
      h'.pageSize = h.pageSize ∧ h'.start = h.start := by
  obtain ⟨i, -, hrun⟩ := bind_eq_ok hrun
  obtain ⟨⟨last, h₁⟩, hloop, hrun⟩ := bind_eq_ok hrun
  cases last with
  | none => cases hrun
  | some S =>
    obtain ⟨h₂, hidle, hrun⟩ := bind_eq_ok hrun
    obtain ⟨hobjs, hcount, hpages, hstart⟩ := leaveIdle_same hidle
    obtain ⟨hpages₁, hstart₁⟩ := returnLoop_pages hloop
    refine ⟨S, h₁, hloop, ?_⟩
    rw [← hobjs, ← hcount, ← hpages₁, ← hpages, ← hstart₁, ← hstart]
    split at hrun
    next hzero =>
      rw [if_pos hzero, if_pos hzero]
      obtain ⟨h₃, hremove, hrun⟩ := bind_eq_ok hrun
      obtain ⟨rfl, rfl⟩ := Prod.mk.inj (Except.ok.inj hrun)
      obtain ⟨l, -, hremove⟩ := bind_eq_ok hremove
      obtain rfl := Except.ok.inj hremove
      exact ⟨rfl, rfl, rfl, rfl⟩
    next hzero =>
      rw [if_neg hzero, if_neg hzero]
      obtain ⟨rfl, rfl⟩ := Prod.mk.inj (Except.ok.inj hrun)
      exact ⟨rfl, rfl, rfl, rfl⟩

theorem returnSpanToPgcache_objs (hrun : returnSpanToPgcache S h = .ok h') :
    h'.objs = Function.update h.objs S [] ∧ h'.pageSize = h.pageSize := by
  obtain ⟨map, -, hrun⟩ := bind_eq_ok hrun
  obtain rfl := Except.ok.inj hrun
  exact ⟨rfl, rfl⟩

end Fields

end SearchEngine.TcMalloc
