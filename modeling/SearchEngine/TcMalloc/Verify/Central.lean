import SearchEngine.TcMalloc.Verify.Fetch

/-!
# The central cache

The objects of a span of class `i` are at `start`, `start + indexToSize i`, and so on,
`capacity i` of them. `carveSpan_spec` and `takeObjs_spec` say what carving a span and
fetching objects do to the free lists and to the places of the spans.
-/

namespace SearchEngine.TcMalloc

open LinkedRing Placement Outcome

/-! ## Size classes -/

theorem indexToSize_pos (i : Nat) : 8 ≤ indexToSize i := by
  simp only [indexToSize]
  split_ifs <;> omega

theorem indexToSize_le {i : Nat} (hi : i < CLASSES) : indexToSize i ≤ THRESHALLOC := by
  simp only [CLASSES] at hi
  simp only [indexToSize, THRESHALLOC]
  split_ifs <;> omega

theorem getIndex_eq {n i : Nat} (hi : i < CLASSES) (h1 : n ≤ indexToSize i)
    (h2 : i = 0 ∨ indexToSize (i - 1) < n) (h3 : 0 < n) : getIndex n = i := by
  simp only [CLASSES] at hi
  simp only [indexToSize] at h1 h2
  have key : ∀ m : Nat, m = i → toInt m = (i : Int) := fun m hm => by
    rw [toInt_of_lt (by omega), hm]
  simp only [getIndex]
  split_ifs at h1 h2 ⊢ <;> first | (exact key _ (by omega)) | omega

theorem sizeClass_indexToSize {i : Nat} (hi : i < CLASSES) :
    sizeClass (indexToSize i) = .ok i := by
  have hlt : i = 0 ∨ indexToSize (i - 1) < indexToSize i := by
    simp only [CLASSES] at hi
    simp only [indexToSize]
    split_ifs <;> omega
  have h := getIndex_eq hi le_rfl hlt (by have := indexToSize_pos i; omega)
  simp only [sizeClass, h]
  rw [if_pos ⟨by omega, by exact_mod_cast hi⟩]
  rfl

/-- The class of a size holds it, and it is the first that does. -/
theorem sizeClass_ok {n i : Nat} (h : sizeClass n = .ok i) :
    i < CLASSES ∧ 0 < n ∧ n ≤ indexToSize i := by
  simp only [sizeClass] at h
  split_ifs at h with hc
  obtain ⟨h0, h1⟩ := hc
  have hi : getIndex n = i := by
    have := Except.ok.inj h
    omega
  have hlt : i < CLASSES := by
    rw [hi] at h1
    exact_mod_cast h1
  refine ⟨hlt, ?_⟩
  simp only [getIndex] at hi
  simp only [CLASSES] at hlt
  simp only [toInt, indexToSize] at hi ⊢
  split_ifs at hi ⊢ <;> omega

theorem sizeClass_le {n : Nat} (h0 : 0 < n) (hn : n ≤ THRESHALLOC) : ∃ i, sizeClass n = .ok i := by
  simp only [THRESHALLOC] at hn
  have : 0 ≤ getIndex n ∧ getIndex n < CLASSES := by
    simp only [getIndex, CLASSES, toInt]
    split_ifs <;> omega
  exact ⟨_, by simp only [sizeClass]; rw [if_pos this]⟩

/-- The objects of a span fill its pages but for less than one object. -/
theorem capacity_mul_le (i : Nat) : capacity i * indexToSize i ≤ 524288 :=
  Nat.div_mul_le_self _ _

theorem capacity_pos {i : Nat} (hi : i < CLASSES) : 16 ≤ capacity i := by
  have h1 := indexToSize_le hi
  have h2 := indexToSize_pos i
  simp only [THRESHALLOC] at h1
  rw [capacity, Nat.le_div_iff_mul_le (by omega)]
  omega

theorem capacity_le (i : Nat) : capacity i ≤ 65536 := by
  have h := indexToSize_pos i
  exact Nat.div_le_of_le_mul (by omega)

/-! ## Objects -/

section Objects

variable {d : Discipline} {env : Env} {h h' : Heap} {f f' : SpanPlace → List SpanPtr}
  {s o i : Nat} {dst : SpanPlace}

/-- `o` is an object of the span `s` of class `i`. -/
def ObjOf (h : Heap) (s : SpanPtr) (i o : Nat) : Prop :=
  ∃ k, k < capacity i ∧ o = h.start s + k * indexToSize i

/-- The span is in the central cache, as a span of class `i`. -/
def InClass (f : SpanPlace → List SpanPtr) (i : Nat) (s : SpanPtr) : Prop :=
  ∃ p : SpanPlace, p.cls? = some i ∧ s ∈ f p

/-- Addresses in the pages of a span are mapped to it. -/
theorem Owns.mapAddr (ho : Owns env h s) (hini : h.iniBrkAddr = env.ini) {a : Nat}
    (h1 : h.start s ≤ a) (h2 : a < h.start s + h.pageSize s * 4096) :
    mapAddrToSpan a h = .ok (some s) := by
  have hst := ho.start
  obtain ⟨k, hk⟩ : ∃ k, k = (a - env.ini) / 4096 := ⟨_, rfl⟩
  have hid : addrToIndex a h.iniBrkAddr = k := by
    have hm : h.pageId s + h.pageSize s < 2 ^ 24 := ho.inMap.trans_lt (by decide)
    rw [hini]
    exact addrToIndex_eq env (by omega) (by omega) (by omega)
  have hlt : k < PAGEMAPSIZE := lt_of_lt_of_le (by omega) ho.inMap
  simp only [mapAddrToSpan, hid]
  rw [if_pos hlt, ho.mapped k (by omega) (by omega)]

theorem ObjOf.range (ho : ObjOf h s i o) (hp : h.pageSize s = BATCH) :
    h.start s ≤ o ∧ o + indexToSize i ≤ h.start s + h.pageSize s * 4096 := by
  obtain ⟨k, hk, rfl⟩ := ho
  have h1 : (k + 1) * indexToSize i ≤ capacity i * indexToSize i := Nat.mul_le_mul_right _ hk
  have h2 := capacity_mul_le i
  rw [Nat.add_mul] at h1
  rw [hp]
  simp only [BATCH]
  omega

theorem ObjOf.mapAddr (ho : ObjOf h s i o) (hi : HeapInv d env h f) (hs : InClass f i s) :
    mapAddrToSpan o h = .ok (some s) := by
  obtain ⟨p, hp, hs⟩ := hs
  obtain ⟨h1, h2⟩ := ho.range (hi.kinds.carved hp hs).pageSize
  have := indexToSize_pos i
  exact (hi.pages.owned hs).mapAddr hi.record.ini h1 (by omega)

/-- The addresses of `n` objects. -/
def objsFrom (start size n : Nat) : List Nat := (List.range n).map fun k => start + k * size

theorem objsFrom_succ (start size n : Nat) :
    objsFrom start size (n + 1) = start :: objsFrom (start + size) size n := by
  simp only [objsFrom, List.range_succ_eq_map, List.map_cons, List.map_map, Nat.zero_mul,
    Nat.add_zero]
  congr 1
  refine List.map_congr_left fun k _ => ?_
  simp only [Function.comp_apply, Nat.succ_mul]
  omega

theorem mem_objsFrom {start size n o : Nat} :
    o ∈ objsFrom start size n ↔ ∃ k, k < n ∧ o = start + k * size := by
  simp only [objsFrom, List.mem_map, List.mem_range, eq_comm]

theorem nodup_objsFrom {start size n : Nat} (hs : 0 < size) : (objsFrom start size n).Nodup := by
  refine List.nodup_range.map fun a b hab => ?_
  have : a * size = b * size := by simpa using hab
  exact Nat.eq_of_mul_eq_mul_right hs this

@[simp] theorem length_objsFrom (start size n : Nat) : (objsFrom start size n).length = n := by
  simp [objsFrom]

/-- The carving loop pushes the objects in turn. -/
theorem carveLoop_eq {size fin : Nat} (hs : 0 < size) (s : SpanPtr) (ptr : Nat) (h : Heap) :
    carveLoop size fin s ptr h = { h with
      objs := Function.update h.objs s ((objsFrom ptr size ((fin - ptr) / size)).reverse ++ h.objs
        s)
      objLen := Function.update h.objLen s (h.objLen s + (fin - ptr) / size) } := by
  fun_induction carveLoop size fin s ptr h with
  | case1 ptr h hc ih =>
    have hn : (fin - ptr) / size = (fin - (ptr + size)) / size + 1 := by
      rw [← Nat.add_div_right _ hs]
      congr 1
      omega
    rw [ih, hn, objsFrom_succ]
    simp only [freelistPush, Function.update_self, Function.update_idem, List.reverse_cons,
      List.append_assoc, List.singleton_append]
    congr 2
    omega
  | case2 ptr h hc =>
    have hn : (fin - ptr) / size = 0 := Nat.div_eq_of_lt (by omega)
    rw [hn]
    simp [objsFrom]

/-- The heap with the record of `s` carved into objects of class `i`. -/
def carved (h : Heap) (i : Nat) (s : SpanPtr) : Heap :=
  { h with
    objsSize := Function.update h.objsSize s (indexToSize i)
    objs := Function.update h.objs s
      ((objsFrom (h.start s) (indexToSize i) (capacity i)).reverse ++ h.objs s)
    objLen := Function.update h.objLen s (h.objLen s + capacity i) }

theorem carveSpan_eq (hp : h.pageSize s = BATCH) (hi : i < CLASSES) :
    carveSpan (indexToSize i) i s h =
      ((carved h i s).push (.centralList i) s).setLoc s .centralList := by
  have hsize := indexToSize_pos i
  have hle := indexToSize_le hi
  simp only [THRESHALLOC] at hle
  have hbytes : pagesToBytes32 (h.pageSize s) = 524288 := by rw [hp]; rfl
  have hmod : indexToSize i % 2 ^ 32 = indexToSize i := Nat.mod_eq_of_lt (by omega)
  simp only [carveSpan, hbytes, hmod]
  rw [carveLoop_eq (by omega)]
  simp only [Nat.add_sub_cancel_left]
  rfl

/-- A span goes to the list of a class, carved. -/
theorem carveSpan_spec (hi : HeapInv d env h f) (hs : s ∈ f dst) (hd : dst.Loose)
    (hcls : i < CLASSES) (hp : h.pageSize s = BATCH) :
    HeapInv d env (carveSpan (indexToSize i) i s h) (moved f dst (.list i) s) := by
  rw [carveSpan_eq hp hcls]
  have ho := hi.pages.owned hs
  have hc : Clean h s := (hi.kinds.kind hs).clean hd.cls_eq
  have hne : dst ≠ SpanPlace.list i := (SpanPlace.ne_of_loose id hd).symm
  have hpl := hi.pages.placed
  refine ⟨hi.record.congr rfl rfl rfl rfl fun x hx hb => ?_, PageInv.congr_places (f := f)
    (hi.pages.congr rfl rfl rfl rfl rfl fun _ => ⟨rfl, rfl, rfl⟩) (placed_moved hpl hne hs)
    fun _ _ hx => exists_of_mem_moved hpl hne hs hx, hi.links.putOn hpl (.list i) hs hd,
    hi.kinds.place hpl hne hs (fun x hx => ?_) ⟨⟨hcls, ?_, hp, ?_, ?_, fun _ => ?_⟩, fun _ => ?_⟩
    fun ht he => hi.kinds.noStray ht ((Iff.of_eq (spanlistPush_stray (.list i) s _)).mp he)⟩
  · have hxs : x ≠ s := by have := ho.below; omega
    exact hb.congr (by simp [carved, Heap.push, Heap.setLoc, hxs])
      (by simp [carved, Heap.push, Heap.setLoc, hxs]) (by simp [Heap.setLoc, hxs]; rfl) rfl
      (by simp [carved, Heap.push, Heap.setLoc, hxs]) rfl rfl rfl
  · exact ⟨by simp [carved, Heap.push, Heap.setLoc, hx],
      by simp [carved, Heap.push, Heap.setLoc, hx],
      by simp [carved, Heap.push, Heap.setLoc, hx], rfl, rfl, by simp [Heap.setLoc, hx]; rfl⟩
  · simp [carved, Heap.push, Heap.setLoc]
  · simp [carved, Heap.push, Heap.setLoc, hc.objs, hc.objRefcount]
  · simp [carved, Heap.push, Heap.setLoc]
  · simp [carved, Heap.push, Heap.setLoc, hc.objLen]
  · simp [Heap.setLoc]

/-! ## Taking objects -/

/-- Taking `num` objects off the list of a span. -/
structure Taken (d : Discipline) (env : Env) (i : Nat) (s : SpanPtr)
    (f f' : SpanPlace → List SpanPtr) (h h' : Heap) (batch : List Nat) : Prop where
  inv : HeapInv d env h' f'
  places : (f' = f ∧ h'.objRefcount s ≠ h'.objLen s) ∨
    (f' = moved f (.list i) (.idle i) s ∧ h'.objRefcount s = h'.objLen s)
  nonempty : batch ≠ []
  split : h.objs s = batch ++ h'.objs s
  objs : ∀ x, x ≠ s → h'.objs x = h.objs x
  refcount : h'.objRefcount s = h.objRefcount s + batch.length
  objsSize : h'.objsSize = h.objsSize
  pageSize : h'.pageSize = h.pageSize
  start : h'.start = h.start
  brk : h'.brk = h.brk
  loc : ∀ x, x ≠ s → h'.loc x = h.loc x

/-- `fetch_objs` takes objects off a span of the list, which becomes idle if it has
none left and none has ever come back to it. -/
theorem takeObjs_spec (hi : HeapInv d env h f) (hs : s ∈ f (.list i)) (hne : h.objs s ≠ [])
    {num : Nat} (hnum : 0 < num) :
    ∃ batch h' f', takeObjs num i s h = .ok (batch, h') ∧ Taken d env i s f f' h h' batch ∧
      batch.length ≤ num := by
  have hpl := hi.pages.placed
  have hk : Kind d h (.list i) s := hi.kinds.kind hs
  obtain ⟨hcls, hsize, hpage, hcount, hlen, hexact⟩ := hk.1
  have hcap := capacity_le i
  have hpos : 0 < (h.objs s).length := List.length_pos_iff.mpr hne
  obtain ⟨n, hn⟩ : ∃ n, n = min num (h.objLen s - h.objRefcount s) := ⟨_, rfl⟩
  obtain ⟨batch, hbatch⟩ : ∃ batch, batch = (h.objs s).take n := ⟨_, rfl⟩
  have hblen : batch.length = min n (h.objs s).length := by rw [hbatch, List.length_take]
  have hbne : batch ≠ [] := List.ne_nil_of_length_pos (by omega)
  have hmod : (h.objRefcount s + batch.length) % 2 ^ 32 = h.objRefcount s + batch.length :=
    Nat.mod_eq_of_lt (by omega)
  set h₁ : Heap := { h with
    objs := Function.update h.objs s ((h.objs s).drop n)
    objRefcount := Function.update h.objRefcount s (h.objRefcount s + batch.length) } with hh₁
  have hobj₁ : h₁.objs s = (h.objs s).drop n := by simp [hh₁]
  have href₁ : h₁.objRefcount s = h.objRefcount s + batch.length := by simp [hh₁]
  have hrun : takeObjs num i s h =
      if h₁.objRefcount s = h₁.objLen s then (do
        let h ← h₁.remove (.centralList i) s
        .ok (batch, (h.push (.centralIdle i) s).setLoc s .centralIdle))
      else .ok (batch, h₁) := by
    simp only [takeObjs, if_pos (show h.objRefcount s ≤ h.objLen s by omega), ← hn, ← hbatch,
      if_neg hbne, hmod]
    rfl
  have hsame : ∀ x, x ≠ s → SameRecord h h₁ x := fun x hx =>
    ⟨by simp [hh₁, hx], rfl, rfl, by simp [hh₁, hx], rfl, rfl⟩
  have hcarved : Carved d h₁ i s := by
    refine ⟨hcls, hsize, hpage, ?_, hlen, hexact⟩
    rw [hobj₁, href₁, List.length_drop]
    omega
  have hsplit : h.objs s = batch ++ h₁.objs s := by rw [hobj₁, hbatch, List.take_append_drop]
  have hi₁ : HeapInv d env h₁ f := by
    refine ⟨hi.record.congr rfl rfl rfl rfl fun x hx hb => ?_, hi.pages.congr rfl rfl rfl rfl rfl
      fun _ => ⟨rfl, rfl, rfl⟩, hi.links, hi.kinds.stay hsame (fun p hp => ?_) (fun hu => ?_)
      hi.kinds.noStray⟩
    · have hxs : x ≠ s := by have := (hi.pages.owned hs).below; omega
      exact hb.congr (by simp [hh₁, hxs]) rfl rfl rfl rfl (by simp [hh₁, hxs]) rfl rfl
    · obtain rfl : p = .list i := hpl.unique hp hs
      exact ⟨hcarved, hk.2⟩
    · exact absurd hs (hu _)
  rw [hrun]
  by_cases hfull : h₁.objRefcount s = h₁.objLen s
  · -- nothing is left, and nothing has come back: the span is idle
    have hlen₁ : h₁.objLen s = h.objLen s := rfl
    have hnil : h₁.objs s = [] := by
      rw [List.eq_nil_iff_length_eq_zero, hobj₁, List.length_drop]
      rw [href₁, hlen₁] at hfull
      omega
    obtain ⟨l, hrem, hput, hst⟩ := hi₁.links.transfer hpl (r := .list i) (q := .idle i) (by simp) hs
    have hremove : h₁.remove (.centralList i) s = .ok { h₁ with toLinks := l } := by
      have : removeSpan (.centralList i) s h₁.toLinks = .ok l := hrem
      simp only [Heap.remove, this]
      rfl
    have hne₂ : SpanPlace.list i ≠ .idle i := by simp
    refine ⟨batch, _, moved f (.list i) (.idle i) s,
      by rw [if_pos hfull, hremove, ok_bind], ?_, by omega⟩
    refine ⟨⟨hi₁.record.congr rfl rfl rfl rfl fun x hx hb => ?_, PageInv.congr_places (f := f)
      (hi₁.pages.congr rfl rfl rfl rfl rfl fun _ => ⟨rfl, rfl, rfl⟩) (placed_moved hpl hne₂ hs)
      fun _ _ hx => exists_of_mem_moved hpl hne₂ hs hx, hput, hi₁.kinds.place hpl hne₂ hs
      (fun x hx => ⟨rfl, rfl, rfl, rfl, rfl, by simp [Heap.setLoc, Heap.push, hx]⟩)
      ⟨hcarved.congr rfl rfl rfl rfl rfl, by simp [Heap.setLoc], fun _ => hnil⟩ fun ht he => ?_⟩,
      Or.inr ⟨rfl, hfull⟩, hbne, hsplit, fun x hx => (hsame x hx).objs, href₁, rfl, rfl, rfl, rfl,
      fun x hx => by simp [Heap.setLoc, Heap.push, hh₁, hx]⟩
    · have hxs : x ≠ s := by
        have := (hi.pages.owned hs).below
        have hx : h.bound ≤ x := hx
        omega
      exact hb.congr rfl rfl (by simp [Heap.setLoc, Heap.push, hxs]) rfl rfl rfl rfl rfl
    · exact hi.kinds.noStray ht (hst.mp ((Iff.of_eq (spanlistPush_stray (.idle i) s l)).mp he))
  · exact ⟨batch, h₁, f, by rw [if_neg hfull], ⟨hi₁, Or.inl ⟨rfl, hfull⟩, hbne, hsplit,
      fun x hx => (hsame x hx).objs, href₁, rfl, rfl, rfl, rfl, fun _ _ => rfl⟩, by omega⟩

end Objects

end SearchEngine.TcMalloc
