import SearchEngine.TcMalloc.PageHeap

/-!
# The ring operations on one list

`RingAt l r xs` says that the head `r` leads a ring of the spans `xs`. `spanlist_push` and
`remove_span` are the operations `s :: xs` and `xs.erase s` on it, and write no link outside
of it (`RingAt.push`, `RingAt.remove`).
-/

namespace SearchEngine.TcMalloc

open LinkedRing

/-- The lists that have a head. -/
inductive RingHead where
  | pg (i : Nat)
  | list (i : Nat)
  | idle (i : Nat)
  deriving DecidableEq

def RingHead.ref : RingHead → HeadRef
  | .pg i => .pgList i
  | .list i => .centralList i
  | .idle i => .centralIdle i

/-! ## Heads -/

@[simp] theorem setHead_next (v : Option SpanPtr) (l : Links) (r : RingHead) :
    (l.setHead v r.ref).next = l.next := by
  cases r <;> rfl

@[simp] theorem setHead_prev (v : Option SpanPtr) (l : Links) (r : RingHead) :
    (l.setHead v r.ref).prev = l.prev := by
  cases r <;> rfl

@[simp] theorem setHead_stray (v : Option SpanPtr) (l : Links) (r : RingHead) :
    (l.setHead v r.ref).stray = l.stray := by
  cases r <;> rfl

theorem head_setHead (v : Option SpanPtr) (l : Links) (r r' : RingHead) :
    (l.setHead v r.ref).head r'.ref = if r' = r then v else l.head r'.ref := by
  cases r <;> cases r' <;>
    simp [RingHead.ref, Links.setHead, Links.head, Function.update_apply]

/-! ## Pop -/

section Pop

variable {l : Links} {s p n : SpanPtr} {r : RingHead}

/-- A span linked only to itself, popped through its own `prev` field, loses that
link and stays where it is. -/
theorem pop_prevOf_self (hn : l.next s = some s) :
    spanlistPop (.prevOf s) s l = .ok (l.setPrev s none) := by
  simp [spanlistPop, hn, Links.setHead]

theorem pop_prevOf (hn : l.next s = some n) (hp : l.prev s = some p) (hns : n ≠ s)
    (hps : p ≠ s) :
    spanlistPop (.prevOf s) s l =
      .ok { l with next := unlinkNx l.next p s n, prev := unlinkPv l.prev p s n } := by
  have hne : l.next s ≠ some s := by rw [hn]; exact fun e => hns (Option.some.inj e)
  have hps' : ¬ (some p = some s) := fun e => hps (Option.some.inj e)
  simp [spanlistPop, hn, hp, hns, Links.setNext, Links.setPrev, Links.head, unlinkNx, unlinkPv,
    Function.update_of_ne (Ne.symm hns), hps, bind, Except.bind]

theorem pop_head_self (hn : l.next s = some s) :
    spanlistPop r.ref s l = .ok (l.setHead none r.ref) := by
  simp [spanlistPop, hn]

theorem pop_head (hh : l.head r.ref = some s) (hn : l.next s = some n) (hp : l.prev s = some p)
    (hns : n ≠ s) (hps : p ≠ s) :
    spanlistPop r.ref s l =
      .ok ({ l with next := unlinkNx l.next p s n, prev := unlinkPv l.prev p s n }.setHead
        (some n) r.ref) := by
  cases r <;>
    simp_all [spanlistPop, Links.setNext, Links.setPrev, Links.head, Links.setHead, unlinkNx,
      unlinkPv, RingHead.ref, bind, Except.bind, Function.update_of_ne (Ne.symm hps)]

end Pop

/-! ## Rings -/

/-- The head `r` leads a ring of the spans `xs`, in this order. -/
structure RingAt (l : Links) (r : RingHead) (xs : List SpanPtr) : Prop where
  ring : IsRing l.next l.prev xs
  head : l.head r.ref = xs.head?
  nodup : xs.Nodup

/-- Between `l` and `l'` only links of the spans `xs` and the head `r` are written. -/
structure Untouched (l l' : Links) (r : RingHead) (xs : List SpanPtr) : Prop where
  next : ∀ x, x ∉ xs → l'.next x = l.next x
  prev : ∀ x, x ∉ xs → l'.prev x = l.prev x
  head : ∀ r', r' ≠ r → l'.head r'.ref = l.head r'.ref

section Ring

variable {l : Links} {r q : RingHead} {xs : List SpanPtr} {s : SpanPtr}

/-- `spanlist_push` before the first span of a ring. -/
theorem push_cons {a p : SpanPtr} (hhead : l.head r.ref = some a) (hprev : l.prev a = some p) :
    (spanlistPush r.ref s l).next = linkNx l.next p s a ∧
      (spanlistPush r.ref s l).prev = linkPv l.prev p s a ∧
      ∀ r' : RingHead, (spanlistPush r.ref s l).head r'.ref =
        if r' = r then some s else l.head r'.ref := by
  have hpush : spanlistPush r.ref s l = spanlistLink r.ref a p s l := by
    simp only [spanlistPush, hhead, hprev]
  rw [hpush]
  refine ⟨?_, ?_, fun r' => ?_⟩
  · simp [spanlistLink, Links.setNext, Links.setPrev, linkNx]
  · simp [spanlistLink, Links.setNext, Links.setPrev, linkPv]
  · rw [spanlistLink, head_setHead]
    cases r' <;> rfl

/-- `spanlist_push` on an empty list. -/
theorem push_nil (hhead : l.head r.ref = none) :
    (spanlistPush r.ref s l).next = Function.update l.next s (some s) ∧
      (spanlistPush r.ref s l).prev = Function.update l.prev s (some s) ∧
      ∀ r' : RingHead, (spanlistPush r.ref s l).head r'.ref =
        if r' = r then some s else l.head r'.ref := by
  have hpush : spanlistPush r.ref s l =
      ((l.setHead (some s) r.ref).setNext s (some s)).setPrev s (some s) := by
    rw [spanlistPush, hhead]
  rw [hpush]
  refine ⟨?_, ?_, fun r' => ?_⟩
  · simp [Links.setNext, Links.setPrev]
  · simp [Links.setNext, Links.setPrev]
  · rw [← head_setHead]
    cases r' <;> rfl

theorem RingAt.push (h : RingAt l r xs) (hs : s ∉ xs) :
    RingAt (spanlistPush r.ref s l) r (s :: xs) ∧
      Untouched l (spanlistPush r.ref s l) r (s :: xs) := by
  have hnd : (s :: xs).Nodup := List.nodup_cons.mpr ⟨hs, h.nodup⟩
  cases xs with
  | nil =>
    obtain ⟨hnx, hpv, hhd⟩ := push_nil (s := s) h.head
    refine ⟨⟨?_, ?_, hnd⟩, fun x hx => ?_, fun x hx => ?_, fun r' hr => ?_⟩
    · rw [hnx, hpv, isRing_singleton, Function.update_self, Function.update_self]
      exact ⟨rfl, rfl⟩
    · rw [hhd, if_pos rfl]
      rfl
    · rw [hnx, Function.update_of_ne (List.ne_of_not_mem_cons hx)]
    · rw [hpv, Function.update_of_ne (List.ne_of_not_mem_cons hx)]
    · rw [hhd, if_neg hr]
  | cons a t =>
    obtain ⟨p, hprev⟩ : ∃ p, l.prev a = some p := ⟨_, h.ring.pv_head⟩
    have hpm : p ∈ a :: t := by
      rw [Option.some.inj (hprev.symm.trans h.ring.pv_head)]
      exact List.getLast_mem _
    obtain ⟨hnx, hpv, hhd⟩ := push_cons (s := s) h.head hprev
    refine ⟨⟨?_, ?_, hnd⟩, fun x hx => ?_, fun x hx => ?_, fun r' hr => ?_⟩
    · rw [hnx, hpv]
      exact h.ring.push h.nodup hs hprev
    · rw [hhd, if_pos rfl]
      rfl
    · rw [hnx]
      exact linkNx_of_ne (fun e => hx (e ▸ List.mem_cons_of_mem s hpm))
        (List.ne_of_not_mem_cons hx)
    · rw [hpv]
      exact linkPv_of_ne (fun e => hx (e ▸ List.mem_cons_of_mem s List.mem_cons_self))
        (List.ne_of_not_mem_cons hx)
    · rw [hhd, if_neg hr]

/-- The neighbours of a span of the ring. It is its own neighbour only if it is alone. -/
theorem RingAt.links (h : RingAt l r xs) (hs : s ∈ xs) :
    ∃ n ∈ xs, ∃ p ∈ xs, l.next s = some n ∧ l.prev s = some p ∧ (n = s ↔ p = s) ∧
      (n = s → xs = [s]) := by
  obtain ⟨n, hn, p, hp, h1, h2, h3, h4⟩ := h.ring.closed.links hs
  refine ⟨n, hn, p, hp, h1, h3, ⟨fun e => ?_, fun e => ?_⟩, fun e => ?_⟩
  · subst e
    exact Option.some.inj (h3.symm.trans h2)
  · subst e
    exact Option.some.inj (h1.symm.trans h4)
  · subst e
    exact h.ring.eq_singleton h.nodup hs h1

/-- The links after `s`, between `p` and `n`, is taken off the ring. -/
def Links.unlink (l : Links) (p s n : SpanPtr) : Links :=
  { l with next := unlinkNx l.next p s n, prev := unlinkPv l.prev p s n }

theorem head_unlink (l : Links) (p s n : SpanPtr) (r : RingHead) :
    (l.unlink p s n).head r.ref = l.head r.ref := by
  cases r <;> rfl

theorem erase_append_cons {l₁ l₂ : List SpanPtr} (hs : s ∉ l₁) :
    (l₁ ++ s :: l₂).erase s = l₁ ++ l₂ := by
  rw [List.erase_append_right _ hs, List.erase_cons_head]

/-- The links of the ring when a span that is not alone is taken off. -/
theorem RingAt.unlink {p n : SpanPtr} (h : RingAt l r xs) (hs : s ∈ xs)
    (h1 : l.next s = some n) (h2 : l.prev s = some p) (hns : n ≠ s) :
    IsRing (unlinkNx l.next p s n) (unlinkPv l.prev p s n) (xs.erase s) := by
  have hnd := h.nodup
  obtain ⟨m₁, m₂, rfl⟩ := List.append_of_mem hs
  have hsm : s ∉ m₁ := fun hm => (List.nodup_append.mp hnd).2.2 s hm s List.mem_cons_self rfl
  rw [erase_append_cons hsm]
  exact h.ring.unlink hnd h1 h2 hns

theorem Links.unlink_untouched {p n : SpanPtr} (l : Links) (r : RingHead) (hs : s ∈ xs)
    (hp : p ∈ xs) (hn : n ∈ xs) : Untouched l (l.unlink p s n) r xs where
  next _ hx := unlinkNx_of_ne (fun e => hx (e ▸ hp)) fun e => hx (e ▸ hs)
  prev _ hx := unlinkPv_of_ne (fun e => hx (e ▸ hn)) fun e => hx (e ▸ hs)
  head r' _ := head_unlink l p s n r'

/-- A span is off the ring: what is left is a ring, and it is linked to itself. -/
structure Removed (l l' : Links) (r : RingHead) (xs : List SpanPtr) (s : SpanPtr) : Prop where
  ring : RingAt l' r (xs.erase s)
  next : l'.next s = some s
  prev : l'.prev s = some s
  frame : Untouched l l' r xs

/-- A span that is not first on its list, popped through its own `prev` field. -/
theorem RingAt.pop_own (h : RingAt l r xs) (hs : s ∈ xs) (hh : l.head r.ref ≠ some s) :
    ∃ l', spanlistPop (.prevOf s) s l = .ok l' ∧ Removed l l' r xs s ∧ l'.stray = l.stray := by
  obtain ⟨n, hn, p, hp, h1, h2, hiff, hone⟩ := h.links hs
  have hns : n ≠ s := by
    intro e
    rw [h.head, hone e] at hh
    exact hh rfl
  refine ⟨l.unlink p s n, pop_prevOf h1 h2 hns (fun e => hns (hiff.mpr e)),
    ⟨⟨?_, ?_, ?_⟩, ?_, ?_, ?_⟩,
    rfl⟩
  · exact h.unlink hs h1 h2 hns
  · rw [head_unlink, h.head]
    cases xs with
    | nil => cases hs
    | cons a t =>
      have has : a ≠ s := fun e => hh (by rw [h.head, e]; rfl)
      rw [List.erase_cons_tail (by simpa using has)]
      rfl
  · exact h.nodup.erase s
  · exact Function.update_self ..
  · exact Function.update_self ..
  · exact l.unlink_untouched r hs hp hn

/-- The first span of a list, popped through the head. -/
theorem RingAt.pop_first (h : RingAt l r xs) (hh : l.head r.ref = some s) :
    ∃ l', spanlistPop r.ref s l = .ok l' ∧ Removed l l' r xs s ∧ l'.stray = l.stray := by
  obtain ⟨t, rfl⟩ : ∃ t, xs = s :: t := by
    have hhead := h.head.symm.trans hh
    cases xs with
    | nil => cases hhead
    | cons a t => exact ⟨t, by rw [Option.some.inj hhead]⟩
  have hs : s ∈ s :: t := List.mem_cons_self
  obtain ⟨n, hn, p, hp, h1, h2, hiff, hone⟩ := h.links hs
  by_cases hns : n = s
  · -- the span is alone on its list
    obtain rfl : t = [] := (List.cons.inj (hone hns)).2
    obtain rfl := hiff.mp hns
    subst hns
    refine ⟨l.setHead none r.ref, pop_head_self h1, ⟨⟨?_, ?_, ?_⟩, ?_, ?_, ?_⟩, setHead_stray ..⟩
    · rw [List.erase_cons_head]
      trivial
    · rw [head_setHead, if_pos rfl, List.erase_cons_head]
      rfl
    · exact h.nodup.erase n
    · rw [setHead_next, h1]
    · rw [setHead_prev, h2]
    · refine ⟨fun x _ => by rw [setHead_next], fun x _ => by rw [setHead_prev], fun r' hr => ?_⟩
      rw [head_setHead, if_neg hr]
  · -- the span behind it is first now
    have hunt := l.unlink_untouched r hs hp hn
    refine ⟨(l.unlink p s n).setHead (some n) r.ref,
      pop_head hh h1 h2 hns (fun e => hns (hiff.mpr e)), ⟨⟨?_, ?_, ?_⟩, ?_, ?_, ?_⟩,
      setHead_stray ..⟩
    · rw [setHead_next, setHead_prev]
      exact h.unlink hs h1 h2 hns
    · rw [head_setHead, if_pos rfl, List.erase_cons_head]
      cases t with
      | nil => exact absurd (List.mem_singleton.mp hn) hns
      | cons b t => exact h1.symm.trans h.ring.nx_head
    · exact h.nodup.erase s
    · rw [setHead_next]
      exact Function.update_self ..
    · rw [setHead_prev]
      exact Function.update_self ..
    · refine ⟨fun x hx => ?_, fun x hx => ?_, fun r' hr => ?_⟩
      · rw [setHead_next, hunt.next x hx]
      · rw [setHead_prev, hunt.prev x hx]
      · rw [head_setHead, if_neg hr, hunt.head r' hr]

/-- `remove_span` is a pop, through the head for the span that it points to. (`stray` notes
the calls with the wrong head.) -/
theorem removeSpan_eq (r : RingHead) (s : SpanPtr) (l : Links) :
    removeSpan r.ref s l =
      if l.head r.ref = some s then
        spanlistPop r.ref s { l with stray := l.stray ∨ ¬ OnRing l.next (l.head r.ref) s }
      else
        spanlistPop (.prevOf s) s
          { l with stray := l.stray ∨ ¬ OnRing l.next (l.head r.ref) s } := by
  cases r <;> rfl

/-- The note changes no ring. -/
theorem RingAt.noted (h : RingAt l r xs) (note : Prop) : RingAt { l with stray := note } r xs where
  ring := h.ring
  head := by
    rw [← h.head]
    cases r <;> rfl
  nodup := h.nodup

theorem Removed.noted {l' : Links} {note : Prop} (h : Removed { l with stray := note } l' r xs s) :
    Removed l l' r xs s where
  ring := h.ring
  next := h.next
  prev := h.prev
  frame := by
    refine ⟨h.frame.next, h.frame.prev, fun r' hr => ?_⟩
    rw [h.frame.head r' hr]
    cases r' <;> rfl

theorem RingAt.remove (h : RingAt l r xs) (hs : s ∈ xs) :
    ∃ l', removeSpan r.ref s l = .ok l' ∧ Removed l l' r xs s ∧ (l'.stray ↔ l.stray) := by
  have hon : OnRing l.next (l.head r.ref) s := by
    rw [h.head]
    exact (onRing_iff h.ring).mpr hs
  have hnote : (l.stray ∨ ¬ OnRing l.next (l.head r.ref) s) ↔ l.stray :=
    or_iff_left (not_not.mpr hon)
  have h' := h.noted (l.stray ∨ ¬ OnRing l.next (l.head r.ref) s)
  rw [removeSpan_eq]
  by_cases hh : l.head r.ref = some s
  · obtain ⟨l', hrun, hrem, hst⟩ := h'.pop_first (h'.head.trans (h.head.symm.trans hh))
    refine ⟨l', ?_, hrem.noted, ?_⟩
    · rw [if_pos hh, hrun]
    · rw [hst]
      exact hnote
  · obtain ⟨l', hrun, hrem, hst⟩ := h'.pop_own hs fun e => hh (h.head.trans (h'.head.symm.trans e))
    refine ⟨l', ?_, hrem.noted, ?_⟩
    · rw [if_neg hh, hrun]
    · rw [hst]
      exact hnote

/-- The ring operations are those of a sequence of spans, and write nothing outside of it. -/
theorem spanRing_ops (h : RingAt l r xs) (s : SpanPtr) :
    (s ∉ xs → RingAt (spanlistPush r.ref s l) r (s :: xs) ∧
      Untouched l (spanlistPush r.ref s l) r (s :: xs)) ∧
    (s ∈ xs → ∃ l', removeSpan r.ref s l = .ok l' ∧ Removed l l' r xs s) := by
  refine ⟨h.push, fun hs => ?_⟩
  obtain ⟨l', hrun, hrem, -⟩ := h.remove hs
  exact ⟨l', hrun, hrem⟩

/-- The span 5 is alone on the first list of the page heap. -/
def soloLinks : Links where
  prev := some
  next := some
  pgList := Function.update (fun _ => none) 0 (some 5)
  list := fun _ => none
  idle := fun _ => none
  stray := False

theorem soloLinks_ring : RingAt soloLinks (.pg 0) [5] where
  ring := isRing_singleton.mpr ⟨rfl, rfl⟩
  head := rfl
  nodup := List.nodup_singleton 5

theorem spanRing_ops_two :
    RingAt (spanlistPush (.pgList 0) 7 soloLinks) (.pg 0) [7, 5] ∧
      ∃ l', removeSpan (.pgList 0) 5 (spanlistPush (.pgList 0) 7 soloLinks) = .ok l' ∧
        Removed (spanlistPush (.pgList 0) 7 soloLinks) l' (.pg 0) [7, 5] 5 := by
  have htwo := ((spanRing_ops soloLinks_ring 7).1 (by decide)).1
  exact ⟨htwo, (spanRing_ops htwo 5).2 (by decide)⟩

end Ring

end SearchEngine.TcMalloc
