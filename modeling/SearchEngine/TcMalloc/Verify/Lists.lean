import SearchEngine.TcMalloc.Verify.SpanRing
import SearchEngine.Lib.Placement

/-!
# The span lists as circular lists

`SpanPlace` names the places a span in use can be in. `LinkInv l f` says that the
links `l` represent the contents `f` of the places: each list head leads a ring of
exactly the spans of its list, in order. The place `lost i` is for the spans of size
class `i` that are linked among themselves but that no head leads to any more;
`return_objs_to_centralcache` can detach spans in this way (`LinkInv.detach`).

Each list operation of the source is described by what it does to the contents.
-/

namespace SearchEngine.TcMalloc

open LinkedRing Placement

/-- Where a span in use is. -/
inductive SpanPlace where
  /-- on `pgcache.list[i]` -/
  | pg (i : Nat)
  /-- on `centralcache.list[i]` -/
  | list (i : Nat)
  /-- on `centralcache.idle[i]` -/
  | idle (i : Nat)
  /-- of size class `i`, linked, and on no list -/
  | lost (i : Nat)
  /-- with a thread, on its way from one list to another -/
  | hand (t : Nat)
  /-- with the user, as a large block -/
  | user
  deriving DecidableEq

/-- The size class of the spans in a place of the central cache. -/
def SpanPlace.cls? : SpanPlace → Option Nat
  | .list i | .idle i | .lost i => some i
  | _ => none

namespace RingHead

def place : RingHead → SpanPlace
  | .pg i => .pg i
  | .list i => .list i
  | .idle i => .idle i

theorem place_inj {r r' : RingHead} (h : r.place = r'.place) : r = r' := by
  cases r <;> cases r' <;> simp_all [place]

theorem place_ne_lost (r : RingHead) (i : Nat) : r.place ≠ .lost i := by
  cases r <;> simp [place]

end RingHead

/-- The links represent the contents `f` of the places. -/
structure LinkInv (l : Links) (f : SpanPlace → List SpanPtr) : Prop where
  ring : ∀ r : RingHead, IsRing l.next l.prev (f r.place)
  head : ∀ r : RingHead, l.head r.ref = (f r.place).head?
  lost : ∀ i, Closed l.next l.prev (f (.lost i))

/-- A span that the links lead to. -/
def Linked (f : SpanPlace → List SpanPtr) (s : SpanPtr) : Prop :=
  (∃ r : RingHead, s ∈ f r.place) ∨ ∃ i, s ∈ f (.lost i)

namespace LinkInv

variable {l l' : Links} {f f' : SpanPlace → List SpanPtr} {s : SpanPtr} {r : RingHead} {i : Nat}

/-- Only the contents of the lists matter. -/
theorem congr_places (hl : LinkInv l f) (hr : ∀ r : RingHead, f' r.place = f r.place)
    (hi : ∀ i, f' (.lost i) = f (.lost i)) : LinkInv l f' :=
  ⟨fun r => hr r ▸ hl.ring r, fun r => hr r ▸ hl.head r, fun i => hi i ▸ hl.lost i⟩

/-- Links of spans that are on no list do not matter. -/
theorem congr_links (hl : LinkInv l f) (hhead : ∀ r : RingHead, l'.head r.ref = l.head r.ref)
    (hs : ∀ x, Linked f x → l'.next x = l.next x ∧ l'.prev x = l.prev x) : LinkInv l' f where
  ring r := (hl.ring r).congr fun x hx => hs x (.inl ⟨r, hx⟩)
  head r := (hhead r).trans (hl.head r)
  lost i := (hl.lost i).congr fun x hx => hs x (.inr ⟨i, hx⟩)

theorem onRing_iff (hl : LinkInv l f) : OnRing l.next (l.head r.ref) s ↔ s ∈ f r.place := by
  rw [hl.head r]
  exact LinkedRing.onRing_iff (hl.ring r)

theorem ringAt (hl : LinkInv l f) (hp : Placed f) (r : RingHead) : RingAt l r (f r.place) :=
  ⟨hl.ring r, hl.head r, hp.nodup r.place⟩

theorem update_place_of_ne {m : List SpanPtr} {r' : RingHead} (h : r' ≠ r) :
    Function.update f r.place m r'.place = f r'.place :=
  Function.update_of_ne (fun e => h (RingHead.place_inj e)) _ _

theorem update_place_lost {m : List SpanPtr} :
    Function.update f r.place m (.lost i) = f (.lost i) :=
  Function.update_of_ne (Ne.symm (r.place_ne_lost i)) _ _

/-- One list is another ring now, and no link of the other places has been written. -/
theorem rewire (hl : LinkInv l f) {m xs : List SpanPtr} (hr : RingAt l' r m)
    (hu : Untouched l l' r xs) (hring : ∀ r' : RingHead, r' ≠ r → ∀ x ∈ f r'.place, x ∉ xs)
    (hlost : ∀ i, ∀ x ∈ f (.lost i), x ∉ xs) : LinkInv l' (Function.update f r.place m) where
  ring r' := by
    by_cases h : r' = r
    · subst h
      rw [Function.update_self]
      exact hr.ring
    · rw [update_place_of_ne h]
      exact (hl.ring r').congr fun x hx =>
        ⟨hu.next x (hring r' h x hx), hu.prev x (hring r' h x hx)⟩
  head r' := by
    by_cases h : r' = r
    · subst h
      rw [Function.update_self]
      exact hr.head
    · rw [update_place_of_ne h, hu.head r' h]
      exact hl.head r'
  lost i := by
    rw [update_place_lost]
    exact (hl.lost i).congr fun x hx => ⟨hu.next x (hlost i x hx), hu.prev x (hlost i x hx)⟩

/-- A ring whose spans are all from the list of `r`. -/
theorem rewire_own (hl : LinkInv l f) (hp : Placed f) {m : List SpanPtr} (hr : RingAt l' r m)
    (hu : Untouched l l' r (f r.place)) : LinkInv l' (Function.update f r.place m) := by
  refine hl.rewire hr hu (fun r' h x hx hxr => ?_) (fun i x hx hxr => ?_)
  · exact h (RingHead.place_inj (hp.unique hx hxr))
  · exact r.place_ne_lost i (hp.unique hxr hx)

/-- `spanlist_push` of a span that is on no list. -/
theorem push (hl : LinkInv l f) (hp : Placed f) (r : RingHead) (hs : ¬ Linked f s) :
    LinkInv (spanlistPush r.ref s l) (Function.update f r.place (s :: f r.place)) := by
  obtain ⟨hring, hunt⟩ := (hl.ringAt hp r).push fun hmem => hs (.inl ⟨r, hmem⟩)
  refine hl.rewire hring hunt (fun r' h x hx hxs => ?_) (fun i x hx hxs => ?_)
  · rcases List.mem_cons.mp hxs with rfl | hxr
    · exact hs (.inl ⟨r', hx⟩)
    · exact h (RingHead.place_inj (hp.unique hx hxr))
  · rcases List.mem_cons.mp hxs with rfl | hxr
    · exact hs (.inr ⟨i, hx⟩)
    · exact r.place_ne_lost i (hp.unique hxr hx)

/-- The neighbours of a linked span are in its place, and differ from it unless it is
linked to itself. -/
theorem links (hl : LinkInv l f) {q : SpanPlace}
    (hq : (∃ r : RingHead, q = r.place) ∨ ∃ i, q = .lost i) (hs : s ∈ f q) :
    ∃ n ∈ f q, ∃ p ∈ f q, l.next s = some n ∧ l.prev s = some p ∧ (n = s ↔ p = s) := by
  have hc : Closed l.next l.prev (f q) := by
    rcases hq with ⟨r, rfl⟩ | ⟨i, rfl⟩
    · exact (hl.ring r).closed
    · exact hl.lost i
  obtain ⟨n, hn, p, hp, h1, h2, h3, h4⟩ := hc.links hs
  refine ⟨n, hn, p, hp, h1, h3, fun e => ?_, fun e => ?_⟩
  · subst e; exact Option.some.inj (h3.symm.trans h2)
  · subst e; exact Option.some.inj (h1.symm.trans h4)

/-- Unlinking a span inside its place leaves the rings of the other places. -/
theorem unlink_ring (hl : LinkInv l f) (hp : Placed f) {q : SpanPlace} {p n : SpanPtr}
    (hs : s ∈ f q) (hpq : p ∈ f q) (hnq : n ∈ f q) {r : RingHead} (hr : r.place ≠ q) :
    IsRing (unlinkNx l.next p s n) (unlinkPv l.prev p s n) (f r.place) := by
  have key : ∀ x ∈ f r.place, ∀ y ∈ f q, x ≠ y := fun x hx y hy e => hr (hp.unique hx (e ▸ hy))
  exact (hl.ring r).congr fun x hx =>
    ⟨unlinkNx_of_ne (key x hx p hpq) (key x hx s hs), unlinkPv_of_ne (key x hx n hnq)
      (key x hx s hs)⟩

theorem unlink_lost (hl : LinkInv l f) (hp : Placed f) {q : SpanPlace} {p n : SpanPtr}
    (hs : s ∈ f q) (hpq : p ∈ f q) (hnq : n ∈ f q) (hi : SpanPlace.lost i ≠ q) :
    Closed (unlinkNx l.next p s n) (unlinkPv l.prev p s n) (f (.lost i)) := by
  have key : ∀ x ∈ f (.lost i), ∀ y ∈ f q, x ≠ y := fun x hx y hy e => hi (hp.unique hx (e ▸ hy))
  exact (hl.lost i).congr fun x hx =>
    ⟨unlinkNx_of_ne (key x hx p hpq) (key x hx s hs), unlinkPv_of_ne (key x hx n hnq)
      (key x hx s hs)⟩

/-- The contents of the places after `s` is dropped from the list of `r`. -/
abbrev dropped (f : SpanPlace → List SpanPtr) (r : RingHead) (s : SpanPtr) :
    SpanPlace → List SpanPtr :=
  Function.update f r.place ((f r.place).erase s)

/-- Unlinking a span from its list, seen on the link fields alone. -/
theorem unlink_own (hl : LinkInv l f) (hp : Placed f) {p n : SpanPtr} (hs : s ∈ f r.place)
    (hpm : p ∈ f r.place) (hn : n ∈ f r.place) (h1 : l.next s = some n) (h2 : l.prev s = some p)
    (hns : n ≠ s) :
    (∀ r' : RingHead, IsRing (unlinkNx l.next p s n) (unlinkPv l.prev p s n)
      (dropped f r s r'.place)) ∧
    ∀ i, Closed (unlinkNx l.next p s n) (unlinkPv l.prev p s n) (dropped f r s (.lost i)) := by
  constructor
  · intro r'
    by_cases h : r' = r
    · subst h
      rw [dropped, Function.update_self]
      exact (hl.ringAt hp r').unlink hs h1 h2 hns
    · rw [dropped, update_place_of_ne h]
      exact hl.unlink_ring hp hs hpm hn (fun e => h (RingHead.place_inj e))
  · intro i
    rw [dropped, update_place_lost]
    exact hl.unlink_lost hp hs hpm hn (Ne.symm (r.place_ne_lost i))

/-- A span that is not first on its list, popped through its own `prev` field. -/
theorem pop_own (hl : LinkInv l f) (hp : Placed f) (hs : s ∈ f r.place)
    (hh : l.head r.ref ≠ some s) :
    ∃ l', spanlistPop (.prevOf s) s l = .ok l' ∧ LinkInv l' (dropped f r s) ∧
      l'.stray = l.stray := by
  obtain ⟨l', hrun, hrem, hst⟩ := (hl.ringAt hp r).pop_own hs hh
  exact ⟨l', hrun, hl.rewire_own hp hrem.ring hrem.frame, hst⟩

/-- The ghost write of `remove_span` changes no list. -/
theorem noted (hl : LinkInv l f) (q : Prop) : LinkInv { l with stray := q } f :=
  hl.congr_links (fun r => by cases r <;> rfl) fun x _ => ⟨rfl, rfl⟩

/-- `remove_span` of a span that is on the list of the head. -/
theorem remove (hl : LinkInv l f) (hp : Placed f) (hs : s ∈ f r.place) :
    ∃ l', removeSpan r.ref s l = .ok l' ∧ LinkInv l' (dropped f r s) ∧
      (l'.stray ↔ l.stray) := by
  obtain ⟨l', hrun, hrem, hst⟩ := (hl.ringAt hp r).remove hs
  exact ⟨l', hrun, hl.rewire_own hp hrem.ring hrem.frame, hst⟩

/-- `remove_span`, with any head, of a span that no head leads to. -/
theorem remove_lost (hl : LinkInv l f) (hp : Placed f) (r : RingHead) (hs : s ∈ f (.lost i)) :
    ∃ l', removeSpan r.ref s l = .ok l' ∧
      LinkInv l' (Function.update f (.lost i) ((f (.lost i)).erase s)) := by
  set l₁ : Links := { l with stray := l.stray ∨ ¬ OnRing l.next (l.head r.ref) s } with hl₁
  have hl' : LinkInv l₁ f := hl.noted _
  have hh : l₁.head r.ref ≠ some s := by
    intro e
    rw [hl'.head r] at e
    exact r.place_ne_lost i (hp.unique (List.mem_of_mem_head? e) hs)
  have hrem : removeSpan r.ref s l = spanlistPop (.prevOf s) s l₁ := by
    rw [removeSpan_eq, if_neg fun e => hh (by rw [← e, hl₁]; cases r <;> rfl)]
  have hring : ∀ m, ∀ r' : RingHead, Function.update f (.lost i) m r'.place = f r'.place :=
    fun m r' => Function.update_of_ne (r'.place_ne_lost i) _ _
  have hother : ∀ m j, j ≠ i → Function.update f (.lost i) m (.lost j) = f (.lost j) :=
    fun m j h => Function.update_of_ne (by simpa using h) _ _
  have hperm : (f (.lost i)).Perm (s :: (f (.lost i)).erase s) := List.perm_cons_erase hs
  obtain ⟨n, hn, p, hpm, h1, h2, hiff⟩ := hl'.links (.inr ⟨i, rfl⟩) hs
  rw [hrem]
  by_cases hns : n = s
  · subst hns
    have hne : ∀ q x, x ∈ f q → q ≠ .lost i → x ≠ n := fun q x hx hq e =>
      hq (hp.unique hx (e ▸ hs))
    have hne' : ∀ x ∈ (f (.lost i)).erase n, x ≠ n := fun x hx e =>
      (List.nodup_cons.mp (hperm.nodup_iff.mp (hp.nodup _))).1 (e ▸ hx)
    refine ⟨_, pop_prevOf_self h1, ⟨fun r' => ?_, fun r' => ?_, fun j => ?_⟩⟩
    · rw [hring]
      exact (hl'.ring r').congr fun x hx =>
        ⟨rfl, Function.update_of_ne (hne _ x hx (r'.place_ne_lost i)) _ _⟩
    · rw [hring, ← hl'.head r']
      cases r' <;> rfl
    · by_cases hj : j = i
      · subst hj
        rw [Function.update_self]
        refine ((hl'.lost j).drop_self hperm (hp.nodup _) h1).congr fun x hx => ?_
        exact ⟨rfl, Function.update_of_ne (hne' x hx) _ _⟩
      · rw [hother _ _ hj]
        exact (hl'.lost j).congr fun x hx =>
          ⟨rfl, Function.update_of_ne (hne _ x hx (by simpa using hj)) _ _⟩
  · refine ⟨_, pop_prevOf h1 h2 hns (fun e => hns (hiff.mpr e)),
      ⟨fun r' => ?_, fun r' => ?_, fun j => ?_⟩⟩
    · rw [hring]
      exact hl'.unlink_ring hp hs hpm hn (r'.place_ne_lost i)
    · rw [hring, ← hl'.head r']
      cases r' <;> rfl
    · by_cases hj : j = i
      · subst hj
        rw [Function.update_self]
        exact (hl'.lost j).unlink hperm (hp.nodup _) h1 h2 hns
      · rw [hother _ _ hj]
        exact hl'.unlink_lost hp hs hpm hn (by simpa using hj)

end LinkInv

/-! ## A removal with the wrong head -/

/-- What stays on a list behind `s` when `s` is unlinked without regard to the head. -/
def keptBehind (s : SpanPtr) (m : List SpanPtr) : List SpanPtr :=
  if m.head? = some s then [] else m.erase s

/-- What the head loses when `s` is unlinked without regard to it. -/
def cutOff (s : SpanPtr) (m : List SpanPtr) : List SpanPtr :=
  if m.head? = some s then m.tail else []

namespace LinkInv

variable {l : Links} {f : SpanPlace → List SpanPtr} {s : SpanPtr} {r q : RingHead} {i : Nat}

/-- The contents of the places after `s` is unlinked without regard to its head and put back;
the spans that the head loses go to the place `lost i`. -/
abbrev detached (f : SpanPlace → List SpanPtr) (r : RingHead) (s : SpanPtr) (i : Nat) :
    SpanPlace → List SpanPtr :=
  Function.update (Function.update f r.place (s :: keptBehind s (f r.place))) (.lost i)
    (cutOff s (f r.place) ++ f (.lost i))

/-- `spanlist_push` of the span that the head points to already. -/
theorem push_first (hh : l.head r.ref = some s) (hn : l.next s = some s)
    (hp : l.prev s = none ∨ l.prev s = some s) :
    (spanlistPush r.ref s l).next = l.next ∧
      (spanlistPush r.ref s l).prev = Function.update l.prev s (some s) ∧
      ∀ r' : RingHead, (spanlistPush r.ref s l).head r'.ref = l.head r'.ref := by
  have hhead : ∀ r' : RingHead, (if r' = r then some s else l.head r'.ref) = l.head r'.ref := by
    intro r'
    by_cases h : r' = r
    · rw [if_pos h, h, hh]
    · rw [if_neg h]
  rcases hp with hp | hp
  · have hrun : spanlistPush r.ref s l =
        spanlistLink r.ref s s s ((l.setPrev s (some s)).setNext s (some s)) := by
      simp only [spanlistPush, hh, hp]
    rw [hrun, spanlistLink]
    refine ⟨?_, ?_, fun r' => ?_⟩
    · rw [setHead_next]
      simp [Links.setNext, Links.setPrev, ← hn]
    · rw [setHead_prev]
      simp [Links.setNext, Links.setPrev]
    · rw [head_setHead, ← hhead r']
      cases r' <;> rfl
  · have hrun : spanlistPush r.ref s l = spanlistLink r.ref s s s l := by
      simp only [spanlistPush, hh, hp]
    rw [hrun, spanlistLink]
    refine ⟨?_, ?_, fun r' => ?_⟩
    · rw [setHead_next]
      simp [Links.setNext, Links.setPrev, ← hn]
    · rw [setHead_prev]
      simp [Links.setNext, Links.setPrev]
    · rw [head_setHead, ← hhead r']
      cases r' <;> rfl

/-- The head keeps `s`, and the spans behind it are linked with each other. -/
theorem detached_of_links (hl : LinkInv l f) {t : List SpanPtr}
    (ht : f r.place = s :: t) {L : Links}
    (hhead : ∀ r' : RingHead, L.head r'.ref = l.head r'.ref)
    (hring : ∀ r' : RingHead, r' ≠ r → IsRing L.next L.prev (f r'.place))
    (hlost : ∀ j, Closed L.next L.prev (f (.lost j))) (hclosed : Closed L.next L.prev t)
    (hn : L.next s = some s) (hp : L.prev s = some s) : LinkInv L (detached f r s i) := by
  have hfirst : (f r.place).head? = some s := by rw [ht]; rfl
  refine ⟨fun r' => ?_, fun r' => ?_, fun j => ?_⟩
  · rw [detached, Function.update_of_ne (r'.place_ne_lost i)]
    by_cases h : r' = r
    · subst h
      rw [Function.update_self, keptBehind, if_pos hfirst]
      exact isRing_singleton.mpr ⟨hn, hp⟩
    · rw [update_place_of_ne h]
      exact hring r' h
  · rw [detached, Function.update_of_ne (r'.place_ne_lost i), hhead, hl.head r']
    by_cases h : r' = r
    · subst h
      rw [Function.update_self, hfirst]
      rfl
    · rw [update_place_of_ne h]
  · by_cases hj : j = i
    · subst hj
      rw [detached, Function.update_self, cutOff, if_pos hfirst, ht]
      exact hclosed.append (hlost j)
    · rw [detached, Function.update_of_ne (by simpa using hj), update_place_lost]
      exact hlost j

/-- A span that is first on its list, popped through its own `prev` field and put back: its ring is
closed behind it, and the head still points to it. -/
theorem detach_first (hl : LinkInv l f) (hp : Placed f) {t : List SpanPtr}
    (ht : f r.place = s :: t) (i : Nat) :
    ∃ l', spanlistPop (.prevOf s) s l = .ok l' ∧
      LinkInv (spanlistPush r.ref s l') (detached f r s i) := by
  have hs : s ∈ f r.place := by rw [ht]; exact List.mem_cons_self
  have hh : l.head r.ref = some s := by rw [hl.head r, ht]; rfl
  obtain ⟨n, hn, p, hpm, h1, h2, hiff⟩ := hl.links (.inl ⟨r, rfl⟩) hs
  by_cases hns : n = s
  · -- the span is alone, and loses its `prev` link for a moment
    subst hns
    have hf := (hl.ring r).eq_singleton (hp.nodup r.place) hs h1
    obtain rfl : t = [] := by rw [hf] at ht; exact (List.cons.inj ht).2.symm
    obtain ⟨hnx, hpv, hhead⟩ := push_first (l := l.setPrev n none) (r := r) (s := n)
      (by rw [← hh]; cases r <;> rfl) h1 (.inl (Function.update_self ..))
    have hne : ∀ q x, x ∈ f q → q ≠ r.place → x ≠ n := fun q x hx hq e =>
      hq (hp.unique hx (e ▸ hs))
    have hsame : ∀ x, x ≠ n → (spanlistPush r.ref n (l.setPrev n none)).next x = l.next x ∧
        (spanlistPush r.ref n (l.setPrev n none)).prev x = l.prev x := fun x hx => by
      rw [hnx, hpv]
      simp [Links.setPrev, hx]
    refine ⟨_, pop_prevOf_self h1, hl.detached_of_links ht (fun r' => ?_) (fun r' h => ?_)
      (fun j => ?_) ?_ ?_ ?_⟩
    · rw [hhead]
      cases r' <;> rfl
    · exact (hl.ring r').congr fun x hx => hsame x (hne _ x hx fun e => h (RingHead.place_inj e))
    · exact (hl.lost j).congr fun x hx => hsame x (hne _ x hx (Ne.symm (r.place_ne_lost j)))
    · simp
    · rw [hnx]
      exact h1
    · rw [hpv]
      exact Function.update_self ..
  · have hps : p ≠ s := fun e => hns (hiff.mpr e)
    obtain ⟨hring, hlost⟩ := hl.unlink_own hp hs hpm hn h1 h2 hns
    obtain ⟨l₂, hl₂⟩ : ∃ l₂ : Links, l₂ =
        { l with next := unlinkNx l.next p s n, prev := unlinkPv l.prev p s n } := ⟨_, rfl⟩
    have hsn : l₂.next s = some s := by simp [hl₂, unlinkNx]
    have hsp : l₂.prev s = some s := by simp [hl₂, unlinkPv]
    have hsame : ∀ r' : RingHead, l₂.head r'.ref = l.head r'.ref := fun r' => by
      rw [hl₂]
      cases r' <;> rfl
    obtain ⟨hnx, hpv, hhead⟩ := push_first ((hsame r).trans hh) hsn (.inr hsp)
    rw [← hsp, Function.update_eq_self] at hpv
    refine ⟨l₂, by rw [hl₂]; exact pop_prevOf h1 h2 hns hps, hl.detached_of_links ht
      (fun r' => (hhead r').trans (hsame r')) (fun r' h => ?_) (fun j => ?_) ?_ ?_ ?_⟩
    · have hr' := hring r'
      rw [dropped, update_place_of_ne h] at hr'
      rw [hnx, hpv, hl₂]
      exact hr'
    · have hj := hlost j
      rw [dropped, update_place_lost] at hj
      rw [hnx, hpv, hl₂]
      exact hj
    · have hr := (hring r).closed
      rw [dropped, Function.update_self, ht, List.erase_cons_head] at hr
      rw [hnx, hpv, hl₂]
      exact hr
    · rw [hnx, hsn]
    · rw [hpv, hsp]

/-- A span that is not first on its list: the removal is the same as with the right head. -/
theorem detach_behind (hl : LinkInv l f) (hp : Placed f) (hs : s ∈ f r.place)
    (hh : (f r.place).head? ≠ some s) (i : Nat) :
    ∃ l', spanlistPop (.prevOf s) s l = .ok l' ∧
      LinkInv (spanlistPush r.ref s l') (detached f r s i) := by
  obtain ⟨l', h, hinv, -⟩ := hl.pop_own hp hs fun e => hh ((hl.head r).symm.trans e)
  refine ⟨l', h, ?_⟩
  have hp' : Placed (dropped f r s) := hp.sublist fun q => by
    by_cases hq : q = r.place
    · subst hq
      rw [dropped, Function.update_self]
      exact List.erase_sublist
    · rw [dropped, Function.update_of_ne hq]
  have hns : ¬ Linked (dropped f r s) s := by
    have hsd : s ∉ (f r.place).erase s := fun h =>
      absurd rfl ((hp.nodup r.place).mem_erase_iff.mp h).1
    rintro (⟨r', hr'⟩ | ⟨j, hj⟩)
    · by_cases h : r' = r
      · subst h
        rw [dropped, Function.update_self] at hr'
        exact hsd hr'
      · rw [dropped, update_place_of_ne h] at hr'
        exact h (RingHead.place_inj (hp.unique hr' hs))
    · rw [dropped, update_place_lost] at hj
      exact r.place_ne_lost j (hp.unique hs hj)
  have heq : Function.update (dropped f r s) r.place (s :: dropped f r s r.place) =
      detached f r s i := by
    rw [detached]
    funext q
    by_cases hq : q = .lost i
    · subst hq
      rw [Function.update_self, cutOff, if_neg hh, List.nil_append,
        Function.update_of_ne (Ne.symm (r.place_ne_lost i)), dropped, update_place_lost]
    · rw [Function.update_of_ne hq]
      by_cases hqr : q = r.place
      · subst hqr
        simp [dropped, keptBehind, hh]
      · rw [Function.update_of_ne hqr, Function.update_of_ne hqr, dropped,
          Function.update_of_ne hqr]
  exact heq ▸ hinv.push hp' r hns

/-- `remove_span` with the head of another list, and `spanlist_push` back on the own
one. If the span was first on its list, all others on it are detached from the head. -/
theorem detach (hl : LinkInv l f) (hp : Placed f) (hs : s ∈ f r.place) (hr : q ≠ r) (i : Nat) :
    ∃ l', removeSpan q.ref s l = .ok l' ∧
      LinkInv (spanlistPush r.ref s l')
        (Function.update (Function.update f r.place (s :: keptBehind s (f r.place))) (.lost i)
          (cutOff s (f r.place) ++ f (.lost i))) := by
  have hl' := hl.noted (l.stray ∨ ¬ OnRing l.next (l.head q.ref) s)
  have hq : l.head q.ref ≠ some s := by
    intro e
    rw [hl.head q] at e
    exact hr (RingHead.place_inj (hp.unique (List.mem_of_mem_head? e) hs))
  rw [removeSpan_eq, if_neg hq]
  by_cases hfirst : (f r.place).head? = some s
  · obtain ⟨t, ht⟩ : ∃ t, f r.place = s :: t := List.head?_eq_some_iff.mp hfirst
    exact hl'.detach_first hp ht i
  · exact hl'.detach_behind hp hs hfirst i

end LinkInv

end SearchEngine.TcMalloc
