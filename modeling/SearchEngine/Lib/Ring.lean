import Mathlib.Data.List.Chain
import Mathlib.Data.List.Nodup
import Mathlib.Logic.Function.Basic
import Mathlib.Logic.Relation

/-!
# Circular doubly linked lists

A pair of partial functions `nx`, `pv` links the nodes of a type. `IsRing nx pv l`:
the nodes of `l`, in this order, form one circular list, each the `nx` of the one
before and the `pv` of the one after. `Closed nx pv l` is weaker: the nodes of `l`
are linked among themselves both ways, in any number of circular lists.

The two edits of such a list are a push before the first node (`IsRing.push`) and
the unlinking of a node (`IsRing.unlink`, `Closed.unlink`). A walk along `nx` from
the first node meets exactly the nodes of the ring (`onRing_iff`), and a loop that
walks once around it searches its sequence (`scan_ring`).
-/

namespace LinkedRing

variable {α : Type}

/-- `y` follows `x`, seen from both. -/
def Link (nx pv : α → Option α) (x y : α) : Prop := nx x = some y ∧ pv y = some x

/-- The nodes of `l` form one circular list, in this order. -/
def IsRing (nx pv : α → Option α) : List α → Prop
  | [] => True
  | a :: t => (a :: (t ++ [a])).IsChain (Link nx pv)

/-- Every node of `l` is followed and preceded by a node of `l`. -/
def Closed (nx pv : α → Option α) (l : List α) : Prop :=
  ∀ x ∈ l, (∃ y ∈ l, Link nx pv x y) ∧ ∃ y ∈ l, Link nx pv y x

@[simp] theorem isRing_nil (nx pv : α → Option α) : IsRing nx pv [] := trivial

@[simp] theorem closed_nil (nx pv : α → Option α) : Closed nx pv [] := by simp [Closed]

theorem isRing_cons {nx pv : α → Option α} {a : α} {t : List α} :
    IsRing nx pv (a :: t) ↔ (a :: (t ++ [a])).IsChain (Link nx pv) := Iff.rfl

@[simp] theorem isRing_singleton {nx pv : α → Option α} {s : α} :
    IsRing nx pv [s] ↔ nx s = some s ∧ pv s = some s := by
  simp [IsRing, Link]

/-! ## Chains of links -/

theorem chain_congr {nx pv nx' pv' : α → Option α} :
    ∀ {l : List α}, l.IsChain (Link nx pv) → (∀ x ∈ l.dropLast, nx' x = nx x) →
      (∀ y ∈ l.tail, pv' y = pv y) → l.IsChain (Link nx' pv')
  | [], _, _, _ => .nil
  | [_], _, _, _ => .singleton _
  | x :: y :: rest, h, hn, hp => by
    rw [List.isChain_cons_cons] at h ⊢
    refine ⟨⟨?_, ?_⟩, chain_congr h.2 (fun z hz => hn z ?_) (fun z hz => hp z ?_)⟩
    · rw [hn x (by simp), h.1.1]
    · rw [hp y (by simp), h.1.2]
    · rw [List.dropLast_cons_cons]; exact List.mem_cons_of_mem _ hz
    · rw [List.tail_cons] at hz ⊢; exact List.mem_cons_of_mem _ hz

/-- The first node of a chain reaches every node of it along `nx`. -/
theorem chain_reaches {nx pv : α → Option α} :
    ∀ {l : List α} {a x : α}, (a :: l).IsChain (Link nx pv) → x ∈ a :: l →
      Relation.ReflTransGen (fun u v => nx u = some v) a x
  | [], a, x, _, hx => by
    rw [List.mem_singleton] at hx
    exact hx ▸ .refl
  | b :: l, a, x, h, hx => by
    rw [List.isChain_cons_cons] at h
    rcases List.mem_cons.mp hx with rfl | hx
    · exact .refl
    · exact .head h.1.1 (chain_reaches h.2 hx)

/-- A chain that ends in `s` links its last node before `s` to `s`. -/
theorem chain_last {nx pv : α → Option α} {a s : α} {t : List α}
    (h : (a :: (t ++ [s])).IsChain (Link nx pv)) :
    Link nx pv ((a :: t).getLast (List.cons_ne_nil a t)) s := by
  induction t generalizing a with
  | nil => simpa using h
  | cons b t ih =>
    rw [List.cons_append, List.isChain_cons_cons] at h
    simpa using ih h.2

theorem chain_init {nx pv : α → Option α} {a s : α} {t : List α}
    (h : (a :: (t ++ [s])).IsChain (Link nx pv)) : (a :: t).IsChain (Link nx pv) :=
  List.IsChain.left_of_append (show ((a :: t) ++ [s]).IsChain (Link nx pv) from h)

theorem chain_snoc {nx pv : α → Option α} {a s : α} {t : List α}
    (h : (a :: t).IsChain (Link nx pv))
    (hl : Link nx pv ((a :: t).getLast (List.cons_ne_nil a t)) s) :
    (a :: (t ++ [s])).IsChain (Link nx pv) := by
  induction t generalizing a with
  | nil => simpa using hl
  | cons b t ih =>
    rw [List.isChain_cons_cons] at h
    rw [List.cons_append, List.isChain_cons_cons]
    exact ⟨h.1, ih h.2 (by simpa using hl)⟩

/-! ## Rings -/

/-- Links of nodes outside the ring do not matter. -/
theorem IsRing.congr {nx pv nx' pv' : α → Option α} {l : List α} (h : IsRing nx pv l)
    (hl : ∀ x ∈ l, nx' x = nx x ∧ pv' x = pv x) : IsRing nx' pv' l := by
  cases l with
  | nil => trivial
  | cons a t =>
    refine chain_congr h (fun x hx => (hl x ?_).1) (fun y hy => (hl y ?_).2)
    · rw [← List.cons_append, List.dropLast_concat] at hx
      exact hx
    · rw [List.tail_cons, List.mem_append, List.mem_singleton] at hy
      rcases hy with hy | rfl
      · exact List.mem_cons_of_mem _ hy
      · exact List.mem_cons_self

/-- A ring may be read from any of its nodes. -/
theorem IsRing.rotate {nx pv : α → Option α} {l m : List α} (h : IsRing nx pv (l ++ m)) :
    IsRing nx pv (m ++ l) := by
  cases l with
  | nil => simpa using h
  | cons a t₁ =>
    cases m with
    | nil => simpa using h
    | cons b t₂ =>
      have h' : ((a :: t₁) ++ b :: (t₂ ++ [a])).IsChain (Link nx pv) := by
        simpa [IsRing] using h
      rw [List.isChain_split] at h'
      have h2 : ((b :: t₂) ++ a :: (t₁ ++ [b])).IsChain (Link nx pv) := by
        rw [List.isChain_split]
        exact ⟨by simpa using h'.2, by simpa using h'.1⟩
      simpa [IsRing] using h2

/-- Every node of a ring is followed and preceded by one. -/
theorem IsRing.closed {nx pv : α → Option α} {l : List α} (h : IsRing nx pv l) :
    Closed nx pv l := by
  intro x hx
  obtain ⟨l₁, l₂, rfl⟩ := List.append_of_mem hx
  have hr : IsRing nx pv (x :: (l₂ ++ l₁)) := by simpa using h.rotate
  have hmem : ∀ y ∈ x :: (l₂ ++ l₁), y ∈ l₁ ++ x :: l₂ := by
    intro y hy
    simp only [List.mem_cons, List.mem_append] at hy ⊢
    tauto
  refine ⟨?_, ⟨_, hmem _ (List.getLast_mem _), chain_last hr⟩⟩
  cases hm : l₂ ++ l₁ with
  | nil =>
    rw [hm] at hr
    exact ⟨x, hx, (isRing_singleton.mp hr).1, (isRing_singleton.mp hr).2⟩
  | cons b t =>
    rw [hm, isRing_cons, List.cons_append, List.isChain_cons_cons] at hr
    exact ⟨b, hmem b (by rw [hm]; simp), hr.1⟩

/-- Two chains of links from one node to one end are the same. -/
theorem chain_unique {nx pv : α → Option α} {a : α} :
    ∀ {t t' : List α} {x : α}, (x :: (t ++ [a])).IsChain (Link nx pv) →
      (x :: (t' ++ [a])).IsChain (Link nx pv) → a ∉ t → a ∉ t' → t = t'
  | [], [], _, _, _, _, _ => rfl
  | [], y :: t', x, h, h', _, ha' => by
    rw [List.nil_append, List.isChain_cons_cons] at h
    rw [List.cons_append, List.isChain_cons_cons] at h'
    obtain rfl : a = y := Option.some.inj (h.1.1.symm.trans h'.1.1)
    exact absurd List.mem_cons_self ha'
  | y :: t, [], x, h, h', ha, _ => by
    rw [List.cons_append, List.isChain_cons_cons] at h
    rw [List.nil_append, List.isChain_cons_cons] at h'
    obtain rfl : a = y := Option.some.inj (h'.1.1.symm.trans h.1.1)
    exact absurd List.mem_cons_self ha
  | y :: t, z :: t', x, h, h', ha, ha' => by
    rw [List.cons_append, List.isChain_cons_cons] at h h'
    obtain rfl : y = z := Option.some.inj (h.1.1.symm.trans h'.1.1)
    have ht := chain_unique h.2 h'.2 (fun hm => ha (List.mem_cons_of_mem _ hm))
      fun hm => ha' (List.mem_cons_of_mem _ hm)
    rw [ht]

/-- The links tell the ring from its first node. -/
theorem IsRing.unique {nx pv : α → Option α} {l l' : List α} (h : IsRing nx pv l)
    (h' : IsRing nx pv l') (hd : l.Nodup) (hd' : l'.Nodup) (hhead : l.head? = l'.head?) :
    l = l' := by
  cases l with
  | nil =>
    cases l' with
    | nil => rfl
    | cons a t' => cases hhead
  | cons a t =>
    cases l' with
    | nil => cases hhead
    | cons a' t' =>
      obtain rfl : a = a' := Option.some.inj hhead
      rw [chain_unique h h' (List.nodup_cons.mp hd).1 (List.nodup_cons.mp hd').1]

/-- The node before the first one is the last one. -/
theorem IsRing.pv_head {nx pv : α → Option α} {a : α} {t : List α} (h : IsRing nx pv (a :: t)) :
    pv a = some ((a :: t).getLast (List.cons_ne_nil a t)) := (chain_last h).2

theorem IsRing.nx_head {nx pv : α → Option α} {a b : α} {t : List α}
    (h : IsRing nx pv (a :: b :: t)) : nx a = some b := by
  rw [isRing_cons, List.cons_append, List.isChain_cons_cons] at h
  exact h.1.1

/-- Only the one-node ring has a node that follows itself. -/
theorem IsRing.eq_singleton {nx pv : α → Option α} {l : List α} {s : α} (h : IsRing nx pv l)
    (hd : l.Nodup) (hs : s ∈ l) (hn : nx s = some s) : l = [s] := by
  obtain ⟨l₁, l₂, rfl⟩ := List.append_of_mem hs
  have hr : IsRing nx pv (s :: (l₂ ++ l₁)) := by simpa using h.rotate
  cases hm : l₂ ++ l₁ with
  | nil =>
    obtain ⟨rfl, rfl⟩ := List.append_eq_nil_iff.mp hm
    rfl
  | cons b t =>
    rw [hm] at hr
    have hb : s = b := Option.some.inj (hn.symm.trans hr.nx_head)
    have hb' : b ∈ l₂ ++ l₁ := by rw [hm]; exact List.mem_cons_self
    rw [List.nodup_middle, List.nodup_cons] at hd
    refine absurd ?_ hd.1
    rw [hb]
    simpa [or_comm] using hb'

section Edits

variable [DecidableEq α] {nx pv : α → Option α}

/-- `nx` after `s` is linked in between `p` and `a`. -/
def linkNx (nx : α → Option α) (p s a : α) : α → Option α :=
  Function.update (Function.update nx s (some a)) p (some s)

/-- `pv` after `s` is linked in between `p` and `a`. -/
def linkPv (pv : α → Option α) (p s a : α) : α → Option α :=
  Function.update (Function.update pv s (some p)) a (some s)

/-- `nx` after `s`, between `p` and `n`, is unlinked and left linked to itself. -/
def unlinkNx (nx : α → Option α) (p s n : α) : α → Option α :=
  Function.update (Function.update nx p (some n)) s (some s)

/-- `pv` after `s`, between `p` and `n`, is unlinked and left linked to itself. -/
def unlinkPv (pv : α → Option α) (p s n : α) : α → Option α :=
  Function.update (Function.update pv n (some p)) s (some s)

theorem linkNx_of_ne {p s a x : α} (hp : x ≠ p) (hs : x ≠ s) : linkNx nx p s a x = nx x := by
  rw [linkNx, Function.update_of_ne hp, Function.update_of_ne hs]

theorem linkPv_of_ne {p s a x : α} (ha : x ≠ a) (hs : x ≠ s) : linkPv pv p s a x = pv x := by
  rw [linkPv, Function.update_of_ne ha, Function.update_of_ne hs]

theorem unlinkNx_of_ne {p s n x : α} (hp : x ≠ p) (hs : x ≠ s) : unlinkNx nx p s n x = nx x := by
  rw [unlinkNx, Function.update_of_ne hs, Function.update_of_ne hp]

theorem unlinkPv_of_ne {p s n x : α} (hn : x ≠ n) (hs : x ≠ s) : unlinkPv pv p s n x = pv x := by
  rw [unlinkPv, Function.update_of_ne hs, Function.update_of_ne hn]

omit [DecidableEq α] in
theorem dropLast_ne_last {a x : α} {t : List α} (hd : (a :: t).Nodup)
    (hx : x ∈ (a :: t).dropLast) : x ≠ (a :: t).getLast (List.cons_ne_nil a t) := by
  intro e
  have h : ((a :: t).dropLast ++ [(a :: t).getLast (List.cons_ne_nil a t)]).Nodup := by
    rwa [List.dropLast_append_getLast]
  exact (List.nodup_append.mp h).2.2 x hx _ (List.mem_singleton.mpr rfl) e

/-- Linking `s` in before the first node. -/
theorem IsRing.push {a s p : α} {t : List α} (h : IsRing nx pv (a :: t)) (hd : (a :: t).Nodup)
    (hs : s ∉ a :: t) (hp : pv a = some p) :
    IsRing (linkNx nx p s a) (linkPv pv p s a) (s :: a :: t) := by
  have hpl : p = (a :: t).getLast (List.cons_ne_nil a t) :=
    Option.some.inj (hp.symm.trans h.pv_head)
  have hpm : p ∈ a :: t := hpl ▸ List.getLast_mem _
  have hps : p ≠ s := fun e => hs (e ▸ hpm)
  have has : a ≠ s := fun e => hs (e ▸ List.mem_cons_self)
  rw [isRing_cons, List.cons_append, List.isChain_cons_cons]
  refine ⟨⟨?_, ?_⟩, chain_snoc (chain_congr (chain_init h) (fun x hx => ?_) (fun y hy => ?_))
    ⟨?_, ?_⟩⟩
  · rw [linkNx, Function.update_of_ne (Ne.symm hps), Function.update_self]
  · rw [linkPv, Function.update_self]
  · have hxm := List.dropLast_subset _ hx
    exact linkNx_of_ne (hpl ▸ dropLast_ne_last hd hx) (fun e => hs (e ▸ hxm))
  · have hya : y ≠ a := fun e => (List.nodup_cons.mp hd).1 (e ▸ hy)
    exact linkPv_of_ne hya (fun e => hs (e ▸ List.mem_cons_of_mem _ hy))
  · rw [← hpl, linkNx, Function.update_self]
  · rw [← hpl, linkPv, Function.update_of_ne (Ne.symm has), Function.update_self]

/-- Unlinking a node of a ring of at least two. -/
theorem IsRing.unlink {s p n : α} {l₁ l₂ : List α} (h : IsRing nx pv (l₁ ++ s :: l₂))
    (hd : (l₁ ++ s :: l₂).Nodup) (hn : nx s = some n) (hp : pv s = some p) (hne : n ≠ s) :
    IsRing (unlinkNx nx p s n) (unlinkPv pv p s n) (l₁ ++ l₂) := by
  refine IsRing.rotate (l := l₂) ?_
  have hr : IsRing nx pv (s :: (l₂ ++ l₁)) := by simpa using h.rotate
  have hd' : (s :: (l₂ ++ l₁)).Nodup := by
    refine (List.Perm.nodup_iff ?_).mp hd
    exact List.perm_middle.trans (List.perm_append_comm.cons s)
  cases hm : l₂ ++ l₁ with
  | nil => trivial
  | cons a t =>
    rw [hm] at hr hd'
    have hna : n = a := Option.some.inj (hn.symm.trans hr.nx_head)
    rw [isRing_cons, List.cons_append, List.isChain_cons_cons] at hr
    have hpl : p = (a :: t).getLast (List.cons_ne_nil a t) :=
      Option.some.inj (hp.symm.trans (chain_last hr.2).2)
    have hs : s ∉ a :: t := (List.nodup_cons.mp hd').1
    have hd2 : (a :: t).Nodup := (List.nodup_cons.mp hd').2
    have hps : p ≠ s := fun e => hs (e ▸ hpl ▸ List.getLast_mem _)
    refine chain_snoc (chain_congr (chain_init hr.2) (fun x hx => ?_) (fun y hy => ?_)) ⟨?_, ?_⟩
    · exact unlinkNx_of_ne (hpl ▸ dropLast_ne_last hd2 hx)
        (fun e => hs (e ▸ List.dropLast_subset _ hx))
    · exact unlinkPv_of_ne (fun e => (List.nodup_cons.mp hd2).1 (hna ▸ e ▸ hy))
        (fun e => hs (e ▸ List.mem_cons_of_mem _ hy))
    · rw [← hpl, unlinkNx, Function.update_of_ne hps, Function.update_self, hna]
    · rw [← hpl, ← hna, unlinkPv, Function.update_of_ne hne, Function.update_self]

end Edits

/-! ## Closed sets of links -/

theorem Closed.congr {nx pv nx' pv' : α → Option α} {l : List α} (h : Closed nx pv l)
    (hl : ∀ x ∈ l, nx' x = nx x ∧ pv' x = pv x) : Closed nx' pv' l := by
  intro x hx
  obtain ⟨⟨y, hy, h1, h2⟩, z, hz, h3, h4⟩ := h x hx
  exact ⟨⟨y, hy, (hl x hx).1.trans h1, (hl y hy).2.trans h2⟩,
    z, hz, (hl z hz).1.trans h3, (hl x hx).2.trans h4⟩

theorem Closed.append {nx pv : α → Option α} {l m : List α} (h : Closed nx pv l)
    (h' : Closed nx pv m) : Closed nx pv (l ++ m) := by
  intro x hx
  rcases List.mem_append.mp hx with hx | hx
  · obtain ⟨⟨y, hy, h1⟩, z, hz, h2⟩ := h x hx
    exact ⟨⟨y, List.mem_append_left _ hy, h1⟩, z, List.mem_append_left _ hz, h2⟩
  · obtain ⟨⟨y, hy, h1⟩, z, hz, h2⟩ := h' x hx
    exact ⟨⟨y, List.mem_append_right _ hy, h1⟩, z, List.mem_append_right _ hz, h2⟩

theorem Closed.perm {nx pv : α → Option α} {l m : List α} (h : Closed nx pv l)
    (hp : l.Perm m) : Closed nx pv m := by
  intro x hx
  obtain ⟨⟨y, hy, h1⟩, z, hz, h2⟩ := h x (hp.mem_iff.mpr hx)
  exact ⟨⟨y, hp.mem_iff.mp hy, h1⟩, z, hp.mem_iff.mp hz, h2⟩

/-- The links of a node of a closed set, read from the node. -/
theorem Closed.links {nx pv : α → Option α} {l : List α} {s : α} (h : Closed nx pv l)
    (hs : s ∈ l) : ∃ n ∈ l, ∃ p ∈ l, nx s = some n ∧ pv n = some s ∧ pv s = some p ∧
      nx p = some s := by
  obtain ⟨⟨n, hn, h1, h2⟩, p, hp, h3, h4⟩ := h s hs
  exact ⟨n, hn, p, hp, h1, h2, h4, h3⟩

/-- A node that follows itself can be dropped. -/
theorem Closed.drop_self {nx pv : α → Option α} {l m : List α} {s : α}
    (h : Closed nx pv l) (hl : l.Perm (s :: m)) (hd : l.Nodup) (hn : nx s = some s) :
    Closed nx pv m := by
  have hs : s ∈ l := hl.mem_iff.mpr List.mem_cons_self
  have hsm : s ∉ m := (List.nodup_cons.mp (hl.nodup_iff.mp hd)).1
  obtain ⟨n, -, p, -, h1, h2, h3, h4⟩ := h.links hs
  have hns : n = s := Option.some.inj (h1.symm.trans hn)
  have hps : p = s := Option.some.inj (h3.symm.trans (hns ▸ h2))
  intro x hx
  have hxs : x ≠ s := fun e => hsm (e ▸ hx)
  obtain ⟨⟨y, hy, h5, h6⟩, z, hz, h7, h8⟩ := h x (hl.mem_iff.mpr (List.mem_cons_of_mem _ hx))
  have hys : y ≠ s := by
    rintro rfl
    exact hxs ((Option.some.inj (h6.symm.trans h3)).trans hps)
  have hzs : z ≠ s := by
    rintro rfl
    exact hxs ((Option.some.inj (h7.symm.trans h1)).trans hns)
  refine ⟨⟨y, ?_, h5, h6⟩, z, ?_, h7, h8⟩
  · exact (List.mem_cons.mp (hl.mem_iff.mp hy)).resolve_left hys
  · exact (List.mem_cons.mp (hl.mem_iff.mp hz)).resolve_left hzs

/-- Unlinking a node from a closed set leaves the others linked among
themselves. -/
theorem Closed.unlink [DecidableEq α] {nx pv : α → Option α} {l m : List α} {s p n : α}
    (h : Closed nx pv l) (hl : l.Perm (s :: m)) (hd : l.Nodup) (hn : nx s = some n)
    (hp : pv s = some p) (hne : n ≠ s) :
    Closed (unlinkNx nx p s n) (unlinkPv pv p s n) m := by
  have hs : s ∈ l := hl.mem_iff.mpr List.mem_cons_self
  have hsm : s ∉ m := (List.nodup_cons.mp (hl.nodup_iff.mp hd)).1
  obtain ⟨n', hn', p', hp', h1, h2, h3, h4⟩ := h.links hs
  obtain rfl : n = n' := Option.some.inj (hn.symm.trans h1)
  obtain rfl : p = p' := Option.some.inj (hp.symm.trans h3)
  have hps : p ≠ s := by
    rintro rfl
    exact hne (Option.some.inj (h1.symm.trans h4))
  have tail : ∀ y ∈ l, y ≠ s → y ∈ m := fun y hy hys =>
    (List.mem_cons.mp (hl.mem_iff.mp hy)).resolve_left hys
  have link_pn : Link (unlinkNx nx p s n) (unlinkPv pv p s n) p n := by
    constructor
    · rw [unlinkNx, Function.update_of_ne hps, Function.update_self]
    · rw [unlinkPv, Function.update_of_ne hne, Function.update_self]
  intro x hx
  have hxs : x ≠ s := fun e => hsm (e ▸ hx)
  obtain ⟨⟨y, hy, h5, h6⟩, z, hz, h7, h8⟩ := h x (hl.mem_iff.mpr (List.mem_cons_of_mem _ hx))
  -- an old link between nodes other than `s` is kept
  have keep : ∀ u v, u ≠ s → v ≠ s → nx u = some v → pv v = some u →
      Link (unlinkNx nx p s n) (unlinkPv pv p s n) u v := by
    intro u v hu hv e1 e2
    have hup : u ≠ p := by
      rintro rfl
      exact hv (Option.some.inj (e1.symm.trans h4))
    have hvn : v ≠ n := by
      rintro rfl
      exact hu (Option.some.inj (e2.symm.trans h2))
    exact ⟨(unlinkNx_of_ne hup hu).trans e1, (unlinkPv_of_ne hvn hv).trans e2⟩
  constructor
  · by_cases hys : y = s
    · subst hys
      obtain rfl : x = p := Option.some.inj (h6.symm.trans h3)
      exact ⟨n, tail n hn' hne, link_pn⟩
    · exact ⟨y, tail y hy hys, keep x y hxs hys h5 h6⟩
  · by_cases hzs : z = s
    · subst hzs
      obtain rfl : x = n := Option.some.inj (h7.symm.trans h1)
      exact ⟨p, tail p hp' hps, link_pn⟩
    · exact ⟨z, tail z hz hzs, keep z x hzs hxs h7 h8⟩

/-! ## Walking along a ring -/

/-- `x` is met by following `nx` from the head. -/
def OnRing (nx : α → Option α) (hd : Option α) (x : α) : Prop :=
  ∃ a, hd = some a ∧ Relation.ReflTransGen (fun u v => nx u = some v) a x

/-- A walk from the first node of a ring meets exactly its nodes. -/
theorem onRing_iff {nx pv : α → Option α} {l : List α} {x : α} (h : IsRing nx pv l) :
    OnRing nx l.head? x ↔ x ∈ l := by
  cases l with
  | nil => simp [OnRing]
  | cons a t =>
    constructor
    · rintro ⟨b, hb, hx⟩
      obtain rfl : a = b := Option.some.inj hb
      induction hx with
      | refl => exact List.mem_cons_self
      | tail _ hstep ih =>
        obtain ⟨⟨y, hy, h1, -⟩, -⟩ := h.closed _ ih
        exact Option.some.inj (hstep.symm.trans h1) ▸ hy
    · intro hx
      refine ⟨a, rfl, chain_reaches h ?_⟩
      rw [← List.cons_append]
      exact List.mem_append_left _ hx

/-- The loop `do { if (p) { if (test p) return p; p = p->next; } }
while (p != NULL && p != start)`. The outer `none` means that the loop has not
ended after so many rounds. -/
def scan [DecidableEq α] (nx : α → Option α) (test : α → Bool) (start : Option α) :
    Nat → Option α → Option (Option α)
  | 0, _ => none
  | _ + 1, none => some none
  | n + 1, some x =>
    if test x then some (some x)
    else if nx x = none ∨ nx x = start then some none
    else scan nx test start n (nx x)

/-- Around a ring the loop searches its sequence, and it ends within one round. -/
theorem scan_ring [DecidableEq α] {nx pv : α → Option α} {l : List α} (h : IsRing nx pv l)
    (hd : l.Nodup) (test : α → Bool) {fuel : Nat} (hf : l.length < fuel) :
    scan nx test l.head? fuel l.head? = some (l.find? test) := by
  cases l with
  | nil =>
    obtain ⟨n, rfl⟩ : ∃ n, fuel = n + 1 := ⟨fuel - 1, by simp at hf; omega⟩
    rfl
  | cons a t =>
    -- the induction is on what is left of the round
    suffices key : ∀ (rest : List α) (x : α) (n : Nat),
        (x :: (rest ++ [a])).IsChain (Link nx pv) → a ∉ rest → rest.length < n →
        scan nx test (some a) n (some x) = some ((x :: rest).find? test) by
      exact key t a fuel h (List.nodup_cons.mp hd).1 (by simp at hf; omega)
    intro rest
    induction rest with
    | nil =>
      intro x n hc _ hn
      obtain ⟨n, rfl⟩ : ∃ m, n = m + 1 := ⟨n - 1, by simp at hn; omega⟩
      have hx : nx x = some a := (List.isChain_cons_cons.mp hc).1.1
      simp only [scan, hx, or_true, if_true, List.find?_cons, List.find?_nil]
      cases test x <;> rfl
    | cons y rest ih =>
      intro x n hc ha hn
      obtain ⟨n, rfl⟩ : ∃ m, n = m + 1 := ⟨n - 1, by simp at hn; omega⟩
      rw [List.cons_append, List.isChain_cons_cons] at hc
      have hya : y ≠ a := fun e => ha (e ▸ List.mem_cons_self)
      have hrec := ih y n hc.2 (fun e => ha (List.mem_cons_of_mem _ e)) (by simp at hn; omega)
      rw [scan, hc.1.1, hrec]
      cases hx : test x <;> simp [List.find?_cons, hx, hya]

end LinkedRing
