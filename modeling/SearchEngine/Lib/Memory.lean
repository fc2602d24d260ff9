import Mathlib.Algebra.Order.Ring.Nat
import Mathlib.Logic.Function.Basic
import SearchEngine.Lib.Path
import SearchEngine.Lib.Placement

/-!
# Linked lists threaded through a memory of bytes

A memory gives each address its byte; `load` and `store` are the accesses to words, least
significant byte first. A node of a list is an address, and the word there leads to the next
node. `Threaded w m head f`: with `w` bytes to a word, the pointer `head p` leads through the
nodes `f p` to null, for every list `p`; the words of different nodes do not overlap, and no node
is on two lists. Each operation on such lists writes one word, or none.
-/

namespace ByteMemory

open LinkedPath Placement

/-- The byte at each address. -/
abbrev Memory := Nat → UInt8

/-- The word of `n` bytes at `a`. -/
def load (m : Memory) : Nat → Nat → Nat
  | 0, _ => 0
  | n + 1, a => (m a).toNat + 256 * load m n (a + 1)

/-- The word `v` of `n` bytes is written at `a`. -/
def store : Nat → Nat → Nat → Memory → Memory
  | 0, _, _, m => m
  | n + 1, a, v, m => store n (a + 1) (v / 256) (Function.update m a (UInt8.ofNat (v % 256)))

section Words

variable {m m' : Memory} {n k a b v x : Nat}

theorem store_outside (hx : x < a ∨ a + n ≤ x) : store n a v m x = m x := by
  induction n generalizing a v m with
  | zero => rfl
  | succ n ih =>
    rw [store, ih (by omega), Function.update_of_ne (by omega)]

/-- A load depends on the bytes of its word. -/
theorem load_congr (hm : ∀ x, a ≤ x → x < a + n → m' x = m x) : load m' n a = load m n a := by
  induction n generalizing a with
  | zero => rfl
  | succ n ih =>
    rw [load, load, hm a le_rfl (by omega), ih fun x h1 h2 => hm x (by omega) (by omega)]

theorem load_store_apart (hb : a + n ≤ b ∨ b + k ≤ a) : load (store n a v m) k b = load m k b := by
  apply load_congr
  intro x h1 h2
  exact store_outside (by omega)

theorem load_store : load (store n a v m) n a = v % 256 ^ n := by
  induction n generalizing a v m with
  | zero => rw [load, Nat.pow_zero, Nat.mod_one]
  | succ n ih =>
    have hbyte : (store (n + 1) a v m a).toNat = v % 256 := by
      rw [store, store_outside (by omega), Function.update_self, UInt8.toNat_ofNat']
      exact Nat.mod_mod _ _
    rw [load, hbyte, store, ih, Nat.pow_succ, Nat.mul_comm (256 ^ n), Nat.mod_mul]

end Words

/-! ## Links -/

/-- The word of a pointer; a null pointer is `0`. -/
def ofPtr (p : Option Nat) : Nat := p.getD 0

def toPtr (v : Nat) : Option Nat := if v = 0 then none else some v

variable {w : Nat}

/-- The address of a node: it is not null, and fits in a word. -/
def IsNode (w a : Nat) : Prop := 0 < a ∧ a < 256 ^ w

/-- The words at the two addresses do not overlap. -/
def Apart (w a b : Nat) : Prop := a + w ≤ b ∨ b + w ≤ a

theorem Apart.symm {a b : Nat} (h : Apart w a b) : Apart w b a := Or.symm h

/-- The pointer in the word at `a`. -/
def link (w : Nat) (m : Memory) (a : Nat) : Option Nat := toPtr (load m w a)

/-- `p` is written in the word at `a`. -/
def setLink (w a : Nat) (p : Option Nat) (m : Memory) : Memory := store w a (ofPtr p) m

section Links

variable {m m' : Memory} {a b x : Nat} {p : Option Nat}

theorem link_setLink (hp : ∀ b, p = some b → IsNode w b) : link w (setLink w a p m) a = p := by
  rw [link, setLink, load_store]
  cases p with
  | none => rw [ofPtr, Option.getD_none, Nat.zero_mod, toPtr, if_pos rfl]
  | some b =>
    obtain ⟨hpos, hlt⟩ := hp b rfl
    rw [ofPtr, Option.getD_some, Nat.mod_eq_of_lt hlt, toPtr, if_neg (by omega)]

theorem link_setLink_apart (h : Apart w a b) : link w (setLink w a p m) b = link w m b := by
  rw [link, setLink, load_store_apart h, link]

theorem link_congr (hm : ∀ x, a ≤ x → x < a + w → m' x = m x) : link w m' a = link w m a := by
  rw [link, link, load_congr hm]

theorem setLink_outside (hx : x < a ∨ a + w ≤ x) : setLink w a p m x = m x := store_outside hx

end Links

/-! ## Lists -/

section Lists

variable {ι : Type} {m m' : Memory} {head : ι → Option Nat} {f : ι → List Nat}

/-- From `head p` the links lead through the nodes `f p` to null. -/
structure Threaded (w : Nat) (m : Memory) (head : ι → Option Nat) (f : ι → List Nat) : Prop where
  path : ∀ p, Path (link w m) (head p) (f p)
  placed : Placed f
  apart : ∀ {p q a b}, a ∈ f p → b ∈ f q → a ≠ b → Apart w a b
  node : ∀ {p a}, a ∈ f p → IsNode w a

/-- Only the words of the nodes matter. -/
theorem Threaded.frame (h : Threaded w m head f)
    (hm : ∀ p, ∀ a ∈ f p, ∀ x, a ≤ x → x < a + w → m' x = m x) : Threaded w m' head f where
  path p := (h.path p).congr fun a ha => link_congr (hm p a ha)
  placed := h.placed
  apart := h.apart
  node := h.node

theorem Threaded.head_node (h : Threaded w m head f) {p : ι} {a : Nat} (hp : head p = some a) :
    IsNode w a := by
  have hpath := h.path p
  cases hf : f p with
  | nil =>
    rw [hf, path_nil] at hpath
    rw [hp] at hpath
    cases hpath
  | cons b l =>
    rw [hf, path_cons] at hpath
    obtain rfl : a = b := Option.some.inj (hp.symm.trans hpath.1)
    exact h.node (p := p) (hf ▸ List.mem_cons_self)

/-- A null pointer is the empty list. -/
theorem Threaded.head_eq_none (h : Threaded w m head f) {p : ι} : head p = none ↔ f p = [] := by
  have hpath := h.path p
  cases hf : f p with
  | nil =>
    rw [hf, path_nil] at hpath
    exact ⟨fun _ => rfl, fun _ => hpath⟩
  | cons b l =>
    rw [hf, path_cons] at hpath
    rw [hpath.1]
    simp

/-- The nodes of other lists. -/
theorem Threaded.rearrange {g : ι → List Nat} {head' : ι → Option Nat} (h : Threaded w m head f)
    (hg : Placed g) (hmem : ∀ {p a}, a ∈ g p → ∃ q, a ∈ f q)
    (hpath : ∀ p, Path (link w m') (head' p) (g p)) : Threaded w m' head' g where
  path := hpath
  placed := hg
  apart ha hb hne := by
    obtain ⟨p, hp⟩ := hmem ha
    obtain ⟨q, hq⟩ := hmem hb
    exact h.apart hp hq hne
  node ha := by
    obtain ⟨p, hp⟩ := hmem ha
    exact h.node hp

variable [DecidableEq ι]

/-- The list `p` loses nodes. -/
theorem Threaded.shorten (h : Threaded w m head f) {p : ι} {l : List Nat} {first : Option Nat}
    (hl : l.Sublist (f p)) (hpath : Path (link w m) first l) :
    Threaded w m (Function.update head p first) (Function.update f p l) := by
  have hsub (q) : (Function.update f p l q).Sublist (f q) := by
    by_cases hq : q = p
    · subst hq
      rwa [Function.update_self]
    · rw [Function.update_of_ne hq]
  refine h.rearrange (h.placed.sublist hsub) (fun ha => ⟨_, (hsub _).subset ha⟩) fun q => ?_
  by_cases hq : q = p
  · subst hq
    rwa [Function.update_self, Function.update_self]
  · rw [Function.update_of_ne hq, Function.update_of_ne hq]
    exact h.path q

/-- The list `p` is forgotten. -/
theorem Threaded.drop (h : Threaded w m head f) (p : ι) :
    Threaded w m (Function.update head p none) (Function.update f p []) :=
  h.shorten (List.nil_sublist _) rfl

/-- The first node of `p` is taken off. -/
theorem Threaded.pop (h : Threaded w m head f) {p : ι} {a : Nat} {l : List Nat}
    (hf : f p = a :: l) :
    head p = some a ∧
      Threaded w m (Function.update head p (link w m a)) (Function.update f p l) := by
  have hpath := h.path p
  rw [hf, path_cons] at hpath
  refine ⟨hpath.1, h.shorten ?_ hpath.2⟩
  rw [hf]
  exact List.sublist_cons_self a l

/-- A node that is on no list becomes the first of `p`. -/
theorem Threaded.push (h : Threaded w m head f) (p : ι) {a : Nat} (hnew : ∀ q, a ∉ f q)
    (hapart : ∀ q, ∀ b ∈ f q, Apart w a b) (hnode : IsNode w a) :
    Threaded w (setLink w a (head p) m) (Function.update head p (some a))
      (Function.update f p (a :: f p)) := by
  have hmem {q b} (hb : b ∈ Function.update f p (a :: f p) q) : b = a ∨ b ∈ f q := by
    by_cases hq : q = p
    · subst hq
      rwa [Function.update_self, List.mem_cons] at hb
    · rw [Function.update_of_ne hq] at hb
      exact .inr hb
  have hother (q) : Path (link w (setLink w a (head p) m)) (head q) (f q) :=
    (h.path q).congr fun b hb => link_setLink_apart (hapart q b hb)
  refine ⟨fun q => ?_, h.placed.insert hnew, fun {q r b c} hb hc hne => ?_, fun {q b} hb => ?_⟩
  · by_cases hq : q = p
    · subst hq
      rw [Function.update_self, Function.update_self, path_cons,
        link_setLink fun b hb => h.head_node hb]
      exact ⟨rfl, hother q⟩
    · rw [Function.update_of_ne hq, Function.update_of_ne hq]
      exact hother q
  · rcases hmem hb with rfl | hb'
    · rcases hmem hc with rfl | hc'
      · exact absurd rfl hne
      · exact hapart r c hc'
    · rcases hmem hc with rfl | hc'
      · exact (hapart q b hb').symm
      · exact h.apart hb' hc' hne
  · rcases hmem hb with rfl | hb'
    · exact hnode
    · exact h.node hb'

/-- The first node of `p` becomes the first of `q`. -/
theorem Threaded.transfer (h : Threaded w m head f) {p q : ι} {a : Nat} {l : List Nat} (hpq : p ≠ q)
    (hf : f p = a :: l) : head p = some a ∧
      Threaded w (setLink w a (head q) m)
        (Function.update (Function.update head p (link w m a)) q (some a))
        (Function.update (Function.update f p l) q (a :: f q)) := by
  obtain ⟨hhead, hpop⟩ := h.pop hf
  have ha : a ∈ f p := hf ▸ List.mem_cons_self
  have hnd := h.placed.nodup p
  rw [hf] at hnd
  have hsub {r b} (hb : b ∈ Function.update f p l r) : b ∈ f r ∧ b ≠ a := by
    by_cases hr : r = p
    · subst hr
      rw [Function.update_self] at hb
      exact ⟨hf ▸ List.mem_cons_of_mem _ hb, fun e => (List.nodup_cons.mp hnd).1 (e ▸ hb)⟩
    · rw [Function.update_of_ne hr] at hb
      exact ⟨hb, fun e => hr (h.placed.unique (e ▸ hb) ha)⟩
  have hpush := hpop.push q (fun r hr => (hsub hr).2 rfl)
    (fun r b hb => h.apart ha (hsub hb).1 (hsub hb).2.symm) (h.node ha)
  rw [Function.update_of_ne hpq.symm, Function.update_of_ne hpq.symm] at hpush
  exact ⟨hhead, hpush⟩

/-- The nodes `xs` at the start of `p` become the list `q`, which was empty: the link of the last
one is cleared. -/
theorem Threaded.cut (h : Threaded w m head f) {p q : ι} {xs ys : List Nat} {last : Nat}
    {rest : Option Nat} (hpq : p ≠ q) (hf : f p = xs ++ ys) (hq : f q = [])
    (hlast : xs.getLast? = some last) (hrest : Path (link w m) rest ys) :
    Threaded w (setLink w last none m)
      (Function.update (Function.update head p rest) q (head p))
      (Function.update (Function.update f p ys) q xs) := by
  have hl : last ∈ f p := hf ▸ List.mem_append_left _ (List.mem_of_getLast? hlast)
  have hnd := h.placed.nodup p
  rw [hf] at hnd
  have hpath := h.path p
  rw [hf] at hpath
  have hstay {r a} (ha : a ∈ f r) (hne : a ≠ last) :
      link w (setLink w last none m) a = link w m a :=
    link_setLink_apart (h.apart hl ha hne.symm)
  have hp : (f p).Perm (xs ++ ys) := by rw [hf]
  have hq' : xs.Perm (xs ++ f q) := by rw [hq, List.append_nil]
  refine h.rearrange (h.placed.move hpq hp hq') (fun ha => ?_) fun r => ?_
  · rcases h.placed.mem_of_move hpq hp hq' ha with ⟨-, ha⟩ | ⟨ha, -⟩
    · exact ⟨p, hf ▸ List.mem_append_left _ ha⟩
    · exact ⟨_, ha⟩
  by_cases hrq : r = q
  · subst hrq
    rw [Function.update_self, Function.update_self]
    refine hpath.cut hnd hlast (link_setLink fun b hb => by cases hb) fun a ha hne => ?_
    exact hstay (r := p) (hf ▸ List.mem_append_left _ ha) hne
  rw [Function.update_of_ne hrq, Function.update_of_ne hrq]
  by_cases hrp : r = p
  · subst hrp
    rw [Function.update_self, Function.update_self]
    refine hrest.congr fun a ha => hstay (r := r) (hf ▸ List.mem_append_right _ ha) ?_
    rintro rfl
    exact (List.nodup_append.mp hnd).2.2 _ (List.mem_of_getLast? hlast) _ ha rfl
  · rw [Function.update_of_ne hrp, Function.update_of_ne hrp]
    refine (h.path r).congr fun a ha => hstay ha ?_
    rintro rfl
    exact hrp (h.placed.unique ha hl)

/-- All of `p` becomes the list `q`, which was empty. -/
theorem Threaded.move (h : Threaded w m head f) {p q : ι} (hpq : p ≠ q) (hq : f q = []) :
    Threaded w m (Function.update (Function.update head p none) q (head p))
      (Function.update (Function.update f p []) q (f p)) := by
  have hp : (f p).Perm (f p ++ []) := by rw [List.append_nil]
  have hq' : (f p).Perm (f p ++ f q) := by rw [hq, List.append_nil]
  refine h.rearrange (h.placed.move hpq hp hq') (fun ha => ?_) fun r => ?_
  · rcases h.placed.mem_of_move hpq hp hq' ha with ⟨-, ha⟩ | ⟨ha, -⟩
    · exact ⟨p, ha⟩
    · exact ⟨_, ha⟩
  by_cases hrq : r = q
  · subst hrq
    rw [Function.update_self, Function.update_self]
    exact h.path p
  · rw [Function.update_of_ne hrq, Function.update_of_ne hrq]
    exact ((h.drop p).path r)

end Lists

end ByteMemory
