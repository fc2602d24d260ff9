import Mathlib.Data.List.Basic
import Mathlib.Data.List.TakeWhile

/-!
# Maximal runs in a list

`runs p l` is the list of the maximal runs of elements of `l` that meet `p`, in order, and
`spans p i l` says where they are, as half-open ranges, when `l` starts at position `i`.
-/

namespace Segments

universe u

variable {α : Type u} {p : α → Bool} {l w : List α} {x : α} {i : Nat}

/-- The maximal runs of elements that meet `p`. -/
def runs (p : α → Bool) (l : List α) : List (List α) :=
  (l.splitOnP fun a => !p a).filter fun w => !w.isEmpty

/-- Where the runs are, when the run that starts at `start` is still open. -/
def spansFrom (p : α → Bool) : Option Nat → Nat → List α → List (Nat × Nat)
  | none, _, [] => []
  | some s, i, [] => [(s, i)]
  | none, i, a :: l => spansFrom p (if p a then some i else none) (i + 1) l
  | some s, i, a :: l =>
    if p a then spansFrom p (some s) (i + 1) l else (s, i) :: spansFrom p none (i + 1) l

/-- Where the runs of a list are that starts at position `i`. -/
def spans (p : α → Bool) (i : Nat) (l : List α) : List (Nat × Nat) := spansFrom p none i l

/-! ## Runs -/

theorem runs_append_cons (hx : p x = false) (w l : List α) :
    runs p (w ++ x :: l) = runs p w ++ runs p l := by
  rw [runs, List.splitOnP_append_cons _ _ (by rw [hx]; rfl), List.filter_append]
  rfl

theorem runs_of_all (hw : ∀ a ∈ w, p a) (hne : w ≠ []) : runs p w = [w] := by
  rw [runs, List.splitOnP_eq_singleton fun a ha => by rw [hw a ha]; rfl]
  simpa using hne

@[simp] theorem runs_nil : runs p [] = [] := rfl

theorem runs_cons_of_not (hx : p x = false) (l : List α) : runs p (x :: l) = runs p l :=
  runs_append_cons hx [] l

/-- What comes before the first run does not matter. -/
theorem runs_gap (hw : ∀ a ∈ w, p a = false) (l : List α) : runs p (w ++ l) = runs p l := by
  induction w with
  | nil => rfl
  | cons a w ih =>
    rw [List.cons_append, runs_cons_of_not (hw a List.mem_cons_self)]
    exact ih fun b hb => hw b (List.mem_cons_of_mem a hb)

theorem nil_notMem_runs : [] ∉ runs p l := by
  rw [runs, List.mem_filter]
  rintro ⟨-, h⟩
  cases h

/-! ## Spans -/

@[simp] theorem spans_nil : spans p i [] = [] := rfl

theorem spans_cons_of_not (hx : p x = false) (l : List α) :
    spans p i (x :: l) = spans p (i + 1) l := by
  rw [spans, spansFrom, hx]
  rfl

theorem spans_gap (hw : ∀ a ∈ w, p a = false) (l : List α) :
    spans p i (w ++ l) = spans p (i + w.length) l := by
  induction w generalizing i with
  | nil => rfl
  | cons a w ih =>
    rw [List.cons_append, spans_cons_of_not (hw a List.mem_cons_self),
      ih fun b hb => hw b (List.mem_cons_of_mem a hb), List.length_cons]
    congr 1
    omega

theorem spansFrom_open {s : Nat} (hw : ∀ a ∈ w, p a) (l : List α) :
    spansFrom p (some s) i (w ++ l) = spansFrom p (some s) (i + w.length) l := by
  induction w generalizing i with
  | nil => rfl
  | cons a w ih =>
    rw [List.cons_append, spansFrom, if_pos (hw a List.mem_cons_self),
      ih fun b hb => hw b (List.mem_cons_of_mem a hb), List.length_cons]
    congr 1
    omega

theorem spans_open (hw : ∀ a ∈ w, p a) (hne : w ≠ []) (l : List α) :
    spans p i (w ++ l) = spansFrom p (some i) (i + w.length) l := by
  cases w with
  | nil => exact absurd rfl hne
  | cons a w =>
    rw [spans, List.cons_append, spansFrom, if_pos (hw a List.mem_cons_self),
      spansFrom_open fun b hb => hw b (List.mem_cons_of_mem a hb), List.length_cons]
    congr 1
    omega

theorem spans_of_all (hw : ∀ a ∈ w, p a) (hne : w ≠ []) :
    spans p i w = [(i, i + w.length)] := by
  have h := spans_open (i := i) hw hne []
  rwa [List.append_nil] at h

theorem spans_append_cons (hw : ∀ a ∈ w, p a) (hne : w ≠ []) (hx : p x = false) (l : List α) :
    spans p i (w ++ x :: l) = (i, i + w.length) :: spans p (i + w.length + 1) l := by
  rw [spans_open hw hne, spansFrom, hx, if_neg Bool.false_ne_true, spans]

theorem spansFrom_bounds {start : Option Nat} {y : Nat × Nat} (hs : ∀ s, start = some s → s < i)
    (hy : y ∈ spansFrom p start i l) :
    (∀ s, start = some s → s ≤ y.1) ∧ (start = none → i ≤ y.1) ∧ y.1 < y.2 ∧
      y.2 ≤ i + l.length := by
  induction l generalizing start i with
  | nil =>
    cases start with
    | none => cases hy
    | some s =>
      obtain rfl := List.mem_singleton.mp hy
      have := hs s rfl
      exact ⟨by rintro _ ⟨⟩; exact Nat.le_refl _, by simp, this, Nat.le_refl _⟩
  | cons a l ih =>
    rw [List.length_cons]
    cases start with
    | none =>
      rw [spansFrom] at hy
      by_cases ha : p a
      · rw [if_pos ha] at hy
        obtain ⟨h₁, -, h₃, h₄⟩ := ih (by rintro _ ⟨⟩; omega) hy
        exact ⟨by simp, fun _ => h₁ i rfl, h₃, by omega⟩
      · rw [if_neg ha] at hy
        obtain ⟨-, h₂, h₃, h₄⟩ := ih (by simp) hy
        have := h₂ rfl
        exact ⟨by simp, fun _ => by omega, h₃, by omega⟩
    | some s =>
      have hlt := hs s rfl
      rw [spansFrom] at hy
      by_cases ha : p a
      · rw [if_pos ha] at hy
        obtain ⟨h₁, -, h₃, h₄⟩ := ih (by rintro _ ⟨⟩; omega) hy
        exact ⟨h₁, by simp, h₃, by omega⟩
      · rw [if_neg ha] at hy
        rcases List.mem_cons.mp hy with rfl | hy
        · exact ⟨by rintro _ ⟨⟩; exact Nat.le_refl _, by simp, hlt, by simp⟩
        · obtain ⟨-, h₂, h₃, h₄⟩ := ih (by simp) hy
          have := h₂ rfl
          exact ⟨by rintro _ ⟨⟩; omega, by simp, h₃, by omega⟩

/-- The runs are not empty and inside of the list. -/
theorem spans_bounds {y : Nat × Nat} (hy : y ∈ spans p i l) :
    i ≤ y.1 ∧ y.1 < y.2 ∧ y.2 ≤ i + l.length := by
  obtain ⟨-, h₂, h₃, h₄⟩ := spansFrom_bounds (by simp) hy
  exact ⟨h₂ rfl, h₃, h₄⟩

/-- An element that does not meet `p` separates what is before it from what is behind it. -/
theorem spansFrom_append_cons (hx : p x = false) (w l : List α) (start : Option Nat) :
    spansFrom p start i (w ++ x :: l) = spansFrom p start i w ++ spans p (i + w.length + 1) l := by
  induction w generalizing start i with
  | nil =>
    cases start with
    | none => exact spans_cons_of_not hx l
    | some s =>
      exact if_neg (by rw [hx]; exact Bool.false_ne_true)
  | cons a w ih =>
    have hlen : i + 1 + w.length + 1 = i + (a :: w).length + 1 := by
      rw [List.length_cons]
      omega
    cases start with
    | none => rw [List.cons_append, spansFrom, spansFrom, ih, hlen]
    | some s =>
      rw [List.cons_append, spansFrom, spansFrom]
      by_cases ha : p a
      · rw [if_pos ha, if_pos ha, ih, hlen]
      · rw [if_neg ha, if_neg ha, ih, hlen, List.cons_append]

theorem spans_split (hx : p x = false) (w l : List α) :
    spans p i (w ++ x :: l) = spans p i w ++ spans p (i + w.length + 1) l :=
  spansFrom_append_cons hx w l none

theorem spansFrom_cut {m r : List α} {start : Option Nat} (hm : m.drop i = l ++ r)
    (hopen : ∀ s ∈ start, (m.take i).drop s ≠ [] ∧ ∀ a ∈ (m.take i).drop s, p a) :
    (spansFrom p start i l).map (fun y => (m.take y.2).drop y.1) =
      runs p (start.elim [] (fun s => (m.take i).drop s) ++ l) := by
  induction l generalizing start i with
  | nil =>
    cases start with
    | none => rfl
    | some s =>
      obtain ⟨hne, hall⟩ := hopen s rfl
      rw [Option.elim_some, List.append_nil, runs_of_all hall hne]
      rfl
  | cons a l ih =>
    have hget : m[i]? = some a := by
      rw [← List.head?_drop, hm]
      rfl
    have hlt : i < m.length := (List.getElem?_eq_some_iff.mp hget).1
    have hdrop : m.drop (i + 1) = l ++ r := by
      rw [← List.tail_drop, hm]
      rfl
    have htake : m.take (i + 1) = m.take i ++ [a] := by
      rw [List.take_add_one, hget]
      rfl
    have hlen : (m.take i).length = i := List.length_take_of_le hlt.le
    cases start with
    | none =>
      rw [spansFrom]
      by_cases ha : p a
      · have hone : (m.take (i + 1)).drop i = [a] := by
          rw [htake, List.drop_append_of_le_length hlen.ge, List.drop_of_length_le hlen.le]
          rfl
        rw [if_pos ha, ih hdrop]
        · simp only [Option.elim_some, hone]
          rfl
        · rintro _ ⟨⟩
          rw [hone]
          exact ⟨List.cons_ne_nil a [], fun b hb => by rw [List.mem_singleton.mp hb]; exact ha⟩
      · rw [if_neg ha, ih hdrop (by simp)]
        exact (runs_cons_of_not (by simpa using ha) l).symm
    | some s =>
      obtain ⟨hne, hall⟩ := hopen s rfl
      have hs : s < (m.take i).length := List.length_lt_of_drop_ne_nil hne
      have hmore : (m.take (i + 1)).drop s = (m.take i).drop s ++ [a] := by
        rw [htake, List.drop_append_of_le_length hs.le]
      rw [spansFrom]
      by_cases ha : p a
      · rw [if_pos ha, ih hdrop]
        · simp only [Option.elim_some, hmore, List.append_assoc, List.singleton_append]
        · rintro _ ⟨⟩
          rw [hmore]
          refine ⟨List.append_ne_nil_of_left_ne_nil hne [a], fun b hb => ?_⟩
          rcases List.mem_append.mp hb with hb | hb
          · exact hall b hb
          · rw [List.mem_singleton.mp hb]
            exact ha
      · rw [if_neg ha, List.map_cons, ih hdrop (by simp), Option.elim_some,
          runs_append_cons (by simpa using ha), runs_of_all hall hne]
        rfl

/-- The spans of a part of `m` cut the runs of that part out of `m`. -/
theorem spans_cut {m r : List α} (hm : m.drop i = l ++ r) :
    (spans p i l).map (fun y => (m.take y.2).drop y.1) = runs p l :=
  spansFrom_cut hm fun s (hs : s ∈ none) => absurd hs (Option.not_mem_none s)

/-! ## The first run -/

theorem gap_all (p : α → Bool) (l : List α) : ∀ a ∈ l.takeWhile (fun a => !p a), p a = false :=
  fun _ ha => by simpa using List.mem_takeWhile_imp ha

theorem run_all (p : α → Bool) (l : List α) : ∀ a ∈ l.takeWhile p, p a :=
  fun _ ha => List.mem_takeWhile_imp ha

/-- Behind the elements that meet `p` comes one that does not, or the end. -/
theorem drop_takeWhile (p : α → Bool) (l : List α) :
    l.drop (l.takeWhile p).length = [] ∨
      ∃ x rest, l.drop (l.takeWhile p).length = x :: rest ∧ p x = false := by
  induction l with
  | nil => exact .inl rfl
  | cons a l ih =>
    by_cases ha : p a
    · rw [List.takeWhile_cons_of_pos ha, List.length_cons, List.drop_succ_cons]
      exact ih
    · rw [List.takeWhile_cons_of_neg ha, List.length_nil, List.drop_zero]
      exact .inr ⟨a, l, rfl, by simpa using ha⟩

theorem takeWhile_append_drop (p : α → Bool) (l : List α) :
    l.takeWhile p ++ l.drop (l.takeWhile p).length = l := by
  have h := List.prefix_iff_eq_take.mp (List.takeWhile_prefix p (l := l))
  exact (congrArg (· ++ _) h).trans (List.take_append_drop _ _)

/-- A list without a run is all gap, and any other starts with a gap, a run, and the end or an
element behind the run. -/
theorem first_run (p : α → Bool) (l : List α) :
    (l.takeWhile fun a => !p a) = l ∨
      ∃ w l', l.drop (l.takeWhile fun a => !p a).length = w ++ l' ∧ w ≠ [] ∧ (∀ a ∈ w, p a) ∧
        w = (w ++ l').takeWhile p ∧ (l' = [] ∨ ∃ x l'', l' = x :: l'' ∧ p x = false) := by
  obtain ⟨l₁, hl₁⟩ : ∃ l₁, l.drop (l.takeWhile fun a => !p a).length = l₁ := ⟨_, rfl⟩
  have hsplit := takeWhile_append_drop (fun a => !p a) l
  rcases drop_takeWhile (fun a => !p a) l with hnil | ⟨x, rest, hx, hpx⟩
  · rw [hnil, List.append_nil] at hsplit
    exact .inl hsplit
  · have hsplit₁ := takeWhile_append_drop p (x :: rest)
    refine .inr ⟨(x :: rest).takeWhile p, (x :: rest).drop ((x :: rest).takeWhile p).length,
      by rw [hsplit₁, hx], ?_, run_all p _, by rw [hsplit₁], drop_takeWhile p _⟩
    rw [List.takeWhile_cons_of_pos (by simpa using hpx)]
    exact List.cons_ne_nil _ _

theorem spans_eq_nil : spans p i l = [] ↔ ∀ a ∈ l, p a = false := by
  constructor
  · intro h
    rcases first_run p l with hgap | ⟨w, l', hdrop, hne, hw, -, hl'⟩
    · rw [← hgap]
      exact gap_all p l
    · rw [← takeWhile_append_drop (fun a => !p a) l, spans_gap (gap_all p l), hdrop] at h
      rcases hl' with rfl | ⟨x, l'', rfl, hx⟩
      · rw [List.append_nil, spans_of_all hw hne] at h
        cases h
      · rw [spans_append_cons hw hne hx] at h
        cases h
  · intro h
    have hgap := spans_gap (i := i) h []
    rwa [List.append_nil, spans_nil] at hgap

theorem runs_eq_nil : runs p l = [] ↔ ∀ a ∈ l, p a = false := by
  constructor
  · intro h
    rcases first_run p l with hgap | ⟨w, l', hdrop, hne, hw, -, hl'⟩
    · rw [← hgap]
      exact gap_all p l
    · rw [← takeWhile_append_drop (fun a => !p a) l, runs_gap (gap_all p l), hdrop] at h
      rcases hl' with rfl | ⟨x, l'', rfl, hx⟩
      · rw [List.append_nil, runs_of_all hw hne] at h
        cases h
      · rw [runs_append_cons hx, runs_of_all hw hne] at h
        cases h
  · intro h
    have hgap := runs_gap h []
    rwa [List.append_nil, runs_nil] at hgap

end Segments
