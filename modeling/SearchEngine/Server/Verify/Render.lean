import SearchEngine.Server.Job
import SearchEngine.Lib.Outcome
import Mathlib.Data.Nat.Basic

/-!
# The rendering of an answer

`rendered` is the text of an answer, one line for each posting. The loop of `thread_job` writes
that text and a NUL, exactly if both fit into the packet (`render_spec`).
-/

namespace SearchEngine.Server

open Memory Outcome

section Render

variable {t : Tables} {packet : Packet} {word : Word}

/-- The postings of a document that have been inserted. -/
def LinkedList.lines (l : LinkedList) : List Nat := l.list.take l.lastIndex

/-- The string to which an item of `file_list` points. -/
def Tables.name (t : Tables) (val : Nat) : List UInt8 :=
  match t.fileList.dynList[val]? with
  | some (some name) => t.mem name
  | _ => []

/-- The document is one of `file_list`, and its postings are inside of their array. -/
structure Posted (l : DynList) (docs : LinkedList) : Prop where
  name : ∃ name, l.dynList[docs.val]? = some (some name)
  lines : docs.lastIndex ≤ docs.list.length

/-- The text of an answer. -/
def rendered (t : Tables) (word : Word) : List UInt8 :=
  word.list.flatMap fun docs => docs.lines.flatMap (renderLine (t.name docs.val))

theorem Posted.fileName {docs : LinkedList} (h : Posted t.fileList docs) :
    fileName t docs.val = .ok (t.name docs.val) := by
  obtain ⟨name, hname⟩ := h.name
  rw [Server.fileName, Tables.name, hname]

/-- `text` has been rendered: it is at the start of the packet, and `tot_len` counts it. -/
structure Out (text : List UInt8) (out : Packet × Int) : Prop where
  fits : text.length ≤ DYN_SIZE
  data : out.1.data.take text.length = text
  len : out.2 = text.length

theorem int_add_of_le {a b : Nat} (h : a + b ≤ DYN_SIZE) :
    CInt.int ((a : Int) + b) = (a + b : Nat) := by
  simp only [DYN_SIZE] at h
  rw [CInt.int_of_lt (by omega) (by omega)]
  omega

/-- One `sprintf`. -/
theorem renderPosting_spec {text name : List UInt8} {out : Packet × Int} {line : Nat}
    (h : Out text out) :
    (text.length + (renderLine name line).length ≤ DYN_SIZE →
      ∃ out', renderPosting name out line = .ok out' ∧ Out (text ++ renderLine name line) out') ∧
    (DYN_SIZE < text.length + (renderLine name line).length →
      renderPosting name out line = .error .outOfBounds) := by
  obtain ⟨packet, len⟩ := out
  obtain rfl := h.len
  have hlen : (renderLine name line ++ [0]).length = (renderLine name line).length + 1 :=
    List.length_append
  refine ⟨fun hle => ?_, fun hlt => ?_⟩
  · obtain ⟨c, hc, hdata⟩ := Block.write_natCast packet text.length
      (renderLine name line ++ [0]) (by rw [hlen]; exact Nat.succ_le_succ hle)
    refine ⟨(c, (text.length + (renderLine name line).length : Nat)), ?_, ⟨?_, ?_, ?_⟩⟩
    · simp only [renderPosting, hc, int_add_of_le hle]
    · rw [List.length_append]
      exact hle
    · rw [hdata, h.data, List.length_append, ← List.append_assoc, List.append_assoc,
        ← List.length_append, List.take_left]
    · rw [List.length_append]
  · have hnone : packet.write text.length (renderLine name line ++ [0]) = none := by
      refine Block.write_eq_none.mpr (.inr ?_)
      rw [hlen, Int.toNat_natCast]
      exact Nat.succ_lt_succ hlt
    simp only [renderPosting, hnone]

/-- A run of `sprintf`s, where `step` renders what `part` says. -/
theorem render_foldlM {α : Type} {step : Packet × Int → α → Except Fault (Packet × Int)}
    {part : α → List UInt8} {xs : List α}
    (hstep : ∀ x ∈ xs, ∀ text out, Out text out →
      (text.length + (part x).length ≤ DYN_SIZE →
        ∃ out', step out x = .ok out' ∧ Out (text ++ part x) out') ∧
      (DYN_SIZE < text.length + (part x).length → step out x = .error .outOfBounds))
    {text : List UInt8} {out : Packet × Int} (h : Out text out) :
    (text.length + (xs.flatMap part).length ≤ DYN_SIZE →
      ∃ out', xs.foldlM step out = .ok out' ∧ Out (text ++ xs.flatMap part) out') ∧
    (DYN_SIZE < text.length + (xs.flatMap part).length →
      xs.foldlM step out = .error .outOfBounds) := by
  induction xs generalizing text out with
  | nil =>
    refine ⟨fun _ => ⟨out, rfl, ?_⟩, fun hlt => absurd h.fits (by simpa using hlt)⟩
    rw [List.flatMap_nil, List.append_nil]
    exact h
  | cons x xs ih =>
    obtain ⟨hok, herr⟩ := hstep x List.mem_cons_self text out h
    have htail := fun y hy => hstep y (List.mem_cons_of_mem x hy)
    rw [List.flatMap_cons, List.length_append, ← Nat.add_assoc, List.foldlM_cons]
    by_cases hx : text.length + (part x).length ≤ DYN_SIZE
    · obtain ⟨out', hrun, hout⟩ := hok hx
      rw [hrun, ok_bind, ← List.append_assoc, ← List.length_append]
      exact ih htail hout
    · rw [herr (Nat.lt_of_not_le hx), error_bind]
      refine ⟨fun hle => absurd ((Nat.le_add_right _ _).trans hle) hx, fun _ => rfl⟩

theorem flatMap_range {α β : Type} (l : List α) (n : Nat) (h : n ≤ l.length) (f : α → List β) :
    (List.range n).flatMap (fun i => (l[i]?).elim [] f) = (l.take n).flatMap f := by
  induction n with
  | zero => rfl
  | succ n ih =>
    have hlt : n < l.length := h
    rw [List.range_succ, List.flatMap_append, ih hlt.le, List.take_add_one, List.flatMap_append]
    simp [List.getElem?_eq_getElem hlt]

theorem renderDoc_spec {docs : LinkedList} (hd : Posted t.fileList docs) {text : List UInt8}
    {out : Packet × Int} (h : Out text out) :
    (text.length + (docs.lines.flatMap (renderLine (t.name docs.val))).length ≤ DYN_SIZE →
      ∃ out', renderDoc t out docs = .ok out' ∧
        Out (text ++ docs.lines.flatMap (renderLine (t.name docs.val))) out') ∧
    (DYN_SIZE < text.length + (docs.lines.flatMap (renderLine (t.name docs.val))).length →
      renderDoc t out docs = .error .outOfBounds) := by
  rw [LinkedList.lines, ← flatMap_range _ _ hd.lines]
  refine render_foldlM (fun i hi text out h => ?_) h
  obtain ⟨line, hline⟩ : ∃ line, docs.list[i]? = some line :=
    ⟨_, List.getElem?_eq_getElem ((List.mem_range.mp hi).trans_le hd.lines)⟩
  simp only [hd.fileName, ok_bind, hline, Option.elim_some]
  exact renderPosting_spec h

/-- The whole loop writes the text, if it fits with its NUL, and runs out of the packet
otherwise. -/
theorem render_spec (packet : Packet) (hw : ∀ docs ∈ word.list, Posted t.fileList docs) :
    ((rendered t word).length ≤ DYN_SIZE →
      ∃ out, render t packet word = .ok out ∧ Out (rendered t word) out) ∧
    (DYN_SIZE < (rendered t word).length → render t packet word = .error .outOfBounds) := by
  have h := render_foldlM
    (fun docs hd _ _ h => renderDoc_spec (hw docs hd) h)
    (⟨Nat.zero_le _, rfl, rfl⟩ : Out [] (packet, 0))
  rw [List.length_nil, Nat.zero_add, List.nil_append] at h
  exact h

end Render

end SearchEngine.Server
