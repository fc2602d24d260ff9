import SearchEngine.Server.Verify.Boot
import SearchEngine.Server.Verify.EndToEnd
import SearchEngine.Server.Verify.Render
import Mathlib.Data.List.Sort

/-!
# What a search shows

`listing` says what the text of an answer is, in terms of the files: the last file comes first, and
in each file there is a line for each occurrence of the word, in order. The rendering of the word's
postings is that text (`rendered_eq_listing`): the documents of a word are in descending order,
since each new document goes to the front of the list (`docsOf_files`).
-/

namespace SearchEngine.Server

open Memory Outcome

/-- The text of the answer to a word that is in the files. -/
def listing (names files : List (List UInt8)) (word : List UInt8) : List UInt8 :=
  (names.zip files).reverse.flatMap fun p => (linesIn word p.2).flatMap (renderLine p.1)

/-- The answer to a word, if it is in one of the files. -/
def searched (names files : List (List UInt8)) (word : List UInt8) : Option (List UInt8) :=
  if ∀ file ∈ files, linesIn word file = [] then none else some (listing names files word)

section Order

variable {files names : List (List UInt8)} {word : List UInt8} {d₀ : Nat}

/-- The occurrences come file by file. -/
theorem places_ascend (d₀ : Nat) (files : List (List UInt8)) (word : List UInt8) :
    ((placesOf (occurrencesFrom d₀ files) word).map Prod.fst).Pairwise (· ≤ ·) ∧
      ∀ d ∈ (placesOf (occurrencesFrom d₀ files) word).map Prod.fst, d₀ ≤ d := by
  induction files generalizing d₀ with
  | nil => exact ⟨.nil, fun d hd => absurd hd List.not_mem_nil⟩
  | cons file files ih =>
    obtain ⟨hsorted, hle⟩ := ih (d₀ + 1)
    have hcons : (placesOf (occurrencesFrom d₀ (file :: files)) word).map Prod.fst =
        List.replicate (linesIn word file).length d₀ ++
          (placesOf (occurrencesFrom (d₀ + 1) files) word).map Prod.fst := by
      rw [occurrencesFrom, List.zipIdx_cons, List.flatMap_cons, placesOf_concat, placesOf_file,
        List.map_append, List.map_map]
      congr 1
      exact List.map_const' ..
    have hmem (d : Nat) (hd : d ∈ List.replicate (linesIn word file).length d₀) : d = d₀ :=
      List.eq_of_mem_replicate hd
    rw [hcons]
    refine ⟨List.pairwise_append.mpr ⟨?_, hsorted, fun a ha b hb => ?_⟩, fun d hd => ?_⟩
    · exact List.pairwise_replicate.mpr (.inr (Nat.le_refl _))
    · rw [hmem a ha]
      exact Nat.le_of_succ_le (hle b hb)
    · rcases List.mem_append.mp hd with hd | hd
      · rw [hmem d hd]
      · exact Nat.le_of_succ_le (hle d hd)

/-- The documents of a word are those that have it, the last one first. -/
theorem docsOf_files (files : List (List UInt8)) (word : List UInt8) :
    docsOf (placesOf (occurrencesFrom 0 files) word) =
      ((List.range files.length).filter fun d => linesIn word (files.getD d []) ≠ []).reverse := by
  have hlines (d : Nat) : linesOf (placesOf (occurrencesFrom 0 files) word) d =
      linesIn word (files.getD d []) := by
    rw [linesOf_files, if_pos (Nat.zero_le d), Nat.sub_zero]
  have hnil (d : Nat) (h : files.length ≤ d) : linesIn word (files.getD d []) = [] := by
    rw [List.getD_eq_getElem?_getD, List.getElem?_eq_none h]
    rfl
  have hperm : (docsOf (placesOf (occurrencesFrom 0 files) word)).Perm
      ((List.range files.length).filter fun d => linesIn word (files.getD d []) ≠ []).reverse := by
    refine (List.perm_ext_iff_of_nodup (List.nodup_dedup _)
      (List.nodup_reverse.mpr (List.nodup_range.filter _))).mpr fun d => ?_
    rw [show d ∈ (placesOf (occurrencesFrom 0 files) word |>.map Prod.fst).reverse.dedup ↔ _
      from mem_docsOf, hlines, List.mem_reverse, List.mem_filter, List.mem_range]
    simp only [decide_eq_true_eq]
    exact ⟨fun h => ⟨Nat.lt_of_not_le fun hle => h (hnil d hle), h⟩, And.right⟩
  refine hperm.eq_of_pairwise' (r := (· ≥ ·)) ?_ ?_
  · have hdesc : ((placesOf (occurrencesFrom 0 files) word).map Prod.fst).reverse.Pairwise
      (· ≥ ·) :=
      List.pairwise_reverse.mpr (places_ascend 0 files word).1
    exact hdesc.sublist (List.dedup_sublist _)
  · refine List.pairwise_reverse.mpr (List.Pairwise.filter _ ?_)
    exact List.pairwise_lt_range.imp Nat.le_of_lt

theorem flatMap_filter_ne {α β : Type} (l : List α) (p : α → Bool) (g : α → List β)
    (h : ∀ a ∈ l, p a = false → g a = []) : (l.filter p).flatMap g = l.flatMap g := by
  induction l with
  | nil => rfl
  | cons a l ih =>
    have htail := ih fun b hb => h b (List.mem_cons_of_mem a hb)
    by_cases hp : p a = true
    · rw [List.filter_cons_of_pos hp, List.flatMap_cons, List.flatMap_cons, htail]
    · rw [List.filter_cons_of_neg hp, List.flatMap_cons, htail,
        h a List.mem_cons_self (by simpa using hp), List.nil_append]

/-- The listing, by the numbers of the files. -/
theorem listing_eq (hlen : names.length = files.length) :
    listing names files word = (List.range files.length).reverse.flatMap fun d =>
      (linesIn word (files.getD d [])).flatMap (renderLine (names.getD d [])) := by
  have hzip : names.zip files = (List.range files.length).map fun d =>
      (names.getD d [], files.getD d []) := by
    refine List.ext_getElem (by simp [hlen]) fun d hd hd' => ?_
    rw [List.length_zip, hlen, Nat.min_self] at hd
    simp [List.getD_eq_getElem?_getD, List.getElem?_eq_getElem hd,
      List.getElem?_eq_getElem (hlen ▸ hd)]
  rw [listing, hzip, ← List.map_reverse, List.flatMap_map]

end Order

section Render

variable {files names : List (List UInt8)} {t : Tables} {w : Word}

/-- The rendering of a word of the index is its listing. -/
theorem rendered_eq_listing (hlen : names.length = files.length)
    (hnames : ∀ d < files.length, t.name d = names.getD d [])
    (hw : PostingsOf (placesOf (occurrencesFrom 0 files) w.str) w.list) :
    rendered t w = listing names files w.str := by
  obtain ⟨hdocs, hholds⟩ := hw
  have hlines : ∀ docs ∈ w.list, docs.lines = linesIn w.str (files.getD docs.val []) := by
    intro docs hd
    rw [LinkedList.lines, (hholds docs hd).lines, linesOf_files, if_pos (Nat.zero_le _),
      Nat.sub_zero]
  calc rendered t w
      = w.list.flatMap fun docs =>
          (linesIn w.str (files.getD docs.val [])).flatMap (renderLine (t.name docs.val)) :=
        List.flatMap_congr fun docs hd => by rw [hlines docs hd]
    _ = (docsOf (placesOf (occurrencesFrom 0 files) w.str)).flatMap fun d =>
          (linesIn w.str (files.getD d [])).flatMap (renderLine (t.name d)) := by
        rw [← hdocs, List.flatMap_map]
    _ = (List.range files.length).reverse.flatMap fun d =>
          (linesIn w.str (files.getD d [])).flatMap (renderLine (t.name d)) := by
        rw [docsOf_files, ← List.filter_reverse]
        refine flatMap_filter_ne _ _ _ fun d _ hd => ?_
        rw [show linesIn w.str (files.getD d []) = [] by simpa using hd, List.flatMap_nil]
    _ = listing names files w.str := by
        rw [listing_eq hlen]
        refine List.flatMap_congr fun d hd => ?_
        rw [hnames d (List.mem_range.mp (List.mem_reverse.mp hd))]

end Render

end SearchEngine.Server
