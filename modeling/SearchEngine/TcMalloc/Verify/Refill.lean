import SearchEngine.TcMalloc.Verify.OutOfMemory

/-!
# The recursion of `fetch_span` ends

`fetch_span` calls itself at most once: after `fetch_from_system` the new region is the head of the
last list, where the second round finds it, also for 256 pages (`fetch_last_asked`). So it returns
exactly if the page map has room for what it asks of the system (`fetch_returns`).
-/

namespace SearchEngine.TcMalloc

open LinkedRing Placement Outcome Reach

/-- The page map has an entry for each page that the break comes to in `fetch_span(npage)`. -/
def HasRoom (env : Env) (h : Heap) (npage : Nat) : Prop :=
  brkAfter env (requests h npage) h.sbrkCalls h.brk ≤ mapEnd env

section Returns

variable {d : Discipline} {env : Env} {s : Sys} {h h' : Heap} {f : SpanPlace → List SpanPtr}
  {npage : Nat}

/-- For 256 pages the second round takes the whole region. -/
theorem fetch_last_asked (hs : env.Succeeds) (hi : HeapInv d env h f) (hm : InMap env h)
    (hh : h.pgList (bucket 256) = none) :
    Sat (fetchSpan env 256 h) (fun r => Asked env (requests h 256) h r.2)
      fun _ => mapEnd env < brkAfter env (requests h 256) h.sbrkCalls h.brk := by
  have hff : firstFit h.pgList 256 = none := by
    unfold firstFit
    exact if_neg (by decide)
  have hrequests := requests_of_none hh hff
  rw [if_neg (by decide), if_neg (by decide), List.append_nil] at hrequests
  rw [hrequests]
  refine refill_round hs hi hm (Nat.le_refl 256) hh hff (fun _ => id) ?_
  rintro h₃ R ⟨⟨f₃, hi₃⟩, -, hpg₃, hask₃, -, -⟩
  have hh₃ : h₃.pgList (bucket 256) = some R := by
    rw [hpg₃]
    exact Function.update_self ..
  obtain ⟨h₄, hrun, hask₄, -⟩ := fetchWith_exact_traded hi₃ hh₃ (fetchSpanDepth env 0 256)
  unfold fetchSpanDepth
  rw [hrun]
  have hall := hask₃.trans hask₄
  rwa [List.append_nil] at hall

/-- Whichever way `fetch_span` finds its span: it asks for `requests`, and ends unless the page map
is too small for these. -/
theorem fetchSpan_asked (hs : env.Succeeds) (hi : HeapInv d env h f) (hm : InMap env h)
    (hpos : 0 < npage) (hlt : npage < 2 ^ 31) :
    Sat (fetchSpan env npage h) (fun r => Asked env (requests h npage) h r.2)
      fun _ => ¬ HasRoom env h npage := by
  unfold HasRoom
  by_cases h256 : h.pgList (bucket npage) = none ∧ npage = 256
  · obtain ⟨hh, rfl⟩ := h256
    exact (fetch_last_asked hs hi hm hh).mono (fun _ => id) fun _ => Nat.not_le.mpr
  · refine (fetchSpan_traded hs hi hm hpos hlt fun hh hnp => h256 ⟨hh, hnp⟩).mono
      (fun _ => And.left) fun _ => Nat.not_le.mpr

/-- A span that is cut has had a record, which is in the page map. -/
theorem room_of_cut (hs : env.Succeeds) (hi : HeapInv d env h f) (hm : InMap env h)
    {jt : Nat × SpanPtr} {r : SpanPtr × Heap} (hh : h.pgList (bucket npage) = none)
    (hff : firstFit h.pgList npage = some jt) (hrun : fetchSpan env npage h = .ok r) :
    HasRoom env h npage := by
  unfold HasRoom
  rw [requests_of_fit hh hff]
  unfold fetchSpan fetchSpanDepth at hrun
  simp only [fetchSpanWith, hh] at hrun
  obtain ⟨⟨s, h₁⟩, hrec, -⟩ := bind_eq_ok hrun
  obtain ⟨hn, hask, -⟩ := (newRecord_asked hs hi hm).of_ok hrec _ rfl
  rw [← hask.brk]
  exact hn.inMap

/-- A call that returns has had room. -/
theorem room_of_returns (hs : env.Succeeds) (hi : HeapInv d env h f) (hm : InMap env h)
    (hpos : 0 < npage) (hlt : npage < 2 ^ 31) {r : SpanPtr × Heap}
    (hrun : fetchSpan env npage h = .ok r) : HasRoom env h npage := by
  have hd : SpanPlace.user.Loose := trivial
  have hask := (fetchSpan_asked hs hi hm hpos hlt).of_ok hrun
  have hroom : FetchOk h npage → HasRoom env h npage := by
    intro hok
    obtain ⟨f', hf', -⟩ := (fetchSpan_sat hs hi hm hpos hok hd).of_ok hrun
    unfold HasRoom
    rw [← hask.brk]
    exact hf'.inMap
  cases hh : h.pgList (bucket npage) with
  | some tmp =>
    apply hroom
    unfold FetchOk
    rw [hh]
    trivial
  | none =>
    cases hff : firstFit h.pgList npage with
    | some jt => exact room_of_cut hs hi hm hh hff hrun
    | none =>
      apply hroom
      unfold FetchOk
      rw [hh, toInt_of_lt hlt, Int.toNat_natCast, hff]
      exact show npage < 2 ^ 32 by omega

/-- In a run whose fetches compute with sizes that fit, `fetch_span` returns, with at most one
call of itself, exactly if the page map has room for what it asks of the system. -/
theorem fetch_returns (hs : env.Succeeds) (hr : Reachable env FetchMet s) (hpos : 0 < npage)
    (hlt : npage < 2 ^ 31) :
    (∃ r, fetchSpanDepth env 2 npage s.heap = .ok r) ↔ HasRoom env s.heap npage := by
  obtain ⟨f, hi⟩ := reachable_base hs hr
  constructor
  · rintro ⟨r, hrun⟩
    exact room_of_returns hs hi.heap hi.inMap hpos hlt hrun
  · intro hroom
    have hask := fetchSpan_asked hs hi.heap hi.inMap hpos hlt
    cases hrun : fetchSpan env npage s.heap with
    | ok r => exact ⟨r, hrun⟩
    | error e =>
      rw [hrun] at hask
      exact absurd hroom hask

theorem fetch_returns_machine : ∃ s, Reachable machine FetchMet s ∧
    ∃ r, fetchSpanDepth machine 2 300 s.heap = .ok r := by
  obtain ⟨s, ⟨h₀, hinit, hrun⟩, hs⟩ := machine_ready
  have hr : Reachable machine FetchMet s := ⟨h₀, hinit, hrun.mono fun _ _ h => h.fetchMet⟩
  refine ⟨s, hr, (fetch_returns machine_succeeds hr (by decide) (by decide)).mpr ?_⟩
  have hone := hs.pool.one
  have hhead : s.heap.pgList (bucket 300) = some 4224 := by
    rw [hone.pg]
    exact Function.update_self ..
  unfold HasRoom
  rw [requests_of_head hhead, brkAfter, hs.pool.brk]
  decide

/-- With an empty page heap `fetch_span(9000000)` runs over the page map. -/
theorem fetch_overruns : ∃ s, Reachable machine FetchMet s ∧
    ¬ ∃ r, fetchSpanDepth machine 2 9000000 s.heap = .ok r := by
  obtain ⟨s, hr, hsp⟩ := machine_spanless
  obtain ⟨f, hi⟩ := reachable_base machine_succeeds hr
  refine ⟨s, hr, ?_⟩
  rintro ⟨r, hrun⟩
  have hroom := room_of_returns machine_succeeds hi.heap hi.inMap (by decide) (by decide) hrun
  have hh : s.heap.pgList (bucket 9000000) = none := by rw [hsp.pgList]
  have hff : firstFit s.heap.pgList 9000000 = none := by
    rw [hsp.pgList]
    exact firstFit_empty _
  unfold HasRoom at hroom
  rw [requests_of_none hh hff, if_pos (by decide), brkAfter_append, brkAfter] at hroom
  obtain ⟨n, hn, -⟩ := hi.heap.brkAt hi.inMap
  have hchunk : s.heap.brk ≤
      brkAfter machine (chunkAsk s.heap.remBytes) s.heap.sbrkCalls s.heap.brk := le_brkAfter _ _ _
  have hle := (le_brkAfter _ _ _).trans hroom
  rw [hn] at hchunk hle
  unfold mapEnd at hle
  simp only [PAGEMAPSIZE] at hle
  omega

end Returns

end SearchEngine.TcMalloc
