import SearchEngine.Server.Job
import SearchEngine.Server.Verify.Strings
import SearchEngine.Server.Verify.Transfer

/-!
# What a job makes of the bytes it receives

The first part of `thread_job` is described in terms of the stream: `headerOf` is the header
it sees (what has not arrived of it is what the block held before), and `announced` the length
of the body as the second `recv_from_host` takes it. From that follow the two exact
conditions of this file: when every store is inside of `packet`, and when only complete
requests are answered.
-/

namespace SearchEngine.Server

open Memory Outcome

section Header

variable {bytes : List UInt8}

theorem length_htonl (x : Int) : (htonl x).length = 4 := rfl

/-- `ntohl` undoes `htonl`. -/
theorem ntohl_htonl (x : Int) : ntohl (htonl x) = CInt.uint32 x := by
  have hlt : CInt.uint32 x < 2 ^ 32 := by rw [CInt.uint32]; omega
  simp only [htonl, ntohl, List.foldl_cons, List.foldl_nil, UInt8.toNat_ofNat']
  omega

theorem Hdr.at_append {a b c : List UInt8} (ha : a.length = 4) (hb : b.length = 4) :
    Hdr.at (a ++ b ++ c) = ⟨a, b⟩ := by
  have h₁ : (a ++ b ++ c).take 4 = a := by rw [List.append_assoc, ← ha, List.take_left]
  have h₂ : (a ++ b ++ c).drop 4 = b ++ c := by rw [List.append_assoc, ← ha, List.drop_left]
  have h₃ : (b ++ c).take 4 = b := by rw [← hb, List.take_left]
  rw [Hdr.at, h₁, h₂, h₃]

theorem size_hdrLen : CInt.size (HDR_LEN : Nat) = 8 := rfl

end Header

section Request

variable {packet : Packet} {s : Socket}

/-- The header that the job sees. -/
def headerOf (packet : Packet) (l : List (Option UInt8)) : Hdr :=
  Hdr.at ((readable l).take 8 ++ packet.data.drop (min 8 (readable l).length))

/-- The length of the body that the job receives. -/
def announced (h : Hdr) : Nat :=
  CInt.size (CInt.int (CInt.uint32 (ntohl h.totLen - HDR_LEN)))

/-- The stream behind the header. -/
def bodyOf (s : Socket) : List (Option UInt8) := recvRest s.incoming 8

/-- The length is one that `read` accepts, and the announced body arrives, or ends before it is
complete, and fits into the packet. -/
def BodyFits (packet : Packet) (s : Socket) : Prop :=
  let want := announced (headerOf packet s.incoming)
  let avail := (readable (bodyOf s)).length
  want ≤ SSIZE_MAX ∧ (want ≤ avail ∨ (bodyOf s).drop avail = []) ∧ min want avail ≤ DYN_SIZE

theorem receive_header (packet : Packet) (s : Socket) :
    ∃ c reads ret, recvFromHost s packet HDR_LEN =
        .ok (ret, { s with incoming := bodyOf s, reads := reads }, c) ∧
      Hdr.at c.data = headerOf packet s.incoming := by
  have hle : min 8 (readable s.incoming).length ≤ DYN_SIZE + 1 :=
    Nat.le_trans (Nat.min_le_left _ _) (by decide)
  obtain ⟨c, reads, hrun, hdata⟩ := recvFromHost_spec packet rfl size_hdrLen (by decide) hle
  exact ⟨c, reads, _, hrun, by rw [hdata]; rfl⟩

theorem receiveRequest_other (h : (headerOf packet s.incoming).msgType ≠ htonl REQUEST) :
    ∃ c reads, receiveRequest packet s =
      .ok (none, c, { s with incoming := bodyOf s, reads := reads }) := by
  obtain ⟨c, reads, ret, hrun, hat⟩ := receive_header packet s
  refine ⟨c, reads, ?_⟩
  rw [receiveRequest, hrun, ok_bind]
  simp only [hat, if_neg h]

theorem int_of_le {n : Nat} (h : n ≤ DYN_SIZE + 1) : CInt.int n = n :=
  CInt.int_of_lt (by omega) (by simp only [DYN_SIZE] at h; omega)

theorem receiveRequest_fits (h : (headerOf packet s.incoming).msgType = htonl REQUEST)
    (hfit : BodyFits packet s) :
    ∃ c reads, receiveRequest packet s = .ok
      (some (((readable (bodyOf s)).take (announced (headerOf packet s.incoming))).takeWhile
        (· ≠ 0)),
        c, { s with
          incoming := recvRest (bodyOf s) (announced (headerOf packet s.incoming))
          reads := reads }) := by
  obtain ⟨c, reads, ret, hrun, hat⟩ := receive_header packet s
  obtain ⟨hmax, hend, hle⟩ := hfit
  obtain ⟨want, hwant⟩ : ∃ want, announced (headerOf packet s.incoming) = want := ⟨_, rfl⟩
  obtain ⟨body, hbody⟩ : ∃ body, readable (bodyOf s) = body := ⟨_, rfl⟩
  rw [hwant] at hmax
  rw [hwant, hbody] at hend hle ⊢
  have hcap : min want (readable (bodyOf s)).length ≤ DYN_SIZE + 1 := by
    rw [hbody]
    exact Nat.le_succ_of_le hle
  obtain ⟨d, reads', hrun', hdata⟩ := recvFromHost_spec
    (s := { s with incoming := bodyOf s, reads := reads }) c rfl hwant hmax hcap
  rw [hbody] at hdata
  have hret : recvResult (bodyOf s) 0 want = (min want body.length : Nat) := by
    rw [recvResult, hbody]
    by_cases hcase : want ≤ body.length
    · rw [Nat.min_eq_left hcase] at hle ⊢
      rw [if_pos hcase, Nat.zero_add, int_of_le (Nat.le_succ_of_le hle)]
    · rw [Nat.min_eq_right (Nat.le_of_not_le hcase)] at hle ⊢
      rw [if_neg hcase, if_pos (hend.resolve_left hcase), Nat.zero_add,
        int_of_le (Nat.le_succ_of_le hle)]
  obtain ⟨e, hw, hedata⟩ := Block.write_natCast d (min want body.length) [0]
    (Nat.succ_le_succ hle)
  have hlen : (body.take want).length = min want body.length := List.length_take
  rw [hdata, ← hlen, List.take_left] at hedata
  have hzero : (0 : UInt8) ∈ e.data := by rw [hedata]; simp
  refine ⟨e, reads', ?_⟩
  rw [receiveRequest, hrun, ok_bind]
  simp only [hat, if_pos h]
  rw [hrun', ok_bind]
  simp only [hret, hw]
  rw [cstring, if_pos hzero, ok_bind, hedata, List.append_assoc, List.singleton_append,
    takeWhile_ne_zero]

theorem receiveRequest_overflow (h : (headerOf packet s.incoming).msgType = htonl REQUEST)
    (hfit : ¬ BodyFits packet s) : receiveRequest packet s = .error .outOfBounds := by
  obtain ⟨c, reads, ret, hrun, hat⟩ := receive_header packet s
  obtain ⟨want, hwant⟩ : ∃ want, announced (headerOf packet s.incoming) = want := ⟨_, rfl⟩
  obtain ⟨body, hbody⟩ : ∃ body, readable (bodyOf s) = body := ⟨_, rfl⟩
  rw [BodyFits, hwant, hbody] at hfit
  rw [receiveRequest, hrun, ok_bind]
  simp only [hat, if_pos h]
  by_cases hmax : want ≤ SSIZE_MAX
  swap
  · rw [recvFromHost_huge c hwant (Nat.not_le.mp hmax), ok_bind]
    have hnone : c.write (-1) [0] = none := Block.write_eq_none.mpr (.inl (by decide))
    simp only [hnone]
  by_cases hcap : DYN_SIZE + 1 < min want body.length
  · rw [recvFromHost_overflow rfl hwant hmax (by rw [hbody]; exact hcap), error_bind]
  · have hle : min want (readable (bodyOf s)).length ≤ DYN_SIZE + 1 := by
      rw [hbody]
      exact Nat.le_of_not_lt hcap
    obtain ⟨d, reads', hrun', -⟩ := recvFromHost_spec
      (s := { s with incoming := bodyOf s, reads := reads }) c rfl hwant hmax hle
    rw [hbody] at hle
    rw [hrun', ok_bind]
    -- the NUL would be stored at the result of the second call
    have hnone : d.write (recvResult (bodyOf s) 0 want) [0] = none := by
      apply Block.write_eq_none.mpr
      rw [recvResult, hbody, Nat.zero_add, Nat.zero_add]
      by_cases hcase : want ≤ body.length
      · rw [Nat.min_eq_left hcase] at hle hfit
        rw [if_pos hcase, int_of_le hle]
        refine .inr (Nat.succ_le_succ (Nat.lt_of_not_le fun hlt => hfit ⟨hmax, .inl hcase, hlt⟩))
      · rw [if_neg hcase]
        by_cases hnil : (bodyOf s).drop body.length = []
        · rw [Nat.min_eq_right (Nat.le_of_not_le hcase)] at hle hfit
          rw [if_pos hnil, int_of_le hle]
          refine .inr (Nat.succ_le_succ (Nat.lt_of_not_le fun hlt => hfit ⟨hmax, .inr hnil, hlt⟩))
        · rw [if_neg hnil]
          exact .inl (by decide)
    simp only [hnone]

/-- Every store of the request is inside of the packet exactly if the message is no request, or
`read` accepts its length and its body does not end in a read error and fits. -/
theorem request_inBounds (packet : Packet) (s : Socket) :
    (∃ r, receiveRequest packet s = .ok r) ↔
      ((headerOf packet s.incoming).msgType = htonl REQUEST → BodyFits packet s) := by
  by_cases h : (headerOf packet s.incoming).msgType = htonl REQUEST
  · by_cases hfit : BodyFits packet s
    · obtain ⟨c, reads, hrun⟩ := receiveRequest_fits h hfit
      exact ⟨fun _ _ => hfit, fun _ => ⟨_, hrun⟩⟩
    · refine ⟨fun ⟨r, hr⟩ => ?_, fun hall => absurd (hall h) hfit⟩
      rw [receiveRequest_overflow h hfit] at hr
      cases hr
  · obtain ⟨c, reads, hrun⟩ := receiveRequest_other h
    exact ⟨fun _ h' => absurd h' h, fun _ => ⟨_, hrun⟩⟩

/-- A stream that begins with a whole header. -/
theorem headerOf_eq (packet : Packet) {l : List (Option UInt8)} {a b rest : List UInt8}
    (hl : readable l = a ++ b ++ rest) (ha : a.length = 4) (hb : b.length = 4) :
    headerOf packet l = ⟨a, b⟩ := by
  have hab : (a ++ b).length = 8 := by rw [List.length_append, ha, hb]
  have htake : (readable l).take 8 = a ++ b := by rw [hl, ← hab, List.take_left]
  rw [headerOf, htake, Hdr.at_append ha hb]

theorem readable_bodyOf {a b rest : List UInt8} (hl : readable s.incoming = a ++ b ++ rest)
    (ha : a.length = 4) (hb : b.length = 4) : readable (bodyOf s) = rest := by
  have hab : (a ++ b).length = 8 := by rw [List.length_append, ha, hb]
  have hle : 8 ≤ (readable s.incoming).length := by
    rw [hl, List.length_append, hab]
    omega
  rw [bodyOf, recvRest, if_pos hle, readable_drop hle, hl, ← hab, List.drop_left]

theorem announced_htonl {n : Nat} {b : List UInt8} (h : n ≤ DYN_SIZE + 1) :
    announced ⟨htonl (n + HDR_LEN : Nat), b⟩ = n := by
  have h₁ : CInt.uint32 (n + HDR_LEN : Nat) = n + HDR_LEN := by
    rw [CInt.uint32_natCast, Nat.mod_eq_of_lt (by simp only [DYN_SIZE, HDR_LEN] at h ⊢; omega)]
  have h₂ : ((n + HDR_LEN : Nat) : Int) - (HDR_LEN : Nat) = (n : Nat) := by omega
  have h₃ : CInt.uint32 (n : Nat) = n := by
    rw [CInt.uint32_natCast, Nat.mod_eq_of_lt (by simp only [DYN_SIZE] at h; omega)]
  rw [announced, ntohl_htonl, h₁, h₂, h₃, int_of_le h, CInt.size]
  simp only [DYN_SIZE] at h
  omega

/-- A socket over which `bytes` come before the other side closes it. -/
def Socket.receiving (bytes : List UInt8) : Socket where
  incoming := bytes.map some
  readSize := fun _ => 0
  reads := 0
  outgoing := []
  writeSize := fun _ => some 0
  writes := 0
  closed := false

theorem readable_receiving (bytes : List UInt8) :
    readable (Socket.receiving bytes).incoming = bytes := by
  have h := readable_map_some bytes []
  rwa [List.append_nil, readable_nil, List.append_nil] at h

/-- A body of `DYN_SIZE + 1` bytes is terminated behind the packet. -/
theorem request_outOfBounds :
    ¬ ∃ r, receiveRequest ⟨List.replicate (DYN_SIZE + 1) 0, List.length_replicate⟩ (.receiving
      (htonl (DYN_SIZE + 1 + HDR_LEN : Nat) ++ htonl REQUEST ++
        List.replicate (DYN_SIZE + 1) 97)) = .ok r := by
  generalize (⟨List.replicate (DYN_SIZE + 1) 0, List.length_replicate⟩ : Packet) = packet
  obtain ⟨s, hs⟩ : ∃ s, s = Socket.receiving (htonl (DYN_SIZE + 1 + HDR_LEN : Nat) ++
    htonl REQUEST ++ List.replicate (DYN_SIZE + 1) 97) := ⟨_, rfl⟩
  have hl : readable s.incoming = htonl (DYN_SIZE + 1 + HDR_LEN : Nat) ++ htonl REQUEST ++
      List.replicate (DYN_SIZE + 1) 97 := by rw [hs, readable_receiving]
  have hhdr : headerOf packet s.incoming =
      ⟨htonl (DYN_SIZE + 1 + HDR_LEN : Nat), htonl REQUEST⟩ := headerOf_eq packet hl rfl rfl
  rw [← hs, receiveRequest_overflow (by rw [hhdr]) fun hfit => ?_]
  · rintro ⟨r, hr⟩
    cases hr
  · obtain ⟨-, -, hle⟩ := hfit
    rw [hhdr, readable_bodyOf hl rfl rfl, announced_htonl (Nat.le_refl _), List.length_replicate,
      Nat.min_self] at hle
    exact absurd hle (Nat.not_succ_le_self _)

end Request

/-! ## Complete requests -/

section Complete

variable {packet : Packet} {s : Socket} {t : Tables}

/-- The stream begins with a request for `body`: a header that announces it, then all of it. -/
def RequestFor (stream body : List UInt8) : Prop :=
  ∃ rest, body.length + HDR_LEN < 2 ^ 32 ∧
    stream = htonl (body.length + HDR_LEN : Nat) ++ htonl REQUEST ++ (body ++ rest)

/-- Only a complete request is answered, and with the word that it is for. -/
def AnswersComplete (t : Tables) (packet : Packet) (s : Socket) : Prop :=
  ∃ query c s', receiveRequest packet s = .ok (query, c, s') ∧
    (∀ word, query = some word → RequestFor (readable s.incoming) word) ∧
    (query = none → threadJob t packet s = .ok ⟨none, { s' with closed := true }⟩ ∧
      s'.outgoing = s.outgoing)

/-- A complete request that fits is received. -/
theorem RequestFor.receive (packet : Packet) {body : List UInt8}
    (h : RequestFor (readable s.incoming) body)
    (hnul : 0 ∉ body) (hle : body.length ≤ DYN_SIZE) :
    ∃ c reads, receiveRequest packet s = .ok (some body, c, { s with
      incoming := recvRest (bodyOf s) body.length, reads := reads }) := by
  obtain ⟨rest, -, hl⟩ := h
  have hhdr : headerOf packet s.incoming =
      ⟨htonl (body.length + HDR_LEN : Nat), htonl REQUEST⟩ := headerOf_eq packet hl rfl rfl
  have hbody := readable_bodyOf hl rfl rfl
  have hwant : announced (headerOf packet s.incoming) = body.length := by
    rw [hhdr, announced_htonl (Nat.le_succ_of_le hle)]
  have hfit : BodyFits packet s := by
    rw [BodyFits, hwant, hbody, List.length_append]
    exact ⟨hle.trans (by decide), .inl (Nat.le_add_right _ _),
      Nat.le_trans (Nat.min_le_left _ _) hle⟩
  obtain ⟨c, reads, hrun⟩ := receiveRequest_fits (by rw [hhdr]) hfit
  rw [hwant, hbody, List.take_left, takeWhile_self hnul] at hrun
  exact ⟨c, reads, hrun⟩

/-- The job answers complete requests only, exactly if the message is none or if it is a
complete request for a word without NULs that fits. -/
theorem complete_requests (t : Tables) (packet : Packet) (s : Socket) :
    AnswersComplete t packet s ↔
      ((headerOf packet s.incoming).msgType ≠ htonl REQUEST ∨
        ∃ body, RequestFor (readable s.incoming) body ∧ 0 ∉ body ∧ body.length ≤ DYN_SIZE) := by
  by_cases h : (headerOf packet s.incoming).msgType = htonl REQUEST
  · constructor
    · rintro ⟨query, c, s', hrun, hquery, -⟩
      by_cases hfit : BodyFits packet s
      · obtain ⟨d, reads, hrun'⟩ := receiveRequest_fits h hfit
        obtain ⟨rfl, -⟩ := Prod.mk.inj (Except.ok.inj (hrun.symm.trans hrun'))
        refine .inr ⟨_, hquery _ rfl, not_mem_takeWhile_zero _, ?_⟩
        have hpre := (List.takeWhile_prefix (· ≠ (0 : UInt8))
          (l := (readable (bodyOf s)).take (announced (headerOf packet s.incoming)))).length_le
        rw [List.length_take] at hpre
        exact Nat.le_trans hpre hfit.2.2
      · rw [receiveRequest_overflow h hfit] at hrun
        cases hrun
    · rintro (hne | ⟨body, hfor, hnul, hle⟩)
      · exact absurd h hne
      · obtain ⟨c, reads, hrun⟩ := hfor.receive packet hnul hle
        refine ⟨some body, c, _, hrun, ?_, by simp⟩
        rintro word ⟨⟩
        exact hfor
  · refine ⟨fun _ => .inl h, fun _ => ?_⟩
    obtain ⟨c, reads, hrun⟩ := receiveRequest_other h
    refine ⟨none, c, _, hrun, by simp, fun _ => ⟨?_, rfl⟩⟩
    rw [threadJob, hrun, ok_bind]
    rfl

theorem lookup_createList {n : Nat} (hn : 0 < n) (str : List UInt8) :
    lookup [] (createList n) str (hashFunction str % (createList n).physLen) = .ok none := by
  have hlen : (createList n).physLen = n := List.length_replicate
  have hslot : (createList n).dynList[hashFunction str % n]? = some none :=
    List.getElem?_replicate_of_lt (Nat.mod_lt _ hn)
  rw [lookup, hlen]
  split
  · next heq => cases heq.symm.trans hslot
  · rfl
  · next heq => cases heq.symm.trans hslot

/-- An index without words, and no files. -/
def Tables.empty : Tables := ⟨⟨[], createList DYN_SIZE⟩, createList DOCSIZE, fun _ => []⟩

theorem answer_empty (query : List UInt8) (packet : Packet) {s : Socket} (hs : s.Sends) :
    ∃ writes, answer .empty query packet s = .ok { s with
      outgoing := s.outgoing ++ (createPckt 0 ERROR).bytes, writes := writes } := by
  obtain ⟨writes, hrun⟩ := sendLoop_spec s 0 (createPckt 0 ERROR).bytes hs
  refine ⟨writes, ?_⟩
  rw [answer, Tables.empty, lookup_createList (by decide), ok_bind]
  simp only [sendToHost, hrun]

/-- The stream of a request whose body stops after three of five bytes. -/
def incomplete : List UInt8 := htonl 13 ++ htonl REQUEST ++ [116, 104, 101]

theorem threadJob_incomplete (packet : Packet) :
    ∃ s, threadJob .empty packet (.receiving incomplete) = .ok ⟨some [116, 104, 101], s⟩ ∧
      s.outgoing = (createPckt 0 ERROR).bytes := by
  obtain ⟨s, hs⟩ : ∃ s, s = Socket.receiving incomplete := ⟨_, rfl⟩
  have hl : readable s.incoming = htonl 13 ++ htonl REQUEST ++ [116, 104, 101] := by
    rw [hs, readable_receiving, incomplete]
  have hhdr := headerOf_eq packet hl rfl rfl
  have hbody := readable_bodyOf hl rfl rfl
  have hwant : announced (headerOf packet s.incoming) = 5 := by
    rw [hhdr]
    exact announced_htonl (n := 5) (by decide)
  have hfit : BodyFits packet s := by
    rw [BodyFits, hwant, hbody]
    exact ⟨by decide, .inr (by rw [hs]; rfl), by decide⟩
  obtain ⟨c, reads, hrun⟩ := receiveRequest_fits (by rw [hhdr]) hfit
  rw [hwant, hbody] at hrun
  have hsends : s.Sends := by
    rw [hs]
    exact fun _ => Option.some_ne_none _
  obtain ⟨writes, hans⟩ := answer_empty [116, 104, 101] c
    (s := { s with incoming := recvRest (bodyOf s) 5, reads := reads }) hsends
  have hword : (([116, 104, 101] : List UInt8).take 5).takeWhile (· ≠ 0) = [116, 104, 101] := by
    decide
  rw [hword] at hrun
  have hout : s.outgoing = [] := by rw [hs]; rfl
  refine ⟨{ s with
    incoming := recvRest (bodyOf s) 5
    reads := reads
    outgoing := s.outgoing ++ (createPckt 0 ERROR).bytes
    writes := writes
    closed := true }, ?_, ?_⟩
  · rw [← hs, threadJob, hrun, ok_bind]
    simp only [hans, ok_bind]
  · rw [hout, List.nil_append]

/-- An incomplete request is answered. -/
theorem incomplete_answered :
    (∃ s, threadJob .empty ⟨List.replicate (DYN_SIZE + 1) 0, List.length_replicate⟩
        (.receiving incomplete) = .ok ⟨some [116, 104, 101], s⟩ ∧ s.outgoing ≠ []) ∧
      ∀ body, ¬ RequestFor incomplete body := by
  constructor
  · obtain ⟨s, hrun, hout⟩ := threadJob_incomplete
      ⟨List.replicate (DYN_SIZE + 1) 0, List.length_replicate⟩
    exact ⟨s, hrun, by rw [hout]; decide⟩
  · rintro body ⟨rest, hlt, heq⟩
    have hhdr : htonl (body.length + HDR_LEN : Nat) = htonl 13 := by
      have h := congrArg (List.take 4) heq
      exact h.symm
    have hlen := congrArg ntohl hhdr
    rw [ntohl_htonl, ntohl_htonl, CInt.uint32_natCast, Nat.mod_eq_of_lt hlt] at hlen
    have hbody : body ++ rest = [116, 104, 101] := by
      have h := congrArg (List.drop 8) heq
      exact h.symm
    have hle := congrArg List.length hbody
    rw [List.length_append] at hle
    have h13 : CInt.uint32 13 = 13 := by decide
    simp only [HDR_LEN, h13, List.length_cons, List.length_nil] at hlen hle
    omega

end Complete

end SearchEngine.Server
