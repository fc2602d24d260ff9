import SearchEngine.Server.Socket

/-!
# The transfer loops, whatever each call transfers

`recv_from_host` stores the bytes that come before the length is reached, the stream ends or
a `read` fails, and `send_to_host` sends everything unless a `write` fails. How the calls
cut the stream into parts does not matter. A length above `SSIZE_MAX` is answered by `-1`
(`recvFromHost_huge`).
-/

namespace SearchEngine.Server

open Memory

section Receive

variable {cap : Nat} {l : List (Option UInt8)}

@[simp] theorem readable_nil : readable [] = [] := rfl

@[simp] theorem readable_none {l : List (Option UInt8)} : readable (none :: l) = [] := rfl

@[simp] theorem readable_some {b : UInt8} : readable (some b :: l) = b :: readable l := rfl

theorem readable_drop {k : Nat} (h : k ≤ (readable l).length) :
    readable (l.drop k) = (readable l).drop k := by
  induction l generalizing k with
  | nil => simp [readable]
  | cons x l ih =>
    cases k with
    | zero => rfl
    | succ k =>
      cases x with
      | none => simp at h
      | some b => exact ih (Nat.le_of_succ_le_succ h)

/-- The bytes of a stream without errors. -/
theorem readable_map_some (bytes : List UInt8) (l : List (Option UInt8)) :
    readable (bytes.map some ++ l) = bytes ++ readable l := by
  induction bytes with
  | nil => rfl
  | cons b bytes ih => exact congrArg (b :: ·) ih

/-- What `recv_from_host` returns. -/
def recvResult (l : List (Option UInt8)) (rd rem : Nat) : Int :=
  if rem ≤ (readable l).length then CInt.int (rd + rem : Nat)
  else if l.drop (readable l).length = [] then CInt.int (rd + (readable l).length : Nat)
  else -1

/-- What `recv_from_host` leaves of the stream. -/
def recvRest (l : List (Option UInt8)) (rem : Nat) : List (Option UInt8) :=
  if rem ≤ (readable l).length then l.drop rem else (l.drop (readable l).length).tail

theorem recvResult_drop {k rd rem : Nat} (hk : k ≤ (readable l).length) (hrem : k ≤ rem) :
    recvResult (l.drop k) (rd + k) (rem - k) = recvResult l rd rem := by
  simp only [recvResult, readable_drop hk, List.length_drop, List.drop_drop]
  have h₁ : rem - k ≤ (readable l).length - k ↔ rem ≤ (readable l).length := by omega
  have h₂ : k + ((readable l).length - k) = (readable l).length := by omega
  have h₃ : rd + k + ((readable l).length - k) = rd + (readable l).length := by omega
  have h₄ : rd + k + (rem - k) = rd + rem := by omega
  simp only [h₁, h₂, h₃, h₄]

theorem recvRest_drop {k rem : Nat} (hk : k ≤ (readable l).length) (hrem : k ≤ rem) :
    recvRest (l.drop k) (rem - k) = recvRest l rem := by
  simp only [recvRest, readable_drop hk, List.length_drop, List.drop_drop]
  have h₁ : rem - k ≤ (readable l).length - k ↔ rem ≤ (readable l).length := by omega
  have h₂ : k + ((readable l).length - k) = (readable l).length := by omega
  have h₄ : k + (rem - k) = rem := by omega
  simp only [h₁, h₂, h₄]

theorem recvLoop_zero {s : Socket} {buf : Block UInt8 cap} {rd : Nat} :
    recvLoop s buf rd 0 = .ok (CInt.int rd, s, buf) := by
  rw [recvLoop, if_pos rfl]

/-- A `read` that fails ends the loop. -/
theorem recvLoop_failed {s s' : Socket} {buf : Block UInt8 cap} {rd rem : Nat} (hrem : rem ≠ 0)
    (hread : s.read rem = (none, s')) : recvLoop s buf rd rem = .ok (-1, s', buf) := by
  rw [recvLoop, if_neg hrem]
  split
  · next s' heq =>
    obtain ⟨-, rfl⟩ := Prod.mk.inj (heq.symm.trans hread)
    rfl
  · next heq => exact absurd (heq.symm.trans hread) (by simp)

/-- A `read` that does not fail. -/
theorem recvLoop_some {s s' : Socket} {buf : Block UInt8 cap} {rd rem : Nat} {bytes : List UInt8}
    (hrem : rem ≠ 0) (hread : s.read rem = (some bytes, s')) :
    recvLoop s buf rd rem = if bytes = [] then .ok (CInt.int rd, s', buf)
      else match buf.write rd bytes with
        | none => .error .outOfBounds
        | some buf => recvLoop s' buf (rd + bytes.length) (rem - bytes.length) := by
  rw [recvLoop, if_neg hrem]
  split
  · next heq => exact absurd (heq.symm.trans hread) (by simp)
  · next got s'' heq =>
    obtain ⟨hgot, rfl⟩ := Prod.mk.inj (heq.symm.trans hread)
    obtain rfl := Option.some.inj hgot
    rfl

/-- The other side has sent no more before the error. -/
theorem recvLoop_error {s : Socket} {buf : Block UInt8 cap} {rd rem : Nat} (hrem : rem ≠ 0)
    (hmax : rem ≤ SSIZE_MAX) {l : List (Option UInt8)} (h : s.incoming = none :: l) :
    recvLoop s buf rd rem = .ok (-1, { s with incoming := l, reads := s.reads + 1 }, buf) := by
  refine recvLoop_failed hrem ?_
  rw [Socket.read, if_neg (Nat.not_lt.mpr hmax), h]

/-- A `read` at the end of the stream. -/
theorem recvLoop_end {s : Socket} {buf : Block UInt8 cap} {rd rem : Nat} (hrem : rem ≠ 0)
    (hmax : rem ≤ SSIZE_MAX) (h : s.incoming = []) :
    recvLoop s buf rd rem = .ok (CInt.int rd, { s with reads := s.reads + 1 }, buf) := by
  have hread : s.read rem = (some [], { s with reads := s.reads + 1 }) := by
    rw [Socket.read, if_neg (Nat.not_lt.mpr hmax), h]
    simp [readable, ← h]
  rw [recvLoop_some hrem hread, if_pos rfl]

/-- A `read` that returns bytes. -/
theorem recvLoop_bytes {s : Socket} (buf : Block UInt8 cap) (rd : Nat) {rem : Nat}
    (hrem : rem ≠ 0) (hmax : rem ≤ SSIZE_MAX) (h : readable s.incoming ≠ []) :
    ∃ k, 0 < k ∧ k ≤ rem ∧ k ≤ (readable s.incoming).length ∧
      (buf.write rd ((readable s.incoming).take k) = none →
        recvLoop s buf rd rem = .error .outOfBounds) ∧
      ∀ c, buf.write rd ((readable s.incoming).take k) = some c →
        recvLoop s buf rd rem = recvLoop
          { s with incoming := s.incoming.drop k, reads := s.reads + 1 } c (rd + k) (rem - k) := by
  have hpos := List.length_pos_iff.mpr h
  obtain ⟨k, hk⟩ : ∃ k, k = min (s.readSize s.reads + 1) (min rem (readable s.incoming).length) :=
    ⟨_, rfl⟩
  have hlen : ((readable s.incoming).take k).length = k := by
    rw [List.length_take]
    omega
  have hread : s.read rem = (some ((readable s.incoming).take k),
      { s with incoming := s.incoming.drop k, reads := s.reads + 1 }) := by
    rw [Socket.read, if_neg (Nat.not_lt.mpr hmax)]
    split
    · next l hl => rw [hl] at h; exact absurd rfl h
    · rw [← hk]
  have hbytes : (readable s.incoming).take k ≠ [] := List.length_pos_iff.mp (by omega)
  refine ⟨k, by omega, by omega, by omega, fun hw => ?_, fun c hw => ?_⟩
  · rw [recvLoop_some hrem hread, if_neg hbytes, hw]
  · rw [recvLoop_some hrem hread, if_neg hbytes, hw]
    simp only [hlen]

/-- The whole loop: all that arrives is stored, in one run. -/
theorem recvLoop_spec (s : Socket) (buf : Block UInt8 cap) (rd rem : Nat) (hrd : rd ≤ cap)
    (hmax : rem ≤ SSIZE_MAX) :
    (buf.write rd ((readable s.incoming).take rem) = none →
      recvLoop s buf rd rem = .error .outOfBounds) ∧
    ∀ c, buf.write rd ((readable s.incoming).take rem) = some c →
      ∃ reads, recvLoop s buf rd rem = .ok (recvResult s.incoming rd rem,
        { s with incoming := recvRest s.incoming rem, reads := reads }, c) := by
  -- on the length of the stream, of which every round but the last takes a part
  induction hn : s.incoming.length using Nat.strongRecOn generalizing s buf rd rem with
  | ind n ih =>
    by_cases hrem : rem = 0
    · subst hrem
      rw [recvLoop_zero, List.take_zero, Block.write_nil hrd]
      refine ⟨by simp, ?_⟩
      rintro c ⟨⟩
      exact ⟨s.reads, by simp [recvResult, recvRest]⟩
    · cases hin : s.incoming with
      | nil =>
        rw [recvLoop_end hrem hmax hin, readable_nil, List.take_nil, Block.write_nil hrd]
        refine ⟨by simp, ?_⟩
        rintro c ⟨⟩
        exact ⟨s.reads + 1, by simp [recvResult, recvRest, readable, hrem, hin]⟩
      | cons x l =>
        cases x with
        | none =>
          rw [recvLoop_error hrem hmax hin, readable_none, List.take_nil, Block.write_nil hrd]
          refine ⟨by simp, ?_⟩
          rintro c ⟨⟩
          exact ⟨s.reads + 1, by simp [recvResult, recvRest, hrem]⟩
        | some b =>
          rw [← hin]
          have hne : readable s.incoming ≠ [] := by rw [hin]; simp
          obtain ⟨k, hpos, hkrem, hklen, hnone, hsome⟩ :=
            recvLoop_bytes buf rd hrem hmax hne
          have htake : (readable s.incoming).take rem =
              (readable s.incoming).take k ++ ((readable s.incoming).drop k).take (rem - k) := by
            rw [← List.take_add, Nat.add_sub_cancel' hkrem]
          have hlen : ((readable s.incoming).take k).length = k := by
            rw [List.length_take]
            omega
          have happ := Block.write_append buf rd ((readable s.incoming).take k)
            (((readable s.incoming).drop k).take (rem - k))
          rw [hlen, ← htake] at happ
          rw [← happ]
          cases hw : buf.write rd ((readable s.incoming).take k) with
          | none => exact ⟨fun _ => hnone hw, by simp⟩
          | some c =>
            have hcap : rd + k ≤ cap := by
              by_contra hlt
              rw [Block.write_eq_none.mpr (.inr (by rw [hlen, Int.toNat_natCast]; omega))] at hw
              cases hw
            have hshort : (s.incoming.drop k).length < n := by
              have := length_readable_le s.incoming
              rw [← hn, List.length_drop]
              omega
            have hih := ih (s.incoming.drop k).length hshort
              { s with incoming := s.incoming.drop k, reads := s.reads + 1 } c (rd + k) (rem - k)
              hcap ((Nat.sub_le _ _).trans hmax) rfl
            simp only [readable_drop hklen, recvResult_drop hklen hkrem,
              recvRest_drop hklen hkrem] at hih
            rw [hsome c hw, Option.bind_some]
            exact hih

/-- The first `read` of a length above `SSIZE_MAX` fails. -/
theorem recvFromHost_huge {s : Socket} (buf : Block UInt8 cap) {len : Int} {n : Nat}
    (hn : CInt.size len = n) (h : SSIZE_MAX < n) :
    recvFromHost s buf len = .ok (-1, { s with reads := s.reads + 1 }, buf) := by
  subst hn
  apply recvLoop_failed (Nat.ne_zero_of_lt h)
  rw [Socket.read, if_pos h]

/-- More arrives than the block holds. -/
theorem recvFromHost_overflow {s : Socket} {buf : Block UInt8 cap} {len : Int} {n : Nat}
    (hl : s.incoming = l) (hn : CInt.size len = n) (hmax : n ≤ SSIZE_MAX)
    (h : cap < min n (readable l).length) : recvFromHost s buf len = .error .outOfBounds := by
  subst hl hn
  refine (recvLoop_spec s buf 0 (CInt.size len) (Nat.zero_le cap) hmax).1 ?_
  exact Block.write_eq_none.mpr (.inr (by rw [List.length_take]; simpa using h))

/-- What arrives is at the start of the block afterwards. -/
theorem recvFromHost_spec {s : Socket} (buf : Block UInt8 cap) {len : Int} {n : Nat}
    (hl : s.incoming = l) (hn : CInt.size len = n) (hmax : n ≤ SSIZE_MAX)
    (h : min n (readable l).length ≤ cap) :
    ∃ c reads, recvFromHost s buf len =
        .ok (recvResult l 0 n, { s with incoming := recvRest l n, reads := reads }, c) ∧
      c.data = (readable l).take n ++ buf.data.drop (min n (readable l).length) := by
  subst hl hn
  have hlen : ((readable s.incoming).take (CInt.size len)).length =
      min (CInt.size len) (readable s.incoming).length := List.length_take
  obtain ⟨c, hc, hdata⟩ := Block.write_natCast buf 0
    ((readable s.incoming).take (CInt.size len)) (by omega)
  obtain ⟨reads, hrun⟩ := (recvLoop_spec s buf 0 (CInt.size len) (Nat.zero_le cap) hmax).2 c hc
  refine ⟨c, reads, hrun, ?_⟩
  rw [hdata, hlen, Nat.zero_add, List.take_zero, List.nil_append]

end Receive

section Send

/-- Every `write` transfers something. -/
def Socket.Sends (s : Socket) : Prop := ∀ n, s.writeSize n ≠ none

/-- Everything is sent. -/
theorem sendLoop_spec (s : Socket) (sent : Nat) (bytes : List UInt8) (hs : s.Sends) :
    ∃ writes, sendLoop s sent bytes = (CInt.int (sent + bytes.length : Nat),
      { s with outgoing := s.outgoing ++ bytes, writes := writes }) := by
  induction hn : bytes.length using Nat.strongRecOn generalizing s sent bytes with
  | ind n ih =>
    by_cases hne : bytes = []
    · subst hne
      refine ⟨s.writes, ?_⟩
      rw [sendLoop, dif_pos rfl]
      simp [← hn]
    · obtain ⟨m, hm⟩ := Option.ne_none_iff_exists'.mp (hs s.writes)
      obtain ⟨k, hk⟩ : ∃ k, k = min (m + 1) bytes.length := ⟨_, rfl⟩
      have hpos := List.length_pos_iff.mpr hne
      have hwrite : s.write bytes = (some k, { s with
          outgoing := s.outgoing ++ bytes.take k, writes := s.writes + 1 }) := by
        rw [Socket.write, hm, hk]
      obtain ⟨writes, hih⟩ := ih (bytes.drop k).length (by rw [List.length_drop]; omega)
        { s with outgoing := s.outgoing ++ bytes.take k, writes := s.writes + 1 } (sent + k)
        (bytes.drop k) hs rfl
      refine ⟨writes, ?_⟩
      rw [sendLoop, dif_neg hne]
      split
      · next heq => exact absurd (heq.symm.trans hwrite) (by simp)
      · next k' s' heq =>
        obtain ⟨h₁, rfl⟩ := Prod.mk.inj (heq.symm.trans hwrite)
        obtain rfl := Option.some.inj h₁
        rw [hih]
        have hlen : sent + k' + (bytes.drop k').length = sent + n := by
          rw [List.length_drop]
          omega
        simp only [hlen, List.append_assoc, List.take_append_drop]

end Send

end SearchEngine.Server
