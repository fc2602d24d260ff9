import SearchEngine.Server.CString

/-!
# `common.h`: headers, and the two transfer loops

A socket is what the other side sends, and what has been sent to it. The other side's
stream is a list in which `none` is a read error, and its end is the end of the file; how
much each `read` and `write` transfers is up to the operating system (`readSize`,
`writeSize`), between one byte and all that can be transferred. A `read` of more than
`SSIZE_MAX` bytes, to which the length of a header can lead, fails and transfers nothing.
-/

namespace SearchEngine.Server

open Memory

abbrev HDR_LEN : Nat := 8
abbrev BUFSIZE : Nat := 10240
/-- `SSIZE_MAX` -/
abbrev SSIZE_MAX : Nat := 0x7fffffffffffffff
abbrev REQUEST : Nat := 0x10
abbrev RESPONSE : Nat := 0x11
abbrev ERROR : Nat := 0x20

/-! ## Headers -/

/-- The bytes of `htonl(x)`, where `x` is converted to `uint32_t`. -/
def htonl (x : Int) : List UInt8 :=
  let n := CInt.uint32 x
  [UInt8.ofNat (n / 2 ^ 24), UInt8.ofNat (n / 2 ^ 16), UInt8.ofNat (n / 2 ^ 8), UInt8.ofNat n]

/-- `ntohl` of the number that is stored in four bytes. -/
def ntohl (bytes : List UInt8) : Nat :=
  bytes.foldl (fun n b => n * 256 + b.toNat) 0

/-- `struct Hdr`, as it is laid out in a buffer. -/
structure Hdr where
  totLen : List UInt8
  msgType : List UInt8

/-- The header at the start of a buffer. -/
def Hdr.at (buf : List UInt8) : Hdr := ⟨buf.take 4, (buf.drop 4).take 4⟩

/-- `create_pckt` -/
def createPckt (len : Nat) (msgType : Nat) : Hdr := ⟨htonl (len + HDR_LEN), htonl msgType⟩

def Hdr.bytes (h : Hdr) : List UInt8 := h.totLen ++ h.msgType

/-! ## Sockets -/

/-- The bytes before the next read error. -/
def readable : List (Option UInt8) → List UInt8
  | some b :: rest => b :: readable rest
  | _ => []

/-- One end of a connection. -/
structure Socket where
  /-- what is still to be read -/
  incoming : List (Option UInt8)
  readSize : Nat → Nat
  reads : Nat
  /-- what has been written -/
  outgoing : List UInt8
  /-- `none` is a write error -/
  writeSize : Nat → Option Nat
  writes : Nat
  closed : Bool

/-- `read`, with `none` for the result `-1`. -/
def Socket.read (n : Nat) (s : Socket) : Option (List UInt8) × Socket :=
  if SSIZE_MAX < n then (none, { s with reads := s.reads + 1 })
  else
    match s.incoming with
    | none :: rest => (none, { s with incoming := rest, reads := s.reads + 1 })
    | _ =>
      let k := min (s.readSize s.reads + 1) (min n (readable s.incoming).length)
      (some ((readable s.incoming).take k),
        { s with incoming := s.incoming.drop k, reads := s.reads + 1 })

/-- `write`, with `none` for the result `-1`. -/
def Socket.write (bytes : List UInt8) (s : Socket) : Option Nat × Socket :=
  match s.writeSize s.writes with
  | none => (none, { s with writes := s.writes + 1 })
  | some m =>
    let k := min (m + 1) bytes.length
    (some k, { s with outgoing := s.outgoing ++ bytes.take k, writes := s.writes + 1 })

theorem length_readable_le (l : List (Option UInt8)) : (readable l).length ≤ l.length := by
  induction l with
  | nil => exact Nat.le_refl 0
  | cons x l ih =>
    cases x with
    | none => exact Nat.zero_le _
    | some b => exact Nat.succ_le_succ ih

/-- A `read` that returns bytes takes them from the stream. -/
theorem Socket.read_shorter {n : Nat} {s s' : Socket} {bytes : List UInt8}
    (h : s.read n = (some bytes, s')) (hne : bytes ≠ []) :
    s'.incoming.length < s.incoming.length := by
  rw [Socket.read] at h
  by_cases hn : SSIZE_MAX < n
  · rw [if_pos hn] at h
    cases h
  rw [if_neg hn] at h
  split at h
  · cases h
  · obtain ⟨h₁, rfl⟩ := Prod.mk.inj h
    obtain rfl := Option.some.inj h₁
    have hle := length_readable_le s.incoming
    have hpos : 0 < min (s.readSize s.reads + 1) (min n (readable s.incoming).length) := by
      by_contra hz
      exact hne (by rw [Nat.eq_zero_of_not_pos hz, List.take_zero])
    simp only [List.length_drop]
    omega

/-- The loop of `recv_from_host`, with `rd` bytes read and `rem` to go. -/
def recvLoop {cap : Nat} (s : Socket) (buf : Block UInt8 cap) (rd rem : Nat) :
    Except Fault (Int × Socket × Block UInt8 cap) :=
  if rem = 0 then .ok (CInt.int rd, s, buf)
  else
    match h : s.read rem with
    | (none, s') => .ok (-1, s', buf)
    | (some bytes, s') =>
      if _hne : bytes = [] then .ok (CInt.int rd, s', buf)
      else
        match buf.write rd bytes with
        | none => .error .outOfBounds
        | some buf => recvLoop s' buf (rd + bytes.length) (rem - bytes.length)
  termination_by s.incoming.length
  decreasing_by exact Socket.read_shorter h _hne

/-- `recv_from_host`; `buf` is the start of a block, and `len` is converted to `size_t`. -/
def recvFromHost {cap : Nat} (s : Socket) (buf : Block UInt8 cap) (len : Int) :
    Except Fault (Int × Socket × Block UInt8 cap) :=
  recvLoop s buf 0 (CInt.size len)

/-- A `write` transfers something. -/
theorem Socket.write_pos {bytes : List UInt8} {s s' : Socket} {k : Nat}
    (h : s.write bytes = (some k, s')) (hne : bytes ≠ []) :
    (bytes.drop k).length < bytes.length := by
  rw [Socket.write] at h
  split at h
  · cases h
  · obtain ⟨h₁, -⟩ := Prod.mk.inj h
    obtain rfl := Option.some.inj h₁
    have hpos := List.length_pos_iff.mpr hne
    rw [List.length_drop]
    omega

/-- The loop of `send_to_host` with the bytes that are left, after `sent`. -/
def sendLoop (s : Socket) (sent : Nat) (bytes : List UInt8) : Int × Socket :=
  if _hne : bytes = [] then (CInt.int sent, s)
  else
    match h : s.write bytes with
    | (none, s') => (-1, s')
    | (some k, s') => sendLoop s' (sent + k) (bytes.drop k)
  termination_by bytes.length
  decreasing_by exact Socket.write_pos h _hne

/-- `send_to_host` -/
def sendToHost (s : Socket) (bytes : List UInt8) : Int × Socket := sendLoop s 0 bytes

end SearchEngine.Server
