import SearchEngine.Server.Socket

/-!
# `client1.c` and `client2.c`: one request

Both clients send a header and the word and then read a header and, behind a `RESPONSE`, the
payload into the same buffer. `client1` sends two buffers, `client2` one; their receive buffers
differ by a byte, and `client2` takes every message that is no `RESPONSE` for an `ERROR`.
-/

namespace SearchEngine.Client

open Memory Server

abbrev MAX_SIZE : Nat := 100

/-- What a client makes of an answer. -/
inductive Reply where
  /-- a `RESPONSE`, with the result of receiving its payload -/
  | response (received : Int)
  /-- an `ERROR` -/
  | error
  /-- neither -/
  | wrong
  deriving DecidableEq, Repr

/-- `client1`: the request for `word` is sent. -/
def sendRequest1 (word : List UInt8) (s : Socket) : Socket :=
  let wordLen := strGetLength word MAX_SIZE
  let header := createPckt wordLen REQUEST
  let (_, s) := sendToHost s header.bytes
  let (_, s) := sendToHost s (word.take wordLen)
  s

/-- `client2`: the header and the word are put into one packet and sent. -/
def sendRequest2 (packet : Block UInt8 (MAX_SIZE + HDR_LEN)) (word : List UInt8) (s : Socket) :
    Except Fault Socket :=
  let len := strGetLength word MAX_SIZE
  match packet.write 4 (htonl REQUEST) with
  | none => .error .outOfBounds
  | some packet =>
    match packet.write 0 (htonl (len + HDR_LEN)) with
    | none => .error .outOfBounds
    | some packet =>
      match packet.write HDR_LEN (word.take len) with
      | none => .error .outOfBounds
      | some packet =>
        let (_, s) := sendToHost s (packet.data.take (len + HDR_LEN))
        .ok s

/-- The answer is received into a buffer of `cap` bytes; `other` is what the client makes of a
message that is neither a `RESPONSE` nor an `ERROR`. -/
def receiveReply {cap : Nat} (other : Reply) (buf : Block UInt8 cap) (s : Socket) :
    Except Fault (Reply × Block UInt8 cap × Socket) := do
  let (_, s, buf) ← recvFromHost s buf HDR_LEN
  let header := Hdr.at buf.data
  if header.msgType = htonl RESPONSE then
    let len := CInt.int (CInt.uint32 (ntohl header.totLen - HDR_LEN))
    let (tmp, s, buf) ← recvFromHost s buf len
    match buf.write tmp [0] with
    | none => .error .outOfBounds
    | some buf => .ok (.response tmp, buf, s)
  else if header.msgType = htonl ERROR then .ok (.error, buf, s)
  else .ok (other, buf, s)

/-- `client1`: a round of the loop of `request_server`, on a new connection. -/
def request1 (word : List UInt8) (buf : Block UInt8 (BUFSIZE + 1)) (s : Socket) :
    Except Fault (Reply × Block UInt8 (BUFSIZE + 1) × Socket) := do
  let (reply, buf, s) ← receiveReply .wrong buf (sendRequest1 word s)
  .ok (reply, buf, { s with closed := true })

/-- `client2`: a round of the loop of `request_server`, on a new connection, for the word that
`scanf` has left in `buf`. -/
def request2 (packet : Block UInt8 (MAX_SIZE + HDR_LEN)) (buf : Block UInt8 BUFSIZE) (s : Socket) :
    Except Fault (Reply × Block UInt8 BUFSIZE × Socket) := do
  let word ← cstring buf.data
  let s ← sendRequest2 packet word s
  let (reply, buf, s) ← receiveReply .error buf s
  .ok (reply, buf, { s with closed := true })

end SearchEngine.Client
