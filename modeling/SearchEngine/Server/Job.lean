import SearchEngine.Server.Index
import SearchEngine.Server.Socket

/-!
# `server.c`: `thread_job`

A job receives a request into `packet`, looks the word up, writes the answer into the same
buffer and sends it. `receiveRequest` is the first part, up to the terminating NUL, and
`render` is the loop over the postings.
-/

namespace SearchEngine.Server

open Memory

/-- `char * packet`, of `DYN_SIZE + 1` bytes. -/
abbrev Packet := Block UInt8 (DYN_SIZE + 1)

/-- What a job reads: the index, `file_list`, and the strings its items point to. -/
structure Tables where
  index : Index
  fileList : DynList
  mem : Nat → List UInt8

/-- The part of `thread_job` that receives a request: the word, if it is one. -/
def receiveRequest (packet : Packet) (s : Socket) :
    Except Fault (Option (List UInt8) × Packet × Socket) := do
  let (_, s, packet) ← recvFromHost s packet HDR_LEN
  let header := Hdr.at packet.data
  if header.msgType = htonl REQUEST then
    let len := CInt.int (CInt.uint32 (ntohl header.totLen - HDR_LEN))
    let (tmp, s, packet) ← recvFromHost s packet len
    match packet.write tmp [0] with
    | none => .error .outOfBounds
    | some packet => do
      let word ← cstring packet.data
      .ok (some word, packet, s)
  else .ok (none, packet, s)

/-- The digits that `%zu` prints. -/
def decimal (n : Nat) : List UInt8 := (Nat.toDigits 10 n).map fun c => UInt8.ofNat c.toNat

/-- `"%s: line #%zu\n"` -/
def renderLine (name : List UInt8) (line : Nat) : List UInt8 :=
  name ++ [58, 32, 108, 105, 110, 101, 32, 35] ++ decimal line ++ [10]

/-- The string `file_list->dyn_list[val]`. -/
def fileName (t : Tables) (val : Nat) : Except Fault (List UInt8) :=
  match t.fileList.dynList[val]? with
  | none => .error .outOfBounds
  | some none => .error .nullDeref
  | some (some name) => .ok (t.mem name)

/-- The `sprintf` of a posting, at offset `tot_len`. -/
def renderPosting (name : List UInt8) (out : Packet × Int) (line : Nat) :
    Except Fault (Packet × Int) :=
  let text := renderLine name line
  match out.1.write out.2 (text ++ [0]) with
  | none => .error .outOfBounds
  | some packet => .ok (packet, CInt.int (out.2 + text.length))

/-- The inner loop of the rendering. -/
def renderDoc (t : Tables) (out : Packet × Int) (docs : LinkedList) :
    Except Fault (Packet × Int) :=
  (List.range docs.lastIndex).foldlM (fun out i => do
    let name ← fileName t docs.val
    match docs.list[i]? with
    | none => .error .outOfBounds
    | some line => renderPosting name out line) out

/-- The rendering of the postings of a word. -/
def render (t : Tables) (packet : Packet) (word : Word) : Except Fault (Packet × Int) :=
  word.list.foldlM (renderDoc t) (packet, 0)

/-- The part of `thread_job` that answers a request. -/
def answer (t : Tables) (query : List UInt8) (packet : Packet) (s : Socket) :
    Except Fault Socket := do
  let hash := hashFunction query % t.index.dynlist.physLen
  match ← lookup t.index.words t.index.dynlist query hash with
  | some item =>
    match t.index.words[item]? with
    | none => .error .outOfBounds
    | some word => do
      let (packet, totLen) ← render t packet word
      let (_, s) := sendToHost s (createPckt (CInt.size totLen) RESPONSE).bytes
      let (_, s) := sendToHost s (packet.data.take (CInt.size totLen))
      .ok s
  | none =>
    let (_, s) := sendToHost s (createPckt 0 ERROR).bytes
    .ok s

/-- What a job has done: the word it looked up, if it did, and its socket. -/
structure Served where
  query : Option (List UInt8)
  socket : Socket

/-- `thread_job`; `packet` is the block that `tc_malloc` returns, whatever is in it. -/
def threadJob (t : Tables) (packet : Packet) (s : Socket) : Except Fault Served := do
  let (query, packet, s) ← receiveRequest packet s
  let s ← match query with
    | some word => answer t word packet s
    | none => .ok s
  .ok ⟨query, { s with closed := true }⟩

end SearchEngine.Server
