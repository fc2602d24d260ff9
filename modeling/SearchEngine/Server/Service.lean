import SearchEngine.Lib.Dialogue
import SearchEngine.Server.EventLoop
import SearchEngine.Server.Job

/-!
# The server, with the jobs inside

In `EventLoop` a job only uses its descriptor. Here it is `thread_job`, which holds a
conversation with the socket its descriptor refers to, and between any two of its calls of `read`
and `write` `main` and the other workers go on. `rest i` is what the worker `i` has yet to do in
`thread_job`.
-/

namespace SearchEngine.Server.Service

open Memory Outcome
open EventLoop (Args File Setup)

/-! ## `thread_job`, call by call -/

/-- The calls that a job makes of its socket. -/
inductive Call where
  | read (n : Nat)
  | write (bytes : List UInt8)

/-- What a call returns, with `none` for `-1`; a `write` transfers something. -/
def Call.Answer : Call → Type
  | .read _ => Option (List UInt8)
  | .write bytes => Option { k : Nat // bytes ≠ [] → 0 < k }

abbrev Program := Dialogue Call Call.Answer Fault

/-- `read` -/
def read (n : Nat) : Program (Option (List UInt8)) := .ask (.read n) .ret

/-- `write` -/
def write (bytes : List UInt8) : Program (Option { k : Nat // bytes ≠ [] → 0 < k }) :=
  .ask (.write bytes) .ret

/-- The loop of `recv_from_host`, with `rd` bytes read and `rem` to go. -/
def recvLoop {cap : Nat} (buf : Block UInt8 cap) (rd rem : Nat) :
    Program (Int × Block UInt8 cap) :=
  if _hrem : rem = 0 then pure (CInt.int rd, buf)
  else
    read rem >>= fun
      | none => pure (-1, buf)
      | some bytes =>
        if _hne : bytes = [] then pure (CInt.int rd, buf)
        else
          match buf.write rd bytes with
          | none => .fail .outOfBounds
          | some buf => recvLoop buf (rd + bytes.length) (rem - bytes.length)
  termination_by rem
  decreasing_by
    have hpos := List.length_pos_iff.mpr _hne
    omega

/-- `recv_from_host` -/
def recvFromHost {cap : Nat} (buf : Block UInt8 cap) (len : Int) :
    Program (Int × Block UInt8 cap) :=
  recvLoop buf 0 (CInt.size len)

/-- The loop of `send_to_host` with the bytes that are left, after `sent`. -/
def sendLoop (sent : Nat) (bytes : List UInt8) : Program Int :=
  if _hne : bytes = [] then pure (CInt.int sent)
  else
    write bytes >>= fun
      | none => pure (-1)
      | some k => sendLoop (sent + k) (bytes.drop k)
  termination_by bytes.length
  decreasing_by
    have hpos := List.length_pos_iff.mpr _hne
    have hk := k.2 _hne
    rw [List.length_drop]
    omega

/-- `send_to_host` -/
def sendToHost (bytes : List UInt8) : Program Int := sendLoop 0 bytes

/-- The part of `thread_job` that receives a request: the word, if it is one. -/
def receiveRequest (packet : Packet) : Program (Option (List UInt8) × Packet) := do
  let (_, packet) ← recvFromHost packet HDR_LEN
  let header := Hdr.at packet.data
  if header.msgType = htonl REQUEST then
    let len := CInt.int (CInt.uint32 (ntohl header.totLen - HDR_LEN))
    let (tmp, packet) ← recvFromHost packet len
    match packet.write tmp [0] with
    | none => .fail .outOfBounds
    | some packet => do
      let word ← .lift (cstring packet.data)
      pure (some word, packet)
  else pure (none, packet)

/-- The part of `thread_job` that answers a request. -/
def answer (t : Tables) (query : List UInt8) (packet : Packet) : Program Unit := do
  let hash := hashFunction query % t.index.dynlist.physLen
  match ← .lift (lookup t.index.words t.index.dynlist query hash) with
  | some item =>
    match t.index.words[item]? with
    | none => .fail .outOfBounds
    | some word => do
      let (packet, totLen) ← .lift (render t packet word)
      let _ ← sendToHost (createPckt (CInt.size totLen) RESPONSE).bytes
      let _ ← sendToHost (packet.data.take (CInt.size totLen))
      pure ()
  | none => do
    let _ ← sendToHost (createPckt 0 ERROR).bytes
    pure ()

/-- `thread_job` up to its `close`; the result is the word it looked up, if it did. -/
def threadJob (t : Tables) (packet : Packet) : Program (Option (List UInt8)) := do
  let (query, packet) ← receiveRequest packet
  match query with
  | some word => answer t word packet
  | none => pure ()
  pure query

/-- A call of a connected socket. -/
def socketCall : Dialogue.Device Call.Answer Socket
  | .read n, s => s.read n
  | .write bytes, s =>
    match s.writeSize s.writes with
    | none => (none, { s with writes := s.writes + 1 })
    | some m =>
      let k := min (m + 1) bytes.length
      (some ⟨k, fun hne => by
          have hpos := List.length_pos_iff.mpr hne
          omega⟩,
        { s with outgoing := s.outgoing ++ bytes.take k, writes := s.writes + 1 })

/-- A call of anything else fails. -/
def failed : (op : Call) → op.Answer
  | .read _ => none
  | .write _ => none

/-! ## The system -/

/-- What the server meets: `client k` is the `k`th connection at its `accept`, with all that will
come from the other side, and `packet j` the block that `tc_malloc` returns to the job `j`,
whatever is in it. The tables are read only. -/
structure World where
  tables : Tables
  client : Nat → Socket
  packet : Args → Packet

/-- The server; `sockets k` is the `k`th connection. -/
structure State (n : Nat) where
  loop : EventLoop.State n
  sockets : Nat → Socket
  rest : Fin n → Program (Option (List UInt8))

variable {n : Nat}

def initial (c : Setup) (w : World) : State n where
  loop := EventLoop.initial c
  sockets := w.client
  rest := fun _ => .ret none

/-- The job has come to its `close`. -/
def AtClose : Program (Option (List UInt8)) → Prop
  | .ret _ => True
  | .fail _ | .ask .. => False

/-- What the event is up to: a job closes its descriptor when it has nothing else to do. -/
def Enabled (c : Setup) (s : State n) (e : EventLoop.Event n) : Prop :=
  EventLoop.Enabled c s.loop e ∧ match e with
    | .transfer i => ¬ AtClose (s.rest i)
    | .close i => AtClose (s.rest i)
    | _ => True

/-- The next call of a job, on what its descriptor refers to. -/
def transfer (s : State n) (i : Fin n) (file : Option File) : Except Fault (State n) :=
  match s.rest i with
  | .ret _ => .ok s
  | .fail f => .error f
  | .ask op next =>
    match file with
    | some (.conn k) =>
      .ok { s with
        sockets := Function.update s.sockets k (socketCall op (s.sockets k)).2
        rest := Function.update s.rest i (next (socketCall op (s.sockets k)).1) }
    | _ => .ok { s with rest := Function.update s.rest i (next (failed op)) }

/-- `close` of what a descriptor refers to. -/
def close (s : State n) (file : Option File) : State n :=
  match file with
  | some (.conn k) =>
    { s with sockets := Function.update s.sockets k { s.sockets k with closed := true } }
  | _ => s

/-- What the descriptor of the job that a worker runs refers to. -/
def fileOf (s : State n) (i : Fin n) : Option File :=
  (EventLoop.running s.loop i).bind fun j => s.loop.files j.fd

/-- A worker that is about to run a job is at the start of `thread_job`. -/
def start (w : World) (s : State n) (i : Fin n) : State n :=
  match s.loop.pool.worker i with
  | .exec j => { s with rest := Function.update s.rest i (threadJob w.tables (w.packet j)) }
  | _ => s

/-- The state after an event. -/
def next (c : Setup) (w : World) (s : State n) (e : EventLoop.Event n) :
    Except Fault (State n) := do
  let loop ← EventLoop.next c s.loop e
  match e with
  | .work i => .ok (start w { s with loop := loop } i)
  | .transfer i => transfer { s with loop := loop } i (fileOf s i)
  | .close i => .ok (close { s with loop := loop } (fileOf s i))
  | _ => .ok { s with loop := loop }

/-- An event that can happen and does not fault. -/
def Step (c : Setup) (w : World) (s : State n) (e : EventLoop.Event n) (s' : State n) : Prop :=
  Enabled c s e ∧ next c w s e = .ok s'

/-- `tc_calloc` does not fail. -/
def Allocates (s : State n) (e : EventLoop.Event n) : Prop := EventLoop.Allocates s.loop e

/-- `s` is reached from the start of the loop in a run in which no allocation fails. -/
def Reachable (c : Setup) (w : World) (s : State n) : Prop :=
  Reach.Reaches (Step c w) Allocates (initial c w) s

end SearchEngine.Server.Service
