import SearchEngine.Client.Request
import SearchEngine.Server.Verify.Request
import SearchEngine.Server.Verify.Render

/-!
# The round trip of a request

The two encoders of a request produce one stream (`requestStream`), the job recovers the word
from it and sends `replyStream` of its answer, and either client recovers the answer from
that. The calls of `read` and `write` may cut both streams anywhere.
-/

namespace SearchEngine.Client

open Memory Server Outcome

section Streams

/-- The request for a word. -/
def requestStream (word : List UInt8) : List UInt8 := (createPckt word.length REQUEST).bytes ++ word

/-- The answer, if there is one. -/
def replyStream : Option (List UInt8) → List UInt8
  | some payload => (createPckt payload.length RESPONSE).bytes ++ payload
  | none => (createPckt 0 ERROR).bytes

/-- What the index answers to a word: the text that the rendering leaves in the packet, or
nothing. -/
inductive Answers (t : Tables) (word : List UInt8) : Option (List UInt8) → Prop
  | found {item : Nat} {w : Word} {payload : List UInt8}
      (lookup : lookup t.index.words t.index.dynlist word
        (hashFunction word % t.index.dynlist.physLen) = .ok (some item))
      (mem : t.index.words[item]? = some w)
      (render : ∀ packet : Packet, ∃ packet' : Packet, render t packet w =
        .ok (packet', payload.length) ∧
        packet'.data.take payload.length = payload) : Answers t word (some payload)
  | unknown (lookup : lookup t.index.words t.index.dynlist word
      (hashFunction word % t.index.dynlist.physLen) = .ok none) : Answers t word none

variable {word : List UInt8} {c v : Socket}

theorem bytes_createPckt (len msgType : Nat) :
    (createPckt len msgType).bytes = htonl (len + HDR_LEN : Nat) ++ htonl msgType := rfl

/-- The part of a word that a client sends. -/
def sent (word : List UInt8) : List UInt8 := word.take (strGetLength word MAX_SIZE)

theorem sent_of_lt (h : word.length < MAX_SIZE) : sent word = word := by
  rw [sent, strGetLength, if_neg (Nat.not_le.mpr h), List.take_length]

theorem sent_of_le (h : MAX_SIZE ≤ word.length) : sent word = [] := by
  rw [sent, strGetLength, if_pos h, List.take_zero]

theorem length_sent (word : List UInt8) : (sent word).length = strGetLength word MAX_SIZE := by
  rw [sent, List.length_take, strGetLength]
  split <;> simp

theorem take_length_sent (word : List UInt8) : word.take (sent word).length = sent word := by
  rw [length_sent, ← sent]

theorem length_sent_lt (word : List UInt8) : (sent word).length < MAX_SIZE := by
  by_cases h : word.length < MAX_SIZE
  · rw [sent_of_lt h]
    exact h
  · rw [sent_of_le (Nat.le_of_not_lt h)]
    decide

/-- `send_to_host` of two buffers sends one stream. -/
theorem sendToHost_spec (hs : c.Sends) (bytes : List UInt8) :
    ∃ ret writes, sendToHost c bytes =
      (ret, { c with outgoing := c.outgoing ++ bytes, writes := writes }) := by
  obtain ⟨writes, hrun⟩ := sendLoop_spec c 0 bytes hs
  exact ⟨_, writes, hrun⟩

theorem sendRequest1_spec (word : List UInt8) (hs : c.Sends) :
    ∃ writes, sendRequest1 word c =
      { c with outgoing := c.outgoing ++ requestStream (sent word), writes := writes } := by
  obtain ⟨_, writes, h₁⟩ := sendToHost_spec hs (createPckt (sent word).length REQUEST).bytes
  obtain ⟨_, writes', h₂⟩ := sendToHost_spec
    (c := { c with
      outgoing := c.outgoing ++ (createPckt (sent word).length REQUEST).bytes
      writes := writes }) hs (sent word)
  refine ⟨writes', ?_⟩
  simp only [sendRequest1, ← length_sent, h₁, take_length_sent, h₂, requestStream,
    List.append_assoc]

/-- The packet of `client2`. -/
theorem sendRequest2_spec (packet : Block UInt8 (MAX_SIZE + HDR_LEN)) (word : List UInt8)
    (hs : c.Sends) :
    ∃ writes, sendRequest2 packet word c =
      .ok { c with outgoing := c.outgoing ++ requestStream (sent word), writes := writes } := by
  have hlen := length_sent_lt word
  have hcap := packet.length_eq
  simp only [MAX_SIZE, HDR_LEN] at hlen hcap
  obtain ⟨p₁, hp₁, hd₁⟩ := Block.write_natCast packet 4 (htonl REQUEST)
    (by rw [length_htonl]; decide)
  obtain ⟨p₂, hp₂, hd₂⟩ := Block.write_natCast p₁ 0
    (htonl ((sent word).length + HDR_LEN : Nat)) (by rw [length_htonl]; decide)
  obtain ⟨p₃, hp₃, hd₃⟩ := Block.write_natCast p₂ HDR_LEN (sent word)
    (by simp only [MAX_SIZE, HDR_LEN]; omega)
  have hpacket : p₃.data.take ((sent word).length + HDR_LEN) = requestStream (sent word) := by
    have h₁ : (p₁.data.drop 4).take 4 = htonl REQUEST := by
      rw [hd₁, List.append_assoc, List.drop_left' (by rw [List.length_take]; omega),
        List.take_left' (length_htonl _)]
    have h₂ : p₂.data.take 8 = htonl ((sent word).length + HDR_LEN : Nat) ++ htonl REQUEST := by
      rw [hd₂, List.take_zero, List.nil_append, length_htonl, ← h₁,
        List.take_append, length_htonl]
      rfl
    rw [hd₃, h₂, requestStream, bytes_createPckt]
    refine List.take_left' ?_
    simp only [List.length_append, length_htonl, HDR_LEN]
    omega
  obtain ⟨_, writes, hrun⟩ := sendToHost_spec hs (requestStream (sent word))
  refine ⟨writes, ?_⟩
  have hw₁ : packet.write 4 (htonl REQUEST) = some p₁ := hp₁
  have hw₂ : p₁.write 0 (htonl ((sent word).length + HDR_LEN)) = some p₂ := hp₂
  simp only [sendRequest2, ← length_sent, hw₁, hw₂, take_length_sent, hp₃, hpacket, hrun]

theorem length_readable_append (bytes rest : List UInt8) :
    bytes.length ≤ (readable ((bytes ++ rest).map some)).length := by
  rw [List.map_append, readable_map_some, List.length_append]
  exact Nat.le_add_right _ _

theorem recvRest_append (bytes rest : List UInt8) :
    recvRest ((bytes ++ rest).map some) bytes.length = rest.map some := by
  rw [recvRest, if_pos (length_readable_append bytes rest), ← List.map_drop, List.drop_left]

/-- A receive of what comes next. -/
theorem recvFromHost_whole {cap : Nat} (buf : Block UInt8 cap) (bytes rest : List UInt8) {len : Int}
    (hl : c.incoming = (bytes ++ rest).map some) (hlen : CInt.size len = bytes.length)
    (hcap : bytes.length ≤ cap) (hle : bytes.length ≤ DYN_SIZE + 1) :
    ∃ buf' reads, recvFromHost c buf len =
        .ok (bytes.length, { c with incoming := rest.map some, reads := reads }, buf') ∧
      buf'.data = bytes ++ buf.data.drop bytes.length := by
  have hread : readable ((bytes ++ rest).map some) = bytes ++ rest := readable_receiving _
  have hmin : min bytes.length (bytes ++ rest).length = bytes.length := by
    rw [List.length_append]
    omega
  obtain ⟨buf', reads, hrun, hdata⟩ := recvFromHost_spec buf hl hlen (hle.trans (by decide))
    (by rw [hread, hmin]; exact hcap)
  rw [hread, hmin, List.take_left] at hdata
  have hret : recvResult ((bytes ++ rest).map some) 0 bytes.length = bytes.length := by
    rw [recvResult, if_pos (length_readable_append bytes rest), Nat.zero_add, int_of_le hle]
  rw [hret, recvRest_append] at hrun
  exact ⟨buf', reads, hrun, hdata⟩

theorem requestFor_requestStream (hlen : word.length < MAX_SIZE)
    (hin : v.incoming = (requestStream word).map some) :
    RequestFor (readable v.incoming) word := by
  refine ⟨[], ?_, ?_⟩
  · simp only [MAX_SIZE, HDR_LEN] at hlen ⊢
    omega
  · rw [hin, List.append_nil]
    exact readable_receiving (requestStream word)

/-- The job recovers the word and sends the answer. -/
theorem threadJob_spec {t : Tables} {ans : Option (List UInt8)} (packet : Packet)
    (hans : Answers t word ans) (hlen : word.length < MAX_SIZE) (hnul : 0 ∉ word)
    (hsmall : ∀ payload, ans = some payload → payload.length < BUFSIZE) (hs : v.Sends)
    (hin : v.incoming = (requestStream word).map some) :
    ∃ v', threadJob t packet v = .ok ⟨some word, v'⟩ ∧ v'.incoming = [] ∧
      v'.outgoing = v.outgoing ++ replyStream ans := by
  have hword : word.length ≤ DYN_SIZE :=
    Nat.le_trans hlen.le (by decide)
  obtain ⟨p, reads, hrun⟩ := (requestFor_requestStream hlen hin).receive packet
    hnul hword
  have hrest : recvRest (bodyOf v) word.length = [] := by
    have hbody : bodyOf v = word.map some := by
      rw [bodyOf, hin]
      exact recvRest_append (createPckt word.length REQUEST).bytes word
    have h := recvRest_append word []
    rwa [List.append_nil, ← hbody] at h
  rw [hrest] at hrun
  rw [threadJob, hrun, ok_bind]
  cases hans with
  | @found item w payload hlook hmem hrender =>
    obtain ⟨p', hren, htake⟩ := hrender p
    have hsize : CInt.size payload.length = payload.length := by
      have hp := hsmall payload rfl
      simp only [BUFSIZE] at hp
      rw [CInt.size]
      omega
    obtain ⟨_, writes, h₁⟩ := sendToHost_spec (c := { v with incoming := [], reads := reads }) hs
      (createPckt payload.length RESPONSE).bytes
    obtain ⟨_, writes', h₂⟩ := sendToHost_spec (c := { v with
      incoming := []
      reads := reads
      outgoing := v.outgoing ++ (createPckt payload.length RESPONSE).bytes
      writes := writes }) hs payload
    simp only [answer, hlook, ok_bind, hmem, hren, hsize, h₁, htake, h₂]
    refine ⟨_, rfl, rfl, ?_⟩
    simp only [replyStream, List.append_assoc]
  | unknown hlook =>
    obtain ⟨_, writes, h₁⟩ := sendToHost_spec (c := { v with incoming := [], reads := reads }) hs
      (createPckt 0 ERROR).bytes
    simp only [answer, hlook, ok_bind, h₁]
    exact ⟨_, rfl, rfl, rfl⟩

/-- What a client has recovered: the kind of the answer, and its text with a NUL behind it. -/
def Received (ans : Option (List UInt8)) (reply : Reply) (buf : List UInt8) : Prop :=
  match ans with
  | some payload => reply = .response payload.length ∧
      buf.take (payload.length + 1) = payload ++ [0]
  | none => reply = .error

/-- The payload of a `RESPONSE` is at the start of the buffer when it is terminated. -/
theorem receiveReply_response {cap : Nat} (other : Reply) (buf : Block UInt8 cap)
    {payload : List UInt8} (hhdr : HDR_LEN ≤ cap) (hcap : payload.length ≤ cap)
    (hle : payload.length ≤ DYN_SIZE) (hin : c.incoming = (replyStream (some payload)).map some) :
    ∃ buf' : Block UInt8 cap, ∃ reads, buf'.data.take payload.length = payload ∧
      (buf'.write payload.length [0] = none → receiveReply other buf c = .error .outOfBounds) ∧
      ∀ d, buf'.write payload.length [0] = some d → receiveReply other buf c =
        .ok (.response payload.length, d, { c with incoming := [], reads := reads }) := by
  obtain ⟨buf₁, reads, hrun, hdata⟩ := recvFromHost_whole buf
    (createPckt payload.length RESPONSE).bytes payload hin
    size_hdrLen hhdr (show 8 ≤ DYN_SIZE + 1 by decide)
  have hat : Hdr.at buf₁.data = ⟨htonl (payload.length + HDR_LEN : Nat), htonl RESPONSE⟩ := by
    rw [hdata]
    exact Hdr.at_append rfl rfl
  obtain ⟨buf₂, reads', hrun', hdata'⟩ := recvFromHost_whole
    (c := { c with incoming := payload.map some, reads := reads }) buf₁
    payload [] (by rw [List.append_nil])
    (announced_htonl (b := htonl RESPONSE) (Nat.le_succ_of_le hle)) hcap (Nat.le_succ_of_le hle)
  refine ⟨buf₂, reads', ?_, fun hw => ?_, fun d hw => ?_⟩
  · rw [hdata', List.take_left]
  · rw [receiveReply, hrun, ok_bind]
    simp only [hat, if_true]
    rw [hrun', ok_bind]
    simp only [hw]
  · rw [receiveReply, hrun, ok_bind]
    simp only [hat, if_true]
    rw [hrun', ok_bind]
    simp only [hw]
    rfl

/-- A client recovers the answer. -/
theorem receiveReply_spec {cap : Nat} (other : Reply) (buf : Block UInt8 cap)
    {ans : Option (List UInt8)} (hcap : BUFSIZE ≤ cap)
    (hsmall : ∀ payload, ans = some payload → payload.length < BUFSIZE)
    (hin : c.incoming = (replyStream ans).map some) :
    ∃ reply buf' reads, receiveReply other buf c =
        .ok (reply, buf', { c with incoming := [], reads := reads }) ∧
      Received ans reply buf'.data := by
  have hhdr : HDR_LEN ≤ cap := Nat.le_trans (by decide) hcap
  cases ans with
  | none =>
    obtain ⟨buf', reads, hrun, hdata⟩ := recvFromHost_whole (c := c) buf
      (createPckt 0 ERROR).bytes [] (by rw [List.append_nil]; exact hin)
      size_hdrLen hhdr (by decide)
    have hat : Hdr.at buf'.data = createPckt 0 ERROR := by
      rw [hdata]
      exact Hdr.at_append rfl rfl
    refine ⟨.error, buf', reads, ?_, rfl⟩
    rw [receiveReply, hrun, ok_bind]
    simp only [hat, createPckt, if_true]
    rfl
  | some payload =>
    have hp := hsmall payload rfl
    obtain ⟨buf', reads, htake, -, hok⟩ := receiveReply_response other buf
      hhdr (hp.le.trans hcap) hp.le hin
    obtain ⟨d, hw, hdata⟩ := Block.write_natCast buf' payload.length [0]
      (Nat.lt_of_lt_of_le hp hcap)
    refine ⟨.response payload.length, d, reads, hok d hw, rfl, ?_⟩
    rw [hdata, htake, List.take_left' (by rw [List.length_append]; rfl)]

theorem request1_spec {ans : Option (List UInt8)} (buf : Block UInt8 (BUFSIZE + 1))
    (hlen : word.length < MAX_SIZE)
    (hsmall : ∀ payload, ans = some payload → payload.length < BUFSIZE) (hs : c.Sends)
    (hin : c.incoming = (replyStream ans).map some) :
    ∃ reply buf' c', request1 word buf c = .ok (reply, buf', c') ∧
      c'.outgoing = c.outgoing ++ requestStream word ∧ c'.incoming = [] ∧
      Received ans reply buf'.data := by
  obtain ⟨writes, hsend⟩ := sendRequest1_spec word hs
  rw [sent_of_lt hlen] at hsend
  obtain ⟨reply, buf', reads, hrun, hrec⟩ := receiveReply_spec .wrong buf
    (c := sendRequest1 word c) (Nat.le_succ _) hsmall (by rw [hsend]; exact hin)
  refine ⟨reply, buf', { sendRequest1 word c with incoming := [], reads := reads, closed := true },
    ?_, ?_, rfl, hrec⟩
  · rw [request1, hrun, ok_bind]
  · rw [hsend]

theorem request2_spec {ans : Option (List UInt8)} (packet : Block UInt8 (MAX_SIZE + HDR_LEN))
    {buf : Block UInt8 BUFSIZE} (hword : cstring buf.data = .ok word)
    (hlen : word.length < MAX_SIZE)
    (hsmall : ∀ payload, ans = some payload → payload.length < BUFSIZE) (hs : c.Sends)
    (hin : c.incoming = (replyStream ans).map some) :
    ∃ reply buf' c', request2 packet buf c = .ok (reply, buf', c') ∧
      c'.outgoing = c.outgoing ++ requestStream word ∧ c'.incoming = [] ∧
      Received ans reply buf'.data := by
  obtain ⟨writes, hsend⟩ := sendRequest2_spec packet word hs
  rw [sent_of_lt hlen] at hsend
  obtain ⟨reply, buf', reads, hrun, hrec⟩ := receiveReply_spec .error buf
    (c := { c with outgoing := c.outgoing ++ requestStream word, writes := writes })
    (Nat.le_refl _) hsmall hin
  refine ⟨reply, buf', { c with
    incoming := []
    reads := reads
    outgoing := c.outgoing ++ requestStream word
    writes := writes
    closed := true }, ?_, rfl, rfl, hrec⟩
  rw [request2, hword, ok_bind, hsend, ok_bind, hrun, ok_bind]

/-- The round trip: either client sends the stream from which the job recovers the word, and
recovers the answer from the stream that the job sends; every byte is consumed. -/
theorem round_trip {t : Tables} {ans : Option (List UInt8)} (hans : Answers t word ans)
    (hlen : word.length < MAX_SIZE) (hnul : 0 ∉ word)
    (hsmall : ∀ payload, ans = some payload → payload.length < BUFSIZE)
    (packet : Packet) (hv : v.Sends) (hvout : v.outgoing = [])
    (hvin : v.incoming = (requestStream word).map some) :
    ∃ v', threadJob t packet v = .ok ⟨some word, v'⟩ ∧ v'.incoming = [] ∧
      ∀ c : Socket, c.Sends → c.outgoing = [] → c.incoming = v'.outgoing.map some →
        (∀ buf, ∃ reply buf' c', request1 word buf c = .ok (reply, buf', c') ∧
          c'.outgoing = requestStream word ∧ c'.incoming = [] ∧ Received ans reply buf'.data) ∧
        (∀ packet buf, cstring buf.data = .ok word →
          ∃ reply buf' c', request2 packet buf c = .ok (reply, buf', c') ∧
            c'.outgoing = requestStream word ∧ c'.incoming = [] ∧
            Received ans reply buf'.data) := by
  obtain ⟨v', hrun, hrest, hout⟩ := threadJob_spec packet hans hlen hnul hsmall hv hvin
  rw [hvout, List.nil_append] at hout
  refine ⟨v', hrun, hrest, fun c hc hcout hcin => ?_⟩
  rw [hout] at hcin
  constructor
  · intro buf
    have h := request1_spec buf hlen hsmall hc hcin
    rwa [hcout, List.nil_append] at h
  · intro packet buf hword
    have h := request2_spec packet hword hlen hsmall hc hcin
    rwa [hcout, List.nil_append] at h

/-- An index with one word, in one line of one file. -/
def oneWord : Tables where
  index := ⟨[⟨hashFunction [97], [97], [⟨0, [1], 1⟩]⟩], ⟨0, [some 0]⟩⟩
  fileList := ⟨0, [some 0]⟩
  mem := fun _ => [102]

theorem answers_oneWord : Answers oneWord [97] (some (renderLine [102] 1)) := by
  refine Answers.found (w := ⟨hashFunction [97], [97], [⟨0, [1], 1⟩]⟩) ?_ (show _[0]? = _ from rfl)
    fun packet => ?_
  · have hhash : hashFunction [97] % oneWord.index.dynlist.physLen = 0 := Nat.mod_one _
    rw [hhash, lookup]
    rfl
  · have hposted : ∀ docs ∈ [(⟨0, [1], 1⟩ : LinkedList)], Posted oneWord.fileList docs := by
      intro docs hdocs
      obtain rfl := List.mem_singleton.mp hdocs
      exact ⟨⟨0, rfl⟩, Nat.le_refl _⟩
    obtain ⟨out, hrun, hout⟩ := (render_spec packet
      (show ∀ docs ∈ Word.list ⟨hashFunction [97], [97], [⟨0, [1], 1⟩]⟩, _ from hposted)).1
      (by decide)
    have hlen : out.2 = (renderLine [102] 1).length := hout.len
    exact ⟨out.1, by rw [hrun, ← hlen], hout.data⟩

theorem round_trip_oneWord :
    ∃ v', threadJob oneWord ⟨List.replicate (DYN_SIZE + 1) 0, List.length_replicate⟩
        (.receiving (requestStream [97])) = .ok ⟨some [97], v'⟩ ∧ v'.incoming = [] := by
  obtain ⟨v', hrun, hrest, -⟩ := round_trip answers_oneWord (by decide) (by decide)
    (by rintro payload ⟨⟩; decide) ⟨List.replicate (DYN_SIZE + 1) 0, List.length_replicate⟩
    (v := .receiving (requestStream [97])) (fun _ => Option.some_ne_none _) rfl rfl
  exact ⟨v', hrun, hrest⟩

end Streams

end SearchEngine.Client
