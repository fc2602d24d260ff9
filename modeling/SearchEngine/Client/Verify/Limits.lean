import SearchEngine.Client.Verify.Framing
import SearchEngine.Server.Verify.Boot

/-!
# The limits of the clients

The server renders answers of up to `DYN_SIZE` bytes and holds words of up to `MAX_WORD_LEN - 1`;
the clients have limits of their own. This file finds the answers that their buffers hold with
the NUL behind them, and the words that they can ask for.
-/

namespace SearchEngine.Client

open Memory Server Outcome

section Limits

variable {word payload : List UInt8} {c : Socket}

/-- The buffer of a client holds an answer exactly if there is room for its NUL. -/
theorem receiveReply_inBounds {cap : Nat} {other : Reply} {buf : Block UInt8 cap}
    (hhdr : HDR_LEN ≤ cap) (hcap : payload.length ≤ cap) (hle : payload.length ≤ DYN_SIZE)
    (hin : c.incoming = (replyStream (some payload)).map some) :
    (∃ r, receiveReply other buf c = .ok r) ↔ payload.length < cap := by
  obtain ⟨buf', reads, -, herr, hok⟩ := receiveReply_response other buf
    hhdr hcap hle hin
  constructor
  · rintro ⟨r, hr⟩
    by_contra hlt
    have hnone : buf'.write payload.length [0] = none := by
      refine Block.write_eq_none.mpr (.inr ?_)
      rw [Int.toNat_natCast]
      exact Nat.lt_succ_of_le (Nat.le_of_not_lt hlt)
    rw [herr hnone] at hr
    cases hr
  · intro hlt
    obtain ⟨d, hw, -⟩ := Block.write_natCast buf' payload.length [0] hlt
    exact ⟨_, hok d hw⟩

/-- Both clients keep inside of their buffers exactly if the answer leaves room for a NUL in
the smaller one. -/
theorem replies_inBounds (hle : payload.length ≤ DYN_SIZE) (buf₁ : Block UInt8 (BUFSIZE + 1))
    (buf₂ : Block UInt8 BUFSIZE) (hin : c.incoming = (replyStream (some payload)).map some) :
    ((∃ r, receiveReply .wrong buf₁ c = .ok r) ∧ ∃ r, receiveReply .error buf₂ c = .ok r) ↔
      payload.length < BUFSIZE := by
  rw [receiveReply_inBounds (by decide) (Nat.le_succ_of_le hle) hle hin,
    receiveReply_inBounds (by decide) hle hle hin]
  exact ⟨And.right, fun h => ⟨Nat.lt_succ_of_lt h, h⟩⟩

theorem replies_inBounds_short :
    ((∃ r, receiveReply .wrong ⟨List.replicate (BUFSIZE + 1) 0, List.length_replicate⟩
        (.receiving (replyStream (some [97]))) = .ok r) ∧
      ∃ r, receiveReply .error ⟨List.replicate BUFSIZE 0, List.length_replicate⟩
        (.receiving (replyStream (some [97]))) = .ok r) :=
  (replies_inBounds (List.length_singleton.le.trans (by decide)) _ _ rfl).mpr (by decide)

/-- The entry of a regular file with the name `abcdef`. -/
def abcdefEntry : DirEntry := ⟨0, DT_REG, fun _ => [97, 98, 99, 100, 101, 102]⟩

/-- The word `a` occurs 640 times on the one line of the file `abcdef`: the 640 lines of the answer,
16 bytes each, fill the packet of the server, and the NUL of `client2` is behind its buffer. -/
theorem reply_outOfBounds :
    ∃ b w, readDir (lineEnv (List.replicate 640 [97, 32]).flatten) [100] [abcdefEntry] = .ok b ∧
      w ∈ b.index.words ∧
      (∀ packet, ∃ out, render ⟨b.index, b.fileList, abcdefEntry.mem⟩ packet w = .ok out) ∧
      ¬ ∃ r, receiveReply .error ⟨List.replicate BUFSIZE 0, List.length_replicate⟩
        (.receiving (replyStream (some (rendered ⟨b.index, b.fileList, abcdefEntry.mem⟩ w)))) =
          .ok r := by
  obtain ⟨b, w, hboot, hw, hposted, htext⟩ := readDir_repeat (m := 640) (e := abcdefEntry)
    (by decide) (by decide) (by decide) (by decide) (by decide)
  have hlen : (rendered ⟨b.index, b.fileList, abcdefEntry.mem⟩ w).length = DYN_SIZE := by
    rw [htext, List.length_flatten, List.map_replicate, List.sum_replicate_nat]
    decide
  refine ⟨b, w, hboot, hw, fun packet => ?_, ?_⟩
  · obtain ⟨out, hrun, -⟩ := (render_spec packet hposted).1 hlen.le
    exact ⟨out, hrun⟩
  · rw [receiveReply_inBounds (by decide) hlen.le hlen.le rfl, hlen]
    exact Nat.lt_irrefl _

/-- The word that the job looks up when the stream comes in, in whatever parts. -/
def LooksUp (stream word : List UInt8) : Prop :=
  ∀ (packet : Packet) (v : Socket), v.incoming = stream.map some →
    ∃ p s, receiveRequest packet v = .ok (some word, p, s)

theorem looksUp_requestStream (hlen : word.length < MAX_SIZE) (hnul : 0 ∉ word) :
    LooksUp (requestStream word) word := by
  intro packet v hin
  obtain ⟨p, reads, hrun⟩ := (requestFor_requestStream hlen hin).receive packet hnul
    (Nat.le_trans hlen.le (by decide))
  exact ⟨p, _, hrun⟩

theorem LooksUp.unique {stream word' : List UInt8} (h : LooksUp stream word)
    (h' : LooksUp stream word') : word = word' := by
  obtain ⟨p, hp⟩ : ∃ p : Packet, p.data = List.replicate (DYN_SIZE + 1) 0 :=
    ⟨⟨_, List.length_replicate⟩, rfl⟩
  obtain ⟨_, _, hrun⟩ := h p (.receiving stream) rfl
  obtain ⟨_, _, hrun'⟩ := h' p (.receiving stream) rfl
  exact Option.some.inj (Prod.mk.inj (Except.ok.inj (hrun.symm.trans hrun'))).1

/-- What goes out for a word that is too long: a request for the empty word. -/
theorem looksUp_longWord (hlen : MAX_SIZE ≤ word.length) (hs : c.Sends) (hout : c.outgoing = []) :
    LooksUp (sendRequest1 word c).outgoing [] := by
  obtain ⟨writes, hsend⟩ := sendRequest1_spec word hs
  rw [hsend, hout, List.nil_append, sent_of_le hlen]
  exact looksUp_requestStream (by decide) List.not_mem_nil

/-- Either client can ask for exactly the words that are shorter than `MAX_SIZE`; for a longer
word both ask for the empty one. -/
theorem looksUp_iff (hnul : 0 ∉ word) :
    (∀ c : Socket, c.Sends → c.outgoing = [] →
      LooksUp (sendRequest1 word c).outgoing word ∧
        ∀ packet, ∃ c', sendRequest2 packet word c = .ok c' ∧ LooksUp c'.outgoing word) ↔
      word.length < MAX_SIZE := by
  constructor
  · intro h
    by_contra hlt
    obtain ⟨c, hc⟩ : ∃ c, c = Socket.receiving [] := ⟨_, rfl⟩
    have hs : c.Sends := by
      rw [hc]
      exact fun _ => Option.some_ne_none _
    have hout : c.outgoing = [] := by rw [hc]; rfl
    obtain ⟨h₁, -⟩ := h c hs hout
    have hnil := h₁.unique (looksUp_longWord (Nat.le_of_not_lt hlt) hs hout)
    rw [hnil] at hlt
    exact hlt (by decide)
  · intro hlt c hs hout
    have hlook := looksUp_requestStream hlt hnul
    constructor
    · obtain ⟨writes, hsend⟩ := sendRequest1_spec word hs
      rw [hsend, hout, List.nil_append, sent_of_lt hlt]
      exact hlook
    · intro packet
      obtain ⟨writes, hsend⟩ := sendRequest2_spec packet word hs
      refine ⟨_, hsend, ?_⟩
      rw [hout, List.nil_append, sent_of_lt hlt]
      exact hlook

/-- For the word `search`. -/
theorem looksUp_iff_search :
    (∀ c : Socket, c.Sends → c.outgoing = [] →
      LooksUp (sendRequest1 [115, 101, 97, 114, 99, 104] c).outgoing [115, 101, 97, 114, 99, 104] ∧
        ∀ packet, ∃ c', sendRequest2 packet [115, 101, 97, 114, 99, 104] c = .ok c' ∧
          LooksUp c'.outgoing [115, 101, 97, 114, 99, 104]) ↔
      [(115 : UInt8), 101, 97, 114, 99, 104].length < MAX_SIZE :=
  looksUp_iff (by decide)

/-- The server holds a word of 100 letters, and no client can ask for it. -/
theorem longWord_lost :
    (∃ b, readDir (lineEnv (List.replicate 100 97)) [100] [fileEntry] = .ok b ∧
      b.index.find (List.replicate 100 97) = .ok (some 0)) ∧
    ∀ c : Socket, c.Sends → c.outgoing = [] →
      ¬ LooksUp (sendRequest1 (List.replicate 100 97) c).outgoing (List.replicate 100 97) ∧
      ∀ packet c', sendRequest2 packet (List.replicate 100 97) c = .ok c' →
        ¬ LooksUp c'.outgoing (List.replicate 100 97) := by
  have hall : ∀ b ∈ List.replicate 100 (97 : UInt8), isalpha b := fun b hb =>
    List.eq_of_mem_replicate hb ▸ rfl
  have hnul : 0 ∉ List.replicate 100 (97 : UInt8) := fun h => absurd (hall 0 h) (by decide)
  have hlen : (List.replicate 100 (97 : UInt8)).length = 100 := List.length_replicate
  have hempty : LooksUp (requestStream []) [] := looksUp_requestStream (by decide) List.not_mem_nil
  have hne : ([] : List UInt8) ≠ List.replicate 100 97 := fun h => by
    rw [← h] at hlen
    cases hlen
  constructor
  · obtain ⟨fileList, hboot⟩ := readDir_word _ hall hne.symm (by rw [hlen]; decide)
    exact ⟨_, hboot, find_first _ hnul (by rw [hlen]; decide)⟩
  · intro c hs hout
    constructor
    · intro h
      exact hne ((looksUp_longWord hlen.ge hs hout).unique h)
    · intro packet c' hsend h
      obtain ⟨writes, hsend'⟩ := sendRequest2_spec packet (List.replicate 100 97) hs
      obtain rfl := Except.ok.inj (hsend'.symm.trans hsend)
      rw [hout, List.nil_append, sent_of_le hlen.ge] at h
      exact hne (hempty.unique h)

end Limits

end SearchEngine.Client
