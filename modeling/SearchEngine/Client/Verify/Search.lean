import SearchEngine.Client.Verify.Framing
import SearchEngine.Server.Verify.Listing
import SearchEngine.Server.Verify.Service

/-!
# A search, from the files to the client

The server indexes the files of a directory, and serves any number of clients at the same time.
Whatever its threads do in between, a client that has asked for a word and whose connection has
been closed is shown the listing of that word in the files (`search_shown`).
-/

namespace SearchEngine.Client

open Memory Server Outcome

section Answer

variable {files names : List (List UInt8)} {t : Tables} {word : List UInt8} {v : Socket}
  {packet : Packet} {served : Served}

/-- The other side asks for a word. -/
structure Asks (word : List UInt8) (v : Socket) : Prop where
  short : word.length < MAX_SIZE
  chars : 0 ∉ word
  incoming : v.incoming = (requestStream word).map some
  outgoing : v.outgoing = []
  sends : v.Sends

/-- The strings of `file_list` are the names of the files. -/
structure Names (names files : List (List UInt8)) (t : Tables) : Prop where
  length : names.length = files.length
  name : ∀ d < files.length, t.name d = names.getD d []
  posted : ∀ w ∈ t.index.words, ∀ docs ∈ w.list, Posted t.fileList docs

/-- A job that comes to its end has looked its word up. -/
theorem Asks.lookup (h : Asks word v) (hrun : threadJob t packet v = .ok served) :
    ∃ o, lookup t.index.words t.index.dynlist word
      (hashFunction word % t.index.dynlist.physLen) = .ok o := by
  obtain ⟨p, reads, hrec⟩ := (requestFor_requestStream h.short h.incoming).receive packet
    h.chars (h.short.le.trans (by decide))
  rw [threadJob, hrec, ok_bind] at hrun
  obtain ⟨s, hans, -⟩ := bind_eq_ok hrun
  obtain ⟨o, ho, -⟩ := bind_eq_ok hans
  exact ⟨o, ho⟩

/-- What the index of the files answers. -/
theorem answers_searched (h : Indexed (occurrencesFrom 0 files) t.index) (hn : Names names files t)
    (hnul : 0 ∉ word) (hlook : ∃ o, Server.lookup t.index.words t.index.dynlist word
      (hashFunction word % t.index.dynlist.physLen) = .ok o)
    (hsmall : ∀ payload, searched names files word = some payload → payload.length < BUFSIZE) :
    Answers t word (searched names files word) := by
  obtain ⟨o, ho⟩ := hlook
  cases o with
  | none =>
    rw [searched, if_pos (h.linesIn_eq_nil ho)]
    exact .unknown ho
  | some item =>
    obtain ⟨w, hw, rfl⟩ := h.found hnul ho
    obtain ⟨file, hfile, hne⟩ := exists_occurrence.mp (h.occurs item w hw)
    have hsome : searched names files w.str = some (listing names files w.str) :=
      if_neg fun hall => hne (hall file hfile)
    have htext := rendered_eq_listing hn.length hn.name (h.postings item w hw)
    have hle : (rendered t w).length ≤ DYN_SIZE := by
      rw [htext]
      exact (hsmall _ hsome).le
    rw [hsome, ← htext]
    refine .found ho hw fun packet => ?_
    obtain ⟨out, hrun, hout⟩ :=
      (render_spec packet (hn.posted w (List.mem_of_getElem? hw))).1 hle
    exact ⟨out.1, by rw [hrun, ← hout.len], hout.data⟩

/-- The connection of a client that has asked for the word: the answer is on it, and either client
recovers the listing from it. -/
structure Shown (names files : List (List UInt8)) (word : List UInt8) (v : Socket) : Prop where
  reply : v.outgoing = replyStream (searched names files word)
  client1 : ∀ (c : Socket) buf, c.Sends → c.outgoing = [] → c.incoming = v.outgoing.map some →
    ∃ reply buf' c', request1 word buf c = .ok (reply, buf', c') ∧
      c'.outgoing = requestStream word ∧ Received (searched names files word) reply buf'.data
  client2 : ∀ (c : Socket) packet buf, c.Sends → c.outgoing = [] →
    c.incoming = v.outgoing.map some → cstring buf.data = .ok word →
    ∃ reply buf' c', request2 packet buf c = .ok (reply, buf', c') ∧
      c'.outgoing = requestStream word ∧ Received (searched names files word) reply buf'.data

/-- A job that comes to its end has shown the listing. -/
theorem Asks.shown (h : Asks word v) (hrun : threadJob t packet v = .ok served)
    (hix : Indexed (occurrencesFrom 0 files) t.index) (hn : Names names files t)
    (hsmall : ∀ payload, searched names files word = some payload → payload.length < BUFSIZE) :
    Shown names files word served.socket := by
  have hans := answers_searched hix hn h.chars (h.lookup hrun) hsmall
  obtain ⟨v', hspec, -, hout⟩ :=
    threadJob_spec packet hans h.short h.chars hsmall h.sends h.incoming
  obtain rfl := Except.ok.inj (hrun.symm.trans hspec)
  have hreply : v'.outgoing = replyStream (searched names files word) := by
    rw [hout, h.outgoing, List.nil_append]
  refine ⟨hreply, fun c buf hc hcout hcin => ?_, fun c packet buf hc hcout hcin hword => ?_⟩
  · obtain ⟨reply, buf', c', hreq, hsent, -, hrec⟩ :=
      request1_spec buf h.short hsmall hc (hreply ▸ hcin)
    exact ⟨reply, buf', c', hreq, by rw [hsent, hcout, List.nil_append], hrec⟩
  · obtain ⟨reply, buf', c', hreq, hsent, -, hrec⟩ :=
      request2_spec packet hword h.short hsmall hc (hreply ▸ hcin)
    exact ⟨reply, buf', c', hreq, by rw [hsent, hcout, List.nil_append], hrec⟩

end Answer

section Search

variable {env : Env} {absPath : List UInt8} {entries : List DirEntry} {files : List (List UInt8)}

/-- The names of the files of the directory. -/
def namesOf (entries : List DirEntry) : List (List UInt8) :=
  (entries.filter (·.Listed)).map fun e => e.mem e.name

/-- The tables of the server after its bootstrapping, with `mem` in the memory of the directory
stream. -/
def tablesOf (b : Boot) (mem : Nat → List UInt8) : Tables := ⟨b.index, b.fileList, mem⟩

/-- `file_list` has the names, as long as the memory of the directory stream keeps them. -/
theorem names_of_boot {b : Boot} {mem : Nat → List UInt8} (henv : env.Keeps)
    (hdir : Directory env absPath entries files) (h : readDir env absPath entries = .ok b)
    (hmem : ∀ e ∈ entries, e.Listed → mem e.name = e.mem e.name) :
    Names (namesOf entries) files (tablesOf b mem) := by
  have hinv := readDir_inv henv h
  have hlen : (entries.filter (·.Listed)).length = files.length := by
    have hopened := congrArg List.length hdir.opened
    rwa [List.length_map, List.length_map] at hopened
  refine ⟨by rw [namesOf, List.length_map, hlen], fun d hd => ?_, fun w hw => hinv.posted hw⟩
  rw [← hlen] at hd
  have hslot := hinv.files.getElem? (k := d) (by rw [List.length_map]; exact hd)
  rw [List.getElem?_map, List.getElem?_eq_getElem hd] at hslot
  have hname : (tablesOf b mem).name d = mem (entries.filter (·.Listed))[d].name := by
    simp only [Tables.name, tablesOf, hslot, Option.map_some]
  obtain ⟨hentry, hlisted⟩ := List.mem_filter.mp (List.getElem_mem hd)
  rw [hname, hmem _ hentry (of_decide_eq_true hlisted), namesOf, List.getD_eq_getElem?_getD,
    List.getElem?_map, List.getElem?_eq_getElem hd]
  rfl

/-- Every search shows the listing of its word in the files, whatever the threads of the server do
in between. -/
theorem search_shown (henv : env.Keeps) (hdir : Directory env absPath entries files)
    (hlines : ReadsLines files)
    (hwords : EachOccurrence env.toAlloc Placeable .empty (occurrencesFrom 0 files)) :
    ∃ b, readDir env absPath entries = .ok b ∧
      ∀ (mem : Nat → List UInt8) (n : Nat) (c : EventLoop.Setup) (w : Service.World)
        (s : Service.State n), (∀ e ∈ entries, e.Listed → mem e.name = e.mem e.name) →
        w.tables = tablesOf b mem → Service.Reachable c w s →
        ∀ a ∈ s.loop.closes, ∃ k, a.job.file = some (.conn k) ∧
          ∀ word, Asks word (w.client k) → (∀ payload,
            searched (namesOf entries) files word = some payload → payload.length < BUFSIZE) →
            Shown (namesOf entries) files word (s.sockets k) := by
  obtain ⟨b, hboot, hix⟩ := boot_indexed henv hdir hlines hwords
  refine ⟨b, hboot, fun mem n c w s hmem htables hr a ha => ?_⟩
  obtain ⟨hl, h⟩ := Service.reachable_serviceInv hr
  have hmade := hl.jobs.taken.2 a.job (List.mem_map_of_mem (hl.jobs.ran a ha))
  obtain ⟨k, -, hfile⟩ := hl.jobs.conn a.job hmade
  obtain ⟨query, hserved⟩ := h.served a ha k hfile
  refine ⟨k, hfile, fun word hasks hsmall => ?_⟩
  rw [htables] at hserved
  exact hasks.shown hserved hix (names_of_boot henv hdir hboot hmem) hsmall

/-- A directory with one file, in which one word is. -/
theorem oneFile_directory : Directory (lineEnv [97]) [100] [fileEntry] [[97]] ∧
    ReadsLines [[97]] ∧
    EachOccurrence (lineEnv [97]).toAlloc Placeable .empty (occurrencesFrom 0 [[97]]) := by
  have hoccurs : occurrencesFrom 0 [[97]] = [⟨[97], 0, 1⟩] := by decide
  have hfile : ∀ file ∈ [([97] : List UInt8)], 3 * file.length ≤ DYN_SIZE := by decide
  refine ⟨⟨by decide, by decide, by decide, rfl, by decide⟩,
    ⟨fun file hmem => ?_, fun file hmem => ?_⟩, ?_⟩
  · refine shortLines_of_le ?_
    have hle := hfile file hmem
    simp only [DYN_SIZE] at hle ⊢
    omega
  · exact linesFit_short (hfile file hmem)
  · rw [hoccurs]
    refine ⟨⟨by decide, ⟨_, Nat.le_refl _, .inl ?_⟩, fun _ hgrow => ?_⟩, fun _ _ => trivial⟩
    · rw [Index.empty_home]
      exact Index.empty_slot (Nat.mod_lt _ (by decide))
    · rw [Index.empty_physLen] at hgrow
      exact absurd hgrow (by decide)

theorem asks_receiving : Asks [97] (.receiving (requestStream [97])) where
  short := by decide
  chars := by decide
  incoming := rfl
  outgoing := rfl
  sends _ := Option.some_ne_none _

/-- The one client asks for the word. -/
theorem search_shown_oneFile : ∃ (w : Service.World) (s : Service.State 1),
    Service.Reachable EventLoop.threeOpen w s ∧ s.loop.closes ≠ [] ∧
      ∀ a ∈ s.loop.closes, ∃ k, a.job.file = some (.conn k) ∧
        Shown (namesOf [fileEntry]) [[97]] [97] (s.sockets k) := by
  obtain ⟨hdir, hlines, hwords⟩ := oneFile_directory
  obtain ⟨b, hboot, hix⟩ := boot_indexed Alloc.exact_keeps hdir hlines hwords
  obtain ⟨b', hboot', hall⟩ := search_shown Alloc.exact_keeps hdir hlines hwords
  obtain rfl := Except.ok.inj (hboot.symm.trans hboot')
  have hmem : ∀ e ∈ [fileEntry], e.Listed → fileEntry.mem e.name = e.mem e.name := by
    intro e he _
    rw [List.mem_singleton.mp he]
  have hsmall : ∀ payload, searched (namesOf [fileEntry]) [[97]] [97] = some payload →
      payload.length < BUFSIZE := by
    have hlen : ((searched (namesOf [fileEntry]) [[97]] [97]).map List.length).all
      (· < BUFSIZE) := by
      decide
    intro payload hp
    rw [hp] at hlen
    simpa using hlen
  have hlook : ∃ o, lookup b.index.words b.index.dynlist [97]
      (hashFunction [97] % b.index.dynlist.physLen) = .ok o := by
    obtain ⟨item, word, hword, hstr⟩ := hix.known ⟨[97], 0, 1⟩ (by decide)
    have hfind := hix.find hword
    rw [show word.str = [97] from hstr] at hfind
    exact ⟨_, hfind⟩
  have hchars : (0 : UInt8) ∉ [97] := by decide
  have hans := answers_searched (t := tablesOf b fileEntry.mem) hix
    (names_of_boot Alloc.exact_keeps hdir hboot hmem) hchars hlook hsmall
  obtain ⟨v, hok, -⟩ := threadJob_spec
    ⟨List.replicate (DYN_SIZE + 1) 0, List.length_replicate⟩ hans asks_receiving.short
    asks_receiving.chars hsmall asks_receiving.sends asks_receiving.incoming
  obtain ⟨s, hr, hcl, -⟩ := Service.oneClient_served
    (w := ⟨tablesOf b fileEntry.mem, fun _ => .receiving (requestStream [97]),
      fun _ => ⟨List.replicate (DYN_SIZE + 1) 0, List.length_replicate⟩⟩) hok
  refine ⟨_, s, hr, fun hnil => ?_, fun a ha => ?_⟩
  · rw [hnil] at hcl
    cases hcl
  · obtain ⟨k, hfile, hshown⟩ := hall fileEntry.mem 1 _ _ s hmem rfl hr a ha
    exact ⟨k, hfile, hshown [97] asks_receiving hsmall⟩

end Search

end SearchEngine.Client
