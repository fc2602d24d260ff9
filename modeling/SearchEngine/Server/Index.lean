import SearchEngine.Server.Helper

/-!
# `server.c`: the inverted index

The bootstrapping of the server: the files of a directory are read line by line, and each
line is cut into words in place, by cursors into its buffer. `Env` is what the operating
system gives: the contents of the files, and what each `readdir` returns and leaves in the
memory behind the entries.
-/

namespace SearchEngine.Server

open Memory

abbrev HASH_MULTIPLIER : Nat := 65599
abbrev DOCSIZE : Nat := 10
/-- `DT_REG` -/
abbrev DT_REG : Nat := 8

/-- `hash_function` -/
def hashFunction (key : List UInt8) : Nat :=
  key.foldl (fun hash b => CInt.uint32 (hash * HASH_MULTIPLIER + CInt.uint32 (charValue b))) 0

/-- The index: the words created so far, and `Dynlist`, whose items are their addresses. -/
structure Index where
  words : List Word
  dynlist : DynList

/-- One round of the loop of `disperse_keys`; `lastIndex` is its local variable. -/
def disperseKey (words : List Word) (prevLen currLen lastIndex : Nat) (l : DynList)
    (index : Nat) : Except Fault DynList :=
  match l.dynList[index]? with
  | none => .error .outOfBounds
  | some none => .ok l
  | some (some item) =>
    match words[item]? with
    | none => .error .outOfBounds
    | some word =>
      if prevLen ≤ word.hash then
        let k := firstEmpty l.dynList (word.hash % currLen)
        if k < currLen then
          .ok {
            dynList := l.dynList.set k (some item)
            lastIndex := if lastIndex < k then k + 1 else lastIndex }
        else .ok l
      else .ok l

/-- `disperse_keys` -/
def disperseKeys (words : List Word) (l : DynList) : Except Fault DynList :=
  let currLen := l.physLen
  let prevLen := l.physLen / 2
  (List.range' prevLen (currLen - prevLen)).foldlM
    (disperseKey words prevLen currLen l.lastIndex) l

/-- The postings of a word after the line `lineNum` of document `docId`; the flag is false
when `insert` reports a failure. -/
def addPosting (env : Alloc) (list : List LinkedList) (docId lineNum : Nat) :
    Except Fault (Bool × List LinkedList) :=
  match lookupLink list docId with
  | some i =>
    match list[i]? with
    | none => .error .outOfBounds
    | some linklist => do
      let (ret, linklist) ← insertLink env linklist lineNum linklist.lastIndex
      .ok (ret ≠ 0, list.set i linklist)
  | none => do
    let doc := createLink docId
    let (ret, doc) ← insertLink env doc lineNum doc.lastIndex
    if ret = 0 then .ok (false, list) else .ok (true, doc :: list)

/-- `word->str`: `tc_malloc` of `str_len + 1` bytes, and `StrCopy` of the word to them. -/
def storeWord (env : Alloc) (start : List UInt8) (strLen : Nat) :
    Except Fault (Block UInt8 (strLen + 1)) := do
  let (_, str) ← strCopy (env.malloc (strLen + 1)) 0 start MAX_WORD_LEN
  .ok str

/-- The body of the loop of `parse`, for the word at `start`; the flag is false when `parse`
returns `-1`. -/
def parseWord (env : Alloc) (docId lineNum : Nat) (ix : Index) (start : List UInt8) :
    Except Fault (Bool × Index) := do
  let strLen := strGetLength start MAX_WORD_LEN
  let tmp := hashFunction start
  let hash := tmp % ix.dynlist.physLen
  match ← lookup ix.words ix.dynlist start hash with
  | some item =>
    match ix.words[item]? with
    | none => .error .outOfBounds
    | some word => do
      let (ok, list) ← addPosting env word.list docId lineNum
      .ok (ok, { ix with words := ix.words.set item { word with list := list } })
  | none => do
    let str ← storeWord env start strLen
    let str ← cstring str.data
    let doc := createLink docId
    let (_, doc) ← insertLink env doc lineNum doc.lastIndex
    let words := ix.words ++ [⟨tmp, str, [doc]⟩]
    let (ret, dynlist) := insertDyn env ix.dynlist ix.words.length hash
    if ret = EXTEND then do
      let dynlist ← disperseKeys words dynlist
      .ok (true, ⟨words, dynlist⟩)
    else .ok (true, ⟨words, dynlist⟩)

/-- Where the cursors of `parse` are in the line buffer. -/
structure Cursor where
  buf : List UInt8
  ptr : Nat
  index : Nat

/-- The word that the loop of `parse` cuts off next, or `none` if `parse` returns. -/
def nextWord (maxLen : Nat) (c : Cursor) : Except Fault (Option (List UInt8 × Cursor)) := do
  if c.index < maxLen then
    let b ← byteAt c.buf c.ptr
    if b = 0 then .ok none
    else
      let (start, index) ← strStrip c.buf c.ptr (subSize maxLen c.index) c.index
      let b ← byteAt c.buf start
      if b = 0 then .ok none
      else
        let len := subSize maxLen index
        let (ptr, index) ← strTok c.buf start len index
        let b ← byteAt c.buf ptr
        let (buf, ptr, index) ←
          if b ≠ 0 then strSplit c.buf ptr len index else .ok (c.buf, ptr, index)
        let word ← cstring (buf.drop start)
        .ok (some (word, ⟨buf, ptr, index⟩))
  else .ok none

/-- The loop of `parse`, for at most `n` rounds; it leaves the line buffer cut into words. -/
def parseLoop (env : Alloc) (maxLen docId lineNum : Nat) :
    Nat → Cursor → Index → Except Fault (Int × Index × List UInt8)
  | 0, _, _ => .error .endless
  | n + 1, c, ix => do
    match ← nextWord maxLen c with
    | none => .ok (1, ix, c.buf)
    | some (start, c) =>
      match ← parseWord env docId lineNum ix start with
      | (false, ix) => .ok (-1, ix, c.buf)
      | (true, ix) => parseLoop env maxLen docId lineNum n c ix

/-- `parse`. Every round but the last advances the cursor. -/
def parse (env : Alloc) (ix : Index) (buf : List UInt8) (maxLen docId lineNum : Nat) :
    Except Fault (Int × Index × List UInt8) :=
  parseLoop env maxLen docId lineNum (maxLen + 2) ⟨buf, 0, 0⟩ ix

/-! ## Files -/

/-- The operating system: `tc_realloc`, and the contents of the files. -/
structure Env extends Alloc where
  fopen : List UInt8 → Option (List UInt8)

/-- The bytes that `fgets` takes from a file when it may take `n`, and the rest. -/
def takeLine : Nat → List UInt8 → List UInt8 × List UInt8
  | 0, rest => ([], rest)
  | _, [] => ([], [])
  | n + 1, b :: rest =>
    if b = 10 then ([b], rest)
    else
      let (line, rest) := takeLine n rest
      (b :: line, rest)

/-- What `tokenizer` calls for a line, as `parse` is called: with the line buffer, `DYN_SIZE`,
the number of the document and that of the line. It works on a state of its own. -/
abbrev LineParser (σ : Type) : Type :=
  σ → List UInt8 → Nat → Nat → Nat → Except Fault (Int × σ × List UInt8)

/-- The loop of `tokenizer`, for at most `n` rounds; `buf` is its line buffer, and `rest`
what is left of the file. (`feof` only saves the round in which `fgets` would return
`NULL`.) -/
def readLinesWith {σ : Type} (parse : LineParser σ) (docId : Nat) :
    Nat → List UInt8 → Nat → List UInt8 → σ → Except Fault σ
  | 0, _, _, _, _ => .error .endless
  | n + 1, buf, lineNum, rest, s =>
    if rest = [] then .ok s
    else do
      let (line, rest) := takeLine (DYN_SIZE - 1) rest
      let buf := line ++ 0 :: buf.drop (line.length + 1)
      let (_, s, buf) ← parse s buf DYN_SIZE docId lineNum
      readLinesWith parse docId n buf (lineNum + 1) rest s

/-- `tokenizer`, whatever it calls for a line; a file that cannot be opened is passed over. -/
def tokenizerWith {σ : Type} (parse : LineParser σ) (env : Env) (s : σ)
    (filename absPath : List UInt8) (docId : Nat) : Except Fault σ := do
  let fileLen := MAX_WORD_LEN + MAX_PATH_LEN + 1
  let fileBuf : Block UInt8 (MAX_WORD_LEN + MAX_PATH_LEN + 1) :=
    ⟨List.replicate (MAX_WORD_LEN + MAX_PATH_LEN + 1) 0, List.length_replicate⟩
  let (_, fileBuf) ← strCopy fileBuf 0 absPath fileLen
  let (_, fileBuf) ← strConcat fileBuf [47] fileLen
  let (_, fileBuf) ← strConcat fileBuf filename fileLen
  let path ← cstring fileBuf.data
  match env.fopen path with
  | none => .ok s
  | some file =>
    readLinesWith parse docId (file.length + 1) (List.replicate (DYN_SIZE + 1) 0) 1 file s

/-- The loop of `tokenizer`. -/
def readLines (env : Alloc) (docId n : Nat) (buf : List UInt8) (lineNum : Nat)
    (rest : List UInt8) (ix : Index) : Except Fault Index :=
  readLinesWith (parse env) docId n buf lineNum rest ix

/-- `tokenizer` -/
def tokenizer (env : Env) (ix : Index) (filename absPath : List UInt8) (docId : Nat) :
    Except Fault Index :=
  tokenizerWith (parse env.toAlloc) env ix filename absPath docId

/-- What a call of `readdir` gives: where the entry is, its type, and the strings that are in
the memory of the directory stream after the call. -/
structure DirEntry where
  name : Nat
  dType : Nat
  mem : Nat → List UInt8

/-- The state of `read_dir`. -/
structure Boot where
  index : Index
  fileList : DynList
  docId : Nat

/-- One round of the loop of `read_dir`. -/
def readEntry (env : Env) (absPath : List UInt8) (b : Boot) (entry : DirEntry) :
    Except Fault Boot :=
  let name := entry.mem entry.name
  if entry.dType ≠ DT_REG ∨ strCompare name [46] MAX_WORD_LEN = 0 ∨
      strCompare name [46, 46] MAX_WORD_LEN = 0 then .ok b
  else do
    let (_, fileList) := insertDyn env.toAlloc b.fileList entry.name b.fileList.lastIndex
    let index ← tokenizer env b.index name absPath b.docId
    .ok ⟨index, fileList, b.docId + 1⟩

/-- The tables with which `main` calls `read_dir`. -/
def Boot.initial : Boot := ⟨⟨[], createList DYN_SIZE⟩, createList DOCSIZE, 0⟩

/-- `read_dir` -/
def readDir (env : Env) (absPath : List UInt8) (entries : List DirEntry) : Except Fault Boot :=
  entries.foldlM (readEntry env absPath) Boot.initial

end SearchEngine.Server
