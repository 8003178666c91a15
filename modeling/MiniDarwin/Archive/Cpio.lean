import MiniDarwin.Archive.Basic
import MiniDarwin.Data.Search

/-!
Payload and Scripts archives (`cpio.c`).

Decompression is `inflate_limited ()`, a parameter here: it is asked for
archives that start like gzip and for no others.
-/

namespace MiniDarwin.Archive

open Posix (Bytes)

/-- One filesystem object. The path is relative to the root and normalized; the root itself is the
empty path. -/
structure Entry where
  path : Bytes
  mode : UInt16
  uid : UInt32
  gid : UInt32
  mtime : Int64
  data : Bytes := []
  link : Option Bytes := none
  deriving DecidableEq

/-- `S_IFMT`, `S_IFREG`, `S_IFDIR`, `S_IFLNK` -/
def ifmt : Nat := 0o170000
def ifreg : Nat := 0o100000
def ifdir : Nat := 0o040000
def iflnk : Nat := 0o120000

/-- `S_ISDIR ()` -/
def Entry.isDir (e : Entry) : Bool := e.mode.toNat &&& ifmt = ifdir

/-! ### Headers -/

def headerField (b : Bytes) (start n base : Nat) : Result Nat := do
  dieIf (n ≥ 24) "CPIO header field too long"
  let buf ← slice b start n
  parseUint (cstr buf) base

structure Header where
  mode : Nat
  uid : Nat
  gid : Nat
  nlink : Nat
  mtime : Nat
  namesize : Nat
  filesize : Nat
  check : Nat
  headerLen : Nat
  /-- newc/crc pad the name and data to 4 bytes -/
  aligned : Bool
  hasCrc : Bool

def readOdc (b : Bytes) (h : Nat) : Result Header := do
  let mode ← headerField b (h + 18) 6 8
  let uid ← headerField b (h + 24) 6 8
  let gid ← headerField b (h + 30) 6 8
  let nlink ← headerField b (h + 36) 6 8
  let mtime ← headerField b (h + 48) 11 8
  let namesize ← headerField b (h + 59) 6 8
  let filesize ← headerField b (h + 65) 11 8
  return ⟨mode, uid, gid, nlink, mtime, namesize, filesize, 0, 76, false, false⟩

def readNewc (b : Bytes) (h : Nat) (crc : Bool) : Result Header := do
  let mode ← headerField b (h + 14) 8 16
  let uid ← headerField b (h + 22) 8 16
  let gid ← headerField b (h + 30) 8 16
  let nlink ← headerField b (h + 38) 8 16
  let mtime ← headerField b (h + 46) 8 16
  let filesize ← headerField b (h + 54) 8 16
  let namesize ← headerField b (h + 94) 8 16
  let check ← headerField b (h + 102) 8 16
  return ⟨mode, uid, gid, nlink, mtime, namesize, filesize, check, 110, true, crc⟩

def readHeader (b : Bytes) (h : Nat) : Result Header := do
  let avail ← minus b.length h
  dieIf (avail < 6) "truncated CPIO header"
  let magic ← slice b h 6
  dieIf (magic ≠ lit "070707" ∧ magic ≠ lit "070701" ∧ magic ≠ lit "070702")
    "unsupported payload format or compression"
  dieIf (avail < if magic = lit "070707" then 76 else 110) "truncated CPIO header"
  if magic = lit "070707" then readOdc b h else readNewc b h (magic = lit "070702")

/-! ### Entries -/

/-- Is any component `__MACOSX` or an AppleDouble `._name`? -/
def isAppledouble (path : Bytes) : Bool :=
  (components path).any fun c => lit "._" <+: c ∨ c = lit "__MACOSX"

/-- The loop of `symlink_check_lexical ()` over the components that `strtok_r ()` returns. -/
def lexicalFrom (path target : Bytes) : List Bytes → (depth : Int) → Result Unit
  | [], _ => .ok ()
  | c :: rest, depth =>
      if c = [46, 46] then do
        dieIf (depth - 1 < 0) s!"symlink escapes root: {text path} -> {text target}"
        lexicalFrom path target rest (depth - 1)
      else if c ≠ [46] then lexicalFrom path target rest (depth + 1)
      else lexicalFrom path target rest depth

def symlinkCheckLexical (path target : Bytes) : Result Unit := do
  dieIf (target = [] ∨ target.head? = some 47) s!"absolute or empty symlink: {text path}"
  lexicalFrom path target ((components target).filter (· ≠ [])) (path.count 47)

/-- The sum of the crc format, in 32 bits. -/
def checksum (data : Bytes) : Nat := data.foldl (fun sum c => (sum + c.toNat) % 2 ^ 32) 0

def makeEntry (h : Header) (name data : Bytes) : Result Entry := do
  let path ← pathNormalize name false
  let type := h.mode % 2 ^ 16 &&& ifmt
  dieIf (isAppledouble path) s!"AppleDouble metadata is not supported: {text path}"
  dieIf (type ≠ ifreg ∧ type ≠ ifdir ∧ type ≠ iflnk) s!"unsupported file type: {text path}"
  dieIf (path = [] ∧ type ≠ ifdir) "payload root is not a directory"
  dieIf (h.mode > 0o177777 ∨ h.uid > 2 ^ 32 - 1 ∨ h.gid > 2 ^ 32 - 1 ∨ h.mtime > 2 ^ 63 - 1)
    s!"CPIO metadata out of range: {text path}"
  dieIf (type = ifreg ∧ h.nlink > 1) s!"hardlinks are not supported: {text path}"
  dieIf (h.mode &&& 0o6000 ≠ 0) s!"set-id payloads are not supported: {text path}"
  dieIf (type = ifdir ∧ data.length ≠ 0) s!"directory with data: {text path}"
  dieIf (h.hasCrc ∧ checksum data ≠ h.check) s!"CPIO checksum mismatch: {text path}"
  dieIf (type = iflnk ∧ (data.length = 0 ∨ 0 ∈ data ∨ data.length ≥ pathMax))
    s!"invalid symlink: {text path}"
  if type = iflnk then symlinkCheckLexical path data else pure ()
  return { path
           mode := UInt16.ofNat h.mode
           uid := UInt32.ofNat h.uid
           gid := UInt32.ofNat h.gid
           mtime := Int64.ofNat h.mtime
           data := if type = ifreg then data else []
           link := if type = iflnk then some data else none }

/-! ### Lists of entries -/

/-- The slash sorts first. -/
def slashFirst (path : Bytes) : Bytes := path.map fun c => if c = 47 then 1 else c

def pathCompare (a b : Bytes) : Ordering := compare (slashFirst a) (slashFirst b)

/-- The paths above a path: what stands before each of its slashes. -/
def parentsFrom (done : Bytes) : Bytes → List Bytes
  | [] => []
  | c :: rest =>
      if c = 47 then done :: parentsFrom (done ++ [c]) rest else parentsFrom (done ++ [c]) rest

/-- The entry that `bsearch ()` finds for a path. -/
def findPath (sorted : List Entry) (path : Bytes) : Option Entry :=
  Data.bsearch (fun e => pathCompare path e.path) sorted

def entriesCheckPaths (list : List Entry) (allowRepeatedDirectories : Bool) : Result Unit := do
  let sorted := list.insertionSort fun a b => pathCompare a.path b.path ≠ .gt
  (sorted.zip sorted.tail).forM fun x =>
    dieIf (x.1.path = x.2.path ∧ ¬ (allowRepeatedDirectories ∧ x.1.isDir ∧ x.2.isDir))
      s!"duplicate path in payload: {text x.2.path}"
  sorted.forM fun e =>
    (parentsFrom [] e.path).forM fun parent =>
      dieIf ((findPath sorted parent).any fun p => !p.isDir)
        s!"payload entry beneath a non-directory: {text e.path}"

/-! ### Archives -/

/-- `(n + 3) & ~3`, where names and data are aligned. -/
def align (aligned : Bool) (n : Nat) : Result Nat :=
  if aligned then do return (← plus n 3) / 4 * 4 else pure n

/-- What one round of the loop reads: where the next one begins, and the entry, unless this
was the trailer. -/
structure Record where
  next : Nat
  entry : Option Entry

def readRecord (b : Bytes) (pos : Nat) : Result Record := do
  let h ← readHeader b pos
  let nameAt ← plus pos h.headerLen
  let room ← minus b.length nameAt
  dieIf (h.namesize = 0 ∨ h.namesize ≥ pathMax ∨ h.namesize > room) "CPIO name out of bounds"
  let name ← slice b nameAt h.namesize
  dieIf (name.getLast? ≠ some 0 ∨ 0 ∈ name.dropLast) "invalid CPIO name"
  let name := name.dropLast
  let nameEnd ← plus nameAt h.namesize
  let dataAt ← align h.aligned nameEnd
  dieIf (dataAt > b.length) "CPIO data out of bounds"
  let room ← minus b.length dataAt
  dieIf (h.filesize > room) "CPIO data out of bounds"
  let dataEnd ← plus dataAt h.filesize
  let next ← align h.aligned dataEnd
  dieIf (next > b.length) "truncated CPIO padding"
  if name = lit "TRAILER!!!" then do
    dieIf (h.filesize ≠ 0) "invalid CPIO trailer"
    return ⟨next, none⟩
  else do
    let data ← slice b dataAt h.filesize
    return ⟨next, some (← makeEntry h name data)⟩

def entriesAppend (list : List Entry) (e : Entry) : Result (List Entry) := do
  dieIf (list.length ≥ limitEntries) "entry limit"
  return list ++ [e]

/-- The loop over the records, with the rounds that are left: every record has a length, so as
many rounds as there are bytes are enough. -/
def readRecords (b : Bytes) : (rounds pos : Nat) → List Entry → Result (List Entry × Nat)
  | 0, _, _ => .error .fault
  | rounds + 1, pos, out =>
      if pos < b.length then do
        let r ← readRecord b pos
        match r.entry with
        | none => return (out, r.next)
        | some e => readRecords b rounds r.next (← entriesAppend out e)
      else die "missing CPIO trailer"

def isGzip (b : Bytes) : Bool := [0x1f, 0x8b] <+: b

/-- `gunzip` is `inflate_limited (archive, 31, 0, LIMIT_MEMBER)`. -/
def decompressed (gunzip : Buffer → Result Buffer) (archive : Buffer) : Result Buffer :=
  if isGzip archive.data then gunzip archive else .ok archive

def cpioParse (gunzip : Buffer → Result Buffer) (archive : Buffer) (out : List Entry) :
    Result (List Entry) := do
  let b ← decompressed gunzip archive
  let (entries, pos) ← readRecords b.data (b.data.length + 1) 0 out
  dieIf (∃ c ∈ b.data.drop pos, c ≠ 0) "data after CPIO trailer"
  entriesCheckPaths entries false
  return entries

end MiniDarwin.Archive
