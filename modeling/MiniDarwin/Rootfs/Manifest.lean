import MiniDarwin.Rootfs.Schema
import MiniDarwin.Data.Forest

/-!
Manifests: how a tree is scanned into entries, how the entries are given
their digests, and how a list of them is checked.

A tree is what `lstat ()` shows of it, a file's content being its size and
hash, and a directory lists its names in any order. SHA-256 is a parameter,
from the bytes that are hashed to their digest.
-/

namespace MiniDarwin.Rootfs

open Data

/-! ### Entries -/

/-- What an entry says besides its path. -/
inductive Body where
  | directory (mode : Text) (digest : Option Text)
  | file (mode : Text) (size : Nat) (sha256 : Text)
  | symlink (target : Text)
  deriving DecidableEq

structure Entry where
  path : Text
  body : Body
  deriving DecidableEq

/-- `None`, or a string. -/
def optional : Option Text → Value
  | none => null
  | some s => str s

/-- The mapping that `_entry ()` returns. -/
def Entry.value (e : Entry) : Value :=
  match e.body with
  | .directory mode digest =>
      .map [(lit "path", str e.path), (lit "type", str (lit "directory")), (lit "mode", str mode),
        (lit "digest", optional digest)]
  | .file mode size sha256 =>
      .map [(lit "path", str e.path), (lit "type", str (lit "file")), (lit "mode", str mode),
        (lit "size", .scalar (.int size)), (lit "sha256", str sha256)]
  | .symlink target =>
      .map [(lit "path", str e.path), (lit "type", str (lit "symlink")), (lit "target", str target)]

def Entry.isDirectory (e : Entry) : Bool :=
  match e.body with
  | .directory _ _ => true
  | _ => false

/-! ### Scanning -/

/-- What there is in a directory that is not a directory. -/
inductive Leaf where
  | file (mode size : Nat) (sha256 : Digest)
  | symlink (target : Text)
  | other

/-- What is beneath a directory. Files and directories have their permission bits. -/
abbrev Tree := Forest Text Leaf Nat

structure Problem where
  kind : Text
  path : Text
  detail : Text
  deriving DecidableEq

/-- Entries and problems. -/
abbrev Report := List Entry × List Problem

/-- `"%04o" % stat.S_IMODE (mode)` -/
def octal (mode : Nat) : Text := [mode / 512 % 8, mode / 64 % 8, mode / 8 % 8, mode % 8].map (48 + ·)

def fileMode (normalize : Bool) (mode : Nat) : Text :=
  if normalize then if mode &&& 0o111 ≠ 0 then lit "0755" else lit "0644" else octal mode

def directoryMode (normalize : Bool) (mode : Nat) : Text := if normalize then lit "0755" else octal mode

def scanLeaf (normalize : Bool) (path : Text) : Leaf → Report
  | .file mode size sha256 => ([⟨path, .file (fileMode normalize mode) size sha256.text⟩], [])
  | .symlink target => ([⟨path, .symlink target⟩], [])
  | .other => ([], [⟨lit "wrong-type", path, lit "not a file, directory or symlink"⟩])

/-- The path of a name in a directory. -/
def pathIn (guest name : Text) : Text := guest.rdropWhile (· = 47) ++ 47 :: name

/-- The reports on the names of a directory, as the names are sorted. -/
def inOrder (reports : List (Text × Report)) : Report :=
  ((byName reports).flatMap (·.2.1), (byName reports).flatMap (·.2.2))

def unprintable (path : Text) : Report := ([], [⟨lit "unexpected", path, lit "name is not printable ASCII"⟩])

/-- A round of the loop of `walk ()` for each name, in the order of the tree. -/
def reports (normalize : Bool) (guest : Text) : Tree → List (Text × Report)
  | .nil => []
  | .leaf name what rest =>
      let path := pathIn guest name
      (name, if isName name then scanLeaf normalize path what else unprintable path) ::
        reports normalize guest rest
  | .node name mode children rest =>
      let path := pathIn guest name
      let inside := inOrder (reports normalize path children)
      (name,
        if isName name then (⟨path, .directory (directoryMode normalize mode) none⟩ :: inside.1, inside.2)
        else unprintable path) ::
        reports normalize guest rest

/-- `scan_tree ()` -/
def scanTree (root : Tree) (normalize : Bool) : Report := inOrder (reports normalize (lit "/") root)

/-! ### Digests -/

section Merkle

variable (sha256 : Text → Digest)

/-- `text.encode ("ascii")` -/
def encode (text : Text) : Result Text := if ∀ c ∈ text, c < 128 then .ok text else .error .encodeError

/-- A record as a string. -/
def recordLine (e : Entry) (digests : Text → Option Digest) : Result Text :=
  let name := nameOf e.path
  match e.body with
  | .file mode _ sha => .ok (lit "file " ++ mode ++ lit " " ++ sha ++ lit " " ++ name)
  | .symlink target => do
      return lit "symlink - " ++ (sha256 (← encode target)).text ++ lit " " ++ name
  | .directory mode _ =>
      match digests e.path with
      | some digest => .ok (lit "directory " ++ mode ++ lit " " ++ digest.text ++ lit " " ++ name)
      | none => .error .keyError

/-- `_record ()` -/
def record (e : Entry) (digests : Text → Option Digest) : Result Text := do
  return (← encode (← recordLine sha256 e digests)) ++ [0]

/-- `children`, from what is there so far. -/
def childrenFrom : List Entry → (Text → Option (List Entry)) → Result (Text → Option (List Entry))
  | [], children => .ok children
  | e :: entries, children =>
      match children (parentOf e.path) with
      | none => .error .keyError
      | some others =>
          let children := Function.update children (parentOf e.path) (some (others ++ [e]))
          childrenFrom entries (if e.isDirectory then Function.update children e.path (some []) else children)

/-- `directory (path)` -/
def directoryDigest (children : Text → Option (List Entry)) (digests : Text → Option Digest) (path : Text) :
    Result Digest := do
  match children path with
  | none => .error .keyError
  | some entries =>
      let sorted := entries.insertionSort fun a b => nameOf a.path ≤ nameOf b.path
      return sha256 (← sorted.mapM (record sha256 · digests)).flatten

/-- The loop over the entries, which are given in reverse. -/
def digestsFrom (children : Text → Option (List Entry)) :
    List Entry → (Text → Option Digest) → Result (Text → Option Digest)
  | [], digests => .ok digests
  | e :: entries, digests =>
      if e.isDirectory then do
        let digest ← directoryDigest sha256 children digests e.path
        digestsFrom children entries (Function.update digests e.path (some digest))
      else digestsFrom children entries digests

/-- `merkle ()` -/
def merkle (entries : List Entry) : Result (Digest × (Text → Option Digest)) := do
  let children ← childrenFrom entries (Function.update (fun _ => none) (lit "/") (some []))
  let digests ← digestsFrom sha256 children entries.reverse fun _ => none
  return (← directoryDigest sha256 children digests (lit "/"), digests)

/-- A directory's entry, with its digest. -/
def finish (digests : Text → Option Digest) (e : Entry) : Result Entry :=
  match e.body with
  | .directory mode _ =>
      match digests e.path with
      | some digest => .ok ⟨e.path, .directory mode (some digest.text)⟩
      | none => .error .keyError
  | _ => .ok e

/-- `manifest_document ()` -/
def manifestDocument (identity : Value) (build : Option Value) (entries : List Entry) :
    Result (List (Text × Value)) := do
  let (tree, digests) ← merkle sha256 entries
  let finished ← entries.mapM (finish digests)
  let count (p : Body → Bool) : Value := .scalar (.int ((entries.filter fun e => p e.body).length))
  let size (e : Entry) : Nat := match e.body with
    | .file _ size _ => size
    | _ => 0
  return [(lit "format", .scalar (.int 1)), (lit "owner", str (lit "minidarwin")), (lit "identity", identity)] ++
    (build.map fun build => (lit "build", build)).toList ++
    [(lit "tree", .map [(lit "algorithm", str (lit "sha256-merkle-v1")), (lit "digest", str tree.text)]),
      (lit "summary", .map
        [(lit "files", count fun | .file _ _ _ => true | _ => false),
          (lit "symlinks", count fun | .symlink _ => true | _ => false),
          (lit "directories", count fun | .directory _ _ => true | _ => false),
          (lit "bytes", .scalar (.int ((entries.map size).sum)))]),
      (lit "entries", .list (finished.map Entry.value))]

end Merkle

/-! ### Checking -/

inductive Kind where
  | file
  | symlink
  | directory
  deriving DecidableEq

def Kind.text : Kind → Text
  | .file => lit "file"
  | .symlink => lit "symlink"
  | .directory => lit "directory"

/-- The keys of an entry, in their order. -/
def Kind.keys : Kind → List Text
  | .file => [lit "path", lit "type", lit "mode", lit "size", lit "sha256"]
  | .symlink => [lit "path", lit "type", lit "target"]
  | .directory => [lit "path", lit "type", lit "mode", lit "digest"]

def kindOf : Value → Option Kind
  | .scalar (.str s) => [Kind.file, .symlink, .directory].find? (·.text = s)
  | _ => none

/-- The locals of the loop of `check_entries ()`. A name is found by its parent and its
spelling in lower case. -/
structure Checked where
  directories : List Text := [lit "/"]
  siblings : List ((Text × Text) × Text) := []
  previous : Option (List Text) := none

/-- `value in texts` -/
def isOneOf (value : Value) (texts : List Text) : Bool :=
  match value with
  | .scalar (.str s) => s ∈ texts
  | _ => false

/-- The fields of an entry's type, its path apart. -/
def checkBody (kind : Kind) (path : Text) (fields : List (Text × Value)) (what : Text) : Result Unit :=
  match kind with
  | .file =>
      if !isOneOf (get fields (lit "mode")) [lit "0644", lit "0755"] then
        invalid (what ++ lit ": file mode must be one of 0644, 0755")
      else do
        let _ ← checkInt (get fields (lit "size")) (what ++ lit ".size") false
        let _ ← checkHex (get fields (lit "sha256")) (what ++ lit ".sha256") false
  | .directory =>
      if !isOneOf (get fields (lit "mode")) [lit "0755"] then
        invalid (what ++ lit ": directory mode must be 0755")
      else do
        let _ ← checkHex (get fields (lit "digest")) (what ++ lit ".digest") false
  | .symlink => checkSymlinkTarget path (get fields (lit "target")) what

/-- A round of the loop, from the check of the path on. -/
def checkPlace (s : Checked) (kind : Kind) (fields : List (Text × Value)) (what : Text) : Result Checked := do
  let path := shown (get fields (lit "path"))
  let parts ← splitPath (get fields (lit "path")) what
  if s.previous.any (parts ≤ ·) then
    invalid (what ++ lit ": '" ++ path ++ lit "' is out of order or repeated")
  else if parentOf path ∉ s.directories then
    invalid (what ++ lit ": parent of '" ++ path ++ lit "' is not a directory listed before it")
  else
    let key := (parentOf path, lower (parts.getLastD []))
    match s.siblings.lookup key with
    | some other =>
        invalid (what ++ lit ": '" ++ path ++ lit "' and '" ++ other ++ lit "' differ only in case")
    | none => do
        checkBody kind path fields what
        return {
          directories := if kind = .directory then path :: s.directories else s.directories
          siblings := (key, path) :: s.siblings
          previous := some parts }

/-- A round of the loop. -/
def checkEntry (s : Checked) (entry : Value) (what : Text) : Result Checked := do
  let fields ← mapping entry what
  match kindOf (get fields (lit "type")) with
  | none => invalid (what ++ lit ": unknown type '" ++ shown (get fields (lit "type")) ++ lit "'")
  | some kind =>
      if fields.map (·.1) ≠ kind.keys then
        invalid (what ++ lit ": a " ++ kind.text ++ lit " has exactly the keys " ++
          (lit ", ").intercalate kind.keys ++ lit ", in that order")
      else checkPlace s kind fields what

/-- The loop, from an index on. -/
def checkFrom (what : Text) : Nat → Checked → List Value → Result Checked
  | _, s, [] => .ok s
  | index, s, entry :: entries => do
      let s ← checkEntry s entry (what ++ lit ": entries[" ++ decimal index ++ lit "]")
      checkFrom what (index + 1) s entries

/-- `check_entries ()` -/
def checkEntries (entries : List Value) (what : Text) : Result Unit := do
  let _ ← checkFrom what 0 {} entries

end MiniDarwin.Rootfs
