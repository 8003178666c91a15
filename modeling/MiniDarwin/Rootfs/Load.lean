import MiniDarwin.Rootfs.Spec

/-!
Manifests as files: `load_manifest ()`, and the commands that write a
manifest and the spec that pins one.

SHA-256 is a parameter, and so is what the file system says of the links of
a tree (`lands`). A path that is opened as a file has a last component.
-/

namespace MiniDarwin.Rootfs

open Data

/-! ### The build section -/

structure AppleSource where
  name : Text
  rev : Text
  hash : Text
  deriving DecidableEq

structure Build where
  llvm : Option Text
  sources : Option (List AppleSource)
  deriving DecidableEq

def AppleSource.value (s : AppleSource) : Value :=
  .map [(lit "name", str s.name), (lit "rev", str s.rev), (lit "hash", str s.hash)]

def Build.value (b : Build) : Value :=
  .map ((b.llvm.map fun llvm => (lit "llvm", str llvm)).toList ++
    (b.sources.map fun sources => (lit "apple_sources", Value.list (sources.map AppleSource.value))).toList)

def readSource (value : Value) (what : Text) : Result AppleSource := do
  let source ← mapping value what
  if source.map (·.1) ≠ [lit "name", lit "rev", lit "hash"] then
    invalid (what ++ lit ": expected exactly name, rev, hash")
  else
    let name ← checkStr (get source (lit "name")) (what ++ lit ".name") false
    let rev ← checkStr (get source (lit "rev")) (what ++ lit ".rev") false
    let hash ← checkStr (get source (lit "hash")) (what ++ lit ".hash") false
    return ⟨name.getD [], rev.getD [], hash.getD []⟩

/-- The loop over `apple_sources`, from an index on. -/
def readSourcesFrom (what : Text) : Nat → List Value → Result (List AppleSource)
  | _, [] => .ok []
  | index, value :: values => do
      let source ← readSource value (what ++ lit "[" ++ decimal index ++ lit "]")
      return source :: (← readSourcesFrom what (index + 1) values)

def readSources (value : Value) (what : Text) : Result (List AppleSource) :=
  match value with
  | .list values => do
      let clean ← readSourcesFrom what 0 values
      let names := clean.map (·.name)
      if names ≠ names.dedup.insertionSort (· ≤ ·) then invalid (what ++ lit ": names must be unique and sorted")
      else return clean
  | _ => invalid (what ++ lit ": expected a list")

/-- A key that need not be there. -/
def perhapsKey {α : Type} (entries : List (Text × Value)) (key : Text) (read : Value → Result α) : Result (Option α) :=
  match entries.lookup key with
  | none => .ok none
  | some value => do return some (← read value)

/-- `_build_section ()` -/
def buildSection (value : Value) (what : Text) : Result Build := do
  let build ← mapping value what
  checkKeys build [lit "llvm", lit "apple_sources"] what []
  let llvm ← perhapsKey build (lit "llvm") fun value => do
    return (← checkStr value (what ++ lit ".llvm") false).getD []
  let sources ← perhapsKey build (lit "apple_sources") fun value => readSources value (what ++ lit ".apple_sources")
  return ⟨llvm, sources⟩

/-! ### Entries that have been checked -/

def textIn : Value → Option Text
  | .scalar (.str s) => some s
  | _ => none

def sizeIn : Value → Option Nat
  | .scalar (.int (.ofNat n)) => some n
  | _ => none

def itemsOf : Value → List Value
  | .list items => items
  | _ => []

/-- The entry that a mapping is, by the keys of its type. -/
def entryFrom (value : Value) : Option Entry :=
  match value with
  | .map fields => do
      let path ← textIn (get fields (lit "path"))
      match ← kindOf (get fields (lit "type")) with
      | .file => return ⟨path, .file (← textIn (get fields (lit "mode"))) (← sizeIn (get fields (lit "size")))
          (← textIn (get fields (lit "sha256")))⟩
      | .symlink => return ⟨path, .symlink (← textIn (get fields (lit "target")))⟩
      | .directory => return ⟨path, .directory (← textIn (get fields (lit "mode"))) (← textIn (get fields (lit "digest")))⟩
  | _ => none

/-- The entries of a list that `check_entries ()` has accepted. -/
def entriesFrom (values : List Value) : Result (List Entry) :=
  match values.mapM entryFrom with
  | some entries => .ok entries
  | none => .error .keyError

/-! ### Loading a manifest -/

/-- `MANIFEST_LIMIT` -/
def manifestLimit : Nat := 64 <<< 20

/-- `MANIFEST_HEADER` -/
def manifestHeader : Text := lit "# minidarwin rootfs manifest. Format: docs/rootfs-spec.md\n"

/-- The content of a file as a byte string. -/
def bytesOf (raw : ByteArray) : Text := raw.data.toList.map UInt8.toNat

/-- `raw.decode ("ascii")` -/
def decodeAscii (raw : ByteArray) (what : Text) : Result Text :=
  if ∀ c ∈ bytesOf raw, c < 128 then .ok (bytesOf raw) else invalid (what ++ lit ": not ASCII")

/-- What is read of a manifest before its entries are checked. -/
structure Head where
  identity : List (Text × Text)
  build : Option Build
  tree : Text
  deriving DecidableEq

def readTree (value : Value) (what : Text) : Result Text := do
  let tree ← mapping value what
  checkKeys tree [lit "algorithm", lit "digest"] what [lit "algorithm", lit "digest"]
  if !isOneOf (get tree (lit "algorithm")) [lit "sha256-merkle-v1"] then
    invalid (what ++ lit ": algorithm '" ++ shown (get tree (lit "algorithm")) ++ lit "' is not sha256-merkle-v1")
  else return (← checkHex (get tree (lit "digest")) (what ++ lit ".digest") false).getD []

def readHead (data : List (Text × Value)) (what : Text) : Result Head := do
  checkKeys data [lit "format", lit "owner", lit "identity", lit "build", lit "tree", lit "summary", lit "entries"] what
    [lit "format", lit "owner", lit "identity", lit "tree", lit "summary", lit "entries"]
  if !isOne (get data (lit "format")) then
    invalid (what ++ lit ": format " ++ shown (get data (lit "format")) ++ lit " is not 1")
  else if !isOneOf (get data (lit "owner")) [lit "minidarwin"] then
    invalid (what ++ lit ": owner must be 'minidarwin'")
  else
    let identity ← stringMap (get data (lit "identity")) (what ++ lit ".identity")
    match [lit "project", lit "arch"].find? (· ∉ identity.map (·.1)) with
    | some key => invalid (what ++ lit ".identity: missing '" ++ key ++ lit "'")
    | none =>
        let build ← perhapsKey data (lit "build") fun value => buildSection value (what ++ lit ".build")
        let tree ← readTree (get data (lit "tree")) (what ++ lit ".tree")
        return ⟨identity, build, tree⟩

/-- `==` of scalars, for which `True` is 1. -/
def sameScalar : Scalar → Scalar → Bool
  | .int n, .bool b | .bool b, .int n => n = if b then 1 else 0
  | a, b => a = b

/-- `==` of mappings whose values are scalars. -/
def sameScalars (mine theirs : Value) : Bool :=
  match mine, theirs with
  | .map mine, .map theirs => mine.length = theirs.length ∧ mine.all fun e =>
      match e.2, theirs.lookup e.1 with
      | .scalar a, some (.scalar b) => sameScalar a b
      | _, _ => false
  | _, _ => false

def identityValue (identity : List (Text × Text)) : Value := .map (identity.map fun e => (e.1, str e.2))

/-- A `Manifest`. -/
structure Manifest where
  head : Head
  entries : List Entry
  document : List (Text × Value)
  text : Text

def listedIn (document : List (Text × Value)) : Result (List Entry) :=
  match get document (lit "entries") with
  | .list values => entriesFrom values
  | _ => .error .keyError

/-- The document that the entries give against the one that was read. -/
def compareRebuilt (head : Head) (summary : Value) (rebuilt : List (Text × Value)) (mine theirs : List Entry)
    (text what : Text) : Result Manifest :=
  match (mine.zip theirs).find? fun both => both.1 ≠ both.2 with
  | some both => invalid (what ++ lit ": digest of directory '" ++ both.2.path ++ lit "' does not match its contents")
  | none =>
      if !sameScalars (get rebuilt (lit "summary")) summary then
        invalid (what ++ lit ": summary does not match its entries")
      else do
        let written ← dumpYaml manifestHeader rebuilt
        if written ≠ text then
          invalid (what ++ lit ": not in canonical form (regenerate it with `mdrootfs manifest`)")
        else return ⟨head, mine, rebuilt, text⟩

section Loading

variable (sha256 : Text → Digest)

def rebuild (head : Head) (summary : Value) (values : List Value) (text what : Text) : Result Manifest := do
  let entries ← entriesFrom values
  let rebuilt ← manifestDocument sha256 (identityValue head.identity) (head.build.map Build.value) entries
  let tree ← mapping (get rebuilt (lit "tree")) what
  if textIn (get tree (lit "digest")) ≠ some head.tree then
    invalid (what ++ lit ": tree digest does not match its entries")
  else do
    let mine ← listedIn rebuilt
    compareRebuilt head summary rebuilt mine entries text what

/-- `load_manifest ()` of a file with that content. -/
def loadManifest (raw : ByteArray) (what : Text) : Result Manifest :=
  if raw.size > manifestLimit then
    invalid (what ++ lit ": larger than " ++ decimal manifestLimit ++ lit " bytes")
  else do
    let text ← decodeAscii raw what
    let data ← mapping (← parseYaml text what) what
    let head ← readHead data what
    match get data (lit "entries") with
    | .list values =>
        checkEntries values what
        rebuild sha256 head (get data (lit "summary")) values text what
    | _ => invalid (what ++ lit ".entries: expected a list")

end Loading

/-! ### Writing a manifest -/

/-- What is found at `args.tree`, and the options of `mdrootfs manifest`. -/
structure ManifestArgs where
  tree : Tree
  identity : List Argument
  llvm : Option Argument
  appleSources : List Argument

/-- The loop of `_pairs ()`. -/
def pairsFrom (what : Text) : List Text → List (Text × Text) → Result (List (Text × Text))
  | [], result => .ok result
  | value :: values, result =>
      let key := value.takeWhile (· ≠ 61)
      let item := (value.dropWhile (· ≠ 61)).tail
      -- without a `=` there is no item
      if matchKey key ≠ some (key, []) ∨ item = [] then
        usage (what ++ lit ": expected key=value, got '" ++ value ++ lit "'")
      else if key ∈ result.map (·.1) then usage (what ++ lit ": '" ++ key ++ lit "' given twice")
      else pairsFrom what values (result ++ [(key, item)])

/-- `value.split ("=", 2)`, of which there must be three parts. -/
def appleSource (value : Text) : Result AppleSource :=
  let name := value.takeWhile (· ≠ 61)
  let rest := (value.dropWhile (· ≠ 61)).tail
  let rev := rest.takeWhile (· ≠ 61)
  let hash := (rest.dropWhile (· ≠ 61)).tail
  if name = [] ∨ rev = [] ∨ hash = [] then usage (lit "--apple-source: expected name=rev=hash, got '" ++ value ++ lit "'")
  else .ok ⟨name, rev, hash⟩

/-- An option that is given and not empty. -/
def given (option : Option Argument) : Option Text :=
  match option with
  | some ⟨c :: text, _⟩ => some (c :: text)
  | _ => none

def ManifestArgs.build (args : ManifestArgs) : Result (Option Build) :=
  match given args.llvm, args.appleSources with
  | none, [] => .ok none
  | llvm, [] => .ok (some ⟨llvm, none⟩)
  | llvm, values => do
      let sources ← values.mapM fun value => appleSource value.text
      return some ⟨llvm, some (sources.insertionSort fun a b => a.name ≤ b.name)⟩

def Problem.line (p : Problem) : Text := p.path ++ lit ": " ++ p.detail

/-- A link that does not land on anything in the tree. -/
def isDangling (lands : Text → Bool) (e : Entry) : Bool :=
  match e.body with
  | .symlink _ => !lands e.path
  | _ => false

def targetOf (e : Entry) : Text :=
  match e.body with
  | .symlink target => target
  | _ => []

section Commands

variable (sha256 : Text → Digest)

/-- `cmd_manifest ()`: the document. -/
def manifestOf (lands : Text → Bool) (args : ManifestArgs) : Result (List (Text × Value)) := do
  let identity ← pairsFrom (lit "--identity") (args.identity.map (·.text)) []
  match [lit "project", lit "arch"].find? (· ∉ identity.map (·.1)) with
  | some key => usage (lit "--identity " ++ key ++ lit "=... is required")
  | none =>
      let build ← args.build
      let (entries, problems) := scanTree args.tree true
      if problems ≠ [] then invalid (lit "tree: " ++ (lit "; ").intercalate (problems.map Problem.line))
      else do
        let document ← manifestDocument sha256 (identityValue (byName identity)) (build.map Build.value) entries
        checkEntries (itemsOf (get document (lit "entries"))) (lit "tree")
        match entries.find? (isDangling lands) with
        | some e => invalid (lit "tree: symlink '" ++ e.path ++ lit "' -> '" ++ targetOf e ++ lit "' is dangling")
        | none => return document

/-- `cmd_manifest ()`: the file that is written. -/
def cmdManifest (lands : Text → Bool) (args : ManifestArgs) : Result ByteArray := do
  asciiBytes (← dumpYaml manifestHeader (← manifestOf sha256 lands args))

/-! ### Writing a spec -/

/-- The path of a file that can be opened. -/
structure FilePath where
  path : Argument
  named : nameOf path.text ≠ []

/-- The options of `mdrootfs spec`, and the content of the files that they name. -/
structure SpecArgs where
  manifest : FilePath
  manifestContent : ByteArray
  artifact : FilePath
  artifactContent : ByteArray
  sequence : Int

/-- The mapping of `cmd_spec ()`. -/
def SpecArgs.document (args : SpecArgs) (m : Manifest) : List (Text × Value) :=
  [(lit "format", .scalar (.int 1)), (lit "identity", identityValue m.head.identity),
    (lit "release", .map [(lit "sequence", .scalar (.int args.sequence)), (lit "tag", null), (lit "commit", null),
      (lit "repository", null)]),
    (lit "artifact", .map [(lit "name", str (nameOf args.artifact.path.text)), (lit "format", str (lit "tar+gzip")),
      (lit "size", .scalar (.int args.artifactContent.size)),
      (lit "sha256", str (sha256 (bytesOf args.artifactContent)).text), (lit "sources", .list [])]),
    (lit "manifest", .map [(lit "name", str (nameOf args.manifest.path.text)),
      (lit "size", .scalar (.int args.manifestContent.size)),
      (lit "sha256", str (sha256 (bytesOf args.manifestContent)).text), (lit "tree", str m.head.tree),
      (lit "sources", .list [])]),
    (lit "verification", .map [(lit "policy", str (lit "strict"))])]

/-- `cmd_spec ()`: the file that is written. -/
def cmdSpec (args : SpecArgs) : Result ByteArray := do
  let m ← loadManifest sha256 args.manifestContent (nameOf args.manifest.path.text)
  asciiBytes (← dumpYaml specHeader (args.document sha256 m))

end Commands

end MiniDarwin.Rootfs
