import MiniDarwin.Rootfs.RoundTrip

/-!
Specs: how one is checked and put in its normal form, and how it is stamped.

A file is its bytes. Python's own integers have no size, and its limit on
the digits of a numeral is left out.
-/

namespace MiniDarwin.Rootfs

open Data

/-! ### The document -/

structure Release where
  sequence : Option Nat
  tag : Option Text
  commit : Option Text
  repository : Option Text
  deriving DecidableEq

structure Artifact where
  name : Option Text
  size : Option Nat
  sha256 : Option Text
  sources : List Text
  deriving DecidableEq

structure ManifestPin where
  name : Option Text
  size : Option Nat
  sha256 : Option Text
  tree : Option Text
  sources : List Text
  deriving DecidableEq

inductive Policy where
  | strict
  | insecure
  deriving DecidableEq

def Policy.text : Policy → Text
  | .strict => lit "strict"
  | .insecure => lit "insecure"

/-- The document of a `Spec`, in its normal form. -/
structure Document where
  identity : Option (List (Text × Text))
  release : Release
  artifact : Artifact
  manifest : ManifestPin
  policy : Policy
  deriving DecidableEq

structure Spec where
  document : Document
  ignored : List Text
  deriving DecidableEq

def number : Option Nat → Value
  | none => null
  | some n => .scalar (.int n)

def Release.value (r : Release) : Value :=
  .map [(lit "sequence", number r.sequence), (lit "tag", optional r.tag), (lit "commit", optional r.commit),
    (lit "repository", optional r.repository)]

def Artifact.value (a : Artifact) : Value :=
  .map [(lit "name", optional a.name), (lit "format", str (lit "tar+gzip")), (lit "size", number a.size),
    (lit "sha256", optional a.sha256), (lit "sources", .list (a.sources.map str))]

def ManifestPin.value (m : ManifestPin) : Value :=
  .map [(lit "name", optional m.name), (lit "size", number m.size), (lit "sha256", optional m.sha256),
    (lit "tree", optional m.tree), (lit "sources", .list (m.sources.map str))]

/-- The mapping that is written. -/
def Document.value (d : Document) : List (Text × Value) :=
  (lit "format", .scalar (.int 1)) ::
    ((d.identity.map fun identity => (lit "identity", Value.map (identity.map fun e => (e.1, str e.2)))).toList ++
      [(lit "release", d.release.value), (lit "artifact", d.artifact.value), (lit "manifest", d.manifest.value),
        (lit "verification", .map [(lit "policy", str d.policy.text)])])

/-! ### Reading -/

/-- `value or {}` -/
def orEmpty : Value → Value
  | .scalar .null | .scalar (.bool false) | .scalar (.int 0) | .scalar (.str []) | .list [] => .map []
  | value => value

/-- `value == 1` -/
def isOne : Value → Bool
  | .scalar (.int 1) | .scalar (.bool true) => true
  | _ => false

/-- `_string_map ()` -/
def stringMap (value : Value) (what : Text) : Result (List (Text × Text)) := do
  let entries ← mapping value what
  let items ← entries.mapM fun e => do
    return (e.1, (← checkStr e.2 (what ++ lit "." ++ e.1) false).getD [])
  return byName items

/-- `url.startswith (SOURCE_SCHEMES)` -/
def isSource (url : Text) : Bool := lit "https://" <+: url ∨ lit "file://" <+: url

/-- The loop of `_sources ()`, from an index on. -/
def sourcesFrom (what : Text) : Nat → List Value → Result (List Text)
  | _, [] => .ok []
  | index, value :: values => do
      let where_ := what ++ lit "[" ++ decimal index ++ lit "]"
      let url := (← checkStr value where_ false).getD []
      if !isSource url then
        invalid (where_ ++ lit ": '" ++ url ++ lit "' is not an https:// or file:// URL")
      else return url :: (← sourcesFrom what (index + 1) values)

/-- `_sources ()` -/
def sources (value : Value) (what : Text) : Result (List Text) :=
  match value with
  | .scalar .null => .ok []
  | .list values => sourcesFrom what 0 values
  | _ => invalid (what ++ lit ": expected a list")

/-- `verification.get ("policy", "strict")`, which must be one of the two. -/
def readPolicy (verification : List (Text × Value)) (what : Text) : Result Policy :=
  let value := (verification.lookup (lit "policy")).getD (str (lit "strict"))
  if isOneOf value [lit "strict"] then .ok .strict
  else if isOneOf value [lit "insecure"] then .ok .insecure
  else invalid (what ++ lit ".verification.policy: must be one of strict, insecure")

def readIdentity (value : Value) (what : Text) : Result (Option (List (Text × Text))) :=
  match value with
  | .scalar .null => .ok none
  | value => do return some (← stringMap value (what ++ lit ".identity"))

def readRelease (value : Value) (what : Text) : Result Release := do
  let where_ := what ++ lit ".release"
  let r ← mapping (orEmpty value) where_
  checkKeys r [lit "sequence", lit "tag", lit "commit", lit "repository"] where_ []
  let sequence ← checkInt (get r (lit "sequence")) (where_ ++ lit ".sequence") true
  let tag ← checkStr (get r (lit "tag")) (where_ ++ lit ".tag") true
  let commit ← checkStr (get r (lit "commit")) (where_ ++ lit ".commit") true
  let repository ← checkStr (get r (lit "repository")) (where_ ++ lit ".repository") true
  if commit.any fun commit => !isHex 40 commit then
    invalid (where_ ++ lit ".commit: expected a full 40-digit commit hash")
  else return ⟨sequence, tag, commit, repository⟩

def readArtifact (value : Value) (what : Text) (strict : Bool) : Result Artifact := do
  let where_ := what ++ lit ".artifact"
  let a ← mapping value where_
  checkKeys a [lit "name", lit "format", lit "size", lit "sha256", lit "sources"] where_ [lit "format"]
  if !isOneOf (get a (lit "format")) [lit "tar+gzip"] then
    invalid (where_ ++ lit ".format: only 'tar+gzip' is defined")
  else
    let name ← checkStr (get a (lit "name")) (where_ ++ lit ".name") true
    let size ← checkInt (get a (lit "size")) (where_ ++ lit ".size") true
    let sha256 ← checkHex (get a (lit "sha256")) (where_ ++ lit ".sha256") (!strict)
    let urls ← sources (get a (lit "sources")) (where_ ++ lit ".sources")
    return ⟨name, size, sha256, urls⟩

def readManifest (value : Value) (what : Text) (strict : Bool) : Result ManifestPin := do
  let where_ := what ++ lit ".manifest"
  let m ← mapping value where_
  checkKeys m [lit "name", lit "size", lit "sha256", lit "tree", lit "sources"] where_ []
  let name ← checkStr (get m (lit "name")) (where_ ++ lit ".name") true
  let size ← checkInt (get m (lit "size")) (where_ ++ lit ".size") true
  let sha256 ← checkHex (get m (lit "sha256")) (where_ ++ lit ".sha256") (!strict)
  let tree ← checkHex (get m (lit "tree")) (where_ ++ lit ".tree") true
  let urls ← sources (get m (lit "sources")) (where_ ++ lit ".sources")
  return ⟨name, size, sha256, tree, urls⟩

/-- The keys that a spec is read by. -/
def specKeys : List Text :=
  [lit "format", lit "identity", lit "release", lit "artifact", lit "manifest", lit "verification"]

/-- `spec_from ()` -/
def specFrom (value : Value) (what : Text) : Result Spec := do
  let data ← mapping value what
  match [lit "format", lit "artifact", lit "manifest"].find? (!hasKey data ·) with
  | some key => invalid (what ++ lit ": missing '" ++ key ++ lit "'")
  | none =>
      if !isOne (get data (lit "format")) then
        invalid (what ++ lit ": format " ++ shown (get data (lit "format")) ++ lit " is not 1")
      else
        let verification ← mapping (orEmpty (get data (lit "verification"))) (what ++ lit ".verification")
        checkKeys verification [lit "policy"] (what ++ lit ".verification") []
        let policy ← readPolicy verification what
        let identity ← readIdentity (get data (lit "identity")) what
        let release ← readRelease (get data (lit "release")) what
        let artifact ← readArtifact (get data (lit "artifact")) what (policy = .strict)
        let manifest ← readManifest (get data (lit "manifest")) what (policy = .strict)
        return ⟨⟨identity, release, artifact, manifest, policy⟩, (data.map (·.1)).filter (· ∉ specKeys)⟩

/-! ### Files -/

/-- `SPEC_LIMIT` -/
def specLimit : Nat := 1 <<< 20

/-- `raw.decode ("utf-8")` -/
def decode (raw : ByteArray) (what : Text) : Result Text :=
  match raw.utf8Decode? with
  | some chars => .ok (chars.toList.map Char.toNat)
  | none => invalid (what ++ lit ": not UTF-8")

/-- `load_spec ()` of a file with that content. -/
def loadSpec (raw : ByteArray) (what : Text) : Result Spec :=
  if raw.size > specLimit then
    invalid (what ++ lit ": larger than " ++ decimal specLimit ++ lit " bytes")
  else do specFrom (← parseYaml (← decode raw what) what) what

/-- The bytes that `_write ()` leaves. -/
def asciiBytes (text : Text) : Result ByteArray := do
  return ((← encode text).map UInt8.ofNat).toByteArray

/-- `SPEC_HEADER` -/
def specHeader : Text := lit "# minidarwin rootfs spec. Format: docs/rootfs-spec.md\n"

/-! ### Stamping -/

/-- A string of the command line: what is not UTF-8 in it is a low surrogate, one a byte. -/
structure Argument where
  text : Text
  wellFormed : ∀ c ∈ text, c < 0x110000 ∧ (c < 0xd800 ∨ 0xdc80 ≤ c)

/-- The options of `mdrootfs stamp`, and the content of the files that they name. An empty
option is as one that is not given. -/
structure StampArgs where
  spec : Text
  content : ByteArray
  repository : Argument
  tag : Argument
  commit : Argument
  baseUrl : Option Argument
  previous : Option (Text × ByteArray)

/-- `[A-Za-z0-9_.-]` -/
def isRepositoryChar (c : Nat) : Bool := isLetter c || isDigit c || c == 95 || c == 46 || c == 45

/-- `re.fullmatch (r"[A-Za-z0-9_.-]+/[A-Za-z0-9_.-]+", text)` -/
def isRepository (text : Text) : Bool :=
  match text.splitOn 47 with
  | [owner, repo] => owner ≠ [] ∧ repo ≠ [] ∧ owner.all isRepositoryChar ∧ repo.all isRepositoryChar
  | _ => false

/-- `args.base_url or f"https://github.com/..."` -/
def StampArgs.base (args : StampArgs) : Text :=
  match args.baseUrl.map (·.text) with
  | some (c :: url) => c :: url
  | _ => lit "https://github.com/" ++ args.repository.text ++ lit "/releases/download/" ++ args.tag.text

/-- `f"{base.rstrip('/')}/{name}"` -/
def sourceOf (base name : Text) : Text := base.rdropWhile (· = 47) ++ lit "/" ++ name

def notFollowing (sequence previous : Option Nat) : Text :=
  lit "stamp: release.sequence " ++ shown (number sequence) ++ lit " does not follow the previous release's " ++
    shown (number previous) ++ lit " -- bump lib/release.nix"

/-- The previous release comes before the sequence. -/
def checkPrevious (previous : Option (Text × ByteArray)) (sequence : Nat) : Result Unit :=
  match previous with
  | none => .ok ()
  | some (path, content) => do
      let previous ← loadSpec content (nameOf path)
      match previous.document.release.sequence with
      | none => invalid (notFollowing (some sequence) none)
      | some before =>
          if before ≥ sequence then invalid (notFollowing (some sequence) (some before)) else return ()

/-- The document that is written. -/
def stamped (d : Document) (args : StampArgs) (artifactName manifestName : Text) : Document :=
  { d with
    release := {
      sequence := d.release.sequence
      tag := some args.tag.text
      commit := some args.commit.text
      repository := some args.repository.text }
    artifact := { d.artifact with sources := [sourceOf args.base artifactName] }
    manifest := { d.manifest with sources := [sourceOf args.base manifestName] } }

def usage {α : Type} (message : Text) : Result α := .error (.usage message)

/-- `cmd_stamp ()`: the file that is written. -/
def cmdStamp (args : StampArgs) : Result ByteArray := do
  let spec ← loadSpec args.content (nameOf args.spec)
  let d := spec.document
  if d.policy ≠ .strict then invalid (lit "stamp: only a strict spec is released")
  else match d.release.tag, d.release.sequence with
  | some tag, _ => invalid (lit "stamp: " ++ args.spec ++ lit " is already stamped (" ++ tag ++ lit ")")
  | none, none => invalid (lit "stamp: the spec has no release.sequence")
  | none, some sequence =>
      if !isHex 40 args.commit.text then usage (lit "--commit: expected a full 40-digit commit hash")
      else if !isRepository args.repository.text then usage (lit "--repository: expected OWNER/REPO")
      else if args.tag.text = [] ∨ 47 ∈ args.tag.text then usage (lit "--tag: expected a tag name")
      else
        checkPrevious args.previous sequence
        match d.artifact.name, d.manifest.name with
        | none, _ => invalid (lit "stamp: artifact.name is needed to form its URL")
        | some _, none => invalid (lit "stamp: manifest.name is needed to form its URL")
        | some artifactName, some manifestName =>
            let document := stamped d args artifactName manifestName
            let _ ← sources (.list (document.artifact.sources.map str)) (lit "stamp")
            asciiBytes (← dumpYaml specHeader document.value)

end MiniDarwin.Rootfs
