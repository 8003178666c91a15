import MiniDarwin.Archive.Xar
import MiniDarwin.Archive.Bounds

/-!
Components and the Distribution that selects them (`package.c`).

The JavaScript of a Distribution is run by QuickJS, which is not part of the
repository: `Script` is what comes of it, in any way. What
`inflate_limited ()` makes of an archive depends on how much has been
decoded before, so it is a parameter for each archive that is read.
-/

namespace MiniDarwin.Archive

open Posix (Bytes)

/-- `xml_attr ()` with a fallback. -/
def xmlAttrOr (n : Option Node) (key fallback : Bytes) : Bytes := (n.bind (Node.property key)).getD fallback

def Node.name : Node → Bytes
  | .element name _ _ => name
  | _ => []

/-! ### Components -/

inductive Hook where
  | preflight
  | preinstall
  | postinstall
  | postflight
  deriving DecidableEq

/-- `hook_names` -/
def hookNames : List (Bytes × Hook) :=
  [(lit "preflight", .preflight), (lit "preinstall", .preinstall), (lit "postinstall", .postinstall),
    (lit "postflight", .postflight)]

structure Component where
  /-- empty for a bare component -/
  xarDir : Bytes
  identifier : Bytes
  version : Bytes
  /-- normalized, root-relative -/
  location : Bytes
  bom : Bytes := []
  /-- the paths include `location` -/
  payload : List Entry := []
  scripts : List Entry := []
  hooks : Hook → Option Bytes := fun _ => none
  metadataOnly : Bool := false

structure Package where
  xar : List XarMember
  components : List Component := []
  distribution : Option Node := none
  needsJs : Bool := false

/-- libxml2, and zlib for the archives of each component. -/
structure Decoders where
  xmlReadMemory : Bytes → Option Doc
  gunzip : (component : Nat) → (scripts : Bool) → Bytes → Result Bytes

def isIdentifierChar (c : UInt8) : Bool :=
  97 ≤ c ∧ c ≤ 122 ∨ 65 ≤ c ∧ c ≤ 90 ∨ 48 ≤ c ∧ c ≤ 57 ∨ c = 46 ∨ c = 45 ∨ c = 95

def checkIdentifier (s : Bytes) : Result Unit := do
  dieIf (s = [] ∨ s.length > 200 ∨ s = [46] ∨ s = [46, 46]) s!"invalid package identifier: {text s}"
  dieIf (∃ c ∈ s, isIdentifierChar c = false) s!"invalid package identifier: {text s}"

def componentMember (xar : List XarMember) (dir name : Bytes) (required : Bool) : Result (Option Bytes) := do
  xarMember xar (← pathJoin dir name) required

def packageinfoElements : List Bytes :=
  [lit "payload", lit "scripts", lit "bundle-version", lit "upgrade-bundle", lit "update-bundle",
    lit "atomic-update-bundle", lit "strict-identifier", lit "relocate", lit "bundle"]

def entriesFind (list : List Entry) (path : Bytes) : Option Entry := list.find? fun e => e.path = path

def readScript (scripts : List Entry) (hooks : Hook → Option Bytes) (n : Node) : Result (Hook → Option Bytes) :=
  match hookNames.lookup n.name with
  | none => die s!"unsupported or duplicate install script: {text n.name}"
  | some hook => do
      dieIf ((hooks hook).isSome) s!"unsupported or duplicate install script: {text n.name}"
      let file ← pathNormalize (← xmlAttr n (lit "file")) false
      dieIf (¬ (entriesFind scripts file).any fun e => e.mode.toNat &&& ifmt = ifreg ∧ e.mode.toNat &&& 0o111 ≠ 0)
        s!"install script missing or not executable: {text file}"
      return Function.update hooks hook (some file)

def readScripts (scripts : List Entry) (n : Option Node) : Result (Hook → Option Bytes) :=
  (xmlElements n).foldlM (readScript scripts) fun _ => none

/-- `cpio_parse ()`, for the archives that there are. -/
def readArchive (gunzip : Bytes → Result Bytes) : Option Bytes → Result (List Entry)
  | none => .ok []
  | some archive => do
      let b ← if isGzip archive then gunzip archive else .ok archive
      cpioRecords b []

/-- The entry where it is installed. -/
def placeEntry (location : Bytes) (e : Entry) : Result Entry := do
  let path ← pathJoin location e.path
  match e.link with
  | some target => symlinkCheckLexical path target
  | none => pure ()
  return { e with path }

/-- `numberOfFiles`, if PackageInfo has it. -/
def checkCount (info : Node) (payload : List Entry) : Result Unit :=
  match xmlChild info (lit "payload") with
  | none => .ok ()
  | some count => do
      let n ← parseUint (← xmlAttr count (lit "numberOfFiles")) 10
      dieIf (n ≠ payload.length) "PackageInfo numberOfFiles does not match the payload"

/-- The archives of a component. -/
def loadContents (decoders : Decoders) (pkg : Package) (dir : Bytes) (info : Node) (c : Component) :
    Result Component := do
  let payloadData ← componentMember pkg.xar dir (lit "Payload") false
  let scriptsData ← componentMember pkg.xar dir (lit "Scripts") false
  let payload ← readArchive (decoders.gunzip pkg.components.length false) payloadData
  let scripts ← readArchive (decoders.gunzip pkg.components.length true) scriptsData
  let bom := (← componentMember pkg.xar dir (lit "Bom") true).getD []
  dieIf (bom.length < 32 ∨ bom.take 8 ≠ lit "BOMStore") "invalid BOM"
  checkCount info payload
  let hooks ← readScripts scripts (xmlChild info (lit "scripts"))
  let placed ← payload.mapM (placeEntry c.location)
  return { c with bom, payload := placed, scripts, hooks }

/-- PackageInfo, checked against the components that are loaded. -/
def loadInfo (pkg : Package) (dir : Bytes) (expectedId : Option Bytes) (info : Node) : Result Component := do
  let format ← xmlAttr info (lit "format-version")
  dieIf (format ≠ lit "2") s!"unsupported PackageInfo format-version: {text format}"
  let identifier ← xmlAttr info (lit "identifier")
  checkIdentifier identifier
  dieIf (∃ id ∈ expectedId, identifier ≠ id)
    s!"Distribution names {text (expectedId.getD [])}, but PackageInfo says {text identifier}"
  dieIf (∃ c ∈ pkg.components, c.identifier = identifier) s!"duplicate component identifier: {text identifier}"
  let version ← xmlAttr info (lit "version")
  let location ← pathNormalize (xmlAttrOr info (lit "install-location") (lit "/")) true
  (xmlElements info).forM fun n => dieIf (n.name ∉ packageinfoElements) s!"unsupported PackageInfo element: {text n.name}"
  return { xarDir := dir, identifier, version, location }

def loadComponent (decoders : Decoders) (pkg : Package) (dir : Bytes) (expectedId : Option Bytes)
    (metadataOnly : Bool) : Result Package := do
  if ∃ c ∈ pkg.components, c.xarDir = dir then return pkg
  else do
    dieIf (pkg.components.length ≥ 1024) "component limit"
    let member ← componentMember pkg.xar dir (lit "PackageInfo") true
    let info ← xmlRoot (← xmlParse decoders.xmlReadMemory (member.getD [])) (lit "pkg-info")
    let c ← loadInfo pkg dir expectedId info
    if metadataOnly then return { pkg with components := pkg.components ++ [{ c with metadataOnly := true }] }
    else do
      let c ← loadContents decoders pkg dir info c
      return { pkg with components := pkg.components ++ [c] }

/-! ### References -/

/-- The escapes of a reference. -/
def unescapeFrom (ref : Bytes) : Bytes → Result Bytes
  | 37 :: a :: b :: more => do
      let n ← parseUint [a, b] 16
      dieIf (n % 256 = 0) s!"invalid package reference: {text ref}"
      return UInt8.ofNat n :: (← unescapeFrom ref more)
  | c :: rest => do return c :: (← unescapeFrom ref rest)
  | [] => .ok []

/-- `#Some%20Name.pkg` is `Some Name.pkg`. Anything but an embedded reference is refused. -/
def embeddedReference (ref : Bytes) : Result Bytes := do
  dieIf (ref.head? ≠ some 35) s!"external package reference: {text ref}"
  let path ← pathNormalize (← unescapeFrom ref ref.tail) false
  dieIf (path = []) "empty package reference"
  return path

structure Reference where
  path : Option Bytes := none
  active : Option Bytes := none
  version : Option Bytes := none
  found : Bool := false

/-- Attributes are merged across global and choice-local nodes. -/
def mergeAttribute (out : Option Bytes) (n : Node) (key : Bytes) : Result (Option Bytes) :=
  match n.property key with
  | none => .ok out
  | some value => do
      dieIf (∃ other ∈ out, other ≠ value) s!"conflicting pkg-ref {text key} definitions"
      return some value

def isBlank (c : UInt8) : Bool := c = 32 ∨ c = 9 ∨ c = 13 ∨ c = 10

def trim (s : Bytes) : Bytes := ((s.dropWhile isBlank).reverse.dropWhile isBlank).reverse

/-- A text in a `pkg-ref`. -/
def addLocation (id : Bytes) (ref : Reference) : Node → Result Reference
  | .text content =>
      if trim content = [] then .ok ref
      else do
        dieIf (ref.path.isSome) s!"pkg-ref {text id} has several locations"
        return { ref with path := some (← embeddedReference (trim content)) }
  | _ => .ok ref

/-- One `pkg-ref` element. -/
def addReference (id : Bytes) (ref : Reference) (n : Node) : Result Reference := do
  if (← xmlAttr n (lit "id")) = id then do
    let active ← mergeAttribute ref.active n (lit "active")
    let version ← mergeAttribute ref.version n (lit "version")
    n.children.foldlM (addLocation id) { ref with active, version, found := true }
  else return ref

mutual

/-- `collect_reference ()`, for one element and what is in it. -/
def collectReference (id : Bytes) : Node → Reference → Result Reference
  | .element name properties children, ref => do
      let ref ← if name = lit "pkg-ref" then addReference id ref (.element name properties children) else .ok ref
      collectReferences id children ref
  | _, ref => .ok ref

def collectReferences (id : Bytes) : List Node → Reference → Result Reference
  | [], ref => .ok ref
  | n :: siblings, ref => do collectReferences id siblings (← collectReference id n ref)

end

/-- The attribute `active`, the location and the version of a reference. -/
structure Found where
  path : Bytes
  active : Option Bytes
  version : Option Bytes

def findReference (dist : Node) (id : Bytes) : Result Found := do
  let ref ← collectReferences id dist.children {}
  match ref.path with
  | none => die s!"unresolved pkg-ref: {text id}"
  | some path => do
      dieIf (¬ ref.found) s!"unresolved pkg-ref: {text id}"
      return ⟨path, ref.active, ref.version⟩

/-! ### Choices -/

def staticBoolean (n : Node) (key : Bytes) : Result Bool := do
  let v := xmlAttrOr n key (lit "true")
  dieIf (v ≠ lit "true" ∧ v ≠ lit "false") s!"Distribution needs JavaScript to decide {text key}=\"{text v}\""
  return v = lit "true"

structure Choice where
  id : Bytes
  node : Node

/-- The loop of `find_choice ()`. -/
def findChoiceFrom (id : Bytes) : List Node → Option Node → Result (Option Node)
  | [], found => .ok found
  | n :: rest, found =>
      if xmlIs (lit "choice") n then do
        let cid ← xmlAttr n (lit "id")
        if cid = id then do
          dieIf (found.isSome) s!"duplicate choice: {text id}"
          findChoiceFrom id rest (some n)
        else findChoiceFrom id rest found
      else findChoiceFrom id rest found

def findChoice (dist : Node) (id : Bytes) : Result Node := do
  match ← findChoiceFrom id (xmlElements dist) none with
  | some n => return n
  | none => die s!"unresolved choice: {text id}"

mutual

/-- `outline_choices ()`, for one line and those in it. -/
def outlineLine (dist : Node) (depth : Nat) : Node → List Choice → Result (List Choice)
  | .element name properties children, choices => do
      dieIf (name ≠ lit "line") s!"unsupported choices-outline element: {text name}"
      let id ← xmlAttr (Node.element name properties children) (lit "choice")
      dieIf (∃ c ∈ choices, c.id = id) s!"choice appears more than once in outline: {text id}"
      dieIf (choices.length ≥ 1024) "choice limit"
      let node ← findChoice dist id
      dieIf (depth + 1 > limitDepth) "choices-outline nesting limit"
      outlineLines dist (depth + 1) children (choices ++ [⟨id, node⟩])
  | _, choices => .ok choices

def outlineLines (dist : Node) (depth : Nat) : List Node → List Choice → Result (List Choice)
  | [], choices => .ok choices
  | line :: siblings, choices => do outlineLines dist depth siblings (← outlineLine dist depth line choices)

end

def outlineChoices (dist : Node) : Result (List Choice) :=
  outlineLines dist 0 ((xmlChild dist (lit "choices-outline")).elim [] Node.children) []

/-! ### Selection -/

/-- What the scripts of a Distribution come to: `initialize_choices ()`, the script and the
checks, `settle_choices ()`; then the state of each choice, and each `active` expression. -/
structure Script where
  prepare : Result Unit
  selected : (choice : Nat) → Result Bool
  active : (choice reference : Nat) → (expression : Bytes) → Result Bool

def choiceSelected (js : Option Script) (choice : Choice) (i : Nat) : Result Bool :=
  match js with
  | some js => js.selected i
  | none => do
      if ← staticBoolean choice.node (lit "start_selected") then staticBoolean choice.node (lit "selected")
      else return false

def referenceActive (js : Option Script) (found : Found) (i j : Nat) : Result Bool :=
  match found.active with
  | none => .ok true
  | some expression =>
      match js with
      | some js => js.active i j expression
      | none => .ok (expression = lit "true")

/-- One reference of a choice that is selected. -/
def resolveReference (decoders : Decoders) (js : Option Script) (dist : Node) (i : Nat) (pkg : Package)
    (n : Node × Nat) : Result Package := do
  let id ← xmlAttr n.1 (lit "id")
  let found ← findReference dist id
  if ← referenceActive js found i n.2 then loadComponent decoders pkg found.path id false
  else return pkg

def resolveChoice (decoders : Decoders) (js : Option Script) (dist : Node) (pkg : Package)
    (choice : Choice × Nat) : Result Package := do
  if ← choiceSelected js choice.1 choice.2 then
    (xmlElements choice.1.node).zipIdx.foldlM (resolveReference decoders js dist choice.2) pkg
  else return pkg

def checkPayloadPaths (pkg : Package) : Result Unit := do
  dieIf (pkg.components = []) "no package selected"
  let all ← (pkg.components.flatMap (·.payload)).foldlM entriesAppend []
  entriesCheckPaths all true

/-- The scripts are run only for a Distribution that needs them. -/
def Package.engine (pkg : Package) (script : Option Script) : Option Script := if pkg.needsJs then script else none

/-- `script` is what JavaScript comes to on the target, if there is a target. -/
def packageResolve (decoders : Decoders) (script : Option Script) (pkg : Package) : Result Package :=
  match pkg.distribution with
  | none => .ok pkg
  | some dist => do
      dieIf (pkg.needsJs ∧ script.isNone) "Installer JS selection requires a target"
      let choices ← outlineChoices dist
      let js := pkg.engine script
      js.elim (pure ()) Script.prepare
      let pkg ← choices.zipIdx.foldlM (resolveChoice decoders js dist) pkg
      let pkg := { pkg with distribution := none }
      checkPayloadPaths pkg
      return pkg

end MiniDarwin.Archive
