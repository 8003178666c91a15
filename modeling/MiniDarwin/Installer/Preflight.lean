import MiniDarwin.Installer.Resolve

/-!
What `install.c` does before it changes anything: payload entries are
placed where the root's links lead, and everything that would collide
with what is there is refused.
-/

namespace MiniDarwin.Installer

open Posix Effects Effects.Proc

/-- `is_reserved ()` -/
def isReserved (path : Path) : Bool :=
  pathHasPrefix path receiptsDir || pathHasPrefix path inventoryDir ||
    pathHasPrefix path scriptsDir

/-- Where an entry goes. A directory may be one that a link leads to; of anything
else only the directory it is in is resolved. -/
def placedPath (root : Path) (e : Entry) : M Path :=
  if e.isDir then resolveBeneath root (render e.path) true
  else do
    let resolved ← resolveBeneath root (render e.path.dropLast) true
    match e.path.getLast? with
    | none => pure resolved
    | some n => relJoin resolved [n]

/-- The body of the loop of `place_payload ()`. -/
def placeEntry (root : Path) (e : Entry) : M Entry := do
  let placed ← placedPath root e
  let e := if placed = e.path then e else { e with packagePath := some e.path, path := placed }
  if isReserved e.path then die s!"payload writes to a path mdpkg reserves: {str e.path}"
  else pure e

/-- The entries of one component, and all entries so far. -/
def placeEntries (root : Path) : List Entry → List Entry → M (List Entry × List Entry)
  | all, [] => pure ([], all)
  | all, e :: es => do
      let e ← placeEntry root e
      let all ← entriesAppend all e
      let x ← placeEntries root all es
      pure (e :: x.1, x.2)

def placeComponents (root : Path) : List Entry → List Component → M (List Component × List Entry)
  | all, [] => pure ([], all)
  | all, c :: cs => do
      let x ← placeEntries root all c.payload
      let y ← placeComponents root x.2 cs
      pure ({ c with payload := x.1 } :: y.1, y.2)

/-- `place_payload ()` -/
def placePayload (root : Path) (pkg : Package) : M Package := do
  let x ← placeComponents root [] pkg.components
  entriesCheckPaths x.2 true
  pure { pkg with components := x.1 }

/-- The three files that record an installed component. -/
inductive Record where
  | plist
  | bom
  | inventory
  deriving DecidableEq

def Record.dir : Record → Path
  | .plist | .bom => receiptsDir
  | .inventory => inventoryDir

def Record.name (id : Name) : Record → Name
  | .plist => ⟨id.1 ++ ".plist".toList, id.2.append (by decide)⟩
  | .bom => ⟨id.1 ++ ".bom".toList, id.2.append (by decide)⟩
  | .inventory => ⟨id.1 ++ ".inventory.plist".toList, id.2.append (by decide)⟩

def Record.path (id : Name) (r : Record) : Path := r.dir ++ [r.name id]

def records : List Record := [.plist, .bom, .inventory]

def hooks : List Hook := [.preflight, .preinstall, .postinstall, .postflight]

/-- No record of the component exists. -/
def preflightRecord (root : Path) (c : Component) (r : Record) : M Unit := do
  let rel := r.path c.identifier
  pathParents root rel false
  let host ← hostJoin root rel
  if ← pathExists host then
    die s!"{String.ofList c.identifier.1} is already installed ({str rel} exists)"
  else pure ()

/-- Nothing is in the way of the entry. -/
def preflightEntry (root : Path) (e : Entry) : M Unit :=
  if e.path = [] then pure ()
  else do
    pathParents root e.path false
    let host ← hostJoin root e.path
    match ← ask (.lstat host) with
    | .ok st =>
        if e.isDir ∧ st.kind = .dir then pure ()
        else die s!"payload would replace an existing file: /{str e.path}"
    | .error _ => pure ()

def preflightComponent (env : Env) (root : Path) (c : Component) : M Unit := do
  let g ← get
  each (fun h =>
    if (c.hooks h).isSome ∧ env.runner = none ∧ ¬ g.live then
      die s!"{String.ofList c.identifier.1} has a {h.name} script; an offline root needs an isolating -script-runner (scripts run directly only in the running root)"
    else pure ()) hooks
  each (preflightRecord root c) records
  each (preflightEntry root) c.payload

/-- `-skip-scripts` -/
def Component.skip (env : Env) (c : Component) : Component :=
  if env.skipScripts then { c with hooks := fun _ => none } else c

/-- `preflight ()` -/
def preflight (env : Env) (root : Path) (pkg : Package) : M Package := do
  let pkg ← placePayload root pkg
  let pkg : Package := { pkg with components := pkg.components.map (·.skip env) }
  each (preflightComponent env root) pkg.components
  let scripts ← hostJoin root scriptsDir
  if ← pathExists scripts then die s!"reserved path exists in root: /{str scriptsDir}"
  else pure pkg

end MiniDarwin.Installer
