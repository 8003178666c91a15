import MiniDarwin.Installer.Preflight

/-!
The installation of one component: unpacking, the check of its links, its
scripts and its receipts.
-/

namespace MiniDarwin.Installer

open Posix Effects Effects.Proc

/-- `apply_ownership ()` -/
def applyOwnership (env : Env) (path : Path) : M Unit :=
  if env.privileged then
    call (.chown path) fun e => s!"chown {hostStr path}: {strerror e}"
  else pure ()

/-- `set_times ()` -/
def setTimes (path : Path) (mtime : Timespec) : M Unit :=
  call (.utimes path mtime) fun e => s!"set times on {hostStr path}: {strerror e}"

/-- `if (tx.live) journal_add (path)` -/
def journalLive (path : Path) : M Unit := do
  let g ← get
  if g.live then journalAdd path else pure ()

/-- The first loop of `extract ()` for one entry, once its host path has been
looked up; true if a directory was made. -/
def extractAt (env : Env) (e : Entry) (path : Path) (st : Except Errno Stat) : M Bool :=
  match e.content, st with
  | .directory, .ok st =>
      if st.kind ≠ .dir then die s!"payload directory collides with a file: /{str e.path}"
      else pure false
  | .directory, .error _ => do
      let _ ← call (.mkdir path 0o700) fun e => s!"mkdir {hostStr path}: {strerror e}"
      journalLive path
      applyOwnership env path
      pure true
  | _, .ok _ => die s!"payload would replace an existing file: /{str e.path}"
  | .symlink t, .error _ => do
      let _ ← call (.symlink t.1 path) fun e => s!"symlink {hostStr path}: {strerror e}"
      journalLive path
      applyOwnership env path
      setTimes path ⟨e.mtime, 0⟩
      pure false
  | .file data, .error _ => do
      fileWrite path data e.mode
      applyOwnership env path
      setTimes path ⟨e.mtime, 0⟩
      pure false

/-- The first loop of `extract ()` for one entry. -/
def extractEntry (env : Env) (base : Path) (e : Entry) : M Bool :=
  if e.path = [] then pure false
  else do
    pathParents base e.path true
    let path ← hostJoin base e.path
    let st ← ask (.lstat path)
    extractAt env e path st

/-- The first loop of `extract ()`: the entries whose directory was made, the
last of them first. -/
def extractEntries (env : Env) (base : Path) : List Entry → List Entry → M (List Entry)
  | created, [] => pure created
  | created, e :: es => do
      if ← extractEntry env base e then extractEntries env base (e :: created) es
      else extractEntries env base created es

/-- The second loop of `extract ()` for one directory. -/
def finishDirectory (base : Path) (e : Entry) : M Unit := do
  let path ← hostJoin base e.path
  let _ ← call (.chmod path e.mode) fun e => s!"chmod {hostStr path}: {strerror e}"
  setTimes path ⟨e.mtime, 0⟩

/-- `extract ()` -/
def extract (env : Env) (entries : List Entry) (base : Path) : M Unit := do
  let created ← extractEntries env base [] entries
  each (finishDirectory base) created

/-- The body of the loop of `check_payload_symlinks ()`. -/
def checkLink (base : Path) (e : Entry) : M Unit :=
  match e.link with
  | none => pure ()
  | some t => do
      let target ← strJoin (render e.path.dropLast) t.1
      let _ ← resolveBeneath base target true
      pure ()

/-- `check_payload_symlinks ()` -/
def checkPayloadSymlinks (base : Path) (c : Component) : M Unit :=
  each (checkLink base) c.payload

/-! ### Snapshots -/

/-- `snapshot_entry ()` -/
def snapshotEntry (env : Env) (base rel : Path) : M Snapshot := do
  let path ← hostJoin base rel
  let st : Stat ← call (.lstat path) fun e => s!"stat {hostStr path}: {strerror e}"
  match st.kind with
  | .file => do
      let data ← fileSha256 env path
      pure ⟨rel, st, none, some data⟩
  | .link => do
      let target ← readlink path
      pure ⟨rel, st, some target, none⟩
  | .dir => pure ⟨rel, st, none, none⟩
  | .other => die s!"unsupported file type (made by a script?): /{str rel}"

/-- `snapshot_walk ()`, `left` being the number of levels still allowed. -/
def snapshotWalk (env : Env) (base : Path) :
    (left : Nat) → Path → List Snapshot → M (List Snapshot)
  | 0, _, _ => die "root nesting limit"
  | left + 1, rel, out => do
      let e ← snapshotEntry env base rel
      let out ← entriesAppend out e
      if e.stat.kind ≠ .dir then pure out
      else do
        let path ← hostJoin base rel
        let names : List Name ←
          call (.listdir path) fun e => s!"opendir {hostStr path}: {strerror e}"
        (names.filter fun n => ¬ (rel = [] ∧ [n] = scriptsDir)).foldlM (fun out n => do
          let child ← relJoin rel [n]
          snapshotWalk env base left child out) out

/-- `snapshot_tree ()` -/
def snapshotTree (env : Env) (base : Path) : M (List Snapshot) :=
  snapshotWalk env base (limitDepth + 1) [] []

/-- `same_entry ()` -/
def sameEntry (a b : Snapshot) : Bool :=
  a.stat.kind = b.stat.kind ∧ a.stat.mode = b.stat.mode ∧ a.link = b.link ∧ a.sha256 = b.sha256

/-- `entries_find ()` -/
def entriesFind (list : List Snapshot) (path : Path) : Option Snapshot :=
  list.find? fun e => e.path = path

/-- `script_changes ()` -/
def scriptChanges (out : List (String × Snapshot)) (before after : List Snapshot) :
    M (List (String × Snapshot)) := do
  let out ← after.foldlM (fun out now =>
    match entriesFind before now.path with
    | none => entriesAppend out ("created", now)
    | some was => if sameEntry now was then pure out else entriesAppend out ("modified", now)) out
  before.foldlM (fun out was =>
    match entriesFind after was.path with
    | none => entriesAppend out ("removed", was)
    | some _ => pure out) out

/-! ### Scripts and receipts -/

/-- Without a runner the script itself is run. -/
def checkExecutable (env : Env) (c : Component) (hook : Hook) (script : Path) : M Unit :=
  if env.runner = none then
    call (.access script) fun _ => s!"{String.ofList c.identifier.1} {hook.name} is not executable"
  else pure ()

/-- The arguments of a script, or of its runner. -/
def hookArgs (env : Env) (base script workdir target : Path) : List Path :=
  match env.runner with
  | none => [script, env.package, target, base]
  | some runner => [runner, script, workdir, env.package, target, base]

/-- `run_hook ()` -/
def runHook (env : Env) (base : Path) (c : Component) (hook : Hook) (workdir : Path) : M Unit :=
  match c.hooks hook with
  | none => pure ()
  | some name => do
      let script ← hostJoin workdir name
      let target ← hostJoin base c.location
      checkExecutable env c hook script
      let status ← call (.spawn (hookArgs env base script workdir target)) fun e =>
        s!"fork: {strerror e}"
      if status then pure ()
      else die s!"{String.ofList c.identifier.1} {hook.name} failed"

/-- `any_hook ()` -/
def anyHook (c : Component) (first last : Hook) : Bool :=
  (c.hooks first).isSome || (c.hooks last).isSome

/-- No snapshots of a live root: it is the whole running system. -/
def snapshotUnlessLive (env : Env) (base : Path) (live : Bool) : M (List Snapshot) :=
  if live then pure [] else snapshotTree env base

/-- Two hooks in a row and what they changed. -/
def runHooks (env : Env) (base : Path) (c : Component) (first last : Hook) (workdir : Path)
    (changes : List (String × Snapshot)) : M (List (String × Snapshot)) :=
  if anyHook c first last then do
    let g ← get
    let before ← snapshotUnlessLive env base g.live
    runHook env base c first workdir
    runHook env base c last workdir
    let after ← snapshotUnlessLive env base g.live
    scriptChanges changes before after
  else pure changes

/-- `write_plist ()` -/
def writePlist (base rel : Path) (data : Bytes) : M Unit := do
  pathParents base rel true
  let path ← hostJoin base rel
  fileWrite path data 0o644

/-- A payload entry as installed. -/
def installedEntries (env : Env) (base : Path) : List Entry → M (List Snapshot)
  | [] => pure []
  | wanted :: rest => do
      let host ← hostJoin base wanted.path
      let _ ← call (.lstat host) fun _ => s!"a script removed payload entry /{str wanted.path}"
      let e ← snapshotEntry env base wanted.path
      let es ← installedEntries env base rest
      pure (e :: es)

/-- `receipts_write ()` -/
def receiptsWrite (env : Env) (base : Path) (c : Component)
    (changes : List (String × Snapshot)) : M Unit := do
  writePlist base (Record.plist.path c.identifier) (env.receipt c)
  let bom ← hostJoin base (Record.bom.path c.identifier)
  fileWrite bom c.bom 0o644
  let installed ← installedEntries env base c.payload
  writePlist base (Record.inventory.path c.identifier) (env.inventory c installed changes)

/-- The marks do not exist in the source: they say to which part of the work the
calls between them belong. -/
def during (part : Part) (m : M Unit) : M Unit := do
  let _ ← ask (.enter part)
  m
  let _ ← ask (.enter .main)
  pure ()

/-- The work directory of a component. -/
def unpackScripts (env : Env) (c : Component) (workdir : Path) : M Unit := do
  let _ ← call (.mkdir workdir 0o700) fun e => s!"mkdir {hostStr workdir}: {strerror e}"
  extract env c.scripts workdir

/-- `install_component ()` -/
def installComponent (env : Env) (base : Path) (c : Component) (scripts : Path) : M Unit := do
  let workdir ← hostJoin scripts [c.identifier]
  during .scripts (unpackScripts env c workdir)
  let changes ← runHooks env base c .preflight .preinstall workdir []
  during .payload (extract env c.payload base)
  checkPayloadSymlinks base c
  let changes ← runHooks env base c .postinstall .postflight workdir changes
  during .receipts (receiptsWrite env base c changes)

end MiniDarwin.Installer
