import MiniDarwin.Installer.Transaction

/-!
The live install of `install.c`: the running root is changed in place, and
what was created is noted so that a failure can undo it.
-/

namespace MiniDarwin.Installer

open Posix Effects Effects.Proc

/-- `journal_undo ()` for one path. -/
def undoOne (p : Path) : M Unit := do
  match ← ask (.lstat p) with
  | .error _ => pure ()
  | .ok st =>
      if st.kind = .dir then do
        let _ ← ask (.rmdir p)
        pure ()
      else do
        let _ ← ask (.unlink p)
        pure ()

/-- `journal_undo ()` -/
def journalUndo : M Unit := do
  let g ← get
  each undoOne g.journal.reverse

/-- `rollback_live ()`, the `die` hook of a live install. -/
def rollbackLive (liveTmp : Path) : M Unit := do
  journalUndo
  let _ ← removeTree (limitDepth + 1) liveTmp
  pure ()

/-- `live_lock ()` -/
def liveLock (root : Path) : M Unit := do
  let rel ← relJoin inventoryDir [nm ".lock".toList]
  pathParents root rel true
  let lock ← hostJoin root rel
  call (.lock lock) fun _ => s!"unsafe lock file {hostStr lock}"

/-- The work area of the scripts: the first directory in which one can be made. -/
def makeLiveTmp : List Path → M Path
  | [] => die "no usable temporary directory for scripts"
  | d :: dirs => do
      match ← ask (.stat d) with
      | .error _ => makeLiveTmp dirs
      | .ok st =>
          if st.kind ≠ .dir then makeLiveTmp dirs
          else do
            let _ ← hostJoin d [nm "mdpkg.XXXXXX".toList]
            match ← ask (.mkdtemp d (nm "mdpkg.XXXXXX".toList)) with
            | .ok tmp => pure tmp
            | .error _ => makeLiveTmp dirs

/-- The component loop of `install_live ()`, with the `die` hook and the create
hook set. -/
def liveLoop (env : Env) (root : Path) (pkg : Package) (liveTmp : Path) : M Unit := do
  modify fun g => { g with createHook := true }
  onFail (do let _ ← ask (.enter .dying); rollbackLive liveTmp)
    (each (fun c => installComponent env root c liveTmp) pkg.components)
  modify fun g => { g with createHook := false }

/-- `realpath (root, resolved) ? resolved : root` -/
def resolvedRoot (requested : Path) : M Path := do
  match ← ask (.realpath ('/' :: render requested)) with
  | .ok resolved => pure resolved
  | .error _ => pure requested

/-- `install_live ()` up to the end of `preflight ()`. -/
def liveStart (env : Env) (requested : Path) (pkg : Except String Package) :
    M (Path × Package) := do
  modify fun g => { g with live := true }
  let root ← resolvedRoot requested
  if env.testLiveRoot = none ∧ ¬ env.privileged then
    die "installing into the running root requires root"
  else
    match pkg with
    | .error msg => die msg
    | .ok pkg => do
        liveLock root
        let pkg ← preflight env root pkg
        pure (root, pkg)

/-- `install_live ()` from the end of `preflight ()` on. -/
def liveInstall (env : Env) (root : Path) (pkg : Package) : M Unit := do
  let liveTmp ← makeLiveTmp env.tmpDirs
  liveLoop env root pkg liveTmp
  let _ ← removeTree (limitDepth + 1) liveTmp
  pure ()

/-- `install_live ()` -/
def installLive (env : Env) (requested : Path) (pkg : Except String Package) : M Package := do
  let x ← liveStart env requested pkg
  liveInstall env x.1 x.2
  pure x.2

/-- `is_running_root ()` -/
def isRunningRoot (env : Env) (root : Path) : M Bool := do
  match ← ask (.sameDir root []) with
  | .ok true => pure true
  | _ =>
      match env.testLiveRoot with
      | none => pure false
      | some test =>
          match ← ask (.sameDir root test) with
          | .ok same => pure same
          | .error _ => pure false

/-- `install_package ()` -/
def installPackage (env : Env) (root : Path) (pkg : Except String Package) : M Package := do
  if ← isRunningRoot env root then installLive env root pkg
  else do
    let tx ← requestedRoot env ('/' :: render root)
    installOffline env tx pkg

end MiniDarwin.Installer
