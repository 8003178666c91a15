import MiniDarwin.Installer.Extract

/-!
The offline install of `install.c`: a copy of the root is changed in a
transaction directory beside it and put in its place by two renames.
-/

namespace MiniDarwin.Installer

open Posix Effects Effects.Proc

/-! ### Removal -/

/-- One round of the loop of `remove_tree ()`: a path that does not fit its buffer
is not removed. -/
def removeChild (remove : Path → M Bool) (path : Path) (n : Name) : M Bool :=
  if hostLen path + 1 + n.1.length ≥ pathMax then pure false else remove (path ++ [n])

/-- The loop of `remove_tree ()` over a directory that is being read; true if all
of it was removed. -/
def removeEach (remove : Path → M Bool) (path : Path) : List Name → M Bool
  | [] => pure true
  | n :: names => do
      let gone ← removeChild remove path n
      let rest ← removeEach remove path names
      pure (gone && rest)

/-- `remove_tree ()` with `removeDir` for a directory. -/
def removeNode (removeDir : Path → Stat → M Bool) (path : Path) : M Bool := do
  match ← ask (.lstat path) with
  | .error e => pure (e = .ENOENT)
  | .ok st =>
      if st.kind ≠ .dir then
        match ← ask (.unlink path) with
        | .ok _ => pure true
        | .error _ => pure false
      else removeDir path st

/-- `remove_tree ()`: true for the status 0. `left` is the number of levels still
allowed, `LIMIT_DEPTH + 1 - depth`. -/
def removeTree : (left : Nat) → Path → M Bool
  | 0 => removeNode fun _ _ => pure false
  | left + 1 => removeNode fun path st => do
      match ← ask (.chmod path (st.mode ||| 0o700)) with
      | .error _ => pure false
      | .ok _ =>
          match ← ask (.listdir path) with
          | .error _ => pure false
          | .ok names =>
              if ← removeEach (removeTree left) path names then
                match ← ask (.rmdir path) with
                | .ok _ => pure true
                | .error _ => pure false
              else pure false

/-- `remove_or_die ()` -/
def removeOrDie (path : Path) : M Unit := do
  if ← removeTree (limitDepth + 1) path then pure ()
  else die s!"cannot remove {hostStr path}"

/-- `sync_dir ()` -/
def syncDir (path : Path) : M Unit :=
  call (.syncDir path) fun e => s!"sync {hostStr path}: {strerror e}"

/-! ### The transaction -/

/-- The name `lock_and_recover ()` gives the lock file and the transaction
directory: that of the root with a suffix. -/
def Name.suffixed (n : Name) (s : Str) (h : '/' ∉ s := by decide) : Name :=
  ⟨n.1 ++ s, n.2.append h⟩

/-- `tx`: the parent of the root, with no links in it, and the root's name. -/
structure Tx where
  parent : Path
  name : Name

namespace Tx

def root (tx : Tx) : Path := tx.parent ++ [tx.name]

def lock (tx : Tx) : Path := tx.parent ++ [Name.suffixed tx.name ".mdpkg-lock".toList]

def dir (tx : Tx) : Path := tx.parent ++ [Name.suffixed tx.name ".mdpkg-transaction".toList]

def targetName : Name := nm "target".toList

def stageName : Name := nm "new".toList

def originalName : Name := nm "original".toList

def stage (tx : Tx) : Path := tx.dir ++ [stageName]

def original (tx : Tx) : Path := tx.dir ++ [originalName]

/-- What the file `target` holds. -/
def rootBytes (tx : Tx) : Bytes := ('/' :: render tx.root).map fun c => UInt8.ofNat c.toNat

end Tx

/-- The condition of `rollback ()`: unless the root has been published, the
original is put back if it has been moved away. False if that failed. -/
def restoreOriginal (tx : Tx) : M Bool := do
  let g ← get
  if g.published then pure true
  else do
    match ← ask (.lstat tx.original) with
    | .error _ => pure true
    | .ok _ =>
        match ← ask (.lstat tx.root) with
        | .ok _ => pure true
        | .error _ =>
            match ← ask (.rename tx.original tx.root) with
            | .ok _ => pure true
            | .error _ => pure false

/-- `rollback ()`, the `die` hook of a transaction. -/
def rollback (tx : Tx) : M Unit := do
  if ← restoreOriginal tx then do
    let _ ← removeTree (limitDepth + 1) tx.dir
    pure ()
  else pure ()

/-- The middle of `recover ()`: an original that was moved away is put back,
unless a root has taken its place. -/
def recoverRoot (tx : Tx) : M Unit := do
  if ← pathExists tx.original then
    if ← pathExists tx.root then do
      let st : Stat ← call (.lstat tx.root) fun _ => s!"unsafe published root: {hostStr tx.root}"
      if st.kind ≠ .dir then die s!"unsafe published root: {hostStr tx.root}" else pure ()
    else
      call (.rename tx.original tx.root) fun e =>
        s!"cannot restore {hostStr tx.root}: {strerror e}"
  else pure ()

/-- `recover ()`. Owners are not modelled. -/
def recover (tx : Tx) : M Unit := do
  let st : Stat ← call (.lstat tx.dir) fun _ => s!"unsafe transaction directory: {hostStr tx.dir}"
  if st.kind ≠ .dir ∨ st.mode &&& 0o777 ≠ 0o700 then
    die s!"unsafe transaction directory: {hostStr tx.dir}"
  else do
    let marker ← hostJoin tx.dir [Tx.targetName]
    let target ← fileRead marker pathMax
    if target ≠ tx.rootBytes then die s!"transaction {hostStr tx.dir} belongs to another root"
    else do
      recoverRoot tx
      removeOrDie tx.dir
      syncDir tx.parent

def absolutePath (env : Env) (requested : Str) : M Str :=
  if requested.head? = some '/' then pure requested
  else strJoin ('/' :: render env.cwd) requested

/-- The first half of `lock_and_recover ()`: which root is meant. Only the parent
is canonicalized. -/
def requestedRoot (env : Env) (requested : Str) : M Tx := do
  let absolute ← absolutePath env requested
  let trimmed := (absolute.reverse.dropWhile (· = '/')).reverse
  let name := (trimmed.reverse.takeWhile (· ≠ '/')).reverse
  if h : IsName name then do
    let parent : Path ← call (.realpath (trimmed.take (trimmed.length - name.length)))
      fun e => s!"root parent: {strerror e}"
    let root ← hostJoin parent [⟨name, h⟩]
    if pathHasPrefix root [nm "nix".toList, nm "store".toList] then
      die "refusing a Nix store destination"
    else pure ⟨parent, ⟨name, h⟩⟩
  else die s!"refusing root {String.ofList requested}"

/-- `if (path_exists (tx.dir)) recover ()` -/
def recoverIfAny (tx : Tx) : M Unit := do
  if ← pathExists tx.dir then recover tx else pure ()

/-- The end of `lock_and_recover ()`: what a root has to be. -/
def checkRoot (tx : Tx) : M Unit := do
  let msg := "root must be a real, readable directory with a writable parent"
  let st : Stat ← call (.lstat tx.root) fun _ => msg
  if st.kind ≠ .dir then die msg
  else do
    let _ ← call (.access tx.root) fun _ => msg
    call (.access tx.parent) fun _ => msg

/-- The second half of `lock_and_recover ()`. -/
def lockAndRecover (tx : Tx) : M Unit := do
  let _ ← call (.lock tx.lock) fun _ => s!"unsafe lock file {hostStr tx.lock}"
  let _ ← hostJoin tx.dir [Tx.stageName]
  let _ ← hostJoin tx.dir [Tx.originalName]
  recoverIfAny tx
  checkRoot tx

/-- The entries of a directory that `stage_copy ()` is copying. -/
def copyEach (copy : Path → Path → Path → M Unit) (src dst rel : Path) : List Name → M Unit
  | [] => pure ()
  | n :: names => do
      let a ← hostJoin src [n]
      let b ← hostJoin dst [n]
      let r ← relJoin rel [n]
      copy a b r
      copyEach copy src dst rel names

/-- A regular file is cloned, or copied where that is not supported. -/
def cloneOrCopy (src dst : Path) (mode : Mode) (mtime : Timespec) : M Unit := do
  match ← ask (.clonefile src dst) with
  | .ok _ => pure ()
  | .error e =>
      if e ≠ .ENOTSUP ∧ e ≠ .EXDEV then die s!"clone {hostStr src}: {strerror e}"
      else do
        fileCopy src dst mode
        setTimes dst mtime

/-- `stage_copy ()`, `left` being the number of levels still allowed. The time that `lstat ()`
returns is asked for by a call of its own. -/
def stageCopy (env : Env) : (left : Nat) → (src dst rel : Path) → M Unit
  | 0, _, _, _ => die "root nesting limit"
  | left + 1, src, dst, rel => do
      let st : Stat ← call (.lstat src) fun e => s!"stat {hostStr src}: {strerror e}"
      let mtime : Timespec ← call (.mtime src) fun e => s!"stat {hostStr src}: {strerror e}"
      match st.kind with
      | .dir => do
          let _ ← call (.mkdir dst 0o700) fun e => s!"mkdir {hostStr dst}: {strerror e}"
          let g ← get
          let bases ← entriesAppend g.baseDirectories (rel, st.mode, mtime.sec)
          modify fun g => { g with baseDirectories := bases }
          let names : List Name ←
            call (.listdir src) fun e => s!"opendir {hostStr src}: {strerror e}"
          copyEach (stageCopy env left) src dst rel names
          applyOwnership env dst
          call (.chmod dst (st.mode ||| 0o700)) fun e => s!"chmod {hostStr dst}: {strerror e}"
      | .file => do
          cloneOrCopy src dst st.mode mtime
          applyOwnership env dst
      | .link => do
          let target ← readlink src
          let _ ← call (.symlink target dst) fun e => s!"symlink {hostStr dst}: {strerror e}"
          applyOwnership env dst
          setTimes dst mtime
      | .other => die s!"unsupported file type in root: {hostStr src}"

/-- `restore_base_directories ()` for one directory. -/
def restoreBaseDirectory (stage : Path) (e : Path × Mode × Int) : M Unit := do
  let path ← hostJoin stage e.1
  let st : Stat ← call (.lstat path) fun _ => s!"a script replaced the directory /{str e.1}"
  if st.kind ≠ .dir then die s!"a script replaced the directory /{str e.1}"
  else do
    let _ ← call (.chmod path e.2.1) fun e => s!"chmod {hostStr path}: {strerror e}"
    setTimes path ⟨e.2.2, 0⟩

/-- `restore_base_directories ()` -/
def restoreBaseDirectories (stage : Path) : M Unit := do
  let g ← get
  each (restoreBaseDirectory stage) g.baseDirectories.reverse

/-- `publish ()` -/
def publish (tx : Tx) : M Unit := do
  syncDir tx.stage
  syncDir tx.dir
  let _ ← call (.rename tx.root tx.original) fun e =>
    s!"move {hostStr tx.root} aside: {strerror e}"
  syncDir tx.parent
  syncDir tx.dir
  let _ ← call (.rename tx.stage tx.root) fun e => s!"publish {hostStr tx.root}: {strerror e}"
  modify fun g => { g with published := true }
  syncDir tx.parent
  syncDir tx.dir
  let _ ← removeTree (limitDepth + 1) tx.dir
  pure ()

/-- The part of `install_package ()` that fills the stage. -/
def fillStage (env : Env) (tx : Tx) (pkg : Package) : M Unit := do
  stageCopy env (limitDepth + 1) tx.root tx.stage []
  let scripts ← hostJoin tx.stage scriptsDir
  let _ ← call (.mkdir scripts 0o700) fun e => s!"mkdir {hostStr scripts}: {strerror e}"
  each (fun c => installComponent env tx.stage c scripts) pkg.components
  removeOrDie scripts
  restoreBaseDirectories tx.stage

/-- The part of `install_package ()` from the marker on until the stage is filled. -/
def prepare (env : Env) (tx : Tx) (pkg : Package) : M Unit := do
  let marker ← hostJoin tx.dir [Tx.targetName]
  fileWrite marker tx.rootBytes 0o600
  syncDir tx.parent
  fillStage env tx pkg

/-- The part of `install_package ()` that runs with the `die` hook set. -/
def transact (env : Env) (tx : Tx) (pkg : Package) : M Unit := do
  prepare env tx pkg
  publish tx

/-- `install_package ()` for an offline root, when `lock_and_recover ()` has
returned. `pkg` is what `package_resolve ()` makes of the package, or its
complaint. The package as it was installed is returned. -/
def installLocked (env : Env) (tx : Tx) : Except String Package → M Package
  | .error msg => die msg
  | .ok pkg => do
      let pkg ← preflight env tx.root pkg
      let _ ← call (.mkdir tx.dir 0o700) fun e => s!"mkdir {hostStr tx.dir}: {strerror e}"
      onFail (do let _ ← ask (.enter .dying); rollback tx) (transact env tx pkg)
      pure pkg

/-- `install_package ()` for an offline root, from `lock_and_recover ()` on. -/
def installOffline (env : Env) (tx : Tx) (pkg : Except String Package) : M Package := do
  lockAndRecover tx
  installLocked env tx pkg

/-- An empty root `/r`. -/
def emptyRoot : World Part :=
  let fs := Fs.bare.create [nm "r".toList] (.dir 0o755) (by decide) (by decide) (by decide)
  ⟨fs, .main, fs, []⟩

def emptyRootTx : Tx := ⟨[], nm "r".toList⟩

/-- A root `/r` with a file, `/r/old`. -/
def oneFileRoot : World Part :=
  let fs := emptyRoot.fs.create [nm "r".toList, nm "old".toList] (.file 0o644 [1]) (by decide) (by decide)
    (by decide)
  ⟨fs, .main, fs, []⟩

/-- A component whose payload is `/added`, a file. -/
def addingComponent : Component where
  identifier := nm "adding".toList
  location := []
  bom := []
  payload := [{ path := [nm "added".toList], mode := 0o644, content := .file [2] }]
  scripts := []
  hooks _ := none

/-- The install of it is published and leaves no transaction. -/
example :
    let fs := ((installOffline default emptyRootTx (.ok ⟨[addingComponent]⟩) {}).exec Op.answer oneFileRoot).2.fs
    fs.get emptyRootTx.dir = none ∧ fs.get (emptyRootTx.root ++ [nm "old".toList]) = some (.file 0o644 [1]) ∧
      fs.get (emptyRootTx.root ++ [nm "added".toList]) = some (.file 0o644 [2]) := by decide +kernel

end MiniDarwin.Installer
