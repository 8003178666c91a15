import MiniDarwin.Posix.Rules

/-!
The data of the package installer `mdpkg` (`mdpkg.h`) and the monad its C
functions are written in.

A path of the C program is a string without empty components once it has
been normalized, and is kept here as the list of its names. A relative
path is the list itself, an absolute one the list of the names below `/`;
`strlen` and `hostLen` are the lengths of the two strings, which the
program bounds by `PATH_MAX`; a character stands for one byte. Strings that
have not been normalized, link targets and what is joined with them, stay
strings.

A C function is a procedure over the calls of `Posix`, with the file-scope
variables as its state and the message of `die` as its error.
-/

namespace MiniDarwin.Installer

open Posix Effects Effects.Proc

def pathMax : Nat := 1024

def limitEntries : Nat := 100000

def limitDepth : Nat := 128

def limitSymlinkHops : Nat := 32

/-- A name written out. -/
def nm (s : Str) (h : IsName s := by decide) : Name := ⟨s, h⟩

def tmpName : Name := nm "tmp".toList

/-- `RECEIPTS_DIR` -/
def receiptsDir : Path :=
  [nm "private".toList, nm "var".toList, nm "db".toList, nm "receipts".toList]

/-- `INVENTORY_DIR` -/
def inventoryDir : Path :=
  [nm "private".toList, nm "var".toList, nm "db".toList, nm "mdpkg".toList]

/-- `SCRIPTS_DIR` -/
def scriptsDir : Path := [nm ".mdpkg-scripts".toList]

/-- A link target that `make_entry` and `symlink_check_lexical` do not refuse at
sight: neither empty nor absolute nor too long. -/
abbrev LinkTarget := {t : Str // t ≠ [] ∧ t.head? ≠ some '/' ∧ t.length < pathMax}

/-- What `make_entry` accepts: the type of an entry and what comes with it. -/
inductive Content where
  | directory
  | file (data : Bytes)
  | symlink (target : LinkTarget)
  deriving DecidableEq

/-- One object of a payload or scripts archive. -/
structure Entry where
  path : Path
  /-- as packaged, when it differs from `path` -/
  packagePath : Option Path := none
  mode : Mode
  content : Content
  mtime : Int := 0

/-- `S_ISDIR (e->mode)` -/
def Entry.isDir (e : Entry) : Bool :=
  match e.content with
  | .directory => true
  | _ => false

/-- `e->link` -/
def Entry.link (e : Entry) : Option LinkTarget :=
  match e.content with
  | .symlink t => some t
  | _ => none

inductive Hook where
  | preflight
  | preinstall
  | postinstall
  | postflight
  deriving DecidableEq

/-- `hook_names` -/
def Hook.name : Hook → String
  | .preflight => "preflight"
  | .preinstall => "preinstall"
  | .postinstall => "postinstall"
  | .postflight => "postflight"

structure Component where
  identifier : Name
  location : Path
  bom : Bytes
  payload : List Entry
  scripts : List Entry
  hooks : Hook → Option Path

structure Package where
  components : List Component

/-- The parts of a run that statements about runs refer to. -/
inductive Part where
  | main
  | scripts
  | payload
  | receipts
  | dying
  deriving DecidableEq

/-- The file-scope variables of `install.c` and `util.c` that change during an
install: `tx.live`, `tx.published`, `create_hook`, the journal of a live
install and the modes and times of the base directories. -/
structure Globals where
  live : Bool := false
  published : Bool := false
  createHook : Bool := false
  journal : List Path := []
  baseDirectories : List (Path × Mode × Int) := []
  deriving DecidableEq

/-- What a directory entry of a snapshot records. -/
structure Snapshot where
  path : Path
  stat : Stat
  link : Option Str
  sha256 : Option Bytes
  deriving DecidableEq

/-- What an install is given: the command line, the environment, and the
functions of libraries whose results only end up in file contents. -/
structure Env where
  /-- `geteuid () == 0` -/
  privileged : Bool
  /-- `-skip-scripts` -/
  skipScripts : Bool
  /-- `-script-runner` -/
  runner : Option Path
  /-- the file that is being installed -/
  package : Path
  cwd : Path
  /-- `MDPKG_TEST_LIVE_ROOT` -/
  testLiveRoot : Option Path
  /-- `$TMPDIR`, `/private/var/tmp`, `/tmp`, as far as they are absolute -/
  tmpDirs : List Path
  sha256 : Bytes → Bytes
  /-- the receipt of a component, as libxml2 writes it -/
  receipt : Component → Bytes
  /-- the inventory of a component: its payload as installed and the changes
  its scripts made -/
  inventory : Component → List Snapshot → List (String × Snapshot) → Bytes

/-- A privileged run without options. -/
instance : Inhabited Env where
  default :=
    { privileged := true
      skipScripts := false
      runner := none
      package := []
      cwd := []
      testLiveRoot := none
      tmpDirs := [[tmpName]]
      sha256 := id
      receipt := fun _ => []
      inventory := fun _ _ _ => [] }

/-- A C function of the installer. -/
abbrev M := Proc (calls Part) Globals String

/-- `die ()` -/
def die {α : Type} (msg : String) : M α := fail msg

def strerror : Errno → String
  | .ENOENT => "No such file or directory"
  | .ENOTDIR => "Not a directory"
  | .EISDIR => "Is a directory"
  | .EEXIST => "File exists"
  | .ENOTEMPTY => "Directory not empty"
  | .EINVAL => "Invalid argument"
  | .ELOOP => "Too many levels of symbolic links"
  | .ENOTSUP => "Operation not supported"
  | .EXDEV => "Cross-device link"
  | .EDEVERR => "Device error"

/-- A call that must succeed: `if (call (...)) die (...)`. -/
def call (o : Op Part) (msg : Errno → String) : M o.Val := do
  match ← ask o with
  | .ok v => pure v
  | .error e => die (msg e)

/-- The string of a path, for messages. -/
def str (p : Path) : String := String.ofList (render p)

def hostStr (p : Path) : String := "/" ++ str p

def strlen (p : Path) : Nat := (render p).length

def hostLen (p : Path) : Nat := strlen p + 1

variable {K : Kernel Part} {E : Op Part → World Part → Prop}
  {g : Globals} {w : World Part} {D : String → Globals → World Part → Prop}

@[simp] theorem wp_die {α : Type} {msg : String} {Q : α → Globals → World Part → Prop} :
    wp (sem K) E (die msg : M α) Q D g w ↔ D msg g w := Iff.rfl

theorem wp_call {W : Type} {s : Sem (calls Part) W} {E : Op Part → W → Prop} {o : Op Part}
    {msg : Errno → String} {Q : o.Val → Globals → W → Prop} {D : String → Globals → W → Prop}
    {w : W} :
    wp s E (call o msg) Q D g w ↔
      wp (ε := String) s E (ask o)
        (fun r g' w' => match r with
          | .ok v => Q v g' w'
          | .error e => D (msg e) g' w') D g w := by
  unfold call
  rw [wp_bind]
  constructor <;> intro h
  · refine h.post ?_ (fun _ _ _ => id)
    rintro (e | v) g' w' hr <;> exact hr
  · refine h.post ?_ (fun _ _ _ => id)
    rintro (e | v) g' w' hr <;> exact hr

/-- The rule for a call that must succeed and whose success is known. -/
theorem wp_call_sem {o : Op Part} {msg : Errno → String} {Q : o.Val → Globals → World Part → Prop}
    (hE : E o w) (hD : ∀ e, D (msg e) g w) (hQ : ∀ r w', sem K o w (.ok r) w' → Q r g w') :
    wp (sem K) E (call o msg) Q D g w := wp_call.2 (wp_of_sem hE hD hQ)

end MiniDarwin.Installer
