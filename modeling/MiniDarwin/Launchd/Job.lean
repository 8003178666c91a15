import MiniDarwin.Launchd.Plist

/-!
Jobs (`job.hpp`, `job.cpp`): the configuration a property list gives one,
and what becomes of a job while launchd has it.

A function that changes a job is a function from the job before to the job
after. What it asks of the kernel, a reading of the clock, the outcome of
`fork ()`, what there is to read in a pipe, is an argument; the signals it
sends are returned.
-/

namespace MiniDarwin.Launchd

open Posix (Bytes)

/-- A point of the steady clock, in nanoseconds. -/
abbrev Time := Nat

/-- `std::chrono::seconds` -/
@[irreducible] def seconds (n : Nat) : Time := n * 10 ^ 9

abbrev Label := Bytes

abbrev Fd := Nat

/-- `sizeof (sockaddr_un::sun_path)` -/
def sunPathSize : Nat := 104

/-! ### Configuration -/

structure SocketConfig where
  name : Bytes
  path : Bytes
  mode : Nat := 0o600
  deriving DecidableEq

structure Config where
  label : Label
  program : Bytes
  arguments : List Bytes
  environment : List (Bytes × Bytes) := []
  directory : Bytes := []
  input : Bytes := ascii "/dev/null"
  output : Bytes := ascii "/dev/null"
  error : Bytes := ascii "/dev/null"
  runAtLoad : Bool := false
  keepAlive : Bool := false
  disabled : Bool := false
  throttle : Nat := 10
  exitTimeout : Nat := 20
  uid : Option Nat := none
  gid : Option Nat := none
  groups : List Nat := []
  sockets : List SocketConfig := []
  deriving DecidableEq

def scalarString (value : Value) : Result Bytes := do
  let result ← value.asString
  throwIf (0 ∈ result) (ascii "embedded NUL in string")
  return result

def absolutePath (value : Value) : Result Bytes := do
  let result ← scalarString value
  throwIf (result.head? ≠ some 47) (ascii "path must be absolute")
  return result

def integer (value : Value) (limit : Nat) : Result Nat := do
  let number := (← value.asInteger).toInt
  throwIf (number < 0 ∨ number > limit) (ascii "integer out of range")
  return number.toNat

def validIdentifier (value : Bytes) : Bool :=
  value ≠ [] ∧ value.length ≤ 255 ∧
    value.all fun c => 97 ≤ c ∧ c ≤ 122 ∨ 65 ≤ c ∧ c ≤ 90 ∨ 48 ≤ c ∧ c ≤ 57 ∨
      c = 46 ∨ c = 95 ∨ c = 45

/-- `if (auto it = dict.find (key); it != dict.end ()) result = read (it->second)` -/
def field {α : Type} (dict : List (Bytes × Value)) (key : String) (default : α)
    (read : Value → Result α) : Result α :=
  match dict.lookup (ascii key) with
  | some value => read value
  | none => .ok default

/-- Every key is one of those known. -/
def checkKeys (dict : List (Bytes × Value)) (keys : List String) (message : String) :
    Result Unit :=
  dict.forM fun entry =>
    if entry.1 ∈ keys.map ascii then .ok () else .error (ascii message ++ entry.1)

/-- A key that may only have one value. -/
def only (dict : List (Bytes × Value)) (key value message : String) : Result Unit :=
  field dict key () fun item => do
    throwIf ((← scalarString item) ≠ ascii value) (ascii message)

def socketConfig (name : Bytes) (value : Value) : Result SocketConfig := do
  let dict ← value.asDict
  checkKeys dict ["SockPathName", "SockPathMode", "SockType", "SockFamily", "SockPassive"]
    "unsupported socket key: "
  let path ← absolutePath (← required dict (ascii "SockPathName"))
  throwIf (path.length ≥ sunPathSize) (ascii "SockPathName is too long")
  let mode ← field dict "SockPathMode" 0o600 (integer · 0o777)
  only dict "SockType" "stream" "only stream sockets are supported"
  only dict "SockFamily" "Unix" "only Unix sockets are supported"
  field dict "SockPassive" () fun item => do
    throwIf (!(← item.asBoolean)) (ascii "only passive (listening) sockets are supported")
  return { name, path, mode }

/-- The loop over `Sockets`. -/
def socketConfigs : List (Bytes × Value) → List SocketConfig → Result (List SocketConfig)
  | [], sockets => .ok sockets
  | (name, item) :: rest, sockets => do
      throwIf (!validIdentifier name) (ascii "invalid socket name: " ++ name)
      let socket ← socketConfig name item
      throwIf (socket.path ∈ sockets.map (·.path)) (ascii "duplicate SockPathName")
      socketConfigs rest (sockets ++ [socket])

/-- `std::numeric_limits<uid_t>::max () - 1` -/
def idLimit : Nat := 2 ^ 32 - 2

/-- `Program`, or the first of the arguments. -/
def programOf (dict : List (Bytes × Value)) (arguments : List Bytes) : Result Bytes :=
  match dict.lookup (ascii "Program"), arguments with
  | some item, _ => absolutePath item
  | none, first :: _ => absolutePath (.string first)
  | none, [] => .error (ascii "Program or ProgramArguments is required")

/-- `euid` is `geteuid ()`. -/
def parseConfig (euid : Nat) (value : Value) (foreground : Bool) : Result Config := do
  let dict ← value.asDict
  checkKeys dict ["Label", "Program", "ProgramArguments", "RunAtLoad", "KeepAlive", "Disabled",
    "ThrottleInterval", "ExitTimeOut", "EnvironmentVariables", "WorkingDirectory",
    "StandardInPath", "StandardOutPath", "StandardErrorPath", "UserID", "GroupID",
    "SupplementaryGroups", "Sockets"] "unsupported job key: "
  let label ← scalarString (← required dict (ascii "Label"))
  throwIf (label = [] ∨ label.length > 255) (ascii "Label must have 1 to 255 characters")
  throwIf (!validIdentifier label) (ascii "Label contains invalid characters")
  let arguments ← field dict "ProgramArguments" [] fun item => do
    let arguments ← (← item.asArray).mapM scalarString
    throwIf (arguments.head?.getD [] = []) (ascii "ProgramArguments must be nonempty")
    return arguments
  let program ← programOf dict arguments
  let arguments := if arguments = [] then [program] else arguments
  let runAtLoad ← field dict "RunAtLoad" false Value.asBoolean
  let keepAlive ← field dict "KeepAlive" false Value.asBoolean
  let disabled ← field dict "Disabled" false Value.asBoolean
  let throttle ← field dict "ThrottleInterval" 10 (integer · 86400)
  let exitTimeout ← field dict "ExitTimeOut" 20 (integer · 86400)
  -- no zero-delay crash loops
  let throttle := if throttle = 0 then 1 else throttle
  let directory ← field dict "WorkingDirectory" [] absolutePath
  let input ← field dict "StandardInPath" (ascii "/dev/null") absolutePath
  let output ← field dict "StandardOutPath" (ascii "/dev/null") absolutePath
  let error ← field dict "StandardErrorPath" (ascii "/dev/null") absolutePath
  let environment ← field dict "EnvironmentVariables" [] fun item => do
    (← item.asDict).mapM fun entry => do
      throwIf (entry.1 = [] ∨ 61 ∈ entry.1 ∨ 0 ∈ entry.1) (ascii "invalid environment name")
      return (entry.1, ← scalarString entry.2)
  let uid ← field dict "UserID" none fun item => some <$> integer item idLimit
  let gid ← field dict "GroupID" none fun item => some <$> integer item idLimit
  throwIf (uid.isSome ≠ gid.isSome) (ascii "UserID and GroupID must be supplied together")
  let groups ← field dict "SupplementaryGroups" [] fun item => do
    throwIf (uid.isNone) (ascii "SupplementaryGroups requires UserID and GroupID")
    let groups ← (← item.asArray).mapM (integer · idLimit)
    throwIf (groups.length > 16) (ascii "at most 16 supplementary groups supported")
    return groups
  let sockets ← field dict "Sockets" [] fun item => do
    let sockets ← item.asDict
    throwIf (sockets = [] ∨ sockets.length > 16) (ascii "Sockets must name 1 to 16 sockets")
    socketConfigs sockets []
  throwIf (foreground ∧ uid.isSome) (ascii "identity changes are unavailable in foreground mode")
  throwIf (uid.isSome ∧ euid ≠ 0) (ascii "identity changes require root")
  return { label, program, arguments, environment, directory, input, output, error, runAtLoad,
           keepAlive, disabled, throttle, exitTimeout, uid, gid, groups, sockets }

/-! ### Jobs -/

/-- `class Listener`. The inode stands for the pair of device and inode. -/
structure Listener where
  path : Bytes
  inode : Nat
  name : Bytes
  fd : Fd
  deriving DecidableEq

inductive State where
  | idle
  | waiting
  | launching
  | running
  | stopping
  deriving DecidableEq

structure Job where
  config : Config
  state : State := .idle
  pid : Nat := 0
  enabled : Bool := true
  remove : Bool := false
  attempted : Bool := false
  killed : Bool := false
  lastAttempt : Time := 0
  /-- `none` is `Clock::time_point::max ()`, which no reading reaches -/
  stopDeadline : Option Time := some 0
  killDeadline : Time := 0
  exitStatus : Option Nat := none
  exitSignal : Option Nat := none
  launchError : Bytes := []
  /-- the reading end of the setup pipe -/
  execError : Option Fd := none
  execBytes : Bytes := []
  listeners : List Listener := []
  deriving DecidableEq

def stateName : State → Bytes
  | .idle => ascii "idle"
  | .waiting => ascii "waiting"
  | .launching => ascii "launching"
  | .running => ascii "running"
  | .stopping => ascii "stopping"

def jobStatus (job : Job) : Value :=
  .dict ([(ascii "Enabled", .boolean job.enabled)] ++
    (job.exitSignal.toList.map fun n => (ascii "ExitSignal", .integer (Int64.ofNat n))) ++
    (job.exitStatus.toList.map fun n => (ascii "ExitStatus", .integer (Int64.ofNat n))) ++
    [(ascii "Label", .string job.config.label), (ascii "LaunchError", .string job.launchError),
     (ascii "PID", .integer (Int64.ofNat job.pid)), (ascii "State", .string (stateName job.state))])

inductive Signal where
  | SIGTERM
  | SIGKILL
  deriving DecidableEq

/-- What `fork ()` and the pipe before it leave in the parent. -/
structure Forked where
  pid : Nat
  pid_pos : 0 < pid
  reader : Fd

/-- `spawn ()`, with the moment it begins and what becomes of it: the files it
opens, the pipe and the process it makes may all fail. -/
def Job.spawn (now : Time) (outcome : Result Forked) (job : Job) : Job :=
  let job := { job with lastAttempt := now, attempted := true, launchError := [], execBytes := [] }
  match outcome with
  | .error _ => job
  | .ok child =>
      { job with pid := child.pid, state := .launching, execError := some child.reader,
                 killed := false }

/-- What one `read ()` of the setup pipe says. -/
inductive PipeRead where
  | bytes (data : Bytes)
  | eof
  | interrupted
  | again
  | failed

/-- `sizeof (int)` -/
def intSize : Nat := 4

/-- The loop of `drainExecError ()`, over what the reads say; when they say no
more, the pipe is empty. -/
def Job.drainReads (strerror : Bytes → Bytes) (job : Job) : List PipeRead → Job
  | [] => job
  | .bytes data :: reads =>
      let job := { job with execBytes := job.execBytes ++ data }
      if job.execBytes.length > intSize then
        { job with launchError := ascii "invalid child setup response", execError := none }
      else job.drainReads strerror reads
  | .eof :: _ =>
      let job :=
        if job.execBytes ≠ [] then
          { job with launchError :=
              if job.execBytes.length = intSize then strerror job.execBytes
              else ascii "incomplete child setup response" }
        else if job.state = .launching then { job with state := .running }
        else job
      { job with execError := none }
  | .interrupted :: reads => job.drainReads strerror reads
  | .again :: _ => job
  | .failed :: _ =>
      { job with launchError := ascii "cannot read child setup response", execError := none }

def Job.drainExecError (strerror : Bytes → Bytes) (reads : List PipeRead) (job : Job) : Job :=
  if job.execError = none then job else job.drainReads strerror reads

theorem Job.drainReads_eq (strerror : Bytes → Bytes) (reads : List PipeRead) (job : Job) :
    ∃ state launchError execError execBytes,
      job.drainReads strerror reads = { job with state, launchError, execError, execBytes } ∧
        (state = job.state ∨ job.state = .launching ∧ state = .running) := by
  induction reads generalizing job with
  | nil => exact ⟨_, _, _, _, rfl, .inl rfl⟩
  | cons read reads ih =>
      cases read with
      | bytes data =>
          simp only [Job.drainReads]
          split
          · exact ⟨_, _, _, _, rfl, .inl rfl⟩
          · exact ih { job with execBytes := job.execBytes ++ data }
      | eof =>
          simp only [Job.drainReads]
          split
          · exact ⟨_, _, _, _, rfl, .inl rfl⟩
          · split
            · next h => exact ⟨_, _, _, _, rfl, .inr ⟨h, rfl⟩⟩
            · exact ⟨_, _, _, _, rfl, .inl rfl⟩
      | interrupted => exact ih job
      | again => exact ⟨_, _, _, _, rfl, .inl rfl⟩
      | failed => exact ⟨_, _, _, _, rfl, .inl rfl⟩

/-- All that reading the setup pipe can change. -/
theorem Job.drainExecError_eq (strerror : Bytes → Bytes) (reads : List PipeRead) (job : Job) :
    ∃ state launchError execError execBytes,
      job.drainExecError strerror reads = { job with state, launchError, execError, execBytes } ∧
        (state = job.state ∨ job.state = .launching ∧ state = .running) := by
  unfold Job.drainExecError
  split
  · exact ⟨_, _, _, _, rfl, .inl rfl⟩
  · exact job.drainReads_eq strerror reads

end MiniDarwin.Launchd
