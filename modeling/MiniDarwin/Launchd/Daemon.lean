import MiniDarwin.Launchd.Calls

/-!
The supervisor (`daemon.cpp`): the functions of `class Supervisor`, as
programs over the calls, and the loop `run ()`.

A loop over `jobs_` goes over the labels there are when it begins; no body
adds a job. What is only logged is left out: the messages, the reports
of `reportStillAlive ()` and the strays of `finishShutdown ()`.
-/

namespace MiniDarwin.Launchd

open Posix (Bytes)
open Effects Effects.Proc

variable (env : Env)

def ask (o : Op) : M o.Ans := sys (S := calls) o

/-- `systemError ()` -/
def systemError {α : Type} (operation : Bytes) (e : Errno) : M α :=
  fail (operation ++ ascii ": " ++ env.strerror e)

/-- The value of a call that must not fail. -/
def orThrow {α : Type} (operation : Bytes) : Except Errno α → M α
  | .ok a => pure a
  | .error e => systemError env operation e

/-- The value of a function that may throw. -/
def lift {α : Type} : Result α → M α
  | .ok a => pure a
  | .error message => fail message

/-! ### Files -/

def readFile (path : Bytes) (trusted : Bool) : M Bytes := do
  let file ← orThrow env (ascii "open " ++ path) (← ask (.openRead path))
  orThrow env (ascii "fstat") (← ask .fstat)
  lift (throwIf (!file.regular ∨ file.data.length > maxMessage)
    (ascii "plist must be a regular file of at most 1 MiB"))
  lift (throwIf (trusted ∧ !file.trusted)
    (ascii "system plist must be root-owned and not group/world writable"))
  let bytes ← orThrow env (ascii "read plist") (← ask (.readAll file))
  lift (throwIf (bytes.length > maxMessage) (ascii "plist exceeds size limit"))
  return bytes

/-- A stale socket from an earlier boot is replaced; anything else is not. -/
def removeStale (path : Bytes) : M Unit := do
  match ← ask (.lstat path) with
  | .ok (.socket _) => do
      orThrow env (ascii "remove stale socket " ++ path) (← ask (.unlink path))
  | .ok .other => fail (ascii "refusing to replace non-socket " ++ path)
  | .error e => if e ≠ .ENOENT then systemError env (ascii "stat " ++ path) e else pure ()

/-- `systemError ()` once the path has been bound. -/
def unbind {α : Type} (path operation : Bytes) (e : Errno) : M α := do
  let _ ← ask (.unlink path)
  systemError env operation e

/-- The constructor of `Listener`. -/
def openListener (config : SocketConfig) : M Listener := do
  removeStale env config.path
  let fd ← orThrow env (ascii "socket") (← ask .socket)
  orThrow env (ascii "fcntl CLOEXEC") (← ask .fcntl)
  let inode ← orThrow env (ascii "bind " ++ config.path) (← ask (.bind config.path))
  match ← ask (.lstat config.path) with
  | .error e => unbind env config.path (ascii "stat " ++ config.path) e
  | .ok _ => do
      match ← ask (.chmod config.path) with
      | .error e => unbind env config.path (ascii "initialize " ++ config.path) e
      | .ok () => do
          match ← ask (.listen fd) with
          | .error e => unbind env config.path (ascii "initialize " ++ config.path) e
          | .ok () => return { path := config.path, inode, name := config.name, fd }

/-- The destructor of `Listener`. -/
def closeListener (listener : Listener) : M Unit := do
  match ← ask (.lstat listener.path) with
  | .ok (.socket i) =>
      if i = listener.inode then do
        let _ ← ask (.unlink listener.path)
        pure ()
      else pure ()
  | _ => pure ()

/-- The sockets of a job, or none of them: those that are open are closed when
one fails. -/
def openListeners : List SocketConfig → List Listener → M (List Listener)
  | [], listeners => pure listeners
  | config :: configs, listeners => do
      let listener ← onFail (each closeListener listeners) (openListener env config)
      openListeners configs (listeners ++ [listener])

/-! ### Jobs -/

/-- The job of a configuration when it is loaded. -/
def Config.job (config : Config) (listeners : List Listener) : Job :=
  { config, listeners
    state := if config.runAtLoad ∨ config.keepAlive then .waiting else .idle }

/-- Another job whose property list names the same path. -/
def owner (jobs : Map Label Job) (socket : SocketConfig) : Option Label :=
  (jobs.toList.find? fun entry => socket.path ∈ entry.2.config.sockets.map (·.path)).map (·.1)

def load (path : Bytes) : M Unit := do
  let value ← lift (parsePlist env.xmlReadMemory (← readFile env path (!env.foreground)) false)
  let config ← lift (parseConfig env.euid value env.foreground)
  let s ← ask .look
  let override := s.overrides[config.label]?
  lift (throwIf (override.getD config.disabled)
    (if config.disabled ∧ override = none then ascii "job is Disabled"
      else ascii "job is disabled by override"))
  lift (throwIf (config.label ∈ s.jobs) (ascii "duplicate job label: " ++ config.label))
  each (fun socket => match owner s.jobs socket with
    | some other =>
        fail (ascii "socket " ++ socket.path ++ ascii " is already owned by " ++ other)
    | none => pure ()) config.sockets
  let listeners ← openListeners env config.sockets []
  ask (.emplace (config.job listeners))

/-- `jobs_.erase (it)`, with the destructor of the job. -/
def eraseJob (l : Label) (job : Job) : M Unit := do
  ask (.erase l)
  each closeListener job.listeners

/-- The body of the loop in `collectGarbage ()`. -/
def collectJob (l : Label) : M Unit := do
  let s ← ask .look
  match s.jobs[l]? with
  | none => pure ()
  | some job => if job.pid = 0 then eraseJob l job else ask (.act l .retire)

def collectGarbage : M Bool := do
  let s ← ask .look
  each collectJob s.jobs.keys
  let s ← ask .look
  return s.jobs.isEmpty

def shutdown : M Unit := do
  let s ← ask .look
  if s.shuttingDown then pure ()
  else do
    ask .beginShutdown
    let _ ← collectGarbage
    pure ()

/-! ### Overrides -/

/-- The loop of `readOverrides ()`. -/
def overridesOf : List (Bytes × Value) → Map Label Bool → Result (Map Label Bool)
  | [], m => .ok m
  | (label, item) :: rest, m => do overridesOf rest (m.insert label (← item.asBoolean))

/-- The body of its `try`. -/
def readDatabase : M (Map Label Bool) := do
  let bytes ← readFile env env.overrides (!env.foreground)
  let value ← lift (parsePlist env.xmlReadMemory bytes false)
  let dict ← lift value.asDict
  lift (overridesOf dict ∅)

def readOverrides : M Unit :=
  if env.overrides = [] then pure ()
  else do
    match ← ask (.lstat env.overrides) with
    | .error .ENOENT => pure ()
    | _ => do
        match ← attempt (readDatabase env) with
        | .ok m => ask (.setOverrides m)
        | .error _ => ask (.setOverrides ∅)

/-- `label.starts_with ("system/")` -/
def stripSystem (label : Bytes) : Bytes :=
  if ascii "system/" <+: label then label.drop 7 else label

/-- The property list of the database. -/
def overridesValue (m : Map Label Bool) : Value :=
  .dict (m.toList.map fun entry => (entry.1, .boolean entry.2))

/-- `mkdir ()` on the directory of the database, which may be there. -/
def makeDirectory (directory : Bytes) : M Unit :=
  if env.foreground then pure ()
  else do
    match ← ask (.mkdir directory) with
    | .ok () | .error .EEXIST => pure ()
    | .error e => systemError env (ascii "mkdir " ++ directory) e

def setOverride (label : Bytes) (disabled : Bool) : M Unit := do
  lift (throwIf (env.overrides = []) (ascii "this launchd has no overrides database"))
  let label := stripSystem label
  lift (throwIf (!validIdentifier label) (ascii "invalid label"))
  let updated := (← ask .look).overrides.insert label disabled
  let bytes ← lift (writePlist (overridesValue updated))
  makeDirectory env (splitLast env.overrides).1
  let temporary := env.overrides ++ ascii ".new"
  let _ ← ask (.unlink temporary)
  orThrow env (ascii "create " ++ temporary) (← ask (.create temporary))
  orThrow env (ascii "chmod " ++ temporary) (← ask .fchmod)
  orThrow env (ascii "write " ++ temporary) (← ask (.write temporary bytes))
  orThrow env (ascii "fsync " ++ temporary) (← ask .fsync)
  orThrow env (ascii "rename " ++ temporary) (← ask (.rename temporary env.overrides))
  ask (.setOverrides updated)

/-! ### Requests -/

/-- The jobs that `list` is about. -/
def listed (jobs : Map Label Job) (argument : Bytes) : Result (List Value) :=
  if argument ≠ [] then
    match jobs[argument]? with
    | some job => .ok [jobStatus job]
    | none => .error (ascii "unknown job label")
  else .ok (jobs.toList.map fun entry => jobStatus entry.2)

def rebootFlagsOf (argument : Bytes) : Result RebootFlags :=
  if argument = ascii "halt" then .ok .RB_HALT
  else if argument = ascii "system" then .ok .RB_AUTOBOOT
  else .error (ascii "reboot takes system or halt")

/-- `start`, `stop` and `unload`. -/
def control (command : Bytes) (l : Label) (job : Job) : M Unit :=
  if command = ascii "start" then do
    let _ ← lift job.start
    ask (.act l .start)
  else if command = ascii "stop" then ask (.act l .stop)
  else if command = ascii "unload" then ask (.act l .unload)
  else fail (ascii "unknown command")

/-- The commands that shutdown ends. -/
def manage (command argument : Bytes) : M Value := do
  let s ← ask .look
  lift (throwIf s.shuttingDown (ascii "launchd is shutting down"))
  lift (throwIf (argument = []) (ascii "command requires an argument"))
  if command = ascii "load" then do
    load env argument
    ask (.answer command argument)
    return reply true (ascii "loaded") []
  else if command = ascii "disable" then do
    setOverride env argument true
    ask (.answer command argument)
    return reply true (ascii "disabled") []
  else if command = ascii "enable" then do
    setOverride env argument false
    ask (.answer command argument)
    return reply true (ascii "enabled") []
  else
    match s.jobs[argument]? with
    | none => fail (ascii "unknown job label")
    | some job => do
        control command argument job
        return reply true (ascii "accepted") []

/-- What a message asks for. -/
def readRequest (bytes : Bytes) : Result (Bytes × Bytes) := do
  let value ← parsePlist env.xmlReadMemory bytes false
  let dict ← value.asDict
  throwIf (dict.any fun entry => entry.1 ∉ [ascii "Version", ascii "Command", ascii "Argument"])
    (ascii "unknown request field")
  let version ← (← required dict (ascii "Version")).asInteger
  throwIf (version ≠ 1) (ascii "unsupported protocol version")
  let command ← stringField dict (ascii "Command")
  let argument ← stringField dict (ascii "Argument")
  return (command, argument)

/-- The body of `request ()`. -/
def obey (bytes : Bytes) : M Value := do
  let (command, argument) ← lift (readRequest env bytes)
  if command = ascii "list" then do
    let s ← ask .look
    let jobs ← lift (listed s.jobs argument)
    ask (.answer command argument)
    return reply true [] jobs
  else if command = ascii "reboot" then do
    let flags ← lift (rebootFlagsOf argument)
    ask (.setReboot flags argument)
    shutdown
    return reply true (ascii "shutting down") []
  else manage env command argument

def request (bytes : Bytes) : M Value := do
  match ← attempt (obey env bytes) with
  | .ok value => return value
  | .error message => return reply false message []

/-- A connection that has been accepted. -/
def addConnection (fd : Fd) : M Unit := do
  match ← ask .fcntl with
  | .error _ => pure ()
  | .ok () => do ask (.addClient fd ((← ask .now) + ioTimeout))

/-- The number of rounds left is the argument. -/
def acceptClients : Nat → M Unit
  | 0 => pure ()
  | n + 1 => do
      match ← ask .accept with
      | .error .EINTR => acceptClients n
      | .error _ => pure ()
      | .ok (fd, peer) =>
          let s ← ask .look
          if s.clients.size ≥ 32 ∨ !peer then acceptClients n
          else do
            addConnection fd
            acceptClients n

/-- Send what is left of the reply. -/
def sendReply (fd : Fd) (client : Client) : M Bool := do
  match ← ask (.send fd (client.output.drop client.sent)) with
  | .ok count => do
      ask (.sent fd count)
      return client.sent + count < client.output.length
  | .error .EINTR | .error .EAGAIN => return client.sent < client.output.length
  | .error _ => return false

/-- What has been received is a request, the beginning of one, or neither. -/
def receive (fd : Fd) (client : Client) : M Bool :=
  let size := frameSize client.input
  if client.input.length < 4 then return true
  else if size = 0 ∨ size > maxMessage ∨ client.input.length > size + 4 then return false
  else if client.input.length < size + 4 then return true
  else do
    let value ← request env (client.input.drop 4)
    let output ← lift (frame value)
    let now ← ask .now
    ask (.respond fd output (now + ioTimeout))
    sendReply fd { client with output, deadline := now + ioTimeout }

/-- Does the connection stay open? -/
def service (fd : Fd) (client : Client) : M Bool := do
  let now ← ask .now
  if now ≥ client.deadline then return false
  else if client.output ≠ [] then sendReply fd client
  else match ← ask (.recv fd) with
  | .error e => return e = .EAGAIN ∨ e = .EINTR
  | .ok [] => return false
  | .ok data => do
      ask (.feed fd data)
      receive env fd { client with input := client.input ++ data }

/-! ### The loop -/

/-- The job of a process that has ended, as long as its group is being signalled. -/
def cleanGroup (pid : Nat) : Option Label → M Unit
  | none => pure ()
  | some l => do
      ask (.act l .drain)
      ask (.killGroup pid)

def noteExit (status : WaitStatus) : Option Label → M Unit
  | none => pure ()
  | some l => ask (.act l (.reaped status))

/-- The job that a process belongs to. -/
def managed (jobs : Map Label Job) (pid : Nat) : Option Label :=
  (jobs.toList.find? fun entry => entry.2.pid = pid).map (·.1)

/-- The number of rounds left is the argument. -/
def reapRounds : Nat → M Unit
  | 0 => pure ()
  | n + 1 => do
      match ← ask .waitid with
      | .error .ECHILD => pure ()
      | .error e => systemError env (ascii "waitid") e
      | .ok pid =>
          if pid = 0 then pure ()
          else do
            let s ← ask .look
            cleanGroup pid (managed s.jobs pid)
            match ← ask (.waitpid pid) with
            | .error e => systemError env (ascii "waitpid") e
            | .ok none => pure ()
            | .ok (some status) => do
                noteExit status (managed s.jobs pid)
                reapRounds n

def reap : M Unit := do reapRounds env (← ask .rounds)

/-- `now >= job.lastAttempt + std::chrono::seconds (job.config.throttle)`, if there
was an attempt. -/
def Job.due (now : Time) (job : Job) : Bool :=
  ¬ job.attempted ∨ job.lastAttempt + seconds job.config.throttle ≤ now

/-- The body of the loop in `tick ()`. -/
def tickJob (now : Time) (l : Label) : M Unit := do
  let s ← ask .look
  match s.jobs[l]? with
  | none => pure ()
  | some job =>
      if job.remove ∧ job.pid = 0 then eraseJob l job
      else if job.pid ≠ 0 then do
        ask (.act l .drain)
        ask (.act l (.escalate now))
      else if job.state = .waiting ∧ !s.shuttingDown ∧ job.due now then do
        match ← ask (.spawn l) with
        | .ok () => pure ()
        | .error message => ask (.act l (.launchFailed message))
      else pure ()

def tick : M Unit := do
  reap env
  let now ← ask .now
  each (tickJob now) (← ask .look).jobs.keys

/-- `EVFILT_READ` on the sockets of the jobs that wait for a client. -/
def watchListeners : M Unit := do
  let s ← ask .look
  each (fun entry : Label × Job =>
    if activatable entry.2 ∧ !s.shuttingDown then
      each (fun listener => do
        orThrow env (ascii "kevent register") (← ask (.watch listener.fd .EVFILT_READ 0)))
        entry.2.listeners
    else pure ()) s.jobs.toList

def watchClients : M Unit := do
  each (fun entry : Fd × Client => do
    if (← ask .now) ≥ entry.2.deadline then ask (.dropClient entry.1)
    else
      let filter : Filter := if entry.2.output = [] then .EVFILT_READ else .EVFILT_WRITE
      orThrow env (ascii "kevent register") (← ask (.watch entry.1 filter entry.2.generation)))
    (← ask .look).clients.toList

def handleSignal : KEvent → M Unit
  | .SIGTERM => shutdown
  | .SIGINT => if env.foreground then shutdown else pure ()
  | _ => pure ()

/-- The jobs that own a listener with the descriptor. -/
def ownersOf (jobs : Map Label Job) (fd : Fd) : List Label :=
  (jobs.toList.filter fun entry => fd ∈ entry.2.listeners.map (·.fd)).map (·.1)

/-- A pending connection launches an idle job. -/
def activateJob (l : Label) : M Unit := do
  let s ← ask .look
  match s.jobs[l]? with
  | some job => if activatable job ∧ !s.shuttingDown then ask (.act l .activate) else pure ()
  | none => pure ()

def handleEvent : KEvent → M Unit
  | .descriptor fd error udata => do
      if fd = env.control then acceptClients 32
      else do
        let s ← ask .look
        if ownersOf s.jobs fd ≠ [] then
          each activateJob (ownersOf s.jobs fd)
        else
          match s.clients[fd]? with
          | none => pure ()
          | some client =>
              if client.generation ≠ udata then pure ()
              else if error then ask (.dropClient fd)
              else do
                match ← attempt (service env fd client) with
                | .ok true => pure ()
                | _ => ask (.dropClient fd)
  | _ => pure ()

def finishShutdown : M Unit :=
  if env.foreground then pure ()
  else do
    let s ← ask .look
    let _ ← ask (.reboot s.rebootFlags)
    pure ()

/-- The rest of a pass through the loop of `run ()`, from the first `watch ()` on. -/
def poll : M Unit := do
  orThrow env (ascii "kevent register") (← ask (.watch env.control .EVFILT_READ 0))
  watchListeners env
  watchClients env
  match ← ask .wait with
  | .error .EINTR => pure ()
  | .error e => systemError env (ascii "kevent wait") e
  | .ok events => do
      each (handleSignal env) events
      each (handleEvent env) events

/-- Is shutdown complete? -/
def shutdownDone : M Bool := do
  let s ← ask .look
  if s.shuttingDown then collectGarbage else return false

/-- One pass through the loop: does `run ()` return? -/
def turn : M Bool := do
  tick env
  if ← shutdownDone then do
    finishShutdown env
    return true
  else do
    poll env
    return false

/-- The jobs in the directories, in the order of their file names. -/
def loadDirectories : M Unit :=
  each (fun path => do
    match ← ask (.readdir path) with
    | none => pure ()
    | some names =>
        let files := (names.filter fun name => ascii ".plist" <:+ name).map fun name =>
          path ++ ascii "/" ++ name
        each (fun file => do
          let _ ← attempt (load env file)
          pure ()) (files.mergeSort (· ≤ ·))) env.directories

/-- The constructor of `Supervisor`, once it has its descriptors. -/
def boot : M Bool := do
  readOverrides env
  loadDirectories env
  return false

/-- `run ()` goes on until a pass returns or throws. -/
def next : Except Bytes Bool × Unit → Option (Prog calls (Except Bytes Bool × Unit))
  | (.ok false, _) => some (turn env ())
  | _ => none

/-- `Reaches env w p v`: a supervisor that is started on the system `w` may be at
`p` with the system and its memory as in `v`. -/
abbrev Reaches (w : World) (p : Prog calls (Except Bytes Bool × Unit)) (v : World) : Prop :=
  Runs (sem env) (next env) (boot env ()) w p v

/-- Called on an exceptional end of `run ()`. -/
def emergencyStop : M Unit := do
  each (fun entry : Label × Job =>
    if entry.2.pid ≠ 0 then ask (.killGroup entry.2.pid) else pure ()) (← ask .look).jobs.toList

end MiniDarwin.Launchd
