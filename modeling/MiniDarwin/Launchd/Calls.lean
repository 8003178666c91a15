import MiniDarwin.Effects.Loop
import MiniDarwin.Launchd.Job

/-!
The supervisor's memory, the system it runs on, and the calls it makes.

The statements about launchd are about its memory at every moment of a run,
so the memory is part of the world and a change of it is a call. A call
changes one job by one of the functions of `daemon.cpp`, or one other part
of the memory, or it is a call to the kernel. What the kernel answers is
left open, as far as it can be: any call may fail, the clock only never
goes back, and of the files only those that launchd itself has made are
known.

`trace` is no part of the program. It records, the latest first, what
launchd has done.
-/

namespace MiniDarwin.Launchd

open Posix (Bytes)
open Effects

inductive Errno where
  | ENOENT
  | EEXIST
  | EINTR
  | EAGAIN
  | ECHILD
  | other (code : Nat)
  deriving DecidableEq

/-- The directory and the name below which the kernel finds a path. -/
abbrev Place := Nat × Bytes

/-- What does not change: the options of the command line, the identity of the
process, and the code of others. -/
structure Env where
  foreground : Bool
  /-- the path, the descriptor and the inode of the control socket -/
  socket : Bytes
  control : Fd
  inode : Nat
  overrides : Bytes
  directories : List Bytes
  euid : Nat
  xmlReadMemory : Bytes → Option Doc
  strerror : Errno → Bytes
  /-- `strerror ()` of a number that came through a pipe -/
  setupError : Bytes → Bytes
  /-- the directory that the kernel finds under a path -/
  directory : Bytes → Option Nat

/-- `(path.substr (0, slash), path.substr (slash + 1))` for the last slash. -/
def splitLast (path : Bytes) : Bytes × Bytes :=
  let name := (path.reverse.takeWhile (· ≠ 47)).reverse
  (path.take (path.length - name.length - 1), name)

/-- Where a path leads, if it can name anything but a directory. -/
def Env.place (env : Env) (path : Bytes) : Option Place :=
  let (dir, name) := splitLast path
  if name = [] ∨ name = ascii "." ∨ name = ascii ".." then none
  else (env.directory dir).map fun d => (d, name)

/-! ### Memory -/

structure Client where
  input : Bytes := []
  output : Bytes := []
  sent : Nat := 0
  deadline : Time
  generation : Nat
  deriving DecidableEq

inductive RebootFlags where
  | RB_AUTOBOOT
  | RB_HALT
  deriving DecidableEq

/-- The members of `class Supervisor` that change. -/
structure Supervisor where
  jobs : Map Label Job := ∅
  clients : Map Fd Client := ∅
  overrides : Map Label Bool := ∅
  shuttingDown : Bool := false
  rebootFlags : RebootFlags := .RB_AUTOBOOT
  nextClient : Nat := 1

/-- `ioTimeout` -/
def ioTimeout : Time := seconds 5

/-- `sigkillTimer` -/
def sigkillTimer : Time := seconds 4

def Job.stop (now : Time) (job : Job) : Job × List (Nat × Signal) :=
  let job := { job with enabled := false }
  if job.pid = 0 then ({ job with state := .idle }, [])
  else if job.state = .stopping then (job, [])
  else
    let stopDeadline :=
      if job.config.exitTimeout ≠ 0 then some (now + seconds job.config.exitTimeout) else none
    ({ job with state := .stopping, stopDeadline }, [(job.pid, .SIGTERM)])

def Job.exited (shuttingDown : Bool) (job : Job) : Job :=
  { job with
    pid := 0, killed := false, execError := none, exitStatus := none, exitSignal := none
    state := if job.enabled ∧ job.config.keepAlive ∧ ¬ shuttingDown then .waiting else .idle }

/-- `now >= stopDeadline` -/
def reached (now : Time) (deadline : Option Time) : Bool := deadline.any (· ≤ now)

def Job.escalate (shuttingDown : Bool) (now : Time) (job : Job) : Job × List (Nat × Signal) :=
  if job.state ≠ .stopping then (job, [])
  else if ¬ job.killed ∧ reached now job.stopDeadline then
    ({ job with killed := true, killDeadline := now + sigkillTimer }, [(job.pid, .SIGKILL)])
  else if job.killed ∧ job.killDeadline ≤ now then
    ({ job.exited shuttingDown with
        launchError := ascii "simulated exit: PID did not die after SIGKILL" }, [])
  else (job, [])

def Job.start (job : Job) : Result Job :=
  if job.remove ∨ job.state = .stopping then .error (ascii "job is stopping")
  else
    let job := { job with enabled := true }
    .ok (if job.pid = 0 then { job with state := .waiting } else job)

def activatable (job : Job) : Bool :=
  job.listeners ≠ [] ∧ job.pid = 0 ∧ job.state = .idle ∧ job.enabled ∧ ¬ job.remove

/-- `WIFEXITED ()` or `WIFSIGNALED ()`, with the code. -/
inductive WaitStatus where
  | exited (code : Nat)
  | signaled (signal : Nat)

/-- The changes of one job. -/
inductive Act where
  /-- the requests of these names, which are then answered -/
  | start
  | stop
  | unload
  /-- `stop ()` in `collectGarbage ()` -/
  | retire
  | escalate (now : Time)
  | drain
  /-- `exited ()` after `waitpid ()` -/
  | reaped (status : WaitStatus)
  /-- the handler of an exception of `spawn ()` -/
  | launchFailed (message : Bytes)
  /-- a connection on a socket of the job -/
  | activate

/-- What is recorded. -/
inductive Event where
  /-- a job is put into `jobs_` -/
  | loaded (config : Config)
  | erased (label : Label)
  /-- `spawn ()` begins, and whether it makes a process -/
  | spawned (config : Config) (time : Time) (made : Bool)
  /-- `kill (-group, signal)` for a job -/
  | signalled (config : Config) (group : Nat) (signal : Signal) (time : Time)
  /-- `kill (-group, SIGKILL)` when the leader of the group is dead -/
  | cleaned (group : Nat)
  /-- a job is treated as exited, without having been reaped -/
  | simulated (label : Label) (time : Time)
  | reaped (label : Label)
  /-- a request is answered with `OK` -/
  | answered (command argument : Bytes)
  | shutdown
  deriving DecidableEq

/-- The record of the signals that were sent to a job. -/
def signals (config : Config) (time : Time) (sent : List (Nat × Signal)) : List Event :=
  sent.map fun s => .signalled config s.1 s.2 time

/-- A job after one of the changes, and what is to be recorded of it. `time` is
the reading of the clock that the change takes, `reads` is what there is to
read in the setup pipe. -/
def Act.apply (env : Env) (shuttingDown : Bool) (time : Time) (reads : List PipeRead) (job : Job) :
    Act → Job × List Event
  | .start =>
      match job.start with
      | .ok job => (job, [.answered (ascii "start") job.config.label])
      | .error _ => (job, [])
  | .stop =>
      let (job, sent) := job.stop time
      (job, .answered (ascii "stop") job.config.label :: signals job.config time sent)
  | .unload =>
      let (job, sent) := { job with remove := true }.stop time
      (job, .answered (ascii "unload") job.config.label :: signals job.config time sent)
  | .retire =>
      let (job, sent) := job.stop time
      (job, signals job.config time sent)
  | .escalate now =>
      let (job', sent) := job.escalate shuttingDown now
      (job', if job.pid ≠ 0 ∧ job'.pid = 0 then [.simulated job.config.label now]
        else signals job.config now sent)
  | .drain => (job.drainExecError env.setupError reads, [])
  | .reaped status =>
      let job := job.exited shuttingDown
      (match status with
        | .exited code => { job with exitStatus := some code }
        | .signaled signal => { job with exitSignal := some signal },
       [.reaped job.config.label])
  | .launchFailed message =>
      ({ job with
          launchError := message
          state := if job.enabled ∧ job.config.keepAlive then .waiting else .idle }, [])
  | .activate => ({ job with state := .waiting }, [])

/-! ### Files -/

/-- The files launchd has made. -/
inductive Node where
  | socket (inode : Nat)
  /-- `trusted`: root's, and writable by nobody else -/
  | regular (data : Bytes) (trusted : Bool)
  deriving DecidableEq

/-- What `lstat ()` tells. -/
inductive Kind where
  | socket (inode : Nat)
  | other
  deriving DecidableEq

def Node.kind : Node → Kind
  | .socket inode => .socket inode
  | .regular _ _ => .other

/-- A file that has been opened for reading. -/
structure Opened where
  regular : Bool
  trusted : Bool
  data : Bytes

structure World where
  sup : Supervisor := {}
  clock : Time := 0
  files : Place → Option Node := fun _ => none
  trace : List Event := []

/-- The file at a path, if launchd has made it. -/
def World.fileAt (env : Env) (w : World) (path : Bytes) : Option Node := (env.place path).bind w.files

def World.put (w : World) (q : Place) (node : Option Node) : World :=
  { w with files := Function.update w.files q node }

/-- An inode that a socket of launchd's has, or that is still open. -/
def World.InUse (env : Env) (w : World) (i : Nat) : Prop :=
  i = env.inode ∨ (∃ q, w.files q = some (.socket i)) ∨
    ∃ (l : Label) (job : Job), w.sup.jobs[l]? = some job ∧
      ∃ listener ∈ job.listeners, listener.inode = i

/-! ### Calls -/

/-- What a registration with `kevent ()` waits for. -/
inductive Filter where
  | EVFILT_READ
  | EVFILT_WRITE
  deriving DecidableEq

/-- What `kevent ()` reports. -/
inductive KEvent where
  | SIGTERM
  | SIGINT
  /-- `SIGCHLD` and `SIGHUP`, which only wake the loop -/
  | wakeup
  | descriptor (fd : Fd) (error : Bool) (udata : Nat)
  deriving DecidableEq

inductive Op where
  -- the memory
  | look
  | act (label : Label) (a : Act)
  | spawn (label : Label)
  | emplace (job : Job)
  | erase (label : Label)
  | beginShutdown
  | setReboot (flags : RebootFlags) (argument : Bytes)
  | setOverrides (overrides : Map Label Bool)
  | answer (command argument : Bytes)
  | addClient (fd : Fd) (deadline : Time)
  | dropClient (fd : Fd)
  | feed (fd : Fd) (data : Bytes)
  | respond (fd : Fd) (output : Bytes) (deadline : Time)
  | sent (fd : Fd) (count : Nat)
  -- the clock, processes, events
  | now
  /-- how often a loop is passed through that the kernel ends -/
  | rounds
  | waitid
  | waitpid (pid : Nat)
  /-- `kill (-group, SIGKILL)` -/
  | killGroup (group : Nat)
  | watch (fd : Fd) (filter : Filter) (generation : Nat)
  | wait
  | reboot (flags : RebootFlags)
  -- connections
  | accept
  | fcntl
  | recv (fd : Fd)
  | send (fd : Fd) (data : Bytes)
  -- files
  | lstat (path : Bytes)
  | unlink (path : Bytes)
  | socket
  | bind (path : Bytes)
  | chmod (path : Bytes)
  | listen (fd : Fd)
  | openRead (path : Bytes)
  | fstat
  | readAll (file : Opened)
  | readdir (path : Bytes)
  | mkdir (path : Bytes)
  | create (path : Bytes)
  | fchmod
  | write (path : Bytes) (data : Bytes)
  | fsync
  | rename (old new : Bytes)

/-- The answers. A call that was interrupted is made again where the program
does so; the repetitions are part of the call. -/
abbrev Op.Ans : Op → Type
  | .look => Supervisor
  | .spawn _ => Result Unit
  | .now => Time
  | .rounds => Nat
  /- `info.si_pid` -/
  | .waitid => Except Errno Nat
  | .waitpid _ => Except Errno (Option WaitStatus)
  | .wait => Except Errno (List KEvent)
  /- the descriptor, and whether the peer is of the same user -/
  | .accept => Except Errno (Fd × Bool)
  | .recv _ => Except Errno Bytes
  | .send _ _ => Except Errno Nat
  | .lstat _ => Except Errno Kind
  | .socket => Except Errno Fd
  /- the inode of the socket -/
  | .bind _ => Except Errno Nat
  | .openRead _ => Except Errno Opened
  | .readAll _ => Except Errno Bytes
  /- the names in a directory, if it may be used -/
  | .readdir _ => Option (List Bytes)
  | .watch _ _ _ | .fcntl | .unlink _ | .chmod _ | .listen _ | .fstat | .mkdir _ | .create _ | .fchmod
  | .write _ _ | .fsync | .rename _ _ | .reboot _ => Except Errno Unit
  | _ => Unit

abbrev calls : Sig := ⟨Op, Op.Ans⟩

def World.act (env : Env) (w : World) (l : Label) (a : Act) (time : Time) (reads : List PipeRead) :
    World :=
  match w.sup.jobs[l]? with
  | none => { w with clock := time }
  | some job =>
      let (job', events) := a.apply env w.sup.shuttingDown time reads job
      { w with
        clock := time
        sup := { w.sup with jobs := w.sup.jobs.insert l job' }
        trace := events ++ w.trace }

def World.spawn (w : World) (l : Label) (time : Time) (outcome : Result Forked) : World :=
  match w.sup.jobs[l]? with
  | none => { w with clock := time }
  | some job =>
      { w with
        clock := time
        sup := { w.sup with jobs := w.sup.jobs.insert l (job.spawn time outcome) }
        trace := .spawned job.config time outcome.isOk :: w.trace }

/-- One change of the connections. -/
def World.setClient (w : World) (fd : Fd) (f : Client → Client) : World :=
  { w with sup := { w.sup with clients := w.sup.clients.modify fd f } }

/-- What a call may answer and do. -/
def sem (env : Env) : Sem calls World
  | .look, w, r, v => r = w.sup ∧ v = w
  | .act l a, w, _, v => ∃ time reads, w.clock ≤ time ∧ v = w.act env l a time reads
  | .spawn l, w, r, v => ∃ time outcome, w.clock ≤ time ∧ r = outcome.map (fun _ => ()) ∧
      v = w.spawn l time outcome
  | .emplace job, w, _, v => v =
      { w with
        sup := { w.sup with jobs := w.sup.jobs.insertIfNew job.config.label job }
        trace := .loaded job.config :: w.trace }
  | .erase l, w, _, v => v =
      { w with
        sup := { w.sup with jobs := w.sup.jobs.erase l }
        trace := .erased l :: w.trace }
  | .beginShutdown, w, _, v => v =
      { w with sup := { w.sup with shuttingDown := true }, trace := .shutdown :: w.trace }
  | .setReboot flags argument, w, _, v => v =
      { w with
        sup := { w.sup with rebootFlags := flags }
        trace := .answered (ascii "reboot") argument :: w.trace }
  | .setOverrides m, w, _, v => v = { w with sup := { w.sup with overrides := m } }
  | .answer command argument, w, _, v => v =
      { w with trace := .answered command argument :: w.trace }
  | .addClient fd deadline, w, _, v => v =
      { w with sup := { w.sup with
          clients := w.sup.clients.insertIfNew fd { deadline, generation := w.sup.nextClient }
          nextClient := w.sup.nextClient + 1 } }
  | .dropClient fd, w, _, v => v =
      { w with sup := { w.sup with clients := w.sup.clients.erase fd } }
  | .feed fd data, w, _, v => v = w.setClient fd fun c => { c with input := c.input ++ data }
  | .respond fd output deadline, w, _, v => v =
      w.setClient fd fun c => { c with output, deadline }
  | .sent fd count, w, _, v => v = w.setClient fd fun c => { c with sent := c.sent + count }
  | .now, w, r, v => w.clock ≤ r ∧ v = { w with clock := r }
  | .killGroup group, w, _, v => v = { w with trace := .cleaned group :: w.trace }
  | .recv _, w, r, v => v = w ∧ ∀ data, r = .ok data → data.length ≤ 4096
  | .send _ data, w, r, v => v = w ∧ ∀ n, r = .ok n → n ≤ data.length
  | .lstat path, w, r, v => v = w ∧
      match w.fileAt env path with
      | some node => r = .ok node.kind ∨ ∃ e, e ≠ .ENOENT ∧ r = .error e
      | none => ∀ i, r = .ok (.socket i) → ¬ w.InUse env i
  | .unlink path, w, r, v =>
      (v = w ∧ (r.isOk → w.fileAt env path = none)) ∨
        ∃ q, env.place path = some q ∧ w.files q ≠ none ∧ r = .ok () ∧ v = w.put q none
  | .bind path, w, r, v =>
      (v = w ∧ ∃ e, r = .error e) ∨
        ∃ q i, env.place path = some q ∧ w.files q = none ∧ ¬ w.InUse env i ∧ r = .ok i ∧
          v = w.put q (some (.socket i))
  | .openRead path, w, r, v => v = w ∧
      match w.fileAt env path with
      | some (.regular data trusted) => r = .ok ⟨true, trusted, data⟩ ∨
          ∃ e, e ≠ .ENOENT ∧ r = .error e
      | some (.socket _) => ∃ e, r = .error e
      | none => True
  | .readAll file, w, r, v => v = w ∧ ∀ data, r = .ok data → data = file.data
  | .create path, w, r, v =>
      (v = w ∧ ∃ e, r = .error e) ∨
        ∃ q, env.place path = some q ∧ w.files q = none ∧ r = .ok () ∧
          v = w.put q (some (.regular [] (env.euid = 0)))
  | .write path data, w, r, v =>
      (v = w ∧ ∃ e, r = .error e) ∨
        ∃ q data' trusted, env.place path = some q ∧
          (∃ before, w.files q = some (.regular before trusted)) ∧
          (r = .ok () → data' = data) ∧ v = w.put q (some (.regular data' trusted))
  | .rename old new, w, r, v =>
      (v = w ∧ ∃ e, r = .error e) ∨
        ∃ q q', env.place old = some q ∧ env.place new = some q' ∧ w.files q ≠ none ∧
          r = .ok () ∧ v = (w.put q' (w.files q)).put q none
  | _, w, _, v => v = w

/-- A function of the supervisor: it may throw a message. -/
abbrev M := Proc calls Unit Bytes

end MiniDarwin.Launchd
