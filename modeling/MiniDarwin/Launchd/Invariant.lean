import MiniDarwin.Launchd.Discipline

/-!
The state machine of a job.

`Job.Ok` relates the state of a job, its process and its flags. Every
function that changes a job preserves it, in the circumstances in which
the supervisor calls the function; so it holds of every job at every
moment of a run. It keeps launchd from signalling process group 0, its own.
-/

namespace MiniDarwin.Launchd

open Posix (Bytes)
open Effects Effects.Proc

variable {env : Env} {w v : World} {job : Job} {down : Bool}

structure Job.Ok (shuttingDown : Bool) (job : Job) : Prop where
  process : job.pid ≠ 0 ↔
    job.state = .launching ∨ job.state = .running ∨ job.state = .stopping
  stopping : job.state = .stopping → job.enabled = false
  running : job.state = .launching ∨ job.state = .running →
    job.enabled = true ∨ shuttingDown = true
  waiting : job.state = .waiting → job.enabled = true ∧ job.remove = false ∧ job.pid = 0
  killed : job.killed = true → job.state = .stopping
  keepAlive : job.config.keepAlive = true → job.enabled = true → job.remove = false →
    shuttingDown = false → job.state ≠ .idle
  /-- what makes the others survive the exit of a job that is being unloaded -/
  removed : job.remove = true → job.enabled = false

namespace Job.Ok

theorem shutdown (h : job.Ok false) : job.Ok true where
  process := h.process
  stopping := h.stopping
  running _ := .inr rfl
  waiting := h.waiting
  killed := h.killed
  keepAlive _ _ _ hd := by cases hd
  removed := h.removed

theorem not_killed (h : job.Ok down) (hs : job.state ≠ .stopping) : job.killed = false :=
  Bool.eq_false_of_not_eq_true fun hk => hs (h.killed hk)

theorem not_removed (h : job.Ok down) (he : job.enabled = true) : job.remove = false :=
  Bool.eq_false_of_not_eq_true fun hr => by simp [h.removed hr] at he

/-- A job without a process is not being stopped. -/
theorem not_stopping (h : job.Ok down) (hp : job.pid = 0) : job.state ≠ .stopping :=
  fun hs => h.process.2 (.inr (.inr hs)) hp

theorem loaded (config : Config) (listeners : List Listener) :
    (config.job listeners).Ok down := by
  unfold Config.job
  split
  · constructor <;> simp
  · next h =>
      have hk : config.keepAlive = false := by simpa using fun hk => h (.inr hk)
      constructor <;> simp [hk]

theorem stop (h : job.Ok down) (time : Time) : (job.stop time).1.Ok down := by
  unfold Job.stop
  dsimp only
  split
  · next hp =>
      have hk := h.not_killed (h.not_stopping hp)
      constructor <;> simp [hp, hk]
  · next hp =>
      split
      · next hs => constructor <;> simp [hp, hs]
      · next hs => constructor <;> simp [hp]

theorem unload (h : job.Ok down) (time : Time) :
    ({ job with remove := true }.stop time).1.Ok down := by
  unfold Job.stop
  dsimp only
  split
  · next hp =>
      have hk := h.not_killed (h.not_stopping hp)
      constructor <;> simp [hp, hk]
  · next hp =>
      split
      · next hs => constructor <;> simp [hp, hs]
      · next hs => constructor <;> simp [hp]

theorem exited (h : job.Ok down) : (job.exited down).Ok down := by
  unfold Job.exited
  split
  · next hw => constructor <;> simp [hw.1, h.not_removed hw.1]
  · next hw =>
      have hr := h.removed
      constructor <;> simp_all

/-- Nothing of the invariant is about the last error. -/
theorem launchError (h : job.Ok down) (message : Bytes) :
    { job with launchError := message }.Ok down :=
  ⟨h.process, h.stopping, h.running, h.waiting, h.killed, h.keepAlive, h.removed⟩

theorem escalate (h : job.Ok down) (now : Time) : (job.escalate down now).1.Ok down := by
  unfold Job.escalate
  split
  · exact h
  · next hs =>
      have hs' : job.state = .stopping := not_not.1 hs
      split
      · exact ⟨h.process, h.stopping, h.running, h.waiting, fun _ => hs', h.keepAlive, h.removed⟩
      · split
        · exact h.exited.launchError _
        · exact h

theorem start {job' : Job} (h : job.Ok down) (hs : job.start = .ok job') : job'.Ok down := by
  unfold Job.start at hs
  split at hs
  · cases hs
  · next hn =>
      obtain ⟨hr, hst⟩ := not_or.1 hn
      have hk := h.not_killed hst
      have hr' : job.remove = false := Bool.eq_false_of_not_eq_true hr
      dsimp only at hs
      split at hs
      · next hp =>
          cases hs
          constructor <;> simp [hp, hr', hk]
      · next hp =>
          cases hs
          obtain hl | hl | hl := h.process.1 hp
          · constructor <;> simp [hp, hr', hk, hl]
          · constructor <;> simp [hp, hr', hk, hl]
          · exact absurd hl hst

theorem drain (h : job.Ok down) (strerror : Bytes → Bytes) (reads : List PipeRead) :
    (job.drainExecError strerror reads).Ok down := by
  obtain ⟨state, launchError, execError, execBytes, heq, rfl | ⟨hl, rfl⟩⟩ :=
    job.drainExecError_eq strerror reads
  · rw [heq]
    exact ⟨h.process, h.stopping, h.running, h.waiting, h.killed, h.keepAlive, h.removed⟩
  · -- the child has executed its program
    have hp : job.pid ≠ 0 := h.process.2 (.inl hl)
    have hk := h.not_killed (by simp [hl])
    rw [heq]
    constructor <;> simp [hp, hk, h.running (.inl hl)]
    exact h.removed

theorem spawn (h : job.Ok down) (hw : job.state = .waiting) (time : Time)
    (outcome : Result Forked) : (job.spawn time outcome).Ok down := by
  cases outcome with
  | error message =>
      exact ⟨h.process, h.stopping, h.running, h.waiting, h.killed, h.keepAlive, h.removed⟩
  | ok child =>
      obtain ⟨he, hr, -⟩ := h.waiting hw
      have hp : child.pid ≠ 0 := child.pid_pos.ne'
      constructor <;> simp [Job.spawn, hp, he, hr]

/-- A wait that ends, or goes on, because the launch has failed. -/
theorem launchFailed (h : job.Ok down) (hw : job.state = .waiting) (message : Bytes) :
    { job with
      launchError := message
      state := if job.enabled ∧ job.config.keepAlive then .waiting else .idle }.Ok down := by
  obtain ⟨he, hr, hp⟩ := h.waiting hw
  have hk := h.not_killed (by simp [hw])
  cases hka : job.config.keepAlive <;> constructor <;> simp [he, hr, hp, hk, hka]

theorem activate (h : job.Ok down) (ha : activatable job = true) :
    { job with state := .waiting }.Ok down := by
  simp only [activatable, Bool.decide_and, Bool.and_eq_true, decide_eq_true_eq] at ha
  obtain ⟨-, hp, hi, he, hr⟩ := ha
  have hk := h.not_killed (by simp [hi])
  have hr' : job.remove = false := by simpa using hr
  constructor <;> simp [hp, he, hk, hr']

end Job.Ok

theorem Act.apply_ok {a : Act} (hdue : a.Due w job) (h : job.Ok w.sup.shuttingDown) (time : Time)
    (reads : List PipeRead) :
    (a.apply env w.sup.shuttingDown time reads job).1.Ok w.sup.shuttingDown := by
  cases a with
  | start =>
      obtain ⟨⟨job', hs⟩, -⟩ := hdue
      simp only [Act.apply, hs]
      exact h.start hs
  | stop => exact h.stop time
  | unload => exact h.unload time
  | retire => exact h.stop time
  | escalate now => exact h.escalate now
  | drain => exact h.drain env.setupError reads
  | reaped status =>
      have h' := h.exited
      cases status <;>
        exact ⟨h'.process, h'.stopping, h'.running, h'.waiting, h'.killed, h'.keepAlive, h'.removed⟩
  | launchFailed message => exact h.launchFailed hdue.1 message
  | activate => exact h.activate hdue.1

/-! ### Runs -/

/-- A supervisor that has not loaded anything yet. -/
structure Fresh (w : World) : Prop where
  sup : w.sup = {}
  trace : w.trace = []

theorem Fresh.open (h : Fresh w) : w.sup.shuttingDown = false := by rw [h.sup]

theorem Fresh.no_job (h : Fresh w) {l : Label} : w.sup.jobs[l]? ≠ some job := by
  simp [h.sup]

/-- Every change of a job leaves its configuration alone. -/
@[simp] theorem Job.stop_config (time : Time) (job : Job) : (job.stop time).1.config = job.config := by
  unfold Job.stop
  dsimp only
  split
  · rfl
  · split <;> rfl

@[simp] theorem Job.escalate_config (now : Time) (job : Job) :
    (job.escalate down now).1.config = job.config := by
  unfold Job.escalate
  split
  · rfl
  · split
    · rfl
    · split <;> rfl

theorem Job.start_config {job' : Job} (h : job.start = .ok job') : job'.config = job.config := by
  unfold Job.start at h
  split at h
  · cases h
  · cases h
    dsimp only
    split <;> rfl

@[simp] theorem Job.spawn_config (time : Time) (outcome : Result Forked) (job : Job) :
    (job.spawn time outcome).config = job.config := by
  cases outcome <;> rfl

@[simp] theorem Job.drainExecError_config (strerror : Bytes → Bytes) (reads : List PipeRead)
    (job : Job) : (job.drainExecError strerror reads).config = job.config := by
  obtain ⟨_, _, _, _, heq, -⟩ := job.drainExecError_eq strerror reads
  rw [heq]

@[simp] theorem Act.apply_config (a : Act) (time : Time) (reads : List PipeRead) (job : Job) :
    (a.apply env down time reads job).1.config = job.config := by
  cases a with
  | start =>
      cases h : job.start with
      | error e => simp [Act.apply, h]
      | ok job' => simp [Act.apply, h, Job.start_config h]
  | reaped status => cases status <;> rfl
  | _ => simp [Act.apply]

/-- A signal that is recorded went to a group that is not launchd's own. -/
def Event.Aimed : Event → Prop
  | .signalled _ group _ _ | .cleaned group => group ≠ 0
  | _ => True

theorem signals_aimed {config : Config} {time : Time} {sent : List (Nat × Signal)}
    (h : ∀ s ∈ sent, s.1 ≠ 0) : ∀ e ∈ signals config time sent, e.Aimed := by
  intro e he
  obtain ⟨s, hs, rfl⟩ := List.mem_map.1 he
  exact h s hs

theorem Job.stop_aimed (time : Time) (job : Job) : ∀ s ∈ (job.stop time).2, s.1 ≠ 0 := by
  unfold Job.stop
  dsimp only
  split
  · simp
  · next hp => split <;> simp [hp]

theorem Job.escalate_aimed (now : Time) (hp : job.pid ≠ 0) :
    ∀ s ∈ (job.escalate down now).2, s.1 ≠ 0 := by
  unfold Job.escalate
  split
  · simp
  · split
    · simp [hp]
    · split <;> simp

theorem Act.apply_aimed {a : Act} (hdue : a.Due w job) (time : Time) (reads : List PipeRead) :
    ∀ e ∈ (a.apply env down time reads job).2, e.Aimed := by
  cases a with
  | start =>
      obtain ⟨⟨job', hs⟩, -⟩ := hdue
      simp [Act.apply, hs, Event.Aimed]
  | stop =>
      intro e he
      obtain rfl | he := List.mem_cons.1 he
      · trivial
      · exact signals_aimed (job.stop_aimed time) e he
  | unload =>
      intro e he
      obtain rfl | he := List.mem_cons.1 he
      · trivial
      · exact signals_aimed (Job.stop_aimed time _) e he
  | retire => exact signals_aimed (job.stop_aimed time)
  | escalate now =>
      intro e he
      simp only [Act.apply] at he
      split at he
      · obtain rfl := List.mem_singleton.1 he
        trivial
      · exact signals_aimed (Job.escalate_aimed now hdue.2) e he
  | drain => simp [Act.apply]
  | reaped status => simp [Act.apply, Event.Aimed]
  | launchFailed message => simp [Act.apply]
  | activate => simp [Act.apply]

/-- Every job is in order and found under its own label, and no signal went astray. -/
structure InOrder (w : World) : Prop where
  jobs : ∀ (l : Label) (job : Job), w.sup.jobs[l]? = some job →
    job.config.label = l ∧ job.Ok w.sup.shuttingDown
  aimed : ∀ e ∈ w.trace, e.Aimed

theorem InOrder.insert {l : Label} {job' : Job} (events : List Event) (h : InOrder w)
    (hjobs : v.sup.jobs = w.sup.jobs.insert l job')
    (hdown : v.sup.shuttingDown = w.sup.shuttingDown) (htrace : v.trace = events ++ w.trace)
    (hlabel : job'.config.label = l) (hok : job'.Ok w.sup.shuttingDown)
    (haimed : ∀ e ∈ events, e.Aimed) : InOrder v := by
  constructor
  · intro l' job hj
    rw [hjobs] at hj
    rw [hdown]
    obtain ⟨rfl, rfl⟩ | ⟨-, hj⟩ := mem_insert hj
    · exact ⟨hlabel, hok⟩
    · exact h.jobs l' job hj
  · intro e he
    rw [htrace] at he
    exact (List.mem_append.1 he).elim (haimed e) (h.aimed e)

theorem InOrder.step (hs : Step env w v) (h : InOrder w) : InOrder v := by
  cases hs with
  | quiet hv => exact ⟨by rw [hv.sup]; exact h.jobs, by rw [hv.trace]; exact h.aimed⟩
  | clients c n hv =>
      subst hv
      exact ⟨h.jobs, h.aimed⟩
  | overrides m hopen hv =>
      subst hv
      exact ⟨h.jobs, h.aimed⟩
  | act l a job time reads hj hdue ht hv =>
      obtain ⟨hl, hok⟩ := h.jobs l job hj
      subst hv
      exact h.insert _ rfl rfl rfl (by rw [Act.apply_config, hl]) (Act.apply_ok hdue hok time reads)
        (Act.apply_aimed hdue time reads)
  | spawn l job time outcome hj hwait hpid hkeep hopen hdue ht hv =>
      obtain ⟨hl, hok⟩ := h.jobs l job hj
      subst hv
      exact h.insert [_] rfl rfl rfl (by rw [Job.spawn_config, hl])
        (hok.spawn hwait time outcome) (by simp [Event.Aimed])
  | emplace config listeners hopen hnew haccepted hv =>
      subst hv
      exact h.insert [_] rfl rfl rfl rfl (.loaded config listeners)
        (by simp [Event.Aimed])
  | erase l job hj hpid hr hv =>
      subst hv
      refine ⟨fun l' job' hj' => h.jobs l' job' (mem_erase hj').2, ?_⟩
      simpa [Event.Aimed] using h.aimed
  | shutdown hopen hv =>
      subst hv
      refine ⟨fun l' job' hj' => ?_, by simpa [Event.Aimed] using h.aimed⟩
      obtain ⟨hl, hok⟩ := h.jobs l' job' hj'
      rw [hopen] at hok
      exact ⟨hl, hok.shutdown⟩
  | reboot flags argument harg hv =>
      subst hv
      exact ⟨h.jobs, by simpa [Event.Aimed] using h.aimed⟩
  | answer command argument hcommand hdown hv =>
      subst hv
      exact ⟨h.jobs, by simpa [Event.Aimed] using h.aimed⟩
  | clean group hgroup hv =>
      subst hv
      refine ⟨h.jobs, fun e he => ?_⟩
      obtain rfl | he := List.mem_cons.1 he
      · exact hgroup
      · exact h.aimed e he

theorem Fresh.inOrder (hw : Fresh w) : InOrder w :=
  ⟨fun _ _ hj => absurd hj hw.no_job, by simp [hw.trace]⟩

theorem Reaches.inOrder {p : Prog calls (Except Bytes Bool × Unit)} (h : Reaches env w p v)
    (hw : Fresh w) : InOrder v :=
  h.invariant hw.open (fun _ _ hs hi => hi.step hs) hw.inOrder

/-- **The state machine of a job.** At every moment of every run every job is in
order, and no signal that launchd has sent, or sends when it gives up, goes
to group 0. -/
theorem job_in_order (env : Env) (w v : World) (p : Prog calls (Except Bytes Bool × Unit))
    (hw : Fresh w) (h : Reaches env w p v) :
    (∀ (l : Label) (job : Job), v.sup.jobs[l]? = some job → job.Ok v.sup.shuttingDown) ∧
      (∀ e ∈ v.trace, e.Aimed) ∧
      ∀ group k u, Prog.Reach (sem env) (emergencyStop ()) v (.call (.killGroup group) k) u →
        group ≠ 0 := by
  have hv := h.inOrder hw
  refine ⟨fun l job hj => (hv.jobs l job hj).2, hv.aimed, fun group k u hr => ?_⟩
  have hstop : Does env emergencyStop (fun _ _ _ => True) (fun _ _ _ => True) () v := by
    refine wp_bind.2 (does_look ?_)
    refine wp_each (fun _ _ _ => True) (fun entry _ _ _ _ => ?_) trivial
    split
    · next hp => exact does_ask hp fun _ _ _ => trivial
    · trivial
  exact (Prog.spec_iff.1 hstop).1 _ _ _ hr

/-! ### A run

One job that is to be kept alive, found in the only directory of jobs, on a
system where every call succeeds. -/

def demoText : Bytes :=
  ascii ("<plist><dict><key>KeepAlive</key><true/><key>Label</key><string>a</string>" ++
    "<key>Program</key><string>/a</string></dict></plist>")

def demoDoc : Doc where
  root := some (.plain (ascii "plist"), [.element (.plain (ascii "dict"))
    [.element (.plain (ascii "key")) [.text (ascii "KeepAlive")],
     .element (.plain (ascii "true")) [],
     .element (.plain (ascii "key")) [.text (ascii "Label")],
     .element (.plain (ascii "string")) [.text (ascii "a")],
     .element (.plain (ascii "key")) [.text (ascii "Program")],
     .element (.plain (ascii "string")) [.text (ascii "/a")]]])
  intSubset := false

def demoEnv : Env where
  foreground := true
  socket := ascii "/s"
  control := 3
  inode := 1
  overrides := []
  directories := [ascii "/d"]
  euid := 0
  xmlReadMemory bytes := if bytes = demoText then some demoDoc else none
  strerror _ := []
  setupError _ := []
  directory _ := some 0

/-- Every call succeeds, at once. A process gets the number 2. -/
def demoAnswer (o : Op) (w : World) : o.Ans × World :=
  match o with
  | .look => (w.sup, w)
  | .act l a => ((), w.act demoEnv l a w.clock [])
  | .spawn l => (.ok (), w.spawn l w.clock (.ok ⟨2, by decide, 5⟩))
  | .emplace job => ((),
      { w with
        sup := { w.sup with jobs := w.sup.jobs.insertIfNew job.config.label job }
        trace := .loaded job.config :: w.trace })
  | .erase l => ((),
      { w with sup := { w.sup with jobs := w.sup.jobs.erase l }, trace := .erased l :: w.trace })
  | .beginShutdown => ((),
      { w with sup := { w.sup with shuttingDown := true }, trace := .shutdown :: w.trace })
  | .setReboot flags argument => ((),
      { w with
        sup := { w.sup with rebootFlags := flags }
        trace := .answered (ascii "reboot") argument :: w.trace })
  | .setOverrides overrides => ((), { w with sup := { w.sup with overrides } })
  | .answer command argument => ((), { w with trace := .answered command argument :: w.trace })
  | .addClient fd deadline => ((),
      { w with sup := { w.sup with
          clients := w.sup.clients.insertIfNew fd { deadline, generation := w.sup.nextClient }
          nextClient := w.sup.nextClient + 1 } })
  | .dropClient fd => ((), { w with sup := { w.sup with clients := w.sup.clients.erase fd } })
  | .feed fd data => ((), w.setClient fd fun c => { c with input := c.input ++ data })
  | .respond fd output deadline => ((), w.setClient fd fun c => { c with output, deadline })
  | .sent fd count => ((), w.setClient fd fun c => { c with sent := c.sent + count })
  | .now => (w.clock, w)
  | .rounds => ((0 : Nat), w)
  | .waitid => (.error .ECHILD, w)
  | .waitpid _ => (.ok none, w)
  | .killGroup group => ((), { w with trace := .cleaned group :: w.trace })
  | .wait => (.ok [], w)
  | .accept => (.error .EAGAIN, w)
  | .recv _ => (.ok [], w)
  | .send _ data => (.ok data.length, w)
  | .lstat _ => (.error (.other 5), w)
  | .socket => (.ok 4, w)
  | .bind _ => (.error (.other 5), w)
  | .openRead path =>
      (if (w.fileAt demoEnv path).isNone then .ok ⟨true, true, demoText⟩ else .error (.other 5), w)
  | .readAll file => (.ok file.data, w)
  | .readdir _ => (some [ascii "a.plist"], w)
  | .watch _ _ _ | .fcntl | .chmod _ | .listen _ | .fstat | .mkdir _ | .fchmod | .fsync | .reboot _ =>
      (.ok (), w)
  | .unlink _ | .create _ | .write _ _ | .rename _ _ => (.error (.other 5), w)

theorem sem_demoAnswer (o : Op) (w : World) :
    sem demoEnv o w (demoAnswer o w).1 (demoAnswer o w).2 := by
  cases o with
  | look => exact ⟨rfl, rfl⟩
  | act l a => exact ⟨w.clock, [], le_rfl, rfl⟩
  | spawn l => exact ⟨w.clock, .ok ⟨2, by decide, 5⟩, le_rfl, rfl, rfl⟩
  | now => exact ⟨le_rfl, rfl⟩
  | recv fd => exact ⟨rfl, fun data h => by cases h; simp⟩
  | send fd data => exact ⟨rfl, fun n h => by cases h; exact le_rfl⟩
  | lstat path =>
      refine ⟨rfl, ?_⟩
      cases w.fileAt demoEnv path with
      | none => exact fun i h => by cases h
      | some node => exact .inr ⟨_, by simp, rfl⟩
  | openRead path =>
      refine ⟨rfl, ?_⟩
      cases h : w.fileAt demoEnv path with
      | none => trivial
      | some node =>
          cases node with
          | socket i => exact ⟨.other 5, by simp [demoAnswer, h]⟩
          | regular data trusted => exact .inr ⟨.other 5, by simp, by simp [demoAnswer, h]⟩
  | readAll file => exact ⟨rfl, fun data h => by cases h; rfl⟩
  | unlink path => exact .inl ⟨rfl, fun h => by cases h⟩
  | bind path => exact .inl ⟨rfl, _, rfl⟩
  | create path => exact .inl ⟨rfl, _, rfl⟩
  | write path data => exact .inl ⟨rfl, _, rfl⟩
  | rename old new => exact .inl ⟨rfl, _, rfl⟩
  | _ => rfl

/-- The supervisor has been constructed. -/
@[irreducible] def demoBoot : (Except Bytes Bool × Unit) × World := (boot demoEnv ()).exec demoAnswer {}

/-- It has once been through its loop. -/
@[irreducible] def demoTurn : (Except Bytes Bool × Unit) × World :=
  (turn demoEnv ()).exec demoAnswer demoBoot.2

theorem demo_launches :
    demoBoot.1 = (.ok false, ()) ∧ demoTurn.1 = (.ok false, ()) ∧
      demoTurn.2.sup.shuttingDown = false ∧
      (demoTurn.2.sup.jobs[ascii "a"]?).map (fun job => (job.pid, job.state)) =
        some (2, .launching) ∧
      demoTurn.2.trace.length = 2 := by
  unfold demoTurn demoBoot
  decide +kernel

theorem reaches_demoTurn : Reaches demoEnv {} (.ret demoTurn.1) demoTurn.2 := by
  have hboot : Reaches demoEnv {} (.ret demoBoot.1) demoBoot.2 := by
    unfold demoBoot
    exact Runs.start.reach (Prog.reach_exec sem_demoAnswer _ _)
  rw [demo_launches.1] at hboot
  unfold demoTurn
  exact (Runs.again hboot rfl).reach (Prog.reach_exec sem_demoAnswer _ _)

theorem job_in_order_launched :
    ∃ job, demoTurn.2.sup.jobs[ascii "a"]? = some job ∧ job.pid = 2 ∧ job.state = .launching ∧
      job.Ok false := by
  obtain ⟨-, -, hopen, hpid, -⟩ := demo_launches
  obtain ⟨job, hj, hx⟩ := Option.map_eq_some_iff.1 hpid
  have hok := (job_in_order demoEnv {} _ _ ⟨rfl, rfl⟩ reaches_demoTurn).1 _ job hj
  rw [hopen] at hok
  exact ⟨job, hj, congrArg Prod.fst hx, congrArg Prod.snd hx, hok⟩

end MiniDarwin.Launchd
