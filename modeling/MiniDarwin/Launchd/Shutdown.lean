import MiniDarwin.Launchd.Lifecycle

/-!
Shutdown is one-way.

Once `shutdown ()` has been entered, what is recorded is the end of jobs
and nothing else: no job is spawned or loaded, and of the requests only
`list` and `reboot` are answered. The jobs that still have a process are
counted through with the signals they were sent.
-/

namespace MiniDarwin.Launchd

open Posix (Bytes)
open Effects Effects.Proc

variable {env : Env} {w v : World} {job : Job} {l : Label} {t : List Event} {e : Event}

/-- What may be done once shutdown has begun. -/
def Closing (e : Event) (earlier : List Event) : Prop :=
  Event.shutdown ∈ earlier →
    match e with
    | .spawned _ _ _ | .loaded _ | .shutdown => False
    | .answered command _ => command = ascii "list" ∨ command = ascii "reboot"
    | _ => True

/-- The last `reboot` request that was answered. -/
def rebootWord : Event → Option RebootFlags
  | .answered command argument =>
      if command = ascii "reboot" then
        some (if argument = ascii "halt" then .RB_HALT else .RB_AUTOBOOT)
      else none
  | _ => none

/-- How the system is to end, by the record. -/
def rebootFlags (t : List Event) : RebootFlags := (lastWord rebootWord t).getD .RB_AUTOBOOT

/-- How often the group was sent SIGTERM for the job of the label, since that job
got its last process. -/
def terms (l : Label) (group : Nat) : List Event → Nat
  | [] => 0
  | .spawned config _ made :: t => if config.label = l ∧ made then 0 else terms l group t
  | .signalled config group' signal _ :: t =>
      if config.label = l ∧ group' = group ∧ signal = .SIGTERM then terms l group t + 1
      else terms l group t
  | _ :: t => terms l group t

/-! ### The record of the signals -/

theorem terms_signals {config : Config} {group : Nat} {time : Time} {sent : List (Nat × Signal)} :
    terms l group (signals config time sent ++ t) =
      terms l group t + if config.label = l then sent.count (group, .SIGTERM) else 0 := by
  induction sent with
  | nil => simp [signals]
  | cons s sent ih =>
      change terms l group (.signalled config s.1 s.2 time :: (signals config time sent ++ t)) = _
      rw [terms, ih]
      by_cases hl : config.label = l
      · by_cases hs : s.1 = group ∧ s.2 = .SIGTERM
        · obtain rfl : s = (group, .SIGTERM) := Prod.ext hs.1 hs.2
          simp [hl]
          omega
        · have hne : s ≠ (group, .SIGTERM) := fun h => hs (by simp [h])
          simp [hl, hs, hne]
      · simp [hl]

/-- `stop ()` sends the signal to a process that has not been sent it. -/
theorem Job.stop_count (time : Time) (hp : job.pid ≠ 0) :
    (job.stop time).2.count (job.pid, .SIGTERM) = if job.state = .stopping then 0 else 1 := by
  by_cases hs : job.state = .stopping <;> simp [Job.stop, hp, hs]

theorem Job.stop_process (time : Time) (hp : job.pid ≠ 0) :
    (job.stop time).1.pid = job.pid ∧ (job.stop time).1.state = .stopping := by
  by_cases hs : job.state = .stopping <;> simp [Job.stop, hp, hs]

theorem Job.stop_pid (time : Time) (job : Job) : (job.stop time).1.pid = job.pid := by
  unfold Job.stop
  dsimp only
  split
  · next h => rw [h]
  · split <;> rfl

/-- No signal of `escalate ()` is a SIGTERM. -/
theorem Job.escalate_count (now : Time) (group : Nat) (down : Bool) (job : Job) :
    (job.escalate down now).2.count (group, .SIGTERM) = 0 := by
  unfold Job.escalate
  split
  · rfl
  · split
    · simp
    · split <;> rfl

/-- What was sent to the job of one label is no signal to the job of another. -/
theorem Act.terms_other {a : Act} {down : Bool} (hl : job.config.label ≠ l) (time : Time)
    (reads : List PipeRead) (group : Nat) :
    terms l group ((a.apply env down time reads job).2 ++ t) = terms l group t := by
  cases a with
  | start =>
      simp only [Act.apply]
      split <;> rfl
  | stop => simp [Act.apply, terms, terms_signals, hl]
  | unload => simp [Act.apply, terms, terms_signals, hl]
  | retire => simp [Act.apply, terms_signals, hl]
  | escalate now =>
      simp only [Act.apply]
      split
      · rfl
      · simp [terms_signals, hl]
  | drain | reaped | launchFailed | activate => rfl

/-- The number of signals that a job with a process has been sent. -/
def Job.Counted (t : List Event) (job : Job) : Prop :=
  job.pid ≠ 0 → terms job.config.label job.pid t = if job.state = .stopping then 1 else 0

theorem Job.Counted.stop (h : job.Counted t) (time : Time) :
    (job.stop time).1.Counted (signals (job.stop time).1.config time (job.stop time).2 ++ t) := by
  intro hp
  rw [Job.stop_pid] at hp
  obtain ⟨hpid, hstate⟩ := Job.stop_process time hp
  rw [terms_signals, Job.stop_config, hpid, hstate, h hp, Job.stop_count time hp]
  by_cases hs : job.state = .stopping <;> simp [hs]

theorem Act.apply_counted {a : Act} (hdue : a.Due w job) (h : job.Counted t) (time : Time)
    (reads : List PipeRead) :
    (a.apply env w.sup.shuttingDown time reads job).1.Counted
      ((a.apply env w.sup.shuttingDown time reads job).2 ++ t) := by
  cases a with
  | start =>
      obtain ⟨⟨job', hs⟩, -⟩ := hdue
      simp only [Act.apply, hs]
      intro hp
      unfold Job.start at hs
      split at hs
      · cases hs
      · cases hs
        split at hp
        · exact absurd ‹_› hp
        · next hpid => simpa [hpid, terms] using h hpid
  | stop => exact h.stop time
  | unload =>
      have hremove : Job.Counted t { job with remove := true } := h
      exact hremove.stop time
  | retire => exact h.stop time
  | escalate now =>
      simp only [Act.apply]
      intro hp
      have hp' : job.pid ≠ 0 := hdue.2
      rw [if_neg fun hx => hp hx.2, terms_signals, Job.escalate_count]
      have hcount := h hp'
      unfold Job.escalate at hp ⊢
      by_cases hs : job.state = .stopping
      · simp only [hs, ne_eq, not_true_eq_false, if_false] at hp hcount ⊢
        split
        · simpa [hs] using hcount
        · split
          · next hk => simp [hk, Job.exited] at hp
          · simpa [hs] using hcount
      · simpa [hs] using hcount
  | drain =>
      obtain ⟨state, _, _, _, heq, hstate⟩ := job.drainExecError_eq env.setupError reads
      simp only [Act.apply, heq]
      intro hp
      have := h hp
      obtain rfl | ⟨hl, rfl⟩ := hstate
      · exact this
      · simpa [hl] using this
  | reaped status => cases status <;> exact fun hp => absurd rfl hp
  | launchFailed message => exact fun hp => absurd hdue.2.1 hp
  | activate =>
      have hp := hdue.1
      simp only [activatable, Bool.decide_and, Bool.and_eq_true, decide_eq_true_eq] at hp
      exact fun hp' => absurd hp.2.1 hp'

/-! ### Runs -/

/-- The record agrees with the memory. -/
structure OneWay (w : World) : Prop where
  down : w.sup.shuttingDown = true ↔ Event.shutdown ∈ w.trace
  closing : Always Closing w.trace
  flags : w.sup.rebootFlags = rebootFlags w.trace
  counted : ∀ (l : Label) (job : Job), w.sup.jobs[l]? = some job → job.Counted w.trace

theorem OneWay.not_yet (h : OneWay w) (hopen : w.sup.shuttingDown = false) :
    Event.shutdown ∉ w.trace := by
  rw [← h.down, hopen]
  exact Bool.false_ne_true

/-- Events that say nothing about the end of the system. -/
theorem OneWay.silent (events : List Event) (h : OneWay w) (htrace : v.trace = events ++ w.trace)
    (hdown : v.sup.shuttingDown = w.sup.shuttingDown)
    (hflags : v.sup.rebootFlags = w.sup.rebootFlags)
    (hsilent : ∀ e ∈ events, e ≠ .shutdown ∧ rebootWord e = none)
    (hclosing : Always Closing v.trace)
    (hcounted : ∀ (l : Label) (job : Job), v.sup.jobs[l]? = some job → job.Counted v.trace) :
    OneWay v := by
  constructor
  · rw [hdown, h.down, htrace, List.mem_append]
    constructor
    · exact .inr
    · rintro (hm | hm)
      · exact absurd rfl (hsilent _ hm).1
      · exact hm
  · exact hclosing
  · rw [hflags, h.flags, rebootFlags, rebootFlags, htrace,
      lastWord_append fun e he => (hsilent e he).2]
  · exact hcounted

theorem Event.minor.closing (h : e.minor = true) (t : List Event) : Closing e t := by
  intro _
  cases e with
  | spawned | loaded | answered | shutdown => cases h
  | _ => trivial

theorem Event.minor.ending (h : e.minor = true) : e ≠ .shutdown ∧ rebootWord e = none := by
  cases e with
  | spawned | loaded | answered | shutdown => cases h
  | _ => exact ⟨by simp, rfl⟩

/-- A request that is not `reboot` says nothing about the end of the system. -/
theorem answered_ending {command argument : Bytes} (h : command ≠ ascii "reboot") :
    Event.answered command argument ≠ .shutdown ∧
      rebootWord (.answered command argument) = none := by
  simp [rebootWord, h]

/-- A request about a job is answered only before shutdown. -/
theorem Act.command_open {a : Act} {c : Bytes} (hdue : a.Due w job) (hc : a.command = some c) :
    w.sup.shuttingDown = false ∧ c ≠ ascii "reboot" := by
  cases a with
  | start =>
      cases hc
      exact ⟨hdue.2, by decide⟩
  | stop | unload =>
      cases hc
      exact ⟨hdue, by decide⟩
  | _ => cases hc

theorem OneWay.act {a : Act} {time : Time} {reads : List PipeRead} (h : OneWay w) (hi : InOrder w)
    (hj : w.sup.jobs[l]? = some job) (hdue : a.Due w job)
    (hv : v =
      { w with
        clock := time
        sup := { w.sup with
          jobs := w.sup.jobs.insert l (a.apply env w.sup.shuttingDown time reads job).1 }
        trace := (a.apply env w.sup.shuttingDown time reads job).2 ++ w.trace }) : OneWay v := by
  subst hv
  obtain ⟨sent, hevents, hminor⟩ := Act.apply_events env hdue time reads
  refine h.silent _ rfl rfl rfl ?_ ?_ fun l' job' hj' => ?_
  · intro e he
    rw [hevents] at he
    obtain he | he := List.mem_append.1 he
    · obtain ⟨c, hc, rfl⟩ := List.mem_map.1 he
      exact answered_ending (Act.command_open hdue (by simpa using hc)).2
    · exact Event.minor.ending (hminor e he)
  · change Always Closing ((a.apply env w.sup.shuttingDown time reads job).2 ++ w.trace)
    rw [hevents, List.append_assoc]
    have hsent := h.closing.append fun e he => Event.minor.closing (hminor e he)
    cases hc : a.command with
    | none => simpa using hsent
    | some c =>
        refine Always.cons hsent fun hm => ?_
        change Event.shutdown ∈ sent ++ w.trace at hm
        obtain hm | hm := List.mem_append.1 hm
        · exact absurd rfl (Event.minor.ending (hminor _ hm)).1
        · exact absurd hm (h.not_yet (Act.command_open hdue hc).1)
  · obtain ⟨rfl, rfl⟩ | ⟨hne, hj'⟩ := mem_insert hj'
    · exact Act.apply_counted hdue (h.counted _ job hj) time reads
    · intro hp
      have hlabel : job.config.label ≠ job'.config.label := by
        rw [(hi.jobs l job hj).1, (hi.jobs l' job' hj').1]
        exact Ne.symm hne
      exact (Act.terms_other hlabel time reads job'.pid).trans (h.counted l' job' hj' hp)

theorem OneWay.step (hs : Step env w v) (hi : InOrder w) (h : OneWay w) : OneWay v := by
  cases hs with
  | quiet hv => exact ⟨by rw [hv.sup, hv.trace]; exact h.down, by rw [hv.trace]; exact h.closing,
      by rw [hv.sup, hv.trace]; exact h.flags, by rw [hv.sup, hv.trace]; exact h.counted⟩
  | clients c n hv =>
      subst hv
      exact ⟨h.down, h.closing, h.flags, h.counted⟩
  | overrides m hopen hv =>
      subst hv
      exact ⟨h.down, h.closing, h.flags, h.counted⟩
  | act l a job time reads hj hdue ht hv => exact h.act hi hj hdue hv
  | spawn l job time outcome hj hwait hpid hkeep hopen hdue ht hv =>
      subst hv
      refine h.silent [_] rfl rfl rfl (by simp [rebootWord])
        (h.closing.cons fun hm => absurd hm (h.not_yet hopen)) fun l' job' hj' => ?_
      obtain ⟨rfl, rfl⟩ | ⟨hne, hj'⟩ := mem_insert hj'
      · cases outcome with
        | error message => exact fun hp => absurd hpid hp
        | ok child => simp [Job.Counted, terms, Job.spawn, Except.isOk, Except.toBool]
      · intro hp
        have hlabel : job.config.label ≠ job'.config.label := by
          rw [(hi.jobs l job hj).1, (hi.jobs l' job' hj').1]
          exact Ne.symm hne
        simpa [terms, hlabel] using h.counted l' job' hj' hp
  | emplace config listeners hopen hnew haccepted hv =>
      subst hv
      refine h.silent [_] rfl rfl rfl (by simp [rebootWord])
        (h.closing.cons fun hm => absurd hm (h.not_yet hopen)) fun l' job' hj' => ?_
      obtain ⟨rfl, rfl⟩ | ⟨-, hj'⟩ := mem_insert hj'
      · exact fun hp => absurd rfl hp
      · exact h.counted l' job' hj'
  | erase l job hj hpid hr hv =>
      subst hv
      exact h.silent [_] rfl rfl rfl (by simp [rebootWord]) (h.closing.cons fun _ => trivial)
        fun l' job' hj' => h.counted l' job' (mem_erase hj').2
  | shutdown hopen hv =>
      subst hv
      exact ⟨by simp, h.closing.cons fun hm => absurd hm (h.not_yet hopen), h.flags, h.counted⟩
  | reboot flags argument harg hv =>
      subst hv
      refine ⟨by simpa using h.down, h.closing.cons fun _ => .inr rfl, ?_, h.counted⟩
      have hne : ascii "system" ≠ ascii "halt" := by decide
      cases flags <;> simp [rebootFlags, lastWord_cons, rebootWord, harg, hne]
  | answer command argument hcommand hdown hv =>
      subst hv
      have hne : command ≠ ascii "reboot" := by
        clear hdown
        revert command
        decide
      exact h.silent [_] rfl rfl rfl (by simp [rebootWord, hne])
        (h.closing.cons fun hm => .inl (hdown (h.down.2 hm))) h.counted
  | clean group hgroup hv =>
      subst hv
      exact h.silent [_] rfl rfl rfl (by simp [rebootWord]) (h.closing.cons fun _ => trivial)
        h.counted

theorem Fresh.oneWay (hw : Fresh w) : OneWay w where
  down := by simp [hw.sup, hw.trace]
  closing := by
    rw [hw.trace]
    exact always_nil
  flags := by rw [hw.sup, hw.trace]; rfl
  counted _ _ hj := absurd hj hw.no_job

theorem Reaches.oneWay {p : Prog calls (Except Bytes Bool × Unit)} (h : Reaches env w p v)
    (hw : Fresh w) : OneWay v :=
  (h.invariant (I := fun u => InOrder u ∧ OneWay u) hw.open
    (fun _ _ hs hi => ⟨hi.1.step hs, hi.2.step hs hi.1⟩) ⟨hw.inOrder, hw.oneWay⟩).2

/-! ### The jobs that are left -/

/-- Once shutdown has begun, no change of a job makes it wait. -/
theorem Act.apply_waiting {a : Act} (hdue : a.Due w job) (hdown : w.sup.shuttingDown = true)
    (time : Time) (reads : List PipeRead)
    (hwait : (a.apply env w.sup.shuttingDown time reads job).1.state = .waiting) :
    job.state = .waiting := by
  cases a with
  | start =>
      have hopen := hdue.2
      rw [hdown] at hopen
      cases hopen
  | stop | unload =>
      have hopen : w.sup.shuttingDown = false := hdue
      rw [hdown] at hopen
      cases hopen
  | retire =>
      change (job.stop time).1.state = .waiting at hwait
      rw [(Job.stop_process time hdue.2).2] at hwait
      cases hwait
  | escalate now =>
      change (job.escalate w.sup.shuttingDown now).1.state = .waiting at hwait
      unfold Job.escalate at hwait
      split at hwait
      · exact hwait
      · split at hwait
        · exact hwait
        · split at hwait
          · simp [Job.exited, hdown] at hwait
          · exact hwait
  | drain =>
      obtain ⟨state, _, _, _, heq, hstate⟩ := job.drainExecError_eq env.setupError reads
      simp only [Act.apply, heq] at hwait
      obtain rfl | ⟨-, rfl⟩ := hstate
      · exact hwait
      · cases hwait
  | reaped status => cases status <;> simp [Act.apply, Job.exited, hdown] at hwait
  | launchFailed message => exact hdue.1
  | activate =>
      have hopen := hdue.2
      rw [hdown] at hopen
      cases hopen

/-- Every job there is was there before, and none has begun to wait. -/
def Shrinks (w v : World) : Prop :=
  ∀ (l : Label) (job' : Job), v.sup.jobs[l]? = some job' →
    ∃ job : Job, w.sup.jobs[l]? = some job ∧ (job'.state = .waiting → job.state = .waiting)

theorem Shrinks.of_jobs (h : v.sup.jobs = w.sup.jobs) : Shrinks w v := by
  intro l job' hj'
  exact ⟨job', by rw [← h, hj'], id⟩

theorem Step.shrinks (hs : Step env w v) (hdown : w.sup.shuttingDown = true) :
    Shrinks w v ∧ v.sup.overrides = w.sup.overrides := by
  have begun : w.sup.shuttingDown ≠ false := by simp [hdown]
  cases hs with
  | quiet hv => exact ⟨.of_jobs (by rw [hv.sup]), by rw [hv.sup]⟩
  | clients c n hv => exact ⟨.of_jobs (by rw [hv]), by rw [hv]⟩
  | overrides m hopen hv => exact absurd hopen begun
  | act l a job time reads hj hdue ht hv =>
      subst hv
      refine ⟨fun l' job' hj' => ?_, rfl⟩
      obtain ⟨rfl, rfl⟩ | ⟨-, hj'⟩ := mem_insert hj'
      · exact ⟨job, hj, Act.apply_waiting hdue hdown time reads⟩
      · exact ⟨job', hj', id⟩
  | spawn l job time outcome hj hwait hpid hkeep hopen hdue ht hv => exact absurd hopen begun
  | emplace config listeners hopen hnew haccepted hv => exact absurd hopen begun
  | erase l job hj hpid hr hv =>
      subst hv
      exact ⟨fun l' job' hj' => ⟨job', (mem_erase hj').2, id⟩, rfl⟩
  | shutdown hopen hv => exact absurd hopen begun
  | reboot flags argument harg hv => exact ⟨.of_jobs (by rw [hv]), by rw [hv]⟩
  | answer command argument hcommand hd hv => exact ⟨.of_jobs (by rw [hv]), by rw [hv]⟩
  | clean group hgroup hv => exact ⟨.of_jobs (by rw [hv]), by rw [hv]⟩

/-- The calls that write the database of overrides. -/
def Op.records : Op → Bool
  | .create _ | .write _ _ | .rename _ _ | .setOverrides _ => true
  | _ => false

theorem Proper.records {o : Op} (h : Proper env o w) (ho : o.records = true) :
    w.sup.shuttingDown = false := by
  cases o with
  | create | write | rename | setOverrides => exact h
  | _ => cases ho

/-- **Shutdown is one-way.** In every run, the record shows no spawn, no load and
no second shutdown once shutdown has begun, and of the requests only `list`
and `reboot` are answered. While it goes on no call adds a job, makes one
wait or writes an override, and a job leaves only without a process. A
process has been sent SIGTERM once if its job is being stopped, and else
not at all, and when the supervisor waits for events every job is being
stopped. It ends, or reboots with the flags of the last request, only when
there is no job left. -/
theorem shutdown_is_one_way (env : Env) (w v : World)
    (p : Prog calls (Except Bytes Bool × Unit)) (hw : Fresh w) (h : Reaches env w p v) :
    Always Closing v.trace ∧
    (v.sup.shuttingDown = true ↔ Event.shutdown ∈ v.trace) ∧
    (∀ (l : Label) (job : Job), v.sup.jobs[l]? = some job → job.pid ≠ 0 →
      terms l job.pid v.trace = if job.state = .stopping then 1 else 0) ∧
    (∀ (o : Op) (k : o.Ans → Prog calls (Except Bytes Bool × Unit)) (r : o.Ans) (u : World),
      p = .call o k → sem env o v r u → v.sup.shuttingDown = true →
        Shrinks v u ∧ u.sup.overrides = v.sup.overrides ∧ o.records = false ∧
        ∀ (l : Label) (job : Job), v.sup.jobs[l]? = some job → u.sup.jobs[l]? = none →
          job.pid = 0) ∧
    (∀ k, p = .call .wait k → v.sup.shuttingDown = true →
      ∀ (l : Label) (job : Job), v.sup.jobs[l]? = some job → job.pid ≠ 0 ∧ job.state = .stopping) ∧
    (p = .ret (.ok true, ()) → v.sup.shuttingDown = true ∧ v.sup.jobs = ∅) ∧
    ∀ flags k, p = .call (.reboot flags) k →
      v.sup.shuttingDown = true ∧ v.sup.jobs = ∅ ∧ flags = rebootFlags v.trace := by
  have hi := h.inOrder hw
  have ho := h.oneWay hw
  have hspec := Reaches.spec h hw.open
  refine ⟨ho.closing, ho.down, ?_, ?_, ?_, ?_, ?_⟩
  · intro l job hj hp
    have hcount := ho.counted l job hj hp
    rwa [(hi.jobs l job hj).1] at hcount
  · rintro o k r u rfl hs hdown
    have hproper : Proper env o v := hspec.1
    have hstep := step_of_sem hproper hs
    obtain ⟨hshrinks, hoverrides⟩ := hstep.shrinks hdown
    refine ⟨hshrinks, hoverrides, ?_, fun l job hj hgone => (hstep.gone hj hgone).1⟩
    refine Bool.eq_false_of_not_eq_true fun hr => ?_
    have hopen := hproper.records hr
    rw [hdown] at hopen
    cases hopen
  · rintro k rfl
    exact hspec.1
  · rintro rfl
    exact hspec rfl
  · rintro flags k rfl
    obtain ⟨hdown, hempty, rfl⟩ := hspec.1
    exact ⟨hdown, hempty, ho.flags⟩

/-! ### A run

The job of `demoTurn` is running when a SIGTERM comes; it exits when it is
told to. -/

def demoSignal (o : Op) (w : World) : o.Ans × World :=
  match o with
  | .wait => (.ok [.SIGTERM], w)
  | o => demoAnswer o w

theorem sem_demoSignal (o : Op) (w : World) :
    sem demoEnv o w (demoSignal o w).1 (demoSignal o w).2 := by
  cases o with
  | wait => exact rfl
  | _ => exact sem_demoAnswer _ w

@[irreducible] def demoSignalled : (Except Bytes Bool × Unit) × World :=
  (turn demoEnv ()).exec demoSignal demoTurn.2

@[irreducible] def demoEnded : (Except Bytes Bool × Unit) × World :=
  (turn demoEnv ()).exec demoExit demoSignalled.2

theorem demo_ends :
    demoSignalled.1 = (.ok false, ()) ∧ demoEnded.1 = (.ok true, ()) ∧
      demoEnded.2.trace.length = 7 := by
  unfold demoEnded demoSignalled demoTurn demoBoot
  decide +kernel

theorem reaches_demoSignalled : Reaches demoEnv {} (.ret demoSignalled.1) demoSignalled.2 := by
  have hturn := reaches_demoTurn
  rw [demo_launches.2.1] at hturn
  unfold demoSignalled
  exact (Runs.again hturn rfl).reach (Prog.reach_exec sem_demoSignal _ _)

theorem reaches_demoEnded : Reaches demoEnv {} (.ret demoEnded.1) demoEnded.2 := by
  have hsignalled := reaches_demoSignalled
  rw [demo_ends.1] at hsignalled
  unfold demoEnded
  exact (Runs.again hsignalled rfl).reach (Prog.reach_exec sem_demoExit _ _)

theorem shutdown_is_one_way_signalled :
    demoEnded.1 = (.ok true, ()) ∧ Event.shutdown ∈ demoEnded.2.trace ∧ demoEnded.2.sup.jobs = ∅ ∧
      Always Closing demoEnded.2.trace := by
  obtain ⟨hclosing, hdown, -, -, -, hend, -⟩ :=
    shutdown_is_one_way demoEnv {} _ _ ⟨rfl, rfl⟩ reaches_demoEnded
  obtain ⟨hd, hempty⟩ := hend (by rw [demo_ends.2.1])
  exact ⟨demo_ends.2.1, hdown.1 hd, hempty, hclosing⟩

end MiniDarwin.Launchd
