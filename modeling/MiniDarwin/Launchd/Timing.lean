import MiniDarwin.Launchd.Shutdown

/-!
Throttling and escalation.

Every attempt to launch a job and every signal is recorded with the reading
of the clock that it took. `Timely` says which readings may follow which:
two attempts are a throttle interval apart, a SIGKILL comes an exit timeout
after the SIGTERM of the same process, and a process is given up only some
time after its SIGKILL. The deadlines in the memory are the ones the
record calls for, which is the invariant.
-/

namespace MiniDarwin.Launchd

open Posix (Bytes)
open Effects Effects.Proc

variable {env : Env} {w v : World} {job : Job} {l : Label} {t : List Event} {e : Event}

/-! ### What the configuration asks for -/

theorem bind_eq_ok {α β : Type} {x : Result α} {f : α → Result β} {b : β} (h : x >>= f = .ok b) :
    ∃ a, x = .ok a ∧ f a = .ok b := by
  cases x with
  | error e => cases h
  | ok a => exact ⟨a, rfl, h⟩

/-- `ThrottleInterval`, in seconds. -/
def throttleInterval (value : Value) : Result Nat := do
  field (← value.asDict) "ThrottleInterval" 10 (integer · 86400)

/-- `ExitTimeOut`, in seconds. -/
def exitTimeOut (value : Value) : Result Nat := do
  field (← value.asDict) "ExitTimeOut" 20 (integer · 86400)

/-- The configuration is the one of a property list with these two numbers. -/
def Config.Asks (env : Env) (config : Config) : Prop :=
  ∃ value interval timeout, parseConfig env.euid value env.foreground = .ok config ∧
    throttleInterval value = .ok interval ∧ exitTimeOut value = .ok timeout ∧
    config.throttle = max interval 1 ∧ config.exitTimeout = timeout

theorem parseConfig_asks {value : Value} {config : Config}
    (h : parseConfig env.euid value env.foreground = .ok config) : config.Asks env := by
  have hparse := h
  unfold parseConfig at h
  obtain ⟨dict, hdict, h⟩ := bind_eq_ok h
  -- the fields before the two numbers
  iterate 10 obtain ⟨_, -, h⟩ := bind_eq_ok h
  obtain ⟨interval, hinterval, h⟩ := bind_eq_ok h
  obtain ⟨timeout, htimeout, h⟩ := bind_eq_ok h
  refine ⟨value, interval, timeout, hparse, ?_, ?_, ?_⟩
  · rw [throttleInterval, hdict]
    exact hinterval
  · rw [exitTimeOut, hdict]
    exact htimeout
  · iterate 12 obtain ⟨_, -, h⟩ := bind_eq_ok h
    cases h
    refine ⟨?_, rfl⟩
    dsimp only
    split <;> omega

/-! ### What the record says -/

/-- Attempts to launch a job. A job that is loaded is a new one. -/
def attemptWord (l : Label) : Event → Option (Option Time)
  | .loaded config => if config.label = l then some none else none
  | .spawned config time _ => if config.label = l then some (some time) else none
  | _ => none

/-- The last attempt to launch the job of the label. -/
def attemptOf (l : Label) (t : List Event) : Option Time := (lastWord (attemptWord l) t).join

/-- Signals to a job. A process that is made has been sent none. -/
def signalWord (l : Label) : Event → Option (Option (Signal × Time))
  | .loaded config => if config.label = l then some none else none
  | .spawned config _ made => if config.label = l ∧ made then some none else none
  | .signalled config _ signal time => if config.label = l then some (some (signal, time)) else none
  | _ => none

/-- The last signal that was sent to the process of the label. -/
def signalOf (l : Label) (t : List Event) : Option (Signal × Time) :=
  (lastWord (signalWord l) t).join

/-- What may be done when. -/
def Timely (e : Event) (earlier : List Event) : Prop :=
  match e with
  | .spawned config time _ =>
      ∀ time', attemptOf config.label earlier = some time' →
        time' + seconds config.throttle ≤ time
  | .signalled config _ .SIGKILL time =>
      config.exitTimeout ≠ 0 ∧ ∃ time', signalOf config.label earlier = some (.SIGTERM, time') ∧
        time' + seconds config.exitTimeout ≤ time
  | .simulated l time =>
      ∃ time', signalOf l earlier = some (.SIGKILL, time') ∧ time' + seconds 4 ≤ time
  | _ => True

/-- The configuration an event is about. -/
def Event.config? : Event → Option Config
  | .loaded config | .spawned config _ _ | .signalled config _ _ _ => some config
  | _ => none

/-! ### What a change of a job adds to the record -/

theorem attemptOf_append {events : List Event} (h : ∀ e ∈ events, attemptWord l e = none) :
    attemptOf l (events ++ t) = attemptOf l t := by
  rw [attemptOf, lastWord_append h, attemptOf]

theorem signalOf_append {events : List Event} (h : ∀ e ∈ events, signalWord l e = none) :
    signalOf l (events ++ t) = signalOf l t := by
  rw [signalOf, lastWord_append h, signalOf]

theorem signalOf_signalled {config : Config} {group : Nat} {signal : Signal} {time : Time}
    (h : config.label = l) :
    signalOf l (.signalled config group signal time :: t) = some (signal, time) := by
  simp [signalOf, lastWord_cons, signalWord, h]

theorem Event.minor.attemptWord (h : e.minor = true) : attemptWord l e = none := by
  cases e <;> first | rfl | cases h

theorem Act.attemptWord_apply {a : Act} (hdue : a.Due w job) (time : Time)
    (reads : List PipeRead) :
    ∀ e ∈ (a.apply env w.sup.shuttingDown time reads job).2, attemptWord l e = none := by
  obtain ⟨sent, hevents, hminor⟩ := Act.apply_events env hdue time reads
  intro e he
  rw [hevents] at he
  obtain he | he := List.mem_append.1 he
  · obtain ⟨c, -, rfl⟩ := List.mem_map.1 he
    rfl
  · exact Event.minor.attemptWord (hminor e he)

theorem signalWord_signals {config : Config} {time : Time} {sent : List (Nat × Signal)}
    (h : config.label ≠ l) : ∀ e ∈ signals config time sent, signalWord l e = none := by
  intro e he
  obtain ⟨s, -, rfl⟩ := List.mem_map.1 he
  simp [signalWord, h]

/-- What was sent to the job of one label is no signal to the job of another. -/
theorem Act.signalWord_apply {a : Act} {down : Bool} (h : job.config.label ≠ l) (time : Time)
    (reads : List PipeRead) :
    ∀ e ∈ (a.apply env down time reads job).2, signalWord l e = none := by
  intro e he
  cases a with
  | start =>
      simp only [Act.apply] at he
      split at he
      · obtain rfl := List.mem_singleton.1 he
        rfl
      · cases he
  | stop =>
      have hstop : (job.stop time).1.config.label ≠ l := by rwa [Job.stop_config]
      obtain rfl | he := List.mem_cons.1 he
      · rfl
      · exact signalWord_signals hstop e he
  | unload =>
      have hstop : (Job.stop time { job with remove := true }).1.config.label ≠ l := by
        rwa [Job.stop_config]
      obtain rfl | he := List.mem_cons.1 he
      · rfl
      · exact signalWord_signals hstop e he
  | retire =>
      have hstop : (job.stop time).1.config.label ≠ l := by rwa [Job.stop_config]
      exact signalWord_signals hstop e he
  | escalate now =>
      simp only [Act.apply] at he
      split at he
      · obtain rfl := List.mem_singleton.1 he
        rfl
      · exact signalWord_signals h e he
  | reaped status =>
      obtain rfl := List.mem_singleton.1 he
      rfl
  | drain | launchFailed | activate => cases he

/-! ### The deadlines of a job -/

/-- The times a job remembers are those of the record. -/
structure Job.Timed (t : List Event) (job : Job) : Prop where
  attempt : attemptOf job.config.label t = if job.attempted then some job.lastAttempt else none
  term : job.state = .stopping → job.killed = false →
    ∃ time, signalOf job.config.label t = some (.SIGTERM, time) ∧
      job.stopDeadline =
        if job.config.exitTimeout ≠ 0 then some (time + seconds job.config.exitTimeout) else none
  kill : job.state = .stopping → job.killed = true →
    ∃ time, signalOf job.config.label t = some (.SIGKILL, time) ∧
      job.killDeadline = time + sigkillTimer

/-- A job that is not being stopped has no deadline to keep. -/
theorem Job.Timed.of_attempt
    (h : attemptOf job.config.label t = if job.attempted then some job.lastAttempt else none)
    (hs : job.state ≠ .stopping) : job.Timed t :=
  ⟨h, fun hs' => absurd hs' hs, fun hs' => absurd hs' hs⟩

theorem Job.Timed.stop (h : job.Timed t) (hkilled : job.killed = true → job.state = .stopping)
    (time : Time) :
    (job.stop time).1.Timed (signals (job.stop time).1.config time (job.stop time).2 ++ t) := by
  have hattempt : attemptOf job.config.label
      (signals (job.stop time).1.config time (job.stop time).2 ++ t) =
        if job.attempted then some job.lastAttempt else none := by
    rw [attemptOf_append fun e he => Event.minor.attemptWord (signals_minor e he), h.attempt]
  unfold Job.stop at hattempt ⊢
  dsimp only at hattempt ⊢
  split
  · exact .of_attempt h.attempt (by simp)
  · split
    · next hs => exact ⟨h.attempt, h.term, h.kill⟩
    · next hp hs =>
        refine ⟨by simpa [hp, hs] using hattempt, fun _ _ => ⟨time, ?_, rfl⟩, fun _ hk => ?_⟩
        · exact signalOf_signalled rfl
        · exact absurd (hkilled hk) hs

theorem Job.Timed.exited (h : job.Timed t) (down : Bool) : (job.exited down).Timed t := by
  refine .of_attempt h.attempt ?_
  unfold Job.exited
  dsimp only
  split <;> simp

/-- All that `escalate ()` does. -/
theorem Job.escalate_cases (down : Bool) (now : Time) (job : Job) :
    job.escalate down now = (job, []) ∨
      (job.state = .stopping ∧ job.killed = false ∧ reached now job.stopDeadline = true ∧
        job.escalate down now =
          ({ job with killed := true, killDeadline := now + sigkillTimer },
            [(job.pid, .SIGKILL)])) ∨
      job.state = .stopping ∧ job.killed = true ∧ job.killDeadline ≤ now ∧
        job.escalate down now =
          ({ job.exited down with
              launchError := ascii "simulated exit: PID did not die after SIGKILL" }, []) := by
  unfold Job.escalate
  split
  · exact .inl rfl
  · next hs =>
      have hs' : job.state = .stopping := not_not.1 hs
      split
      · next hk => exact .inr (.inl ⟨hs', by simpa using hk.1, hk.2, rfl⟩)
      · split
        · next hk => exact .inr (.inr ⟨hs', hk.1, hk.2, rfl⟩)
        · exact .inl rfl

theorem Act.apply_timed {a : Act} (hdue : a.Due w job) (hok : job.Ok w.sup.shuttingDown)
    (h : job.Timed t) (time : Time) (reads : List PipeRead) :
    (a.apply env w.sup.shuttingDown time reads job).1.Timed
      ((a.apply env w.sup.shuttingDown time reads job).2 ++ t) := by
  cases a with
  | start =>
      obtain ⟨⟨job', hs⟩, -⟩ := hdue
      simp only [Act.apply, hs]
      unfold Job.start at hs
      split at hs
      · cases hs
      · next hn =>
          cases hs
          dsimp only
          split
          · exact .of_attempt h.attempt (by simp)
          · exact .of_attempt h.attempt fun hst => hn (.inr hst)
  | stop =>
      have h' := h.stop hok.killed time
      exact ⟨h'.attempt, h'.term, h'.kill⟩
  | unload =>
      have hremove : Job.Timed t { job with remove := true } := ⟨h.attempt, h.term, h.kill⟩
      have h' := hremove.stop hok.killed time
      exact ⟨h'.attempt, h'.term, h'.kill⟩
  | retire => exact h.stop hok.killed time
  | escalate now =>
      obtain heq | ⟨hs, hk, -, heq⟩ | ⟨hs, hk, -, heq⟩ :=
        job.escalate_cases w.sup.shuttingDown now
      · simpa [Act.apply, heq, signals] using h
      · simp only [Act.apply, heq, hdue.2, and_false, if_false]
        refine ⟨?_, fun _ hk' => by simp at hk', fun _ _ => ⟨now, signalOf_signalled rfl, rfl⟩⟩
        exact (attemptOf_append fun e he => Event.minor.attemptWord (signals_minor e he)).trans
          h.attempt
      · have h' := h.exited w.sup.shuttingDown
        simp only [Act.apply, heq, Job.exited, and_true, if_pos hdue.2]
        exact ⟨h'.attempt, h'.term, h'.kill⟩
  | drain =>
      obtain ⟨state, _, _, _, heq, hstate⟩ := job.drainExecError_eq env.setupError reads
      simp only [Act.apply, heq]
      obtain rfl | ⟨hl, rfl⟩ := hstate
      · exact ⟨h.attempt, h.term, h.kill⟩
      · exact .of_attempt h.attempt (by simp)
  | reaped status =>
      have h' := h.exited w.sup.shuttingDown
      cases status <;> exact ⟨h'.attempt, h'.term, h'.kill⟩
  | launchFailed message =>
      refine .of_attempt h.attempt ?_
      simp only [Act.apply]
      split <;> simp
  | activate => exact .of_attempt h.attempt (by simp [Act.apply])

/-- `stop ()` sends nothing but SIGTERM. -/
theorem Job.stop_term (time : Time) (job : Job) : ∀ s ∈ (job.stop time).2, s.2 = .SIGTERM := by
  unfold Job.stop
  dsimp only
  split
  · simp
  · split <;> simp

theorem signals_timely {config : Config} {time : Time} {sent : List (Nat × Signal)}
    (h : ∀ s ∈ sent, s.2 = .SIGTERM) : ∀ e ∈ signals config time sent, ∀ t, Timely e t := by
  intro e he t
  obtain ⟨s, hs, rfl⟩ := List.mem_map.1 he
  simp [Timely, h s hs]

theorem reached_some {now deadline : Time} : reached now (some deadline) = true ↔ deadline ≤ now := by
  simp [reached]

theorem Act.apply_timely {a : Act} (hdue : a.Due w job) (h : job.Timed t) (ht : Always Timely t)
    (time : Time) (reads : List PipeRead) :
    Always Timely ((a.apply env w.sup.shuttingDown time reads job).2 ++ t) := by
  cases a with
  | start =>
      simp only [Act.apply]
      split
      · exact ht.cons trivial
      · exact ht
  | stop => exact (ht.append (signals_timely (job.stop_term time))).cons trivial
  | unload => exact (ht.append (signals_timely (Job.stop_term time _))).cons trivial
  | retire => exact ht.append (signals_timely (job.stop_term time))
  | escalate now =>
      obtain heq | ⟨hs, hk, hr, heq⟩ | ⟨hs, hk, hr, heq⟩ :=
        job.escalate_cases w.sup.shuttingDown now
      · simpa [Act.apply, heq, signals] using ht
      · simp only [Act.apply, heq, hdue.2, and_false, if_false]
        obtain ⟨time', hsent, hdeadline⟩ := h.term hs hk
        -- an infinite timeout is never over
        have hfinite : job.config.exitTimeout ≠ 0 := by
          intro hz
          simp [hdeadline, hz, reached] at hr
        rw [hdeadline, if_pos hfinite] at hr
        have htimely : Timely (.signalled job.config job.pid .SIGKILL now) t :=
          ⟨hfinite, time', hsent, reached_some.1 hr⟩
        change Always Timely (.signalled job.config job.pid .SIGKILL now :: t)
        exact ht.cons htimely
      · simp only [Act.apply, heq, Job.exited, and_true, if_pos hdue.2]
        obtain ⟨time', hsent, hdeadline⟩ := h.kill hs hk
        refine ht.cons ⟨time', hsent, ?_⟩
        rwa [hdeadline, sigkillTimer] at hr
  | reaped status => exact ht.cons trivial
  | drain | launchFailed | activate => exact ht

theorem Job.due_attempted {now : Time} (hattempted : job.attempted = true)
    (h : job.due now = true) : job.lastAttempt + seconds job.config.throttle ≤ now := by
  simp only [Job.due, Bool.decide_or, Bool.or_eq_true, decide_eq_true_eq] at h
  exact h.resolve_left (not_not.2 hattempted)

/-! ### Runs -/

/-- The jobs keep to the record, and the record to the clock. -/
structure OnTime (env : Env) (w : World) : Prop where
  jobs : ∀ (l : Label) (job : Job), w.sup.jobs[l]? = some job →
    job.Timed w.trace ∧ job.config.Asks env
  timely : Always Timely w.trace
  asks : ∀ e ∈ w.trace, ∀ config, e.config? = some config → config.Asks env

theorem Act.apply_asks {a : Act} {down : Bool} (h : job.config.Asks env) (time : Time)
    (reads : List PipeRead) :
    ∀ e ∈ (a.apply env down time reads job).2, ∀ config, e.config? = some config →
      config.Asks env := by
  have sent : ∀ {config : Config} {time : Time} {s : List (Nat × Signal)}, config = job.config →
      ∀ e ∈ signals config time s, ∀ config', e.config? = some config' → config'.Asks env := by
    rintro _ time s rfl e he config' hc
    obtain ⟨x, -, rfl⟩ := List.mem_map.1 he
    cases hc
    exact h
  intro e he config hc
  cases a with
  | start =>
      simp only [Act.apply] at he
      split at he
      · obtain rfl := List.mem_singleton.1 he
        cases hc
      · cases he
  | stop =>
      obtain rfl | he := List.mem_cons.1 he
      · cases hc
      · exact sent (Job.stop_config time job) e he config hc
  | unload =>
      obtain rfl | he := List.mem_cons.1 he
      · cases hc
      · exact sent (Job.stop_config time { job with remove := true }) e he config hc
  | retire => exact sent (Job.stop_config time job) e he config hc
  | escalate now =>
      simp only [Act.apply] at he
      split at he
      · obtain rfl := List.mem_singleton.1 he
        cases hc
      · exact sent rfl e he config hc
  | reaped status =>
      obtain rfl := List.mem_singleton.1 he
      cases hc
  | drain | launchFailed | activate => cases he

/-- What is recorded of other jobs changes nothing for a job. -/
theorem Job.Timed.append (events : List Event) (h : job.Timed t)
    (hattempt : ∀ e ∈ events, attemptWord job.config.label e = none)
    (hsignal : ∀ e ∈ events, signalWord job.config.label e = none) :
    job.Timed (events ++ t) := by
  constructor
  · rw [attemptOf_append hattempt]
    exact h.attempt
  · rw [signalOf_append hsignal]
    exact h.term
  · rw [signalOf_append hsignal]
    exact h.kill

/-- An event that is about no job's times. -/
theorem OnTime.silent (e : Event) (h : OnTime env w) (htrace : v.trace = e :: w.trace)
    (hjobs : ∀ (l : Label) (job : Job), v.sup.jobs[l]? = some job → w.sup.jobs[l]? = some job)
    (hattempt : ∀ l, attemptWord l e = none) (hsignal : ∀ l, signalWord l e = none)
    (htimely : Timely e w.trace) (hconfig : e.config? = none) : OnTime env v := by
  constructor
  · intro l job hj
    obtain ⟨hjob, hasks⟩ := h.jobs l job (hjobs l job hj)
    rw [htrace]
    exact ⟨hjob.append [e] (by simpa using hattempt _) (by simpa using hsignal _), hasks⟩
  · rw [htrace]
    exact h.timely.cons htimely
  · rw [htrace]
    intro e' he' config hc
    obtain rfl | he' := List.mem_cons.1 he'
    · rw [hconfig] at hc
      cases hc
    · exact h.asks e' he' config hc

theorem OnTime.step (hs : Step env w v) (hi : InOrder w) (h : OnTime env w) : OnTime env v := by
  have hlabels : ∀ {l l' : Label} {job job' : Job}, w.sup.jobs[l]? = some job →
      w.sup.jobs[l']? = some job' → l' ≠ l → job.config.label ≠ job'.config.label := by
    intro l l' job job' hj hj' hne
    rw [(hi.jobs l job hj).1, (hi.jobs l' job' hj').1]
    exact Ne.symm hne
  cases hs with
  | quiet hv =>
      exact ⟨by rw [hv.sup, hv.trace]; exact h.jobs, by rw [hv.trace]; exact h.timely,
        by rw [hv.trace]; exact h.asks⟩
  | clients c n hv =>
      subst hv
      exact ⟨h.jobs, h.timely, h.asks⟩
  | overrides m hopen hv =>
      subst hv
      exact ⟨h.jobs, h.timely, h.asks⟩
  | act l a job time reads hj hdue ht hv =>
      subst hv
      obtain ⟨htimed, hasks⟩ := h.jobs l job hj
      refine ⟨fun l' job' hj' => ?_, Act.apply_timely hdue htimed h.timely time reads,
        fun e he config hc => ?_⟩
      · obtain ⟨rfl, rfl⟩ | ⟨hne, hj'⟩ := mem_insert hj'
        · exact ⟨Act.apply_timed hdue (hi.jobs _ job hj).2 htimed time reads,
            by rwa [Act.apply_config]⟩
        · obtain ⟨htimed', hasks'⟩ := h.jobs l' job' hj'
          exact ⟨htimed'.append _ (Act.attemptWord_apply hdue time reads)
            (Act.signalWord_apply (hlabels hj hj' hne) time reads), hasks'⟩
      · obtain he | he := List.mem_append.1 he
        · exact Act.apply_asks hasks time reads e he config hc
        · exact h.asks e he config hc
  | spawn l job time outcome hj hwait hpid hkeep hopen hdue ht hv =>
      subst hv
      obtain ⟨htimed, hasks⟩ := h.jobs l job hj
      refine ⟨fun l' job' hj' => ?_, h.timely.cons fun time' hlast => ?_, fun e he config hc => ?_⟩
      · obtain ⟨rfl, rfl⟩ | ⟨hne, hj'⟩ := mem_insert hj'
        · refine ⟨.of_attempt ?_ ?_, by rwa [Job.spawn_config]⟩
          · cases outcome <;> simp [attemptOf, lastWord_cons, attemptWord, Job.spawn]
          · cases outcome with
            | error message => simp [Job.spawn, hwait]
            | ok child => simp [Job.spawn]
        · obtain ⟨htimed', hasks'⟩ := h.jobs l' job' hj'
          have hne' := hlabels hj hj' hne
          exact ⟨htimed'.append [_] (by simp [attemptWord, hne'])
            (by simp [signalWord, hne']), hasks'⟩
      · rw [htimed.attempt] at hlast
        have hattempted : job.attempted = true := by
          by_contra hn
          simp [hn] at hlast
        simp only [hattempted, if_true, Option.some.injEq] at hlast
        subst hlast
        exact (Job.due_attempted hattempted hdue).trans ht
      · obtain rfl | he := List.mem_cons.1 he
        · cases hc
          exact hasks
        · exact h.asks e he config hc
  | emplace config listeners hopen hnew haccepted hv =>
      subst hv
      obtain ⟨value, hvalue⟩ := haccepted
      have hasks := parseConfig_asks hvalue
      refine ⟨fun l' job' hj' => ?_, h.timely.cons trivial, fun e he config' hc => ?_⟩
      · obtain ⟨rfl, rfl⟩ | ⟨hne, hj'⟩ := mem_insert hj'
        · refine ⟨.of_attempt ?_ ?_, hasks⟩
          · simp [attemptOf, lastWord_cons, attemptWord, Config.job]
          · unfold Config.job
            dsimp only
            split <;> simp
        · obtain ⟨htimed', hasks'⟩ := h.jobs l' job' hj'
          have hne' : config.label ≠ job'.config.label := by
            rw [(hi.jobs l' job' hj').1]
            exact Ne.symm hne
          exact ⟨htimed'.append [_] (by simp [attemptWord, hne'])
            (by simp [signalWord, hne']), hasks'⟩
      · obtain rfl | he := List.mem_cons.1 he
        · cases hc
          exact hasks
        · exact h.asks e he config' hc
  | erase l job hj hpid hr hv =>
      subst hv
      exact h.silent _ rfl (fun l' job' hj' => (mem_erase hj').2) (fun _ => rfl) (fun _ => rfl)
        trivial rfl
  | shutdown hopen hv =>
      subst hv
      exact h.silent _ rfl (fun _ _ => id) (fun _ => rfl) (fun _ => rfl) trivial rfl
  | reboot flags argument harg hv =>
      subst hv
      exact h.silent _ rfl (fun _ _ => id) (fun _ => rfl) (fun _ => rfl) trivial rfl
  | answer command argument hcommand hdown hv =>
      subst hv
      exact h.silent _ rfl (fun _ _ => id) (fun _ => rfl) (fun _ => rfl) trivial rfl
  | clean group hgroup hv =>
      subst hv
      exact h.silent _ rfl (fun _ _ => id) (fun _ => rfl) (fun _ => rfl) trivial rfl

theorem Reaches.onTime {p : Prog calls (Except Bytes Bool × Unit)} (h : Reaches env w p v)
    (hw : Fresh w) : OnTime env v := by
  refine (h.invariant (I := fun u => InOrder u ∧ OnTime env u) hw.open
    (fun _ _ hs hi => ⟨hi.1.step hs, hi.2.step hs hi.1⟩) ⟨hw.inOrder, ?_⟩).2
  refine ⟨fun _ _ hj => absurd hj hw.no_job, ?_, ?_⟩
  · rw [hw.trace]
    exact always_nil
  · simp [hw.trace]

/-- A change that ends the process of a job is recorded as such. -/
theorem Act.apply_exits {a : Act} {down : Bool} (time : Time) (reads : List PipeRead)
    (hp : job.pid ≠ 0) (hp' : (a.apply env down time reads job).1.pid = 0) :
    (a.apply env down time reads job).2 = [.reaped job.config.label] ∨
      ∃ now, (a.apply env down time reads job).2 = [.simulated job.config.label now] := by
  cases a with
  | start =>
      simp only [Act.apply] at hp'
      unfold Job.start at hp'
      split at hp'
      · next hs =>
          split at hs
          · cases hs
          · cases hs
            rw [if_neg hp] at hp'
            exact absurd hp' hp
      · exact absurd hp' hp
  | stop | retire =>
      change (job.stop time).1.pid = 0 at hp'
      rw [Job.stop_pid] at hp'
      exact absurd hp' hp
  | unload =>
      change (Job.stop time { job with remove := true }).1.pid = 0 at hp'
      rw [Job.stop_pid] at hp'
      exact absurd hp' hp
  | escalate now =>
      change (job.escalate down now).1.pid = 0 at hp'
      exact .inr ⟨now, if_pos ⟨hp, hp'⟩⟩
  | drain =>
      obtain ⟨_, _, _, _, heq, -⟩ := job.drainExecError_eq env.setupError reads
      simp only [Act.apply, heq] at hp'
      exact absurd hp' hp
  | reaped status => exact .inl rfl
  | launchFailed | activate => exact absurd hp' hp

/-- A job loses its process only by being reaped, or by being given up. -/
theorem Step.exits {job' : Job} (hs : Step env w v) (hi : InOrder w)
    (hj : w.sup.jobs[l]? = some job) (hj' : v.sup.jobs[l]? = some job') (hp : job.pid ≠ 0)
    (hp' : job'.pid = 0) :
    v.trace = .reaped l :: w.trace ∨ ∃ time, v.trace = .simulated l time :: w.trace := by
  have kept : v.sup.jobs[l]? = w.sup.jobs[l]? → False := by
    intro h
    rw [h, hj] at hj'
    cases hj'
    exact hp hp'
  cases hs with
  | quiet hv => exact (kept (by rw [hv.sup])).elim
  | clients c n hv => exact (kept (by rw [hv])).elim
  | overrides m hopen hv => exact (kept (by rw [hv])).elim
  | act l' a job0 time reads hj0 hdue ht hv =>
      subst hv
      obtain ⟨rfl, rfl⟩ | ⟨-, hj'⟩ := mem_insert hj'
      · cases hj.symm.trans hj0
        have hlabel := (hi.jobs l job hj).1
        obtain h | ⟨now, h⟩ := Act.apply_exits time reads hp hp'
        · exact .inl (by rw [h, hlabel]; rfl)
        · exact .inr ⟨now, by rw [h, hlabel]; rfl⟩
      · cases hj.symm.trans hj'
        exact absurd hp' hp
  | spawn l' job0 time outcome hj0 hwait hpid hkeep hopen hdue ht hv =>
      subst hv
      obtain ⟨rfl, rfl⟩ | ⟨-, hj'⟩ := mem_insert hj'
      · cases hj.symm.trans hj0
        exact absurd hpid hp
      · cases hj.symm.trans hj'
        exact absurd hp' hp
  | emplace config listeners hopen hnew haccepted hv =>
      subst hv
      obtain ⟨rfl, rfl⟩ | ⟨-, hj'⟩ := mem_insert hj'
      · exact absurd (Std.ExtTreeMap.mem_iff_isSome_getElem?.2 (by simp [hj])) hnew
      · cases hj.symm.trans hj'
        exact absurd hp' hp
  | erase l' job0 hj0 hpid hr hv =>
      subst hv
      cases hj.symm.trans (mem_erase hj').2
      exact absurd hp' hp
  | shutdown hopen hv => exact (kept (by rw [hv])).elim
  | reboot flags argument harg hv => exact (kept (by rw [hv])).elim
  | answer command argument hcommand hdown hv => exact (kept (by rw [hv])).elim
  | clean group hgroup hv => exact (kept (by rw [hv])).elim

/-- **Throttling and escalation.** In every run, two attempts to launch a job
are at least its throttle interval apart; the SIGKILL of `escalate ()`
follows the one SIGTERM of the stop, after the exit timeout and only if
there is one; and an exit is simulated at least four seconds after it. The
intervals are those of the property list, and a job loses its process in
no other way than by being reaped. -/
theorem launches_and_kills_are_timely (env : Env) (w v : World)
    (p : Prog calls (Except Bytes Bool × Unit)) (hw : Fresh w) (h : Reaches env w p v) :
    Always Timely v.trace ∧
    (∀ e ∈ v.trace, ∀ config, e.config? = some config → config.Asks env) ∧
    ∀ (o : Op) (k : o.Ans → Prog calls (Except Bytes Bool × Unit)) (r : o.Ans) (u : World),
      p = .call o k → sem env o v r u → ∀ (l : Label) (job job' : Job),
        v.sup.jobs[l]? = some job → u.sup.jobs[l]? = some job' → job.pid ≠ 0 → job'.pid = 0 →
          u.trace = .reaped l :: v.trace ∨ ∃ time, u.trace = .simulated l time :: v.trace := by
  have ht := h.onTime hw
  refine ⟨ht.timely, ht.asks, ?_⟩
  rintro o k r u rfl hs l job job' hj hj' hp hp'
  exact (step_of_sem (Reaches.spec h hw.open).1 hs).exits (h.inOrder hw) hj hj' hp hp'

/-! ### A run

The job of `demoSignalled` does not end: half a minute later it is killed,
and ten seconds after that it is given up. -/

def demoLate (later : Time) (o : Op) (w : World) : o.Ans × World :=
  match o with
  | .now => (max w.clock later, { w with clock := max w.clock later })
  | o => demoAnswer o w

theorem sem_demoLate (later : Time) (o : Op) (w : World) :
    sem demoEnv o w (demoLate later o w).1 (demoLate later o w).2 := by
  cases o with
  | now => exact ⟨le_max_left _ _, rfl⟩
  | _ => exact sem_demoAnswer _ w

@[irreducible] def demoKilled : (Except Bytes Bool × Unit) × World :=
  (turn demoEnv ()).exec (demoLate (seconds 30)) demoSignalled.2

@[irreducible] def demoGivenUp : (Except Bytes Bool × Unit) × World :=
  (turn demoEnv ()).exec (demoLate (seconds 40)) demoKilled.2

theorem demo_gives_up :
    demoKilled.1 = (.ok false, ()) ∧ demoGivenUp.1 = (.ok true, ()) ∧
      demoGivenUp.2.trace.length = 7 := by
  unfold demoGivenUp demoKilled demoSignalled demoTurn demoBoot
  decide +kernel

theorem reaches_demoGivenUp : Reaches demoEnv {} (.ret demoGivenUp.1) demoGivenUp.2 := by
  have hsignalled := reaches_demoSignalled
  rw [demo_ends.1] at hsignalled
  have hkilled : Reaches demoEnv {} (.ret demoKilled.1) demoKilled.2 := by
    unfold demoKilled
    exact (Runs.again hsignalled rfl).reach (Prog.reach_exec (sem_demoLate _) _ _)
  rw [demo_gives_up.1] at hkilled
  unfold demoGivenUp
  exact (Runs.again hkilled rfl).reach (Prog.reach_exec (sem_demoLate _) _ _)

theorem launches_and_kills_are_timely_given_up :
    demoGivenUp.2.trace.length = 7 ∧ Always Timely demoGivenUp.2.trace :=
  ⟨demo_gives_up.2.2,
    (launches_and_kills_are_timely demoEnv {} _ _ ⟨rfl, rfl⟩ reaches_demoGivenUp).1⟩

end MiniDarwin.Launchd
