import MiniDarwin.Launchd.Invariant

/-!
Stop and unload are final.

What a run has done to the job of a label is read off the record: `stopped`
says that the last word of a client was a stop, `unloading` that the job
is to be removed and has not been yet. Either is a fact about the job
itself, its `enabled` or its `remove`, and the state machine of a job does
the rest.
-/

namespace MiniDarwin.Launchd

open Posix (Bytes)
open Effects Effects.Proc

variable {env : Env} {w v : World} {job : Job} {l : Label} {t : List Event} {e : Event}

/-! ### What the record says -/

/-- Stop and start of a job, and its removal, which ends both. -/
def stopWord (l : Label) : Event → Option Bool
  | .answered command argument =>
      if argument = l ∧ command = ascii "stop" then some true
      else if argument = l ∧ command = ascii "start" then some false
      else none
  | .erased l' => if l' = l then some false else none
  | _ => none

/-- The job of the label was told to stop, and has not been told to start since. -/
def stopped (l : Label) (t : List Event) : Prop := lastWord (stopWord l) t = some true

def unloadWord (l : Label) : Event → Option Bool
  | .answered command argument =>
      if argument = l ∧ command = ascii "unload" then some true else none
  | .erased l' => if l' = l then some false else none
  | _ => none

/-- The job of the label is being unloaded. -/
def unloading (l : Label) (t : List Event) : Prop := lastWord (unloadWord l) t = some true

/-- What may be done to a job, given what has been done before. -/
def Lawful (e : Event) (earlier : List Event) : Prop :=
  match e with
  | .spawned config _ _ => ¬ stopped config.label earlier ∧ ¬ unloading config.label earlier
  | .loaded config => ¬ unloading config.label earlier
  | .answered command argument => command = ascii "start" → ¬ unloading argument earlier
  | _ => True

/-! ### What a change of a job adds to the record -/

/-- Events that are about processes. -/
def Event.minor : Event → Bool
  | .signalled _ _ _ _ | .cleaned _ | .simulated _ _ | .reaped _ => true
  | _ => false

theorem Event.minor.stopWord (h : e.minor = true) : stopWord l e = none := by
  cases e <;> first | rfl | cases h

theorem Event.minor.unloadWord (h : e.minor = true) : unloadWord l e = none := by
  cases e <;> first | rfl | cases h

theorem Event.minor.lawful (h : e.minor = true) (t : List Event) : Lawful e t := by
  cases e with
  | spawned | loaded | answered => cases h
  | _ => trivial

/-- The request that a change answers. -/
def Act.command : Act → Option Bytes
  | .start => some (ascii "start")
  | .stop => some (ascii "stop")
  | .unload => some (ascii "unload")
  | _ => none

theorem signals_minor {config : Config} {time : Time} {sent : List (Nat × Signal)} :
    ∀ e ∈ signals config time sent, e.minor = true := by
  intro e he
  obtain ⟨s, -, rfl⟩ := List.mem_map.1 he
  rfl

/-- A change of a job is an answer, if it is one, and signals. -/
theorem Act.apply_events (env : Env) {a : Act} (hdue : a.Due w job) (time : Time)
    (reads : List PipeRead) :
    ∃ sent, (a.apply env w.sup.shuttingDown time reads job).2 =
        (a.command.toList.map fun c => .answered c job.config.label) ++ sent ∧
      ∀ e ∈ sent, e.minor = true := by
  cases a with
  | start =>
      obtain ⟨⟨job', hs⟩, -⟩ := hdue
      exact ⟨[], by simp [Act.apply, hs, Act.command, Job.start_config hs], by simp⟩
  | stop => exact ⟨_, by simp [Act.apply, Act.command]; rfl, signals_minor⟩
  | unload => exact ⟨_, by simp [Act.apply, Act.command]; rfl, signals_minor⟩
  | retire => exact ⟨_, rfl, signals_minor⟩
  | escalate now =>
      refine ⟨(Act.apply env w.sup.shuttingDown time reads job (.escalate now)).2, rfl, ?_⟩
      intro e he
      simp only [Act.apply] at he
      split at he
      · obtain rfl := List.mem_singleton.1 he
        rfl
      · exact signals_minor e he
  | drain => exact ⟨[], rfl, by simp⟩
  | reaped status => exact ⟨_, rfl, by simp [Event.minor]⟩
  | launchFailed message => exact ⟨[], rfl, by simp⟩
  | activate => exact ⟨[], rfl, by simp⟩

/-! ### What a change of a job leaves alone -/

@[simp] theorem Job.stop_enabled (time : Time) (job : Job) :
    (job.stop time).1.enabled = false := by
  unfold Job.stop
  dsimp only
  split
  · rfl
  · split <;> rfl

@[simp] theorem Job.stop_remove (time : Time) (job : Job) :
    (job.stop time).1.remove = job.remove := by
  unfold Job.stop
  dsimp only
  split
  · rfl
  · split <;> rfl

@[simp] theorem Job.escalate_enabled (down : Bool) (now : Time) (job : Job) :
    (job.escalate down now).1.enabled = job.enabled := by
  unfold Job.escalate
  split
  · rfl
  · split
    · rfl
    · split <;> rfl

@[simp] theorem Job.escalate_remove (down : Bool) (now : Time) (job : Job) :
    (job.escalate down now).1.remove = job.remove := by
  unfold Job.escalate
  split
  · rfl
  · split
    · rfl
    · split <;> rfl

/-- Only a start enables a job again. -/
theorem Act.apply_enabled {a : Act} (ha : a ≠ .start) (h : job.enabled = false) (down : Bool)
    (time : Time) (reads : List PipeRead) :
    (a.apply env down time reads job).1.enabled = false := by
  cases a with
  | start => exact absurd rfl ha
  | stop | unload | retire => exact Job.stop_enabled time _
  | escalate now => exact (Job.escalate_enabled down now job).trans h
  | drain =>
      obtain ⟨_, _, _, _, heq, -⟩ := job.drainExecError_eq env.setupError reads
      simp [Act.apply, heq, h]
  | reaped status => cases status <;> exact h
  | launchFailed | activate => exact h

/-- A job that is to be removed stays so. -/
theorem Act.apply_remove {a : Act} (hdue : a.Due w job) (h : job.remove = true) (time : Time)
    (reads : List PipeRead) :
    (a.apply env w.sup.shuttingDown time reads job).1.remove = true := by
  cases a with
  | start =>
      obtain ⟨⟨job', hs⟩, -⟩ := hdue
      simp [Job.start, h] at hs
  | stop | retire => exact (Job.stop_remove time job).trans h
  | unload => exact Job.stop_remove time { job with remove := true }
  | escalate now => exact (Job.escalate_remove _ now job).trans h
  | drain =>
      obtain ⟨_, _, _, _, heq, -⟩ := job.drainExecError_eq env.setupError reads
      simp [Act.apply, heq, h]
  | reaped status => cases status <;> exact h
  | launchFailed | activate => exact h

/-! ### Runs -/

/-- The record agrees with the jobs there are. -/
structure Lasting (w : World) : Prop where
  stops : ∀ l, stopped l w.trace →
    ∃ job : Job, w.sup.jobs[l]? = some job ∧ job.enabled = false
  unloads : ∀ l, unloading l w.trace →
    ∃ job : Job, w.sup.jobs[l]? = some job ∧ job.remove = true
  lawful : Always Lawful w.trace

/-- A job is still there, and no more enabled or less to be removed than before. -/
def StillThere (w v : World) : Prop :=
  ∀ (l : Label) (job : Job), w.sup.jobs[l]? = some job → ∃ job' : Job, v.sup.jobs[l]? = some job' ∧
    (job.enabled = false → job'.enabled = false) ∧ (job.remove = true → job'.remove = true)

theorem StillThere.of_jobs (h : v.sup.jobs = w.sup.jobs) : StillThere w v := by
  intro l job hj
  exact ⟨job, by rw [h, hj], id, id⟩

/-- Events that say nothing about stopping. -/
theorem Lasting.silent (events : List Event) (h : Lasting w) (htrace : v.trace = events ++ w.trace)
    (hstop : ∀ e ∈ events, ∀ l, stopWord l e = none)
    (hunload : ∀ e ∈ events, ∀ l, unloadWord l e = none) (hlawful : Always Lawful v.trace)
    (hthere : StillThere w v) : Lasting v := by
  refine ⟨fun l hl => ?_, fun l hl => ?_, hlawful⟩
  · rw [stopped, htrace, lastWord_append fun e he => hstop e he l] at hl
    obtain ⟨job, hj, he⟩ := h.stops l hl
    obtain ⟨job', hj', he', -⟩ := hthere l job hj
    exact ⟨job', hj', he' he⟩
  · rw [unloading, htrace, lastWord_append fun e he => hunload e he l] at hl
    obtain ⟨job, hj, hr⟩ := h.unloads l hl
    obtain ⟨job', hj', -, hr'⟩ := hthere l job hj
    exact ⟨job', hj', hr' hr⟩

/-- An event about one label says nothing about another one. -/
theorem stopWord_answered {l l' : Label} {command : Bytes} (h : l' ≠ l) :
    stopWord l' (.answered command l) = none := by
  simp [stopWord, Ne.symm h]

theorem unloadWord_answered {l l' : Label} {command : Bytes} (h : l' ≠ l) :
    unloadWord l' (.answered command l) = none := by
  simp [unloadWord, Ne.symm h]

/-- A job that was told to stop is not enabled after a change. -/
theorem Act.apply_stopped {a : Act} {sent : List Event} (hdue : a.Due w job)
    (hminor : ∀ e ∈ sent, e.minor = true) (h : stopped l t → job.enabled = false)
    (hs : stopped l ((a.command.toList.map fun c => .answered c l) ++ (sent ++ t))) (time : Time)
    (reads : List PipeRead) :
    (a.apply env w.sup.shuttingDown time reads job).1.enabled = false := by
  have earlier : stopped l (sent ++ t) → job.enabled = false := by
    rw [stopped, lastWord_append fun e he => Event.minor.stopWord (hminor e he)]
    exact h
  cases a with
  | start =>
      have hne : ascii "start" ≠ ascii "stop" := by decide
      simp [Act.command, stopped, lastWord_cons, stopWord, hne] at hs
  | stop | unload => exact Job.stop_enabled time _
  | _ => exact Act.apply_enabled (by simp) (earlier hs) _ time reads

/-- A job that is being unloaded is to be removed after a change. -/
theorem Act.apply_unloading {a : Act} {sent : List Event} (hdue : a.Due w job)
    (hminor : ∀ e ∈ sent, e.minor = true) (h : unloading l t → job.remove = true)
    (hs : unloading l ((a.command.toList.map fun c => .answered c l) ++ (sent ++ t))) (time : Time)
    (reads : List PipeRead) :
    (a.apply env w.sup.shuttingDown time reads job).1.remove = true := by
  have earlier : unloading l (sent ++ t) → job.remove = true := by
    rw [unloading, lastWord_append fun e he => Event.minor.unloadWord (hminor e he)]
    exact h
  have other : a.command ≠ some (ascii "unload") → job.remove = true := by
    intro ha
    cases hc : a.command with
    | none => exact earlier (by simpa [hc] using hs)
    | some c =>
        refine earlier ?_
        rw [hc] at ha
        have hw : unloadWord l (.answered c l) = none := by simpa [unloadWord] using ha
        simpa [hc, unloading, lastWord_cons, hw] using hs
  by_cases ha : a = .unload
  · subst ha
    exact Job.stop_remove time { job with remove := true }
  · refine Act.apply_remove hdue (other ?_) time reads
    cases a <;> simp [Act.command] at ha ⊢ <;> decide

theorem Lasting.act {a : Act} {time : Time} {reads : List PipeRead} (h : Lasting w)
    (hj : w.sup.jobs[l]? = some job) (hlabel : job.config.label = l) (hdue : a.Due w job)
    (hjobs : v.sup.jobs =
      w.sup.jobs.insert l (a.apply env w.sup.shuttingDown time reads job).1)
    (htrace : v.trace = (a.apply env w.sup.shuttingDown time reads job).2 ++ w.trace) :
    Lasting v := by
  obtain ⟨sent, hevents, hminor⟩ := Act.apply_events env hdue time reads
  rw [hevents, hlabel, List.append_assoc] at htrace
  -- what was known of the job before
  have hstop : stopped l w.trace → job.enabled = false := by
    intro hs
    obtain ⟨job', hj', he⟩ := h.stops l hs
    cases hj.symm.trans hj'
    exact he
  have hunload : unloading l w.trace → job.remove = true := by
    intro hs
    obtain ⟨job', hj', hr⟩ := h.unloads l hs
    cases hj.symm.trans hj'
    exact hr
  have hself : v.sup.jobs[l]? = some (a.apply env w.sup.shuttingDown time reads job).1 := by
    simp [hjobs]
  have hother : ∀ l', l' ≠ l → v.sup.jobs[l']? = w.sup.jobs[l']? := by
    intro l' hne
    simp [hjobs, Std.ExtTreeMap.getElem?_insert, Ne.symm hne]
  constructor
  · intro l' hs
    by_cases hne : l' = l
    · subst hne
      rw [htrace] at hs
      exact ⟨_, hself, Act.apply_stopped hdue hminor hstop hs time reads⟩
    · rw [hother l' hne]
      refine h.stops l' ?_
      rw [stopped, htrace, lastWord_append, lastWord_append] at hs
      · exact hs
      · exact fun e he => Event.minor.stopWord (hminor e he)
      · intro e he
        obtain ⟨c, -, rfl⟩ := List.mem_map.1 he
        exact stopWord_answered hne
  · intro l' hs
    by_cases hne : l' = l
    · subst hne
      rw [htrace] at hs
      exact ⟨_, hself, Act.apply_unloading hdue hminor hunload hs time reads⟩
    · rw [hother l' hne]
      refine h.unloads l' ?_
      rw [unloading, htrace, lastWord_append, lastWord_append] at hs
      · exact hs
      · exact fun e he => Event.minor.unloadWord (hminor e he)
      · intro e he
        obtain ⟨c, -, rfl⟩ := List.mem_map.1 he
        exact unloadWord_answered hne
  · rw [htrace]
    have hsent := h.lawful.append fun e he => Event.minor.lawful (hminor e he)
    cases hc : a.command with
    | none => simpa [hc] using hsent
    | some c =>
        refine Always.cons hsent fun hstart hun => ?_
        change unloading l (sent ++ w.trace) at hun
        rw [unloading, lastWord_append fun e he => Event.minor.unloadWord (hminor e he)] at hun
        have hr := hunload hun
        -- a job that is to be removed cannot be started
        cases a with
        | start =>
            obtain ⟨⟨job', hs⟩, -⟩ := hdue
            simp [Job.start, hr] at hs
        | stop | unload =>
            cases hc
            revert hstart
            decide
        | _ => cases hc

/-- The commands that `answer` is about do not stop or unload a job. -/
theorem silent_command {command : Bytes} (argument : Bytes)
    (h : command ∈ [ascii "list", ascii "load", ascii "disable", ascii "enable", ascii "reboot"]) :
    (∀ l, stopWord l (.answered command argument) = none) ∧
      (∀ l, unloadWord l (.answered command argument) = none) ∧ command ≠ ascii "start" := by
  have hne : command ≠ ascii "stop" ∧ command ≠ ascii "start" ∧ command ≠ ascii "unload" := by
    revert command
    decide
  exact ⟨fun l => by simp [stopWord, hne], fun l => by simp [unloadWord, hne], hne.2.1⟩

theorem Lasting.answered {command argument : Bytes} (h : Lasting w)
    (hc : command ∈ [ascii "list", ascii "load", ascii "disable", ascii "enable", ascii "reboot"])
    (htrace : v.trace = .answered command argument :: w.trace) (hjobs : v.sup.jobs = w.sup.jobs) :
    Lasting v := by
  obtain ⟨hstop, hunload, hstart⟩ := silent_command argument hc
  refine h.silent [.answered command argument] htrace (by simpa using hstop) (by simpa using hunload)
    ?_ (.of_jobs hjobs)
  rw [htrace]
  exact h.lawful.cons fun hs => absurd hs hstart

theorem Lasting.step (hs : Step env w v) (hi : InOrder w) (h : Lasting w) : Lasting v := by
  cases hs with
  | quiet hv =>
      refine h.silent [] hv.trace (by simp) (by simp) ?_ (.of_jobs (by rw [hv.sup]))
      rw [hv.trace]
      exact h.lawful
  | clients c n hv =>
      subst hv
      exact ⟨h.stops, h.unloads, h.lawful⟩
  | overrides m hopen hv =>
      subst hv
      exact ⟨h.stops, h.unloads, h.lawful⟩
  | act l a job time reads hj hdue ht hv =>
      subst hv
      exact h.act hj (hi.jobs l job hj).1 hdue rfl rfl
  | spawn l job time outcome hj hwait hpid hkeep hopen hdue ht hv =>
      subst hv
      obtain ⟨rfl, hok⟩ := hi.jobs l job hj
      have he := (hok.waiting hwait).1
      refine h.silent [_] rfl (by simp [stopWord]) (by simp [unloadWord])
        (h.lawful.cons ⟨fun hs => ?_, fun hu => ?_⟩) fun l' job' hj' => ?_
      · obtain ⟨job', hj', he'⟩ := h.stops _ hs
        cases hj.symm.trans hj'
        rw [he] at he'
        cases he'
      · obtain ⟨job', hj', hr'⟩ := h.unloads _ hu
        cases hj.symm.trans hj'
        rw [hkeep] at hr'
        cases hr'
      · by_cases hl : l' = job.config.label
        · subst hl
          cases hj.symm.trans hj'
          exact ⟨_, Std.ExtTreeMap.getElem?_insert_self, by cases outcome <;> exact id,
            by cases outcome <;> exact id⟩
        · exact ⟨job', by simpa [Std.ExtTreeMap.getElem?_insert, Ne.symm hl] using hj', id, id⟩
  | emplace config listeners hopen hnew haccepted hv =>
      subst hv
      refine h.silent [_] rfl (by simp [stopWord]) (by simp [unloadWord])
        (h.lawful.cons fun hu => ?_) fun l' job' hj' => ⟨job', ?_, id, id⟩
      · obtain ⟨job', hj', -⟩ := h.unloads _ hu
        exact hnew (Std.ExtTreeMap.mem_iff_isSome_getElem?.2 (by simp [hj']))
      · have hl : config.label ≠ l' := by
          rintro rfl
          exact hnew (Std.ExtTreeMap.mem_iff_isSome_getElem?.2 (by simp [hj']))
        simpa [Std.ExtTreeMap.getElem?_insert, hl] using hj'
  | erase l job hj hpid hr hv =>
      subst hv
      refine ⟨fun l' hs => ?_, fun l' hs => ?_, h.lawful.cons trivial⟩
      · have hl : l ≠ l' := by
          rintro rfl
          simp [stopped, lastWord_cons, stopWord] at hs
        obtain ⟨job', hj', he⟩ := h.stops l' (by simpa [stopped, lastWord_cons, stopWord, hl] using hs)
        exact ⟨job', by simpa [Std.ExtTreeMap.getElem?_erase, hl] using hj', he⟩
      · have hl : l ≠ l' := by
          rintro rfl
          simp [unloading, lastWord_cons, unloadWord] at hs
        obtain ⟨job', hj', hr'⟩ :=
          h.unloads l' (by simpa [unloading, lastWord_cons, unloadWord, hl] using hs)
        exact ⟨job', by simpa [Std.ExtTreeMap.getElem?_erase, hl] using hj', hr'⟩
  | shutdown hopen hv =>
      subst hv
      exact h.silent [_] rfl (by simp [stopWord]) (by simp [unloadWord]) (h.lawful.cons trivial)
        (.of_jobs rfl)
  | reboot flags argument harg hv =>
      subst hv
      exact h.answered (by simp) rfl rfl
  | answer command argument hcommand hdown hv =>
      subst hv
      exact h.answered (by simp at hcommand ⊢; tauto) rfl rfl
  | clean group hgroup hv =>
      subst hv
      exact h.silent [_] rfl (by simp [stopWord]) (by simp [unloadWord]) (h.lawful.cons trivial)
        (.of_jobs rfl)

/-- A job leaves `jobs_` only without a process, and that is recorded. -/
theorem Step.gone (hs : Step env w v) (hj : w.sup.jobs[l]? = some job)
    (hgone : v.sup.jobs[l]? = none) : job.pid = 0 ∧ v.trace = .erased l :: w.trace := by
  have kept : v.sup.jobs = w.sup.jobs → False := by
    intro h
    rw [h, hj] at hgone
    cases hgone
  have inserted : ∀ l' job', v.sup.jobs = w.sup.jobs.insert l' job' → False := by
    intro l' job' h
    rw [h, Std.ExtTreeMap.getElem?_insert] at hgone
    split at hgone
    · cases hgone
    · rw [hj] at hgone
      cases hgone
  cases hs with
  | quiet hv => exact (kept (by rw [hv.sup])).elim
  | act l' a job' time reads hj' hdue ht hv => exact (inserted l' _ (by rw [hv])).elim
  | spawn l' job' time outcome hj' hwait hpid hkeep hopen hdue ht hv =>
      exact (inserted l' _ (by rw [hv])).elim
  | emplace config listeners hopen hnew haccepted hv =>
      exact (inserted config.label _ (by rw [hv])).elim
  | erase l' job' hj' hpid hr hv =>
      subst hv
      by_cases hl : l' = l
      · subst hl
        cases hj.symm.trans hj'
        exact ⟨hpid, rfl⟩
      · rw [Std.ExtTreeMap.getElem?_erase, if_neg (by simpa using hl), hj] at hgone
        cases hgone
  | clients c n hv => exact (kept (by rw [hv])).elim
  | overrides m hopen hv => exact (kept (by rw [hv])).elim
  | shutdown hopen hv => exact (kept (by rw [hv])).elim
  | reboot flags argument harg hv => exact (kept (by rw [hv])).elim
  | answer command argument hcommand hdown hv => exact (kept (by rw [hv])).elim
  | clean group hgroup hv => exact (kept (by rw [hv])).elim

theorem Reaches.lasting {p : Prog calls (Except Bytes Bool × Unit)} (h : Reaches env w p v)
    (hw : Fresh w) : InOrder v ∧ Lasting v := by
  refine h.invariant (I := fun u => InOrder u ∧ Lasting u) hw.open
    (fun _ _ hs hi => ⟨hi.1.step hs, hi.2.step hs hi.1⟩)
    ⟨hw.inOrder, ?_⟩
  constructor
  · simp [hw.trace, stopped, lastWord]
  · simp [hw.trace, unloading, lastWord]
  · rw [hw.trace]
    exact always_nil

/-- **Stop and unload are final.** In every run, a job is not spawned after a stop
that was answered until a start is, nor while it is being unloaded; no
start of a job that is being unloaded is answered, and no job of its label
is loaded, until it has left `jobs_`, where it stays until then; and it
leaves only without a process. -/
theorem stop_is_final (env : Env) (w v : World) (p : Prog calls (Except Bytes Bool × Unit))
    (hw : Fresh w) (h : Reaches env w p v) :
    Always Lawful v.trace ∧
      (∀ l, unloading l v.trace → ∃ job : Job, v.sup.jobs[l]? = some job ∧ job.remove = true) ∧
      ∀ (o : Op) (k : o.Ans → Prog calls (Except Bytes Bool × Unit)) (r : o.Ans) (u : World),
        p = .call o k → sem env o v r u → ∀ (l : Label) (job : Job), v.sup.jobs[l]? = some job →
          u.sup.jobs[l]? = none → job.pid = 0 ∧ u.trace = .erased l :: v.trace := by
  refine ⟨(h.lasting hw).2.lawful, (h.lasting hw).2.unloads, ?_⟩
  rintro o k r u rfl hs l job hj hgone
  exact (step_of_sem (Reaches.spec h hw.open).1 hs).gone hj hgone

/-! ### A run

The job of `demoTurn` is told to stop and then unloaded. A start and a load of it are refused
as long as it is there, and it leaves when its process has ended. -/

def demoExit (o : Op) (w : World) : o.Ans × World :=
  match o with
  | .rounds => ((1 : Nat), w)
  | .waitid => (.ok 2, w)
  | .waitpid _ => (.ok (some (.exited 0)), w)
  | o => demoAnswer o w

theorem sem_demoExit (o : Op) (w : World) :
    sem demoEnv o w (demoExit o w).1 (demoExit o w).2 := by
  cases o with
  | rounds | waitid | waitpid => exact rfl
  | _ => exact sem_demoAnswer _ w

/-- What `client.cpp` sends. -/
def requestText (command argument : String) : Bytes :=
  plistHead ++ ascii "<dict><key>Argument</key><string>" ++ ascii argument ++
    ascii "</string><key>Command</key><string>" ++ ascii command ++
    ascii "</string><key>Version</key><integer>1</integer></dict></plist>"

def requestDoc (command argument : String) : Doc where
  root := some (.plain (ascii "plist"), [.element (.plain (ascii "dict"))
    [.element (.plain (ascii "key")) [.text (ascii "Argument")],
     .element (.plain (ascii "string")) [.text (ascii argument)],
     .element (.plain (ascii "key")) [.text (ascii "Command")],
     .element (.plain (ascii "string")) [.text (ascii command)],
     .element (.plain (ascii "key")) [.text (ascii "Version")],
     .element (.plain (ascii "integer")) [.text (ascii "1")]]])
  intSubset := false

/-- The four requests, each on a connection of its own. -/
def requests : List (Fd × String × String) :=
  [(7, "stop", "a"), (8, "unload", "a"), (9, "start", "a"), (10, "load", "/d/a.plist")]

def requestEnv : Env :=
  { demoEnv with
    xmlReadMemory := fun bytes =>
      if bytes = demoText then some demoDoc
      else (requests.find? fun r => bytes = requestText r.2.1 r.2.2).map fun r => requestDoc r.2.1 r.2.2 }

/-- The clients connect. -/
def connectAnswer (o : Op) (w : World) : o.Ans × World :=
  match o with
  | .wait => (.ok [.descriptor 3 false 0], w)
  | .accept =>
      match requests.find? fun r => r.1 ∉ w.sup.clients with
      | some r => (.ok (r.1, true), w)
      | none => (.error .EAGAIN, w)
  | o => demoAnswer o w

/-- They send their requests. -/
def requestAnswer (o : Op) (w : World) : o.Ans × World :=
  match o with
  | .wait => (.ok [.descriptor 7 false 1, .descriptor 8 false 2, .descriptor 9 false 3, .descriptor 10 false 4], w)
  | .recv fd =>
      match requests.find? fun r => r.1 = fd with
      | some r => (.ok (framed (requestText r.2.1 r.2.2)), w)
      | none => (.ok [], w)
  | o => demoAnswer o w

theorem sem_requestEnv {o : Op} {w v : World} {r : o.Ans} : sem requestEnv o w r v ↔ sem demoEnv o w r v := by
  cases o <;> exact Iff.rfl

theorem sem_connectAnswer (o : Op) (w : World) : sem requestEnv o w (connectAnswer o w).1 (connectAnswer o w).2 := by
  refine sem_requestEnv.2 ?_
  cases o with
  | wait => exact rfl
  | accept =>
      unfold connectAnswer
      dsimp only
      split <;> exact rfl
  | _ => exact sem_demoAnswer _ w

theorem requestText_length {r : Fd × String × String} (h : r ∈ requests) :
    (framed (requestText r.2.1 r.2.2)).length ≤ 4096 := by
  have hall : requests.all (fun r => (framed (requestText r.2.1 r.2.2)).length ≤ 4096) = true := by decide +kernel
  simpa using List.all_eq_true.1 hall r h

theorem sem_requestAnswer (o : Op) (w : World) : sem requestEnv o w (requestAnswer o w).1 (requestAnswer o w).2 := by
  refine sem_requestEnv.2 ?_
  cases o with
  | wait => exact rfl
  | recv fd =>
      unfold requestAnswer
      dsimp only
      split
      · next r hr =>
          refine ⟨rfl, fun data h => ?_⟩
          cases h
          exact requestText_length (List.mem_of_find?_eq_some hr)
      · exact ⟨rfl, fun data h => by cases h; simp⟩
  | _ => exact sem_demoAnswer _ w

def demoConfig : Config where
  label := ascii "a"
  program := ascii "/a"
  arguments := [ascii "/a"]
  keepAlive := true

@[irreducible] def unloadBoot : (Except Bytes Bool × Unit) × World := (boot requestEnv ()).exec demoAnswer {}

@[irreducible] def unloadStarted : (Except Bytes Bool × Unit) × World :=
  (turn requestEnv ()).exec demoAnswer unloadBoot.2

@[irreducible] def unloadConnected : (Except Bytes Bool × Unit) × World :=
  (turn requestEnv ()).exec connectAnswer unloadStarted.2

@[irreducible] def unloadAsked : (Except Bytes Bool × Unit) × World :=
  (turn requestEnv ()).exec requestAnswer unloadConnected.2

/-- The process has ended, and the job is about to go. -/
@[irreducible] def unloadErasing : Prog calls (Except Bytes Bool × Unit) × World :=
  Prog.execFor demoExit 10 (turn requestEnv ()) unloadAsked.2

@[irreducible] def unloadEnded : (Except Bytes Bool × Unit) × World :=
  (turn requestEnv ()).exec demoExit unloadAsked.2

/-- Is it about to erase the job of a label? -/
def erases (l : Label) : Prog calls (Except Bytes Bool × Unit) → Bool
  | .call (.erase l') _ => l' = l
  | _ => false

theorem erases_iff {p : Prog calls (Except Bytes Bool × Unit)} (h : erases l p = true) :
    ∃ k, p = .call (.erase l) k := by
  unfold erases at h
  split at h
  · next l' k =>
      obtain rfl : l' = l := of_decide_eq_true h
      exact ⟨k, rfl⟩
  · cases h

theorem unload_facts :
    (unloadBoot.1 = (.ok false, ()) ∧ unloadStarted.1 = (.ok false, ()) ∧ unloadConnected.1 = (.ok false, ()) ∧
      unloadAsked.1 = (.ok false, ())) ∧
    unloadAsked.2.trace = [.answered (ascii "unload") (ascii "a"), .answered (ascii "stop") (ascii "a"),
      .signalled demoConfig 2 .SIGTERM 0, .spawned demoConfig 0 true, .loaded demoConfig] ∧
    unloadErasing.2.trace = .reaped (ascii "a") :: .cleaned 2 :: unloadAsked.2.trace ∧
    erases (ascii "a") unloadErasing.1 = true ∧
    unloadEnded.2.trace = .erased (ascii "a") :: unloadErasing.2.trace := by
  decide +kernel

theorem reaches_unloadAsked : Reaches requestEnv {} (.ret unloadAsked.1) unloadAsked.2 := by
  obtain ⟨hbooted, hstarted, hconnected, -⟩ := unload_facts.1
  have hdemo : ∀ o w, sem requestEnv o w (demoAnswer o w).1 (demoAnswer o w).2 :=
    fun o w => sem_requestEnv.2 (sem_demoAnswer o w)
  have hboot : Reaches requestEnv {} (.ret unloadBoot.1) unloadBoot.2 := by
    unfold unloadBoot
    exact Runs.start.reach (Prog.reach_exec hdemo _ _)
  rw [hbooted] at hboot
  have hstart : Reaches requestEnv {} (.ret unloadStarted.1) unloadStarted.2 := by
    unfold unloadStarted
    exact (Runs.again hboot rfl).reach (Prog.reach_exec hdemo _ _)
  rw [hstarted] at hstart
  have hconnect : Reaches requestEnv {} (.ret unloadConnected.1) unloadConnected.2 := by
    unfold unloadConnected
    exact (Runs.again hstart rfl).reach (Prog.reach_exec sem_connectAnswer _ _)
  rw [hconnected] at hconnect
  unfold unloadAsked
  exact (Runs.again hconnect rfl).reach (Prog.reach_exec sem_requestAnswer _ _)

theorem reaches_unload_last : Reaches requestEnv {} unloadErasing.1 unloadErasing.2 ∧
    Reaches requestEnv {} (.ret unloadEnded.1) unloadEnded.2 := by
  have hexit : ∀ o w, sem requestEnv o w (demoExit o w).1 (demoExit o w).2 :=
    fun o w => sem_requestEnv.2 (sem_demoExit o w)
  have hasked := reaches_unloadAsked
  rw [unload_facts.1.2.2.2] at hasked
  unfold unloadErasing unloadEnded
  exact ⟨(Runs.again hasked rfl).reach (Prog.reach_execFor hexit _ _ _),
    (Runs.again hasked rfl).reach (Prog.reach_exec hexit _ _)⟩

/-- The stop and the unload are answered, the start and the load are not; the job stays until its
process has been reaped, is not spawned again and is erased. -/
theorem stop_is_final_unloaded :
    unloadAsked.2.trace = [.answered (ascii "unload") (ascii "a"), .answered (ascii "stop") (ascii "a"),
      .signalled demoConfig 2 .SIGTERM 0, .spawned demoConfig 0 true, .loaded demoConfig] ∧
    (∃ job, unloadAsked.2.sup.jobs[ascii "a"]? = some job ∧ job.remove = true) ∧
    (∃ k job, unloadErasing.1 = .call (.erase (ascii "a")) k ∧
      unloadErasing.2.sup.jobs[ascii "a"]? = some job ∧ job.pid = 0) ∧
    unloadEnded.2.trace = .erased (ascii "a") :: .reaped (ascii "a") :: .cleaned 2 :: unloadAsked.2.trace ∧
    Always Lawful unloadEnded.2.trace := by
  obtain ⟨-, hasked, herasing, hcall, hended⟩ := unload_facts
  obtain ⟨hreach, hreach'⟩ := reaches_unload_last
  obtain ⟨-, hstays, -⟩ := stop_is_final requestEnv {} _ _ ⟨rfl, rfl⟩ reaches_unloadAsked
  obtain ⟨-, hstays', hleaves⟩ := stop_is_final requestEnv {} _ _ ⟨rfl, rfl⟩ hreach
  obtain ⟨k, hk⟩ := erases_iff hcall
  have hunloading : unloading (ascii "a") unloadErasing.2.trace := by
    rw [unloading, herasing, hasked]
    decide
  obtain ⟨job, hjob, -⟩ := hstays' _ hunloading
  obtain ⟨hpid, -⟩ := hleaves (.erase (ascii "a")) k () _ hk rfl _ job hjob (by simp)
  refine ⟨hasked, hstays _ ?_, ⟨k, job, hk, hjob, hpid⟩, hended.trans (congrArg _ herasing), ?_⟩
  · rw [unloading, hasked]
    decide
  · exact (stop_is_final requestEnv {} _ _ ⟨rfl, rfl⟩ hreach').1

end MiniDarwin.Launchd
