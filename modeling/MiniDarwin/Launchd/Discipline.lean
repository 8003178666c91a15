import MiniDarwin.Launchd.Daemon

/-!
When the supervisor makes which call.

`Proper` says what holds of the memory whenever a call is made: that a job
is spawned only while it waits, its throttle interval is over and shutdown
has not begun, that only a job without a process is erased, and so on. It is
read off the guards of `daemon.cpp` once, here, for every call of every
run. What the invariants of a run need of the control flow is in it.
-/

namespace MiniDarwin.Launchd

open Posix (Bytes)
open Effects Effects.Proc

variable {env : Env} {w v : World} {g : Unit}

/-- When a change of a job is made. -/
def Act.Due (w : World) (job : Job) : Act → Prop
  | .start => (∃ job', job.start = .ok job') ∧ w.sup.shuttingDown = false
  | .stop | .unload => w.sup.shuttingDown = false
  | .retire => w.sup.shuttingDown = true ∧ job.pid ≠ 0
  | .escalate now => now ≤ w.clock ∧ job.pid ≠ 0
  | .drain => True
  | .reaped _ => job.pid ≠ 0
  | .launchFailed _ => job.state = .waiting ∧ job.pid = 0 ∧ w.sup.shuttingDown = false
  | .activate => activatable job = true ∧ w.sup.shuttingDown = false

/-- Once shutdown has begun, every job there is has been told to stop. -/
def Settled (w : World) : Prop :=
  w.sup.shuttingDown = true → ∀ (l : Label) (job : Job), w.sup.jobs[l]? = some job →
    job.pid ≠ 0 ∧ job.state = .stopping

/-- When a call is made. -/
def Proper (env : Env) : Op → World → Prop
  | .act l a, w => ∃ job, w.sup.jobs[l]? = some job ∧ a.Due w job
  | .spawn l, w => ∃ job, w.sup.jobs[l]? = some job ∧ job.state = .waiting ∧ job.pid = 0 ∧
      job.remove = false ∧ w.sup.shuttingDown = false ∧ job.due w.clock = true
  | .emplace job, w => w.sup.shuttingDown = false ∧ job.config.label ∉ w.sup.jobs ∧
      (∃ value, parseConfig env.euid value env.foreground = .ok job.config) ∧
      job = job.config.job job.listeners
  | .erase l, w => ∃ job, w.sup.jobs[l]? = some job ∧ job.pid = 0 ∧
      (job.remove = true ∨ w.sup.shuttingDown = true)
  | .beginShutdown, w => w.sup.shuttingDown = false
  | .setReboot flags argument, _ =>
      argument = (match flags with | .RB_HALT => ascii "halt" | .RB_AUTOBOOT => ascii "system")
  | .setOverrides _, w | .create _, w | .write _ _, w | .rename _ _, w =>
      w.sup.shuttingDown = false
  | .answer command _, w =>
      command ∈ [ascii "list", ascii "load", ascii "disable", ascii "enable"] ∧
        (w.sup.shuttingDown = true → command = ascii "list")
  | .killGroup group, _ => group ≠ 0
  | .wait, w => Settled w
  | .reboot flags, w => w.sup.shuttingDown = true ∧ w.sup.jobs = ∅ ∧ flags = w.sup.rebootFlags
  | _, _ => True

/-- The specification of a function of the supervisor. -/
abbrev Does (env : Env) {α : Type} (m : M α) (Q : α → Unit → World → Prop)
    (D : Bytes → Unit → World → Prop) (g : Unit) (w : World) : Prop :=
  wp (sem env) (Proper env) m Q D g w

/-! ### Calls that leave the memory alone -/

/-- The memory and the record are the same, and time may have passed. -/
structure Same (w v : World) : Prop where
  sup : v.sup = w.sup
  trace : v.trace = w.trace
  clock : w.clock ≤ v.clock

theorem Same.refl (w : World) : Same w w := ⟨rfl, rfl, le_rfl⟩

theorem Same.trans {u : World} (h : Same w v) (h' : Same v u) : Same w u :=
  ⟨h'.sup.trans h.sup, h'.trace.trans h.trace, h.clock.trans h'.clock⟩

theorem Same.put (w : World) (q : Place) (node : Option Node) : Same w (w.put q node) :=
  ⟨rfl, rfl, le_rfl⟩

def Op.quiet : Op → Bool
  | .look | .now | .rounds | .waitid | .waitpid _ | .watch _ _ _ | .wait | .reboot _ | .accept | .fcntl
  | .recv _ | .send _ _ | .lstat _ | .unlink _ | .socket | .bind _ | .chmod _ | .listen _
  | .openRead _ | .fstat | .readAll _ | .readdir _ | .mkdir _ | .create _ | .fchmod | .write _ _
  | .fsync | .rename _ _ => true
  | _ => false

theorem sem_quiet {o : Op} {r : o.Ans} (hq : o.quiet = true) (h : sem env o w r v) : Same w v := by
  cases o with
  | act | spawn | emplace | erase | beginShutdown | setReboot | setOverrides | answer | addClient
  | dropClient | feed | respond | sent | killGroup => cases hq
  | look =>
      obtain ⟨-, rfl⟩ := h
      exact .refl _
  | now =>
      obtain ⟨hc, rfl⟩ := h
      exact ⟨rfl, rfl, hc⟩
  | recv | send | lstat | openRead | readAll =>
      obtain ⟨rfl, -⟩ := h
      exact .refl _
  | unlink =>
      obtain ⟨rfl, -⟩ | ⟨q, -, -, -, rfl⟩ := h
      · exact .refl _
      · exact .put w q none
  | bind =>
      obtain ⟨rfl, -⟩ | ⟨q, i, -, -, -, -, rfl⟩ := h
      · exact .refl _
      · exact .put w q _
  | create =>
      obtain ⟨rfl, -⟩ | ⟨q, -, -, -, rfl⟩ := h
      · exact .refl _
      · exact .put w q _
  | write =>
      obtain ⟨rfl, -⟩ | ⟨q, data, trusted, -, -, -, rfl⟩ := h
      · exact .refl _
      · exact .put w q _
  | rename =>
      obtain ⟨rfl, -⟩ | ⟨q, q', -, -, -, -, rfl⟩ := h
      · exact .refl _
      · exact (Same.put w q' _).trans (.put _ q none)
  | rounds | waitid | waitpid | watch | wait | reboot | accept | fcntl | socket | chmod | listen
  | fstat | readdir | mkdir | fchmod | fsync =>
      obtain rfl : v = w := h
      exact .refl _

/-- Quiet, and always in order. -/
def Op.free (o : Op) : Bool :=
  o.quiet && match o with
    | .wait | .reboot _ | .create _ | .write _ _ | .rename _ _ => false
    | _ => true

theorem Op.free.proper {o : Op} (h : o.free = true) : Proper env o w := by
  cases o <;> first | exact trivial | simp [Op.free, Op.quiet] at h

theorem Op.free.quiet {o : Op} (h : o.free = true) : o.quiet = true := (Bool.and_eq_true _ _ ▸ h).1

/-! ### Rules -/

theorem does_ask {o : Op} {Q : o.Ans → Unit → World → Prop} {D : Bytes → Unit → World → Prop}
    (hp : Proper env o w) (h : ∀ r v, sem env o w r v → Q r g v) : Does env (ask o) Q D g w :=
  ⟨hp, h⟩

theorem does_look {Q : Supervisor → Unit → World → Prop} {D : Bytes → Unit → World → Prop}
    (h : Q w.sup g w) : Does env (ask .look) Q D g w := by
  refine does_ask trivial ?_
  rintro r v ⟨rfl, rfl⟩
  exact h

theorem does_quiet {o : Op} {Q : o.Ans → Unit → World → Prop} {D : Bytes → Unit → World → Prop}
    (hq : o.quiet = true) (hp : Proper env o w) (h : ∀ r v, Same w v → Q r g v) :
    Does env (ask o) Q D g w :=
  does_ask hp fun r v hs => h r v (sem_quiet hq hs)

/-! ### Functions that leave the memory alone -/

/-- Every run of `m`, from anywhere, leaves the memory as it is. -/
def Keeps (env : Env) {α : Type} (m : M α) : Prop :=
  ∀ g w, Does env m (fun _ _ v => Same w v) (fun _ _ v => Same w v) g w

namespace Keeps

variable {α β : Type}

theorem pure {a : α} : Keeps env (pure a) := fun _ w => Same.refl w

theorem fail {message : Bytes} : Keeps env (fail message : M α) := fun _ w => Same.refl w

theorem ask {o : Op} (h : o.free = true) : Keeps env (ask o) := fun _ _ =>
  does_quiet (Op.free.quiet h) (Op.free.proper h) fun _ _ hs => hs

theorem bind {m : M α} {f : α → M β} (h : Keeps env m) (h' : ∀ a, Keeps env (f a)) :
    Keeps env (m >>= f) := fun g w => by
  refine wp_bind.2 ((h g w).post ?_ fun _ _ _ hs => hs)
  intro a g' w' hs
  exact (h' a g' w').post (fun _ _ _ hs' => hs.trans hs') fun _ _ _ hs' => hs.trans hs'

theorem ite {p : Prop} [Decidable p] {m m' : M α} (h : Keeps env m) (h' : Keeps env m') :
    Keeps env (if p then m else m') := by
  split
  · exact h
  · exact h'

theorem each {γ : Type} {f : γ → M Unit} (h : ∀ x, Keeps env (f x)) (l : List γ) :
    Keeps env (each f l) := by
  induction l with
  | nil => exact pure
  | cons x l ih => exact (h x).bind fun _ => ih

theorem onFail {hook : M Unit} {m : M α} (hh : Keeps env hook) (h : Keeps env m) :
    Keeps env (onFail hook m) := fun g w =>
  wp_onFail.2 ((h g w).post (fun _ _ _ hs => hs) fun _ g' w' hs =>
    (hh g' w').post (fun _ _ _ hs' => hs.trans hs') fun _ _ _ hs' => hs.trans hs')

theorem attempt {m : M α} (h : Keeps env m) : Keeps env (attempt m) := fun g w =>
  wp_attempt.2 ((h g w).post (fun _ _ _ hs => hs) fun _ _ _ hs => hs)

/-- The use of such a function. -/
theorem does {m : M α} {Q : α → Unit → World → Prop} {D : Bytes → Unit → World → Prop}
    (h : Keeps env m) (hQ : ∀ a v, Same w v → Q a g v) (hD : ∀ e v, Same w v → D e g v) :
    Does env m Q D g w :=
  (h g w).post (fun a _ v hv => hQ a v hv) fun e _ v hv => hD e v hv

end Keeps

theorem keeps_orThrow {α : Type} {operation : Bytes} {r : Except Errno α} :
    Keeps env (orThrow env operation r) := by
  cases r with
  | error e => exact .fail
  | ok a => exact .pure

theorem keeps_lift {α : Type} {r : Result α} : Keeps env (lift r) := by
  cases r with
  | error message => exact .fail
  | ok a => exact .pure

/-- A call that must not fail. -/
theorem keeps_checked {α β : Type} {o : Op} {operation : Bytes} {f : o.Ans → Except Errno α}
    {k : α → M β} (h : o.free = true) (hk : ∀ a, Keeps env (k a)) :
    Keeps env (ask o >>= fun r => orThrow env operation (f r) >>= k) :=
  .bind (.ask h) fun _ => .bind keeps_orThrow hk

theorem keeps_readFile {path : Bytes} {trusted : Bool} : Keeps env (readFile env path trusted) := by
  unfold readFile
  refine keeps_checked rfl fun file => keeps_checked rfl fun _ => ?_
  refine .bind keeps_lift fun _ => .bind keeps_lift fun _ => ?_
  exact keeps_checked rfl fun bytes => .bind keeps_lift fun _ => .pure

theorem keeps_removeStale {path : Bytes} : Keeps env (removeStale env path) := by
  refine .bind (.ask rfl) fun r => ?_
  split
  · exact .bind (.ask rfl) fun _ => keeps_orThrow
  · exact .fail
  · exact .ite .fail .pure

theorem keeps_unbind {α : Type} {path operation : Bytes} {e : Errno} :
    Keeps env (unbind env path operation e : M α) := .bind (.ask rfl) fun _ => .fail

theorem keeps_openListener {config : SocketConfig} : Keeps env (openListener env config) := by
  unfold openListener
  refine .bind keeps_removeStale fun _ => keeps_checked rfl fun fd => keeps_checked rfl fun _ => ?_
  refine keeps_checked rfl fun inode => .bind (.ask rfl) fun r => ?_
  split
  · exact keeps_unbind
  · refine .bind (.ask rfl) fun r => ?_
    split
    · exact keeps_unbind
    · refine .bind (.ask rfl) fun r => ?_
      split
      · exact keeps_unbind
      · exact .pure

theorem keeps_closeListener {listener : Listener} : Keeps env (closeListener listener) := by
  refine .bind (.ask rfl) fun r => ?_
  split
  · exact .ite (.bind (.ask rfl) fun _ => .pure) .pure
  · exact .pure

theorem keeps_openListeners {configs : List SocketConfig} (listeners : List Listener) :
    Keeps env (openListeners env configs listeners) := by
  induction configs generalizing listeners with
  | nil => exact .pure
  | cons config configs ih =>
      exact .bind (.onFail (.each (fun _ => keeps_closeListener) _) keeps_openListener) fun _ =>
        ih _

theorem keeps_readDatabase : Keeps env (readDatabase env) := by
  refine .bind keeps_readFile fun _ => .bind keeps_lift fun _ => ?_
  exact .bind keeps_lift fun _ => keeps_lift

theorem keeps_makeDirectory {directory : Bytes} : Keeps env (makeDirectory env directory) := by
  refine .ite .pure (.bind (.ask rfl) fun r => ?_)
  split
  · exact .pure
  · exact .pure
  · exact .fail

theorem keeps_watchListeners : Keeps env (watchListeners env) := by
  refine .bind (.ask rfl) fun s => .each (fun entry => .ite ?_ .pure) _
  exact .each (fun _ => .bind (.ask rfl) fun _ => keeps_orThrow) _

/-! ### Functions that change the memory -/

theorem does_lift {α : Type} {r : Result α} {Q : α → Unit → World → Prop}
    {D : Bytes → Unit → World → Prop} (hQ : ∀ a, r = .ok a → Q a g w)
    (hD : ∀ e, r = .error e → D e g w) : Does env (lift r) Q D g w := by
  cases r with
  | error e => exact hD e rfl
  | ok a => exact hQ a rfl

/-- A change of a job that is there. -/
theorem sem_act {l : Label} {a : Act} {job : Job} {r : Unit} (hj : w.sup.jobs[l]? = some job)
    (h : sem env (.act l a) w r v) :
    ∃ time reads, w.clock ≤ time ∧ v =
      { w with
        clock := time
        sup := { w.sup with
          jobs := w.sup.jobs.insert l (a.apply env w.sup.shuttingDown time reads job).1 }
        trace := (a.apply env w.sup.shuttingDown time reads job).2 ++ w.trace } := by
  obtain ⟨time, reads, hc, rfl⟩ := h
  refine ⟨time, reads, hc, ?_⟩
  simp only [World.act, hj]

/-- An attempt to launch a job that is there. -/
theorem sem_spawn {l : Label} {job : Job} {r : Result Unit} (hj : w.sup.jobs[l]? = some job)
    (h : sem env (.spawn l) w r v) :
    ∃ time outcome, w.clock ≤ time ∧ r = outcome.map (fun _ => ()) ∧ v =
      { w with
        clock := time
        sup := { w.sup with jobs := w.sup.jobs.insert l (job.spawn time outcome) }
        trace := .spawned job.config time outcome.isOk :: w.trace } := by
  obtain ⟨time, outcome, hc, hr, rfl⟩ := h
  refine ⟨time, outcome, hc, hr, ?_⟩
  simp only [World.spawn, hj]

/-- Shutdown has not begun, whatever the outcome. -/
abbrev Open {α : Type} : α → Unit → World → Prop := fun _ _ v => v.sup.shuttingDown = false

theorem Same.open (h : Same w v) (hw : w.sup.shuttingDown = false) :
    v.sup.shuttingDown = false := by
  rw [h.sup, hw]

theorem does_load {path : Bytes} (hw : w.sup.shuttingDown = false) :
    Does env (load env path) Open Open g w := by
  unfold load
  refine wp_bind.2 (keeps_readFile.does (fun bytes w1 h1 => ?_) fun _ _ h => h.open hw)
  refine wp_bind.2 (does_lift (fun value _ => ?_) fun _ _ => h1.open hw)
  refine wp_bind.2 (does_lift (fun config hconfig => ?_) fun _ _ => h1.open hw)
  refine wp_bind.2 (does_look ?_)
  refine wp_bind.2 (does_lift (fun _ _ => ?_) fun _ _ => h1.open hw)
  refine wp_bind.2 (does_lift (fun _ hdup => ?_) fun _ _ => h1.open hw)
  have hnew : config.label ∉ w1.sup.jobs := by
    intro hm
    simp [throwIf, hm] at hdup
  refine wp_bind.2 (Keeps.does (.each ?_ _) (fun _ w2 h2 => ?_) fun _ _ h2 => (h1.trans h2).open hw)
  · intro socket
    split
    · exact .fail
    · exact .pure
  · refine wp_bind.2 ((keeps_openListeners []).does (fun listeners w3 h3 => ?_)
      fun _ _ h3 => ((h1.trans h2).trans h3).open hw)
    have h := (h1.trans h2).trans h3
    refine does_ask ⟨h.open hw, ?_, ⟨value, hconfig⟩, rfl⟩ ?_
    · rw [(h2.trans h3).sup]
      exact hnew
    · rintro r v rfl
      exact h.open hw

theorem does_setOverride {label : Bytes} {disabled : Bool} (hw : w.sup.shuttingDown = false) :
    Does env (setOverride env label disabled) Open Open g w := by
  unfold setOverride
  refine wp_bind.2 (does_lift (fun _ _ => ?_) fun _ _ => hw)
  refine wp_bind.2 (does_lift (fun _ _ => ?_) fun _ _ => hw)
  refine wp_bind.2 (does_look ?_)
  refine wp_bind.2 (does_lift (fun bytes _ => ?_) fun _ _ => hw)
  refine wp_bind.2 (keeps_makeDirectory.does (fun _ w1 h1 => ?_) fun _ _ h => h.open hw)
  refine wp_bind.2 ((Keeps.ask rfl).does (fun _ w2 h2 => ?_) fun _ _ h => (h1.trans h).open hw)
  have checked : ∀ {o : Op} {operation : Bytes} {f : o.Ans → Except Errno Unit} {m : M Unit} {w1},
      o.quiet = true → Same w w1 → Proper env o w1 →
      (∀ w2, Same w w2 → Does env m Open Open g w2) →
      Does env (ask o >>= fun r => orThrow env operation (f r) >>= fun _ => m) Open Open g w1 := by
    intro o operation f m w1 hq hs hp hm
    refine wp_bind.2 (does_quiet hq hp fun r w2 h2 => wp_bind.2 ?_)
    exact keeps_orThrow.does (fun _ w3 h3 => hm w3 ((hs.trans h2).trans h3))
      fun _ _ h3 => ((hs.trans h2).trans h3).open hw
  have hs := h1.trans h2
  refine checked rfl hs (hs.open hw) fun w3 h3 => checked rfl h3 trivial fun w4 h4 => ?_
  refine checked rfl h4 (h4.open hw) fun w5 h5 => checked rfl h5 trivial fun w6 h6 => ?_
  refine checked rfl h6 (h6.open hw) fun w7 h7 => does_ask (h7.open hw) ?_
  rintro r v rfl
  exact h7.open hw

theorem does_readOverrides (hw : w.sup.shuttingDown = false) :
    Does env (readOverrides env) Open Open g w := by
  have set : ∀ {u : World} {m : Map Label Bool}, Same w u →
      Does env (ask (.setOverrides m)) Open Open g u := by
    intro u m hu
    refine does_ask (hu.open hw) ?_
    rintro r v rfl
    exact hu.open hw
  unfold readOverrides
  split
  · exact hw
  · refine wp_bind.2 ((Keeps.ask rfl).does (fun r w1 h1 => ?_) fun _ _ h => h.open hw)
    split
    · exact h1.open hw
    · refine wp_bind.2 (keeps_readDatabase.attempt.does (fun r w2 h2 => ?_)
        fun _ _ h2 => (h1.trans h2).open hw)
      split
      · exact set (h1.trans h2)
      · exact set (h1.trans h2)

/-- The job is gone, its sockets are closed, and nothing else has changed. -/
structure Erased (l : Label) (w v : World) : Prop where
  sup : v.sup = { w.sup with jobs := w.sup.jobs.erase l }
  clock : w.clock ≤ v.clock

theorem does_eraseJob {l : Label} {job : Job} (hj : w.sup.jobs[l]? = some job)
    (hpid : job.pid = 0) (hr : job.remove = true ∨ w.sup.shuttingDown = true) :
    Does env (eraseJob l job) (fun _ _ v => Erased l w v) (fun _ _ v => Erased l w v) g w := by
  refine wp_bind.2 (does_ask ⟨job, hj, hpid, hr⟩ ?_)
  rintro _ u rfl
  exact Keeps.does (.each (fun _ => keeps_closeListener) _) (fun _ _ h => ⟨h.sup, h.clock⟩)
    fun _ _ h => ⟨h.sup, h.clock⟩

/-- In the loop of `collectGarbage ()`: every job that is not among the `rest` has
been told to stop. -/
def Collecting (rest : List Label) (w : World) : Prop :=
  w.sup.shuttingDown = true ∧ ∀ (l : Label) (job : Job), w.sup.jobs[l]? = some job →
    l ∈ rest ∨ job.pid ≠ 0 ∧ job.state = .stopping

theorem Collecting.start (h : w.sup.shuttingDown = true) : Collecting w.sup.jobs.keys w := by
  refine ⟨h, fun l job hj => .inl ?_⟩
  rw [Std.ExtTreeMap.mem_keys, Std.ExtTreeMap.mem_iff_isSome_getElem?, hj]
  rfl

/-- One label is done with, and the other jobs are as before. -/
theorem Collecting.next {l : Label} {rest : List Label} (h : Collecting (l :: rest) w)
    (hdown : v.sup.shuttingDown = w.sup.shuttingDown)
    (hself : ∀ job : Job, v.sup.jobs[l]? = some job → job.pid ≠ 0 ∧ job.state = .stopping)
    (hother : ∀ l', l' ≠ l → v.sup.jobs[l']? = w.sup.jobs[l']?) : Collecting rest v := by
  refine ⟨hdown.trans h.1, fun l' job hj => ?_⟩
  by_cases hl : l' = l
  · subst hl
    exact .inr (hself job hj)
  · rw [hother l' hl] at hj
    exact (h.2 l' job hj).imp_left fun hm => (List.mem_cons.1 hm).resolve_left hl

theorem does_collectJob {l : Label} {rest : List Label} (h : Collecting (l :: rest) w) :
    Does env (collectJob l) (fun _ _ v => Collecting rest v) (fun _ _ _ => True) g w := by
  refine wp_bind.2 (does_look ?_)
  split
  · next hnone => exact h.next rfl (fun job hj => by rw [hnone] at hj; cases hj) fun _ _ => rfl
  · next job hj =>
      split
      · next hpid =>
          refine (does_eraseJob hj hpid (.inr h.1)).post ?_ fun _ _ _ _ => trivial
          intro _ _ v hv
          refine h.next (by rw [hv.sup]) (fun job' hj' => ?_) fun l' hl => ?_
          · simp [hv.sup] at hj'
          · simp [hv.sup, Std.ExtTreeMap.getElem?_erase, Ne.symm hl]
      · next hpid =>
          refine does_ask ⟨job, hj, h.1, hpid⟩ fun r v hs => ?_
          obtain ⟨time, reads, -, rfl⟩ := sem_act hj hs
          refine h.next rfl (fun job' hj' => ?_) fun l' hl => ?_
          · simp only [Std.ExtTreeMap.getElem?_insert_self, Option.some.injEq] at hj'
            subst hj'
            by_cases hst : job.state = .stopping <;> simp [Act.apply, Job.stop, hpid, hst]
          · simp [Std.ExtTreeMap.getElem?_insert, Ne.symm hl]

theorem does_collectGarbage (hdown : w.sup.shuttingDown = true) :
    Does env collectGarbage
      (fun done _ v => v.sup.shuttingDown = true ∧ Settled v ∧ (done = true → v.sup.jobs = ∅))
      (fun _ _ _ => True) g w := by
  refine wp_bind.2 (does_look (wp_bind.2 ?_))
  refine (wp_each (fun rest _ v => Collecting rest v) (fun l rest _ _ h => does_collectJob h)
    (Collecting.start hdown)).post ?_ fun _ _ _ _ => trivial
  intro _ _ v hv
  refine wp_bind.2 (does_look ⟨hv.1, fun _ l job hj => ?_, fun h => ?_⟩)
  · exact (hv.2 l job hj).resolve_left (by simp)
  · exact Std.ExtTreeMap.isEmpty_iff.1 h

/-- Every run of `m`, from anywhere, makes its calls in order. -/
def Fine (env : Env) {α : Type} (m : M α) : Prop :=
  ∀ g w, Does env m (fun _ _ _ => True) (fun _ _ _ => True) g w

namespace Fine

variable {α β : Type}

theorem of_keeps {m : M α} (h : Keeps env m) : Fine env m := fun g w =>
  (h g w).post (fun _ _ _ _ => trivial) fun _ _ _ _ => trivial

theorem bind {m : M α} {f : α → M β} (h : Fine env m) (h' : ∀ a, Fine env (f a)) :
    Fine env (m >>= f) := fun g w =>
  wp_bind.2 ((h g w).post (fun a g' w' _ => h' a g' w') fun _ _ _ _ => trivial)

theorem ask {o : Op} (h : ∀ w, Proper env o w) : Fine env (ask o) := fun _ w =>
  does_ask (h w) fun _ _ _ => trivial

theorem each {γ : Type} {f : γ → M Unit} (h : ∀ x, Fine env (f x)) (l : List γ) :
    Fine env (each f l) := by
  induction l with
  | nil => exact fun _ _ => trivial
  | cons x l ih => exact (h x).bind fun _ => ih

theorem attempt {m : M α} (h : Fine env m) : Fine env (attempt m) := fun g w =>
  wp_attempt.2 ((h g w).post (fun _ _ _ _ => trivial) fun _ _ _ _ => trivial)

end Fine

theorem fine_shutdown : Fine env shutdown := by
  intro g w
  refine wp_bind.2 (does_look ?_)
  split
  · trivial
  · next h =>
      refine wp_bind.2 (does_ask (Bool.eq_false_of_not_eq_true h) ?_)
      rintro _ u rfl
      refine wp_bind.2 ((does_collectGarbage rfl).post ?_ fun _ _ _ _ => trivial)
      exact fun _ _ _ _ => trivial

/-! ### Requests -/

theorem does_control {command : Bytes} {l : Label} {job : Job}
    (hw : w.sup.shuttingDown = false) (hj : w.sup.jobs[l]? = some job) :
    Does env (control command l job) (fun _ _ _ => True) (fun _ _ _ => True) g w := by
  unfold control
  split
  · refine wp_bind.2 (does_lift (fun job' h => ?_) fun _ _ => trivial)
    exact does_ask ⟨job, hj, ⟨job', h⟩, hw⟩ fun _ _ _ => trivial
  · split
    · exact does_ask ⟨job, hj, hw⟩ fun _ _ _ => trivial
    · split
      · exact does_ask ⟨job, hj, hw⟩ fun _ _ _ => trivial
      · trivial

theorem fine_manage {command argument : Bytes} : Fine env (manage env command argument) := by
  intro g w
  refine wp_bind.2 (does_look (wp_bind.2 (does_lift (fun _ hw => ?_) fun _ _ => trivial)))
  have hopen : w.sup.shuttingDown = false := by
    cases h : w.sup.shuttingDown with
    | false => rfl
    | true => simp [throwIf, h] at hw
  -- the answer to a command that has been carried out
  have answer : ∀ {m : M Unit} {value : Value},
      command ∈ [ascii "list", ascii "load", ascii "disable", ascii "enable"] →
      Does env m Open Open g w →
      Does env (m >>= fun _ => ask (.answer command argument) >>= fun _ => pure value)
        (fun _ _ _ => True) (fun _ _ _ => True) g w := by
    intro m value hc hm
    refine wp_bind.2 (hm.post (fun _ _ u hu => ?_) fun _ _ _ _ => trivial)
    refine wp_bind.2 (does_ask ⟨hc, fun h => ?_⟩ fun _ _ _ => trivial)
    rw [hu] at h
    cases h
  refine wp_bind.2 (does_lift (fun _ _ => ?_) fun _ _ => trivial)
  split
  · next h => exact answer (by simp [h]) (does_load hopen)
  · split
    · next h => exact answer (by simp [h]) (does_setOverride hopen)
    · split
      · next h => exact answer (by simp [h]) (does_setOverride hopen)
      · split
        · trivial
        · next job hj =>
            exact wp_bind.2 ((does_control hopen hj).post (fun _ _ _ _ => trivial)
              fun _ _ _ _ => trivial)

theorem fine_obey {bytes : Bytes} : Fine env (obey env bytes) := by
  intro g w
  refine wp_bind.2 (does_lift (fun x _ => ?_) fun _ _ => trivial)
  dsimp only
  split
  · next h =>
      refine wp_bind.2 (does_look (wp_bind.2 (does_lift (fun jobs _ => ?_) fun _ _ => trivial)))
      exact wp_bind.2 (does_ask ⟨by simp [h], fun _ => h⟩ fun _ _ _ => trivial)
  · split
    · refine wp_bind.2 (does_lift (fun flags h => ?_) fun _ _ => trivial)
      refine wp_bind.2 (does_ask ?_ fun _ u _ => wp_bind.2 ((fine_shutdown g u).post
        (fun _ _ _ _ => trivial) fun _ _ _ _ => trivial))
      unfold rebootFlagsOf at h
      split at h
      · next hh =>
          cases h
          exact hh
      · split at h
        · next hh =>
            cases h
            exact hh
        · cases h
    · exact fine_manage g w

theorem fine_request {bytes : Bytes} : Fine env (request env bytes) := by
  refine .bind fine_obey.attempt fun r => ?_
  split
  · exact .of_keeps .pure
  · exact .of_keeps .pure

theorem fine_addConnection {fd : Fd} : Fine env (addConnection fd) := by
  refine .bind (.of_keeps (.ask rfl)) fun r => ?_
  split
  · exact .of_keeps .pure
  · exact .bind (.of_keeps (.ask rfl)) fun _ => .ask fun _ => trivial

theorem fine_acceptClients (n : Nat) : Fine env (acceptClients n) := by
  induction n with
  | zero => exact .of_keeps .pure
  | succ n ih =>
      refine .bind (.of_keeps (.ask rfl)) fun r => ?_
      split
      · exact ih
      · exact .of_keeps .pure
      · refine .bind (.of_keeps (.ask rfl)) fun s => ?_
        split
        · exact ih
        · exact .bind fine_addConnection fun _ => ih

theorem fine_sendReply {fd : Fd} {client : Client} : Fine env (sendReply fd client) := by
  refine .bind (.of_keeps (.ask rfl)) fun r => ?_
  split
  · exact .bind (.ask fun _ => trivial) fun _ => .of_keeps .pure
  · exact .of_keeps .pure
  · exact .of_keeps .pure
  · exact .of_keeps .pure

theorem fine_receive {fd : Fd} {client : Client} : Fine env (receive env fd client) := by
  unfold receive
  dsimp only
  split
  · exact .of_keeps .pure
  · split
    · exact .of_keeps .pure
    · split
      · exact .of_keeps .pure
      · refine .bind fine_request fun value => .bind (.of_keeps keeps_lift) fun output => ?_
        refine .bind (.of_keeps (.ask rfl)) fun now => .bind (.ask fun _ => trivial) fun _ => ?_
        exact fine_sendReply

theorem fine_service {fd : Fd} {client : Client} : Fine env (service env fd client) := by
  refine .bind (.of_keeps (.ask rfl)) fun now => ?_
  split
  · exact .of_keeps .pure
  · split
    · exact fine_sendReply
    · refine .bind (.of_keeps (.ask rfl)) fun r => ?_
      split
      · exact .of_keeps .pure
      · exact .of_keeps .pure
      · exact .bind (.ask fun _ => trivial) fun _ => fine_receive

/-! ### The loop -/

theorem managed_eq_some {jobs : Map Label Job} {pid : Nat} {l : Label}
    (h : managed jobs pid = some l) : ∃ job, jobs[l]? = some job ∧ job.pid = pid := by
  obtain ⟨⟨l', job⟩, hfind, rfl⟩ := Option.map_eq_some_iff.1 h
  have hm := List.mem_of_find?_eq_some hfind
  exact ⟨job, Std.ExtTreeMap.mem_toList_iff_getElem?_eq_some.1 hm,
    by simpa using List.find?_some hfind⟩

theorem does_cleanGroup {pid : Nat} (hpid : pid ≠ 0) :
    Does env (cleanGroup pid (managed w.sup.jobs pid))
      (fun _ _ v => ∀ l, managed w.sup.jobs pid = some l → ∃ job, v.sup.jobs[l]? = some job ∧
        job.pid ≠ 0) (fun _ _ _ => True) g w := by
  cases hm : managed w.sup.jobs pid with
  | none => exact fun l h => by cases h
  | some l =>
      obtain ⟨job, hj, hp⟩ := managed_eq_some hm
      refine wp_bind.2 (does_ask ⟨job, hj, trivial⟩ fun _ u hs => does_ask hpid ?_)
      obtain ⟨time, reads, -, rfl⟩ := sem_act hj hs
      obtain ⟨state, launchError, execError, execBytes, heq, -⟩ :=
        job.drainExecError_eq env.setupError reads
      rintro _ v rfl l' hl
      cases hl
      refine ⟨(job.drainExecError env.setupError reads), by simp [Act.apply], ?_⟩
      rw [heq]
      show job.pid ≠ 0
      rwa [hp]

theorem fine_reapRounds (n : Nat) : Fine env (reapRounds env n) := by
  induction n with
  | zero => exact .of_keeps .pure
  | succ n ih =>
      refine .bind (.of_keeps (.ask rfl)) fun r => ?_
      split
      · exact .of_keeps .pure
      · exact .of_keeps .fail
      · next pid =>
          split
          · exact .of_keeps .pure
          · next hpid =>
              intro g w
              refine wp_bind.2 (does_look (wp_bind.2 ((does_cleanGroup hpid).post ?_
                fun _ _ _ _ => trivial)))
              intro _ _ u hu
              refine wp_bind.2 ((Keeps.ask rfl).does (fun r v hv => ?_) fun _ _ _ => trivial)
              split
              · trivial
              · trivial
              · next status =>
                  refine wp_bind.2 ?_
                  cases hm : managed w.sup.jobs pid with
                  | none => exact ih _ _
                  | some l =>
                      obtain ⟨job, hj, hp⟩ := hu l hm
                      refine does_ask ⟨job, by rw [hv.sup, hj], hp⟩ fun _ v' _ => ih _ _

theorem fine_reap : Fine env (reap env) :=
  .bind (.of_keeps (.ask rfl)) fun n => fine_reapRounds n

theorem Job.due_mono {job : Job} {t t' : Time} (h : job.due t = true) (ht : t ≤ t') :
    job.due t' = true := by
  simp only [Job.due, Bool.decide_or, Bool.or_eq_true, decide_eq_true_eq] at h ⊢
  exact h.imp_right fun h' => h'.trans ht

theorem does_tickJob {now : Time} {l : Label} (hnow : now ≤ w.clock) :
    Does env (tickJob now l) (fun _ _ v => now ≤ v.clock) (fun _ _ _ => True) g w := by
  refine wp_bind.2 (does_look ?_)
  split
  · exact hnow
  · next job hj =>
      split
      · next h =>
          exact (does_eraseJob hj h.2 (.inl h.1)).post (fun _ _ _ hv => hnow.trans hv.clock)
            fun _ _ _ _ => trivial
      · next hkeep =>
          split
          · next hpid =>
              refine wp_bind.2 (does_ask ⟨job, hj, trivial⟩ fun _ u hs => ?_)
              obtain ⟨time, reads, ht, rfl⟩ := sem_act hj hs
              obtain ⟨state, launchError, execError, execBytes, heq, -⟩ :=
                job.drainExecError_eq env.setupError reads
              have hj' : (w.sup.jobs.insert l (job.drainExecError env.setupError reads))[l]? =
                  some (job.drainExecError env.setupError reads) := by simp
              refine does_ask ⟨_, hj', hnow.trans ht, ?_⟩ fun _ v hv => ?_
              · rw [heq]
                exact hpid
              · obtain ⟨time', reads', ht', rfl⟩ := sem_act hj' hv
                exact (hnow.trans ht).trans ht'
          · next hpid =>
              have hpid' : job.pid = 0 := not_not.1 hpid
              split
              · next hdue =>
                  obtain ⟨hst, hopen, hdue⟩ := hdue
                  have hopen' : w.sup.shuttingDown = false := by simpa using hopen
                  have hrem : job.remove = false :=
                    Bool.eq_false_of_not_eq_true fun h => hkeep ⟨h, hpid'⟩
                  refine wp_bind.2 (does_ask ⟨job, hj, hst, hpid', hrem, hopen',
                    Job.due_mono hdue hnow⟩ fun r u hs => ?_)
                  obtain ⟨time, outcome, ht, hr, rfl⟩ := sem_spawn hj hs
                  cases outcome with
                  | ok child =>
                      subst hr
                      exact hnow.trans ht
                  | error message =>
                      subst hr
                      have hj' : (w.sup.jobs.insert l (job.spawn time (.error message)))[l]? =
                          some (job.spawn time (.error message)) := by simp
                      refine does_ask ⟨_, hj', hst, hpid', hopen'⟩ fun _ v hv => ?_
                      obtain ⟨time', -, ht', rfl⟩ := sem_act hj' hv
                      exact (hnow.trans ht).trans ht'
              · exact hnow

theorem fine_tick : Fine env (tick env) := by
  refine .bind fine_reap fun _ g w => ?_
  refine wp_bind.2 (does_ask trivial ?_)
  rintro now u ⟨-, rfl⟩
  refine wp_bind.2 (does_look ?_)
  exact (wp_each (fun _ _ v => (now : Time) ≤ v.clock) (fun l _ _ _ h => does_tickJob h)
    (le_refl (now : Time))).post (fun _ _ _ _ => trivial) fun _ _ _ _ => trivial

theorem does_watchClients (hw : Settled w) :
    Does env (watchClients env) (fun _ _ v => Settled v) (fun _ _ _ => True) g w := by
  refine wp_bind.2 (does_look ?_)
  refine wp_each (fun _ _ v => Settled v) (fun entry rest g u hu => ?_) hw
  refine wp_bind.2 ((Keeps.ask rfl).does (fun now u1 h1 => ?_) fun _ _ _ => trivial)
  have hu1 : Settled u1 := by
    unfold Settled
    rw [h1.sup]
    exact hu
  split
  · refine does_ask trivial ?_
    rintro _ v rfl
    exact hu1
  · refine (Keeps.bind (.ask rfl) fun _ => keeps_orThrow).does (fun _ v hv => ?_) fun _ _ _ => trivial
    unfold Settled
    rw [hv.sup]
    exact hu1

theorem fine_handleSignal {event : KEvent} : Fine env (handleSignal env event) := by
  unfold handleSignal
  split
  · exact fine_shutdown
  · split
    · exact fine_shutdown
    · exact .of_keeps .pure
  · exact .of_keeps .pure

/-- A connection may wake a job. -/
theorem fine_activate {l : Label} : Fine env (activateJob l) := by
  intro g w
  refine wp_bind.2 (does_look ?_)
  split
  · next job hj =>
      split
      · next h => exact does_ask ⟨job, hj, h.1, by simpa using h.2⟩ fun _ _ _ => trivial
      · trivial
  · trivial

theorem fine_handleEvent {event : KEvent} : Fine env (handleEvent env event) := by
  unfold handleEvent
  split
  · next fd error udata =>
      split
      · exact fine_acceptClients 32
      · refine .bind (.of_keeps (.ask rfl)) fun s => ?_
        split
        · exact .each (fun _ => fine_activate) _
        · split
          · exact .of_keeps .pure
          · split
            · exact .of_keeps .pure
            · split
              · exact .ask fun _ => trivial
              · refine .bind fine_service.attempt fun r => ?_
                split
                · exact .of_keeps .pure
                · exact .ask fun _ => trivial
  · exact .of_keeps .pure

theorem does_poll (hw : Settled w) :
    Does env (poll env) (fun _ _ _ => True) (fun _ _ _ => True) g w := by
  have settled : ∀ {u}, Same w u → Settled u := by
    intro u hu
    unfold Settled
    rw [hu.sup]
    exact hw
  refine wp_bind.2 ((Keeps.ask rfl).does (fun r w1 h1 => ?_) fun _ _ _ => trivial)
  refine wp_bind.2 (keeps_orThrow.does (fun _ w2 h2 => ?_) fun _ _ _ => trivial)
  refine wp_bind.2 (keeps_watchListeners.does (fun _ w3 h3 => ?_) fun _ _ _ => trivial)
  refine wp_bind.2 ((does_watchClients (settled ((h1.trans h2).trans h3))).post
    (fun _ _ w4 h4 => ?_) fun _ _ _ _ => trivial)
  refine wp_bind.2 (does_ask h4 fun r w5 _ => ?_)
  split
  · trivial
  · trivial
  · exact (Fine.bind (.each (fun _ => fine_handleSignal) _) fun _ =>
      .each (fun _ => fine_handleEvent) _) _ _

/-- When `run ()` returns there is no job left. -/
def Ended (a : Except Bytes Bool × Unit) (v : World) : Prop :=
  a.1 = .ok true → v.sup.shuttingDown = true ∧ v.sup.jobs = ∅

theorem spec_turn (w : World) : (turn env ()).Spec (sem env) (Proper env) Ended w := by
  suffices h : Does env (turn env)
      (fun done _ v => done = true → v.sup.shuttingDown = true ∧ v.sup.jobs = ∅)
      (fun _ _ _ => True) () w by
    refine Prog.Spec.mono h (fun _ _ => id) ?_
    rintro ⟨x | x, g⟩ v hx hok <;> cases hok
    exact hx rfl
  refine wp_bind.2 ((fine_tick () w).post (fun _ g w1 _ => ?_) fun _ _ _ _ => trivial)
  have done : Does env shutdownDone (fun done _ v => Settled v ∧
      (done = true → v.sup.shuttingDown = true ∧ v.sup.jobs = ∅)) (fun _ _ _ => True) g w1 := by
    refine wp_bind.2 (does_look ?_)
    split
    · next h =>
        exact (does_collectGarbage h).post (fun _ _ _ hv => ⟨hv.2.1, fun hd => ⟨hv.1, hv.2.2 hd⟩⟩)
          fun _ _ _ _ => trivial
    · next h => exact ⟨fun h' => absurd h' h, fun h' => by cases h'⟩
  refine wp_bind.2 (done.post (fun d g2 w2 h2 => ?_) fun _ _ _ _ => trivial)
  split
  · next hd =>
      obtain ⟨hdown, hempty⟩ := h2.2 hd
      refine wp_bind.2 ?_
      unfold finishShutdown
      split
      · exact fun _ => ⟨hdown, hempty⟩
      · refine wp_bind.2 (does_look (wp_bind.2 (does_ask ⟨hdown, hempty, rfl⟩ ?_)))
        rintro _ v rfl
        exact fun _ => ⟨hdown, hempty⟩
  · exact wp_bind.2 ((does_poll h2.1).post (fun _ _ _ _ h => by cases h) fun _ _ _ _ => trivial)

theorem spec_boot (hw : w.sup.shuttingDown = false) :
    (boot env ()).Spec (sem env) (Proper env) Ended w := by
  suffices h : Does env (boot env) (fun done _ _ => done = false) (fun _ _ _ => True) () w by
    refine Prog.Spec.mono h (fun _ _ => id) ?_
    rintro ⟨x | x, g⟩ v hx hok <;> cases hok
    cases hx
  refine wp_bind.2 ((does_readOverrides hw).post (fun _ g w1 h1 => ?_) fun _ _ _ _ => trivial)
  refine wp_bind.2 ((wp_each (D := fun _ _ _ => True) (fun _ _ v => v.sup.shuttingDown = false)
    (fun path rest g u hu => ?_) h1).post (fun _ _ _ _ => rfl) fun _ _ _ _ => trivial)
  refine wp_bind.2 ((Keeps.ask rfl).does (fun r u1 h1 => ?_) fun _ _ _ => trivial)
  split
  · exact h1.open hu
  · refine wp_each (fun _ _ v => (World.sup v).shuttingDown = false) (fun file _ g v hv => ?_)
      (h1.open hu)
    exact wp_bind.2 (wp_attempt.2 ((does_load hv).post (fun _ _ _ h => h) fun _ _ _ h => h))

/-- **Every call of every run is in order.** -/
theorem Reaches.spec {p : Prog calls (Except Bytes Bool × Unit)} (h : Reaches env w p v)
    (hw : w.sup.shuttingDown = false) : p.Spec (sem env) (Proper env) Ended v := by
  refine Runs.spec h (spec_boot hw) ?_
  intro a u s _ hs
  unfold next at hs
  split at hs
  · cases hs
    exact spec_turn u
  · cases hs

/-! ### Steps -/

/-- What one call of a run can do. -/
inductive Step (env : Env) (w v : World) : Prop where
  | quiet (h : Same w v)
  | clients (clients : Map Fd Client) (nextClient : Nat)
      (h : v = { w with sup := { w.sup with clients, nextClient } })
  | overrides (overrides : Map Label Bool) (hopen : w.sup.shuttingDown = false)
      (h : v = { w with sup := { w.sup with overrides } })
  | act (l : Label) (a : Act) (job : Job) (time : Time) (reads : List PipeRead)
      (hj : w.sup.jobs[l]? = some job) (hdue : a.Due w job) (ht : w.clock ≤ time)
      (h : v =
        { w with
          clock := time
          sup := { w.sup with
            jobs := w.sup.jobs.insert l (a.apply env w.sup.shuttingDown time reads job).1 }
          trace := (a.apply env w.sup.shuttingDown time reads job).2 ++ w.trace })
  | spawn (l : Label) (job : Job) (time : Time) (outcome : Result Forked)
      (hj : w.sup.jobs[l]? = some job) (hwait : job.state = .waiting) (hpid : job.pid = 0)
      (hkeep : job.remove = false) (hopen : w.sup.shuttingDown = false)
      (hdue : job.due w.clock = true) (ht : w.clock ≤ time)
      (h : v =
        { w with
          clock := time
          sup := { w.sup with jobs := w.sup.jobs.insert l (job.spawn time outcome) }
          trace := .spawned job.config time outcome.isOk :: w.trace })
  | emplace (config : Config) (listeners : List Listener) (hopen : w.sup.shuttingDown = false)
      (hnew : config.label ∉ w.sup.jobs)
      (haccepted : ∃ value, parseConfig env.euid value env.foreground = .ok config)
      (h : v =
        { w with
          sup := { w.sup with jobs := w.sup.jobs.insert config.label (config.job listeners) }
          trace := .loaded config :: w.trace })
  | erase (l : Label) (job : Job) (hj : w.sup.jobs[l]? = some job) (hpid : job.pid = 0)
      (hr : job.remove = true ∨ w.sup.shuttingDown = true)
      (h : v =
        { w with
          sup := { w.sup with jobs := w.sup.jobs.erase l }
          trace := .erased l :: w.trace })
  | shutdown (hopen : w.sup.shuttingDown = false)
      (h : v = { w with
        sup := { w.sup with shuttingDown := true }, trace := .shutdown :: w.trace })
  | reboot (flags : RebootFlags) (argument : Bytes)
      (harg : argument =
        (match flags with | .RB_HALT => ascii "halt" | .RB_AUTOBOOT => ascii "system"))
      (h : v =
        { w with
          sup := { w.sup with rebootFlags := flags }
          trace := .answered (ascii "reboot") argument :: w.trace })
  | answer (command argument : Bytes)
      (hcommand : command ∈ [ascii "list", ascii "load", ascii "disable", ascii "enable"])
      (hdown : w.sup.shuttingDown = true → command = ascii "list")
      (h : v = { w with trace := .answered command argument :: w.trace })
  | clean (group : Nat) (hgroup : group ≠ 0)
      (h : v = { w with trace := .cleaned group :: w.trace })

theorem step_of_sem {o : Op} {r : o.Ans} (hp : Proper env o w) (hs : sem env o w r v) :
    Step env w v := by
  by_cases hq : o.quiet = true
  · exact .quiet (sem_quiet hq hs)
  cases o with
  | act l a =>
      obtain ⟨job, hj, hdue⟩ := hp
      obtain ⟨time, reads, ht, h⟩ := sem_act hj hs
      exact .act l a job time reads hj hdue ht h
  | spawn l =>
      obtain ⟨job, hj, hwait, hpid, hkeep, hopen, hdue⟩ := hp
      obtain ⟨time, outcome, ht, -, h⟩ := sem_spawn hj hs
      exact .spawn l job time outcome hj hwait hpid hkeep hopen hdue ht h
  | emplace job =>
      obtain ⟨hopen, hnew, haccepted, hjob⟩ := hp
      refine .emplace job.config job.listeners hopen hnew haccepted (hs.trans ?_)
      have hins : w.sup.jobs.insertIfNew job.config.label job =
          w.sup.jobs.insert job.config.label (job.config.job job.listeners) := by
        rw [← hjob]
        apply Std.ExtTreeMap.ext_getElem?
        intro l
        rw [Std.ExtTreeMap.getElem?_insertIfNew, Std.ExtTreeMap.getElem?_insert]
        simp [hnew]
      rw [hins]
  | erase l =>
      obtain ⟨job, hj, hpid, hr⟩ := hp
      exact .erase l job hj hpid hr hs
  | beginShutdown => exact .shutdown hp hs
  | setReboot flags argument => exact .reboot flags argument hp hs
  | setOverrides m => exact .overrides m hp hs
  | answer command argument => exact .answer command argument hp.1 hp.2 hs
  | addClient fd deadline => exact .clients _ _ hs
  | dropClient fd => exact .clients _ w.sup.nextClient hs
  | feed fd data => exact .clients _ w.sup.nextClient hs
  | respond fd output deadline => exact .clients _ w.sup.nextClient hs
  | sent fd count => exact .clients _ w.sup.nextClient hs
  | killGroup group => exact .clean group hp hs
  | _ => exact absurd rfl hq

/-- The jobs when one of them has changed, or is new. -/
theorem mem_insert {jobs : Map Label Job} {l l' : Label} {job job' : Job}
    (h : (jobs.insert l job')[l']? = some job) :
    l' = l ∧ job = job' ∨ l' ≠ l ∧ jobs[l']? = some job := by
  rw [Std.ExtTreeMap.getElem?_insert] at h
  split at h
  · next heq =>
      cases h
      exact .inl ⟨by simpa using Eq.symm (by simpa using heq), rfl⟩
  · next hne => exact .inr ⟨fun h' => hne (by simp [h']), h⟩

/-- The jobs when one of them is gone. -/
theorem mem_erase {jobs : Map Label Job} {l l' : Label} {job : Job}
    (h : (jobs.erase l)[l']? = some job) : l' ≠ l ∧ jobs[l']? = some job := by
  rw [Std.ExtTreeMap.getElem?_erase] at h
  split at h
  · cases h
  · next hne => exact ⟨fun h' => hne (by simp [h']), h⟩

/-- **The invariant rule for runs of the supervisor.** -/
theorem Reaches.invariant {I : World → Prop} {p : Prog calls (Except Bytes Bool × Unit)}
    (h : Reaches env w p v) (hopen : w.sup.shuttingDown = false)
    (hI : ∀ u u', Step env u u' → I u → I u') (hw : I w) : I v := by
  induction h with
  | start => exact hw
  | step h hr ih => exact hI _ _ (step_of_sem (Reaches.spec h hopen).1 hr) ih
  | again _ _ ih => exact ih

end MiniDarwin.Launchd
