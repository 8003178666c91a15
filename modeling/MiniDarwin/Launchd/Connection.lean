import MiniDarwin.Launchd.Invariant

/-!
One connection to the control socket, over its whole life.

Two things that no call of the supervisor shows are written down beside a
run: the calls of `request ()` (`Log`), which a copy of the handler of
events keeps, and what went over the connection (`Note`), which an observer
of the calls keeps. `Life` is what may happen to a connection: events for it
are handled, and everything else the supervisor does comes in between, call
by call.
-/

namespace MiniDarwin.Launchd

open Posix (Bytes)
open Effects Effects.Proc

variable {env : Env}

/-! ### The calls of `request ()` -/

/-- The arguments of the calls, and what they returned. -/
structure Log where
  asked : List Bytes := []
  answered : List Value := []

/-- A function of the supervisor beside a log that it does not touch. -/
def within {α : Type} (m : M α) : Proc calls Log Bytes α := fun log =>
  (m ()).bind fun x => .ret (x.1, log)

def loggedRequest (env : Env) (bytes : Bytes) : Proc calls Log Bytes Value := do
  modify fun log => { log with asked := log.asked ++ [bytes] }
  let value ← within (request env bytes)
  modify fun log => { log with answered := log.answered ++ [value] }
  return value

/-- `receive` with the log. -/
def loggedReceive (env : Env) (fd : Fd) (client : Client) : Proc calls Log Bytes Bool :=
  let size := frameSize client.input
  if client.input.length < 4 then return true
  else if size = 0 ∨ size > maxMessage ∨ client.input.length > size + 4 then return false
  else if client.input.length < size + 4 then return true
  else do
    let value ← loggedRequest env (client.input.drop 4)
    let output ← within (lift (frame value))
    let now ← within (ask .now)
    within (ask (.respond fd output (now + ioTimeout)))
    within (sendReply fd { client with output, deadline := now + ioTimeout })

/-- `service` with the log. -/
def loggedService (env : Env) (fd : Fd) (client : Client) : Proc calls Log Bytes Bool := do
  let now ← within (ask .now)
  if now ≥ client.deadline then return false
  else if client.output ≠ [] then within (sendReply fd client)
  else match ← within (ask (.recv fd)) with
  | .error e => return e = .EAGAIN ∨ e = .EINTR
  | .ok [] => return false
  | .ok data => do
      within (ask (.feed fd data))
      loggedReceive env fd { client with input := client.input ++ data }

/-- `handleEvent` with the log. -/
def loggedEvent (env : Env) : KEvent → Proc calls Log Bytes Unit
  | .descriptor fd error udata => do
      if fd = env.control then within (acceptClients 32)
      else do
        let s ← within (ask .look)
        if ownersOf s.jobs fd ≠ [] then
          within (each activateJob (ownersOf s.jobs fd))
        else
          match s.clients[fd]? with
          | none => pure ()
          | some client =>
              if client.generation ≠ udata then pure ()
              else if error then within (ask (.dropClient fd))
              else do
                match ← attempt (loggedService env fd client) with
                | .ok true => pure ()
                | _ => within (ask (.dropClient fd))
  | _ => pure ()

/-! The log changes nothing. -/

theorem bind_assoc {α β γ : Type} (p : Prog calls α) (f : α → Prog calls β) (k : β → Prog calls γ) :
    (p.bind f).bind k = p.bind fun a => (f a).bind k := by
  induction p with
  | ret a => rfl
  | call o q ih =>
      show Prog.call o _ = Prog.call o _
      congr 1
      ext r
      exact ih r

theorem bind_ret {α : Type} (p : Prog calls α) : p.bind .ret = p := by
  induction p with
  | ret a => rfl
  | call o q ih =>
      show Prog.call o _ = Prog.call o _
      congr 1
      ext r
      exact ih r

/-- The same calls and the same result. -/
def Mirrors {α : Type} (m : Proc calls Log Bytes α) (n : M α) : Prop :=
  ∀ log, ((m log).bind fun x => .ret (x.1, ())) = n ()

namespace Mirrors

variable {α β : Type}

theorem pure {a : α} : Mirrors (pure a) (pure a) := fun _ => rfl

theorem within {m : M α} : Mirrors (within m) m := by
  intro log
  show ((m ()).bind _).bind _ = m ()
  rw [bind_assoc]
  exact bind_ret (m ())

theorem bind {m : Proc calls Log Bytes α} {n : M α} {f : α → Proc calls Log Bytes β} {k : α → M β}
    (h : Mirrors m n) (h' : ∀ a, Mirrors (f a) (k a)) : Mirrors (m >>= f) (n >>= k) := by
  intro log
  show ((m log).bind (andThen f)).bind _ = (n ()).bind (andThen k)
  rw [← h log, bind_assoc, bind_assoc]
  congr 1
  ext ⟨x, log'⟩
  cases x with
  | error e => rfl
  | ok a => exact h' a log'

theorem modify_bind {g : Log → Log} {f : Unit → Proc calls Log Bytes α} {n : M α} (h : Mirrors (f ()) n) :
    Mirrors (modify g >>= f) n := fun log => h (g log)

theorem attempt {m : Proc calls Log Bytes α} {n : M α} (h : Mirrors m n) : Mirrors (attempt m) (attempt n) := by
  intro log
  show ((m log).bind _).bind _ = (n ()).bind _
  rw [← h log, bind_assoc, bind_assoc]
  rfl

end Mirrors

theorem agrees_request (bytes : Bytes) : Mirrors (loggedRequest env bytes) (request env bytes) := by
  have hpure : request env bytes >>= pure = request env bytes := by
    funext g
    show (request env bytes g).bind (andThen pure) = request env bytes g
    have hthen : (andThen pure : Except Bytes Value × Unit → Prog calls _) = .ret := by
      ext ⟨x, g'⟩
      cases x <;> rfl
    rw [hthen, bind_ret]
  rw [← hpure]
  exact .modify_bind (.bind .within fun _ => .modify_bind .pure)

theorem agrees_receive (fd : Fd) (client : Client) :
    Mirrors (loggedReceive env fd client) (receive env fd client) := by
  unfold loggedReceive receive
  dsimp only
  split
  · exact .pure
  · split
    · exact .pure
    · split
      · exact .pure
      · refine .bind (agrees_request _) fun value => .bind .within fun output => ?_
        exact .bind .within fun now => .bind .within fun _ => .within

theorem agrees_service (fd : Fd) (client : Client) :
    Mirrors (loggedService env fd client) (service env fd client) := by
  refine .bind .within fun now => ?_
  split
  · exact .pure
  · split
    · exact .within
    · refine .bind .within fun r => ?_
      cases r with
      | error e => exact .pure
      | ok data =>
          cases data with
          | nil => exact .pure
          | cons c data => exact .bind .within fun _ => agrees_receive _ _

theorem agrees_handleEvent (event : KEvent) : Mirrors (loggedEvent env event) (handleEvent env event) := by
  cases event with
  | SIGTERM => exact .pure
  | SIGINT => exact .pure
  | wakeup => exact .pure
  | descriptor fd error udata =>
      unfold loggedEvent handleEvent
      dsimp only
      split
      · exact .within
      · refine .bind .within fun s => ?_
        split
        · exact .within
        · cases s.clients[fd]? with
          | none => exact .pure
          | some client =>
              dsimp only
              split
              · exact .pure
              · split
                · exact .within
                · refine .bind (agrees_service _ _).attempt fun r => ?_
                  cases r with
                  | error e => exact .within
                  | ok again =>
                      cases again with
                      | false => exact .within
                      | true => exact .pure

/-! ### What goes over a connection -/

structure Note where
  /-- what the client sent, as far as it has been read -/
  received : Bytes := []
  /-- what was sent to the client -/
  wire : Bytes := []
  /-- was the last call on the connection a successful `send ()` -/
  sending : Bool := false
  /-- was the connection closed right after one -/
  finished : Bool := false

/-- The descriptor of a connection that a call is about. -/
def Op.about : Op → Option Fd
  | .recv fd | .send fd _ | .feed fd _ | .respond fd _ _ | .sent fd _ | .addClient fd _
  | .dropClient fd => some fd
  | _ => none

def Note.read (n : Note) : Except Errno Bytes → Note
  | .ok data => { n with received := n.received ++ data, sending := false }
  | .error _ => { n with sending := false }

def Note.send (n : Note) (data : Bytes) : Except Errno Nat → Note
  | .ok count => { n with wire := n.wire ++ data.take count, sending := true }
  | .error _ => { n with sending := false }

/-- What the observer of a connection writes down. -/
def observe (fd : Fd) : (o : Op) → World → o.Ans → Note → Note
  | .recv fd', _, r, n => if fd' = fd then n.read r else n
  | .send fd' data, _, r, n => if fd' = fd then n.send data r else n
  | .dropClient fd', _, _, n => if fd' = fd then { n with finished := n.sending } else n
  | _, _, _, n => n

/-- **The life of a connection.** -/
inductive Life (env : Env) (fd : Fd) : Log → Note → World → Prop where
  /-- it has been accepted -/
  | accepted {w : World} {deadline : Time} {generation : Nat} (hfd : fd ≠ env.control)
      (h : w.sup.clients[fd]? = some { deadline, generation }) : Life env fd {} {} w
  /-- a call that is about something else -/
  | other {log : Log} {note : Note} {w v : World} {o : Op} {r : o.Ans} (h : Life env fd log note w)
      (hother : o.about ≠ some fd) (hcall : sem env o w r v) : Life env fd log note v
  /-- the deadline is over -/
  | dropped {log : Log} {note : Note} {w v : World} {r : Unit} (h : Life env fd log note w)
      (hcall : sem env (.dropClient fd) w r v) : Life env fd log { note with finished := false } v
  /-- an event for its descriptor -/
  | event {log log' : Log} {note note' : Note} {w v : World} {error : Bool} {udata : Nat}
      {result : Except Bytes Unit} (h : Life env fd log note w)
      (hrun : Prog.Reach (Prog.observed (sem env) (observe fd))
        (loggedEvent env (.descriptor fd error udata) log) (w, { note with sending := false })
        (.ret (result, log')) (v, note')) : Life env fd log' note' v

/-! ### Requests leave connections alone -/

/-- Every call of `m` is about something else than a connection. -/
abbrev Aloof (env : Env) {α : Type} (m : M α) : Prop :=
  Maintains (sem env) (fun o _ => o.about = none) (fun _ => True) m

theorem aloof_ask {o : Op} (h : o.about = none) : Aloof env (ask o) := fun _ _ _ => ⟨h, fun _ _ _ => trivial⟩

theorem aloof_onFail {α : Type} {hook : M Unit} {m : M α} (hh : Aloof env hook) (h : Aloof env m) :
    Aloof env (onFail hook m) := fun g w _ =>
  wp_onFail.2 ((h g w trivial).post (fun _ _ _ _ => trivial) fun _ g' w' _ =>
    (hh g' w' trivial).post (fun _ _ _ _ => trivial) fun _ _ _ _ => trivial)

theorem aloof_lift {α : Type} {r : Result α} : Aloof env (lift r) := by
  cases r with
  | error message => exact .fail
  | ok a => exact .pure

theorem aloof_orThrow {α : Type} {operation : Bytes} {r : Except Errno α} :
    Aloof env (orThrow env operation r) := by
  cases r with
  | error e => exact .fail
  | ok a => exact .pure

theorem aloof_checked {α β : Type} {o : Op} {operation : Bytes} {f : o.Ans → Except Errno α} {k : α → M β}
    (h : o.about = none) (hk : ∀ a, Aloof env (k a)) :
    Aloof env (Launchd.ask o >>= fun r => orThrow env operation (f r) >>= k) :=
  .bind (aloof_ask h) fun _ => .bind aloof_orThrow hk

theorem aloof_readFile {path : Bytes} {trusted : Bool} : Aloof env (readFile env path trusted) := by
  unfold readFile
  refine aloof_checked rfl fun file => aloof_checked rfl fun _ => ?_
  refine .bind aloof_lift fun _ => .bind aloof_lift fun _ => ?_
  exact aloof_checked rfl fun bytes => .bind aloof_lift fun _ => .pure

theorem aloof_removeStale {path : Bytes} : Aloof env (removeStale env path) := by
  refine .bind (aloof_ask rfl) fun r => ?_
  split
  · exact .bind (aloof_ask rfl) fun _ => aloof_orThrow
  · exact .fail
  · exact .ite .fail .pure

theorem aloof_unbind {α : Type} {path operation : Bytes} {e : Errno} :
    Aloof env (unbind env path operation e : M α) := .bind (aloof_ask rfl) fun _ => .fail

theorem aloof_openListener {config : SocketConfig} : Aloof env (openListener env config) := by
  unfold openListener
  refine .bind aloof_removeStale fun _ => aloof_checked rfl fun fd => aloof_checked rfl fun _ => ?_
  refine aloof_checked rfl fun inode => .bind (aloof_ask rfl) fun r => ?_
  split
  · exact aloof_unbind
  · refine .bind (aloof_ask rfl) fun r => ?_
    split
    · exact aloof_unbind
    · refine .bind (aloof_ask rfl) fun r => ?_
      split
      · exact aloof_unbind
      · exact .pure

theorem aloof_closeListener {listener : Listener} : Aloof env (closeListener listener) := by
  refine .bind (aloof_ask rfl) fun r => ?_
  split
  · exact .ite (.bind (aloof_ask rfl) fun _ => .pure) .pure
  · exact .pure

theorem aloof_openListeners {configs : List SocketConfig} (listeners : List Listener) :
    Aloof env (openListeners env configs listeners) := by
  induction configs generalizing listeners with
  | nil => exact .pure
  | cons config configs ih =>
      exact .bind (aloof_onFail (.each (fun _ => aloof_closeListener) _) aloof_openListener) fun _ => ih _

theorem aloof_load {path : Bytes} : Aloof env (load env path) := by
  unfold load
  refine .bind aloof_readFile fun bytes => .bind aloof_lift fun value => .bind aloof_lift fun config => ?_
  refine .bind (aloof_ask rfl) fun s => .bind aloof_lift fun _ => .bind aloof_lift fun _ => ?_
  refine .bind (.each (fun socket => ?_) _) fun _ => .bind (aloof_openListeners _) fun _ => aloof_ask rfl
  split
  · exact .fail
  · exact .pure

theorem aloof_collectGarbage : Aloof env collectGarbage := by
  refine .bind (aloof_ask rfl) fun s => .bind (.each (fun l => .bind (aloof_ask rfl) fun s => ?_) _) fun _ => ?_
  · split
    · exact .pure
    · refine .ite (.bind (aloof_ask rfl) fun _ => ?_) (aloof_ask rfl)
      exact .each (fun _ => aloof_closeListener) _
  · exact .bind (aloof_ask rfl) fun _ => .pure

theorem aloof_shutdown : Aloof env shutdown := by
  refine .bind (aloof_ask rfl) fun s => .ite .pure ?_
  exact .bind (aloof_ask rfl) fun _ => .bind aloof_collectGarbage fun _ => .pure

theorem aloof_setOverride {label : Bytes} {disabled : Bool} : Aloof env (setOverride env label disabled) := by
  unfold setOverride
  refine .bind aloof_lift fun _ => .bind aloof_lift fun _ => .bind (aloof_ask rfl) fun s => ?_
  refine .bind aloof_lift fun bytes => .bind ?_ fun _ => .bind (aloof_ask rfl) fun _ => ?_
  · refine .ite .pure (.bind (aloof_ask rfl) fun r => ?_)
    split
    · exact .pure
    · exact .pure
    · exact .fail
  · refine aloof_checked rfl fun _ => aloof_checked rfl fun _ => aloof_checked rfl fun _ => ?_
    exact aloof_checked rfl fun _ => aloof_checked rfl fun _ => aloof_ask rfl

theorem aloof_control {command : Bytes} {l : Label} {job : Job} : Aloof env (control command l job) := by
  refine .ite (.bind aloof_lift fun _ => aloof_ask rfl) (.ite (aloof_ask rfl) (.ite (aloof_ask rfl) .fail))

theorem aloof_manage {command argument : Bytes} : Aloof env (manage env command argument) := by
  refine .bind (aloof_ask rfl) fun s => .bind aloof_lift fun _ => .bind aloof_lift fun _ => ?_
  refine .ite (.bind aloof_load fun _ => .bind (aloof_ask rfl) fun _ => .pure) ?_
  refine .ite (.bind aloof_setOverride fun _ => .bind (aloof_ask rfl) fun _ => .pure) ?_
  refine .ite (.bind aloof_setOverride fun _ => .bind (aloof_ask rfl) fun _ => .pure) ?_
  split
  · exact .fail
  · exact .bind aloof_control fun _ => .pure

theorem aloof_obey {bytes : Bytes} : Aloof env (obey env bytes) := by
  refine .bind aloof_lift fun x => .ite ?_ (.ite ?_ aloof_manage)
  · exact .bind (aloof_ask rfl) fun s => .bind aloof_lift fun jobs => .bind (aloof_ask rfl) fun _ => .pure
  · refine .bind aloof_lift fun flags => .bind (aloof_ask rfl) fun _ => ?_
    exact .bind aloof_shutdown fun _ => .pure

theorem aloof_activateJob {l : Label} : Aloof env (activateJob l) := by
  refine .bind (aloof_ask rfl) fun s => ?_
  split
  · exact .ite (aloof_ask rfl) .pure
  · exact .pure

/-! ### Frames -/

/-- Some bytes are one frame with this payload. -/
structure Whole (input payload : Bytes) : Prop where
  ne_nil : payload ≠ []
  le_max : payload.length ≤ maxMessage
  size : frameSize input = payload.length
  length_eq : input.length = payload.length + 4
  drop_eq : input.drop 4 = payload

theorem Whole.unique {input p q : Bytes} (h : Whole input p) (h' : Whole input q) : p = q :=
  h.drop_eq.symm.trans h'.drop_eq

theorem whole_framed {payload : Bytes} (hne : payload ≠ []) (h : payload.length ≤ maxMessage) :
    Whole (framed payload) payload where
  ne_nil := hne
  le_max := h
  size := by
    have hsize := frameSize_framed h ((framed payload).drop 4)
    rwa [List.take_append_drop] at hsize
  length_eq := by simp [framed]
  drop_eq := by simp [framed]

/-- A part of a frame is not a frame. -/
theorem not_whole_of_part {payload input p : Bytes} (h : payload.length ≤ maxMessage)
    (hinit : input <+: framed payload) (hne : input ≠ framed payload) : ¬ Whole input p := by
  intro hwhole
  have hlength : (framed payload).length = payload.length + 4 := by simp [framed]
  have hlt : input.length < payload.length + 4 := by
    rw [← hlength]
    exact lt_of_le_of_ne hinit.length_le fun heq => hne (hinit.eq_of_length heq)
  have hinput : input = (framed payload).take 4 ++ input.drop 4 := by
    have htake : input.take 4 = (framed payload).take 4 := by
      obtain ⟨rest, hrest⟩ := hinit
      have hfour : 4 ≤ input.length := by
        rw [hwhole.length_eq]
        omega
      rw [← hrest, List.take_append_of_le_length hfour]
    rw [← htake, List.take_append_drop]
  have hsize := hwhole.size
  rw [hinput, frameSize_framed h] at hsize
  have := hwhole.length_eq
  omega

/-- What has been read may become a frame. -/
def Partial (input : Bytes) : Prop :=
  input.length < 4 ∨ frameSize input ≠ 0 ∧ frameSize input ≤ maxMessage ∧
    input.length < frameSize input + 4

theorem Partial.not_whole {input p : Bytes} (h : Partial input) : ¬ Whole input p := by
  intro hwhole
  have hlength := hwhole.length_eq
  have hsize := hwhole.size
  rcases h with h | ⟨-, -, h⟩
  · omega
  · omega

theorem frame_eq_ok {value : Value} {output : Bytes} (h : frame value = .ok output) : 4 ≤ output.length := by
  unfold frame at h
  cases hw : writePlist value with
  | error e =>
      rw [hw] at h
      cases h
  | ok bytes =>
      rw [hw] at h
      cases h
      simp

/-! ### The states of a connection -/

/-- What holds when a connection is closed; `done` tells whether that is after a `send ()`. -/
inductive Over (log : Log) (note : Note) (done : Bool) : Prop where
  | silent (hasked : log.asked = []) (hanswered : log.answered = [])
      (hwhole : ∀ payload, ¬ Whole note.received payload) (hwire : note.wire = []) (hdone : done = false)
  | answered {payload : Bytes} {value : Value} (hasked : log.asked = [payload])
      (hanswered : log.answered = [value]) (hwhole : Whole note.received payload)
      (hok : ∀ output, frame value = .ok output →
        note.wire <+: output ∧ (done = true → note.wire = output))
      (herror : ∀ e, frame value = .error e → note.wire = [] ∧ done = false)

/-- What holds as long as it is open. -/
inductive Live (log : Log) (note : Note) (client : Client) : Prop where
  /-- a request is being read -/
  | reading (hasked : log.asked = []) (hanswered : log.answered = []) (hwire : note.wire = [])
      (hinput : client.input = note.received) (houtput : client.output = [])
      (hsent : client.sent = 0) (hpart : Partial client.input)
  /-- the reply is being sent -/
  | writing {payload : Bytes} {value : Value} (hasked : log.asked = [payload])
      (hanswered : log.answered = [value]) (hwhole : Whole note.received payload)
      (houtput : frame value = .ok client.output) (hwire : note.wire = client.output.take client.sent)
      (hsent : client.sent < client.output.length)

/-- The state of a connection. -/
def Standing (fd : Fd) (log : Log) (note : Note) (w : World) : Prop :=
  match w.sup.clients[fd]? with
  | some client => Live log note client
  | none => Over log note note.finished

/-- The state is that of the record of the connection. -/
theorem Standing.congr {fd : Fd} {log : Log} {note : Note} {w v : World} (h : Standing fd log note w)
    (hv : v.sup.clients[fd]? = w.sup.clients[fd]?) : Standing fd log note v := by
  unfold Standing
  rw [hv]
  exact h

theorem Live.standing {fd : Fd} {log : Log} {note : Note} {w : World} {client : Client}
    (hc : w.sup.clients[fd]? = some client) (h : Live log note client) : Standing fd log note w := by
  unfold Standing
  rw [hc]
  exact h

theorem Over.standing {fd : Fd} {log : Log} {note : Note} {w : World} (hc : w.sup.clients[fd]? = none)
    (h : Over log note note.finished) : Standing fd log note w := by
  unfold Standing
  rw [hc]
  exact h

/-- A connection may be closed at any time; the reply may then be incomplete. -/
theorem Live.over {log : Log} {note : Note} {client : Client} (h : Live log note client) :
    Over log note false := by
  cases h with
  | reading hasked hanswered hwire hinput houtput hsent hpart =>
      exact .silent hasked hanswered (fun _ hwhole => hpart.not_whole (hinput ▸ hwhole)) hwire rfl
  | writing hasked hanswered hwhole houtput hwire hsent =>
      refine .answered hasked hanswered hwhole (fun output hok => ⟨?_, fun hdone => by cases hdone⟩) fun e herror => ?_
      · cases houtput.symm.trans hok
        rw [hwire]
        exact List.take_prefix _ _
      · cases houtput.symm.trans herror

/-! ### Running the handler -/

section Running

variable {fd : Fd} {log : Log} {note : Note} {w v : World} {client : Client}

/-- Calls with the observer. -/
abbrev seen (env : Env) (fd : Fd) : Sem calls (World × Note) := Prog.observed (sem env) (observe fd)

/-- The specification of a function with the log and the observer. -/
abbrev Shows (env : Env) (fd : Fd) {α : Type} (m : Proc calls Log Bytes α)
    (Q : α → Log → World × Note → Prop) (D : Bytes → Log → World × Note → Prop) (log : Log)
    (s : World × Note) : Prop :=
  wp (seen env fd) (fun _ _ => True) m Q D log s

theorem shows_within {α : Type} {m : M α} {Q : α → Log → World × Note → Prop}
    {D : Bytes → Log → World × Note → Prop} {s : World × Note}
    (h : wp (seen env fd) (fun _ _ => True) m (fun a _ s => Q a log s) (fun e _ s => D e log s) () s) :
    Shows env fd (within m) Q D log s := by
  refine Prog.spec_bind.2 (Prog.Spec.mono h (fun _ _ => id) ?_)
  rintro ⟨x | x, g⟩ s hs
  · exact hs
  · exact hs

theorem shows_ask {o : Op} {Q : o.Ans → Log → World × Note → Prop} {D : Bytes → Log → World × Note → Prop}
    (h : ∀ r v, sem env o w r v → Q r log (v, observe fd o w r note)) :
    Shows env fd (within (ask o)) Q D log (w, note) := by
  apply shows_within
  refine ⟨trivial, ?_⟩
  rintro r ⟨v, note'⟩ ⟨hr, hnote⟩
  obtain rfl : note' = observe fd o w r note := hnote
  exact h r v hr

theorem clients_of_about {o : Op} {r : o.Ans} (hother : o.about ≠ some fd) (h : sem env o w r v) :
    v.sup.clients[fd]? = w.sup.clients[fd]? := by
  by_cases hq : o.quiet = true
  · rw [(sem_quiet hq h).sup]
  have hne : ∀ {fd' : Fd}, o.about = some fd' → fd' ≠ fd := fun habout heq => hother (by rw [habout, heq])
  cases o with
  | act l a =>
      obtain ⟨time, reads, -, rfl⟩ := h
      unfold World.act
      split <;> rfl
  | spawn l =>
      obtain ⟨time, outcome, -, -, rfl⟩ := h
      unfold World.spawn
      split <;> rfl
  | addClient fd' deadline =>
      have hfd := hne rfl
      obtain rfl := h
      rw [Std.ExtTreeMap.getElem?_insertIfNew, if_neg]
      exact fun h => hfd (by simpa using h.1)
  | dropClient fd' =>
      have hfd := hne rfl
      obtain rfl := h
      rw [Std.ExtTreeMap.getElem?_erase, if_neg (by simpa using hfd)]
  | feed fd' data =>
      have hfd := hne rfl
      obtain rfl := h
      rw [World.setClient, Std.ExtTreeMap.getElem?_modify, if_neg (by simpa using hfd)]
  | respond fd' output deadline =>
      have hfd := hne rfl
      obtain rfl := h
      rw [World.setClient, Std.ExtTreeMap.getElem?_modify, if_neg (by simpa using hfd)]
  | sent fd' count =>
      have hfd := hne rfl
      obtain rfl := h
      rw [World.setClient, Std.ExtTreeMap.getElem?_modify, if_neg (by simpa using hfd)]
  | emplace | erase | beginShutdown | setReboot | setOverrides | answer | killGroup =>
      obtain rfl := h
      rfl
  | _ => exact absurd rfl hq

theorem observe_of_about {o : Op} {r : o.Ans} (hother : o.about ≠ some fd) :
    observe fd o w r note = note := by
  cases o with
  | recv fd' =>
      have hne : fd' ≠ fd := fun h => hother (by rw [h]; rfl)
      exact if_neg hne
  | send fd' data =>
      have hne : fd' ≠ fd := fun h => hother (by rw [h]; rfl)
      exact if_neg hne
  | dropClient fd' =>
      have hne : fd' ≠ fd := fun h => hother (by rw [h]; rfl)
      exact if_neg hne
  | _ => rfl

/-- Neither the record nor the notes have changed. -/
def Undisturbed (fd : Fd) (w : World) (note : Note) (s : World × Note) : Prop :=
  s.1.sup.clients[fd]? = w.sup.clients[fd]? ∧ s.2 = note

/-- A function that is aloof leaves the connection alone. -/
theorem Aloof.seen {α : Type} {m : M α} (h : Aloof env m) :
    wp (seen env fd) (fun _ _ => True) m (fun _ _ s => Undisturbed fd w note s)
      (fun _ _ s => Undisturbed fd w note s) () (w, note) := by
  have hkept : ∀ (o : Op) (u : World) (r : o.Ans) (u' : World) (c : Note), o.about = none →
      Undisturbed fd w note (u, c) → sem env o u r u' → Undisturbed fd w note (u', observe fd o u r c) := by
    intro o u r u' c habout hsame hs
    have hother : o.about ≠ some fd := by
      rw [habout]
      simp
    exact ⟨(clients_of_about hother hs).trans hsame.1, (observe_of_about hother).trans hsame.2⟩
  have hstart : Undisturbed fd w note (w, note) := ⟨rfl, rfl⟩
  have hrun := (h () w trivial).observed hkept hstart
  exact hrun.mono (fun _ _ _ => trivial) (fun _ _ _ hs => hs.2) fun _ _ _ hs => hs.2

theorem Aloof.shows {α : Type} {m : M α} {Q : α → Log → World × Note → Prop}
    {D : Bytes → Log → World × Note → Prop} (h : Aloof env m)
    (hQ : ∀ a s, Undisturbed fd w note s → Q a log s) (hD : ∀ e s, Undisturbed fd w note s → D e log s) :
    Shows env fd (within m) Q D log (w, note) := by
  apply shows_within
  exact h.seen.post (fun a _ s hs => hQ a s hs) fun e _ s hs => hD e s hs

/-- `request ()` catches every exception. -/
theorem shows_request {bytes : Bytes} {Q : Value → Log → World × Note → Prop}
    {D : Bytes → Log → World × Note → Prop} (hQ : ∀ a s, Undisturbed fd w note s → Q a log s) :
    Shows env fd (within (request env bytes)) Q D log (w, note) := by
  apply shows_within
  unfold request
  apply wp_bind.2
  apply wp_attempt.2
  refine aloof_obey.seen.post ?_ ?_
  · intro value _ s hs
    exact hQ value s hs
  · intro message _ s hs
    exact hQ (reply false message []) s hs

/-- The connection goes on. -/
def Continues (fd : Fd) (log : Log) (s : World × Note) : Prop :=
  ∃ client, s.1.sup.clients[fd]? = some client ∧ Live log s.2 client

/-- It will be closed. -/
def Closes (log : Log) (s : World × Note) : Prop := Over log s.2 s.2.sending

/-- What `service ()` leaves. -/
def Decided (fd : Fd) (again : Bool) (log : Log) (s : World × Note) : Prop :=
  if again = true then Continues fd log s else Closes log s

theorem getElem?_setClient (w : World) (fd : Fd) (f : Client → Client) :
    (w.setClient fd f).sup.clients[fd]? = w.sup.clients[fd]?.map f := by
  rw [World.setClient, Std.ExtTreeMap.getElem?_modify, if_pos (by simp)]

theorem shows_sendReply {payload : Bytes} {value : Value} (hc : w.sup.clients[fd]? = some client)
    (hasked : log.asked = [payload]) (hanswered : log.answered = [value])
    (hwhole : Whole note.received payload) (houtput : frame value = .ok client.output)
    (hwire : note.wire = client.output.take client.sent) (hsent : client.sent < client.output.length) :
    wp (seen env fd) (fun _ _ => True) (sendReply fd client) (fun again _ s => Decided fd again log s)
      (fun _ _ s => Closes log s) () (w, note) := by
  unfold sendReply
  apply wp_bind.2
  refine ⟨trivial, ?_⟩
  rintro r ⟨v, note'⟩ ⟨⟨hv, hcount⟩, hnote⟩
  obtain rfl : v = w := hv
  obtain rfl : note' = note.send (client.output.drop client.sent) r := by
    rw [show note' = observe fd (.send fd (client.output.drop client.sent)) v r note from hnote]
    exact if_pos rfl
  cases r with
  | ok count =>
      have hle := hcount count rfl
      rw [List.length_drop] at hle
      have hwire' : (note.send (client.output.drop client.sent) (.ok count)).wire =
          client.output.take (client.sent + count) := by
        rw [List.take_add]
        simp only [Note.send, hwire]
      apply wp_bind.2
      refine ⟨trivial, ?_⟩
      rintro _ ⟨u, note''⟩ ⟨hu, hnote'⟩
      obtain rfl : u = v.setClient fd fun c => { c with sent := c.sent + count } := hu
      obtain rfl : note'' = note.send (client.output.drop client.sent) (.ok count) := hnote'
      show Decided fd (decide (client.sent + count < client.output.length)) log _
      unfold Decided
      by_cases hmore : client.sent + count < client.output.length
      · rw [if_pos (by simpa using hmore)]
        refine ⟨{ client with sent := client.sent + count }, ?_, ?_⟩
        · rw [getElem?_setClient, hc]
          rfl
        · exact .writing hasked hanswered hwhole houtput hwire' hmore
      · -- everything has been sent
        rw [if_neg (by simpa using hmore)]
        have hall : client.output.take (client.sent + count) = client.output :=
          List.take_of_length_le (by omega)
        refine .answered hasked hanswered hwhole (fun output hok => ?_) fun e herror => ?_
        · cases houtput.symm.trans hok
          rw [hwire', hall]
          exact ⟨List.prefix_rfl, fun _ => rfl⟩
        · cases houtput.symm.trans herror
  | error e =>
      have hlive : Live log (note.send (client.output.drop client.sent) (.error e)) client :=
        .writing hasked hanswered hwhole houtput hwire hsent
      have hagain : Decided fd (decide (client.sent < client.output.length)) log
          (v, note.send (client.output.drop client.sent) (.error e)) := by
        unfold Decided
        rw [if_pos (by simpa using hsent)]
        exact ⟨client, hc, hlive⟩
      have hclose : Decided fd false log (v, note.send (client.output.drop client.sent) (.error e)) :=
        hlive.over
      cases e <;> first | exact hagain | exact hclose

theorem shows_receive (hc : w.sup.clients[fd]? = some client) (hasked : log.asked = [])
    (hanswered : log.answered = []) (hwire : note.wire = []) (hsending : note.sending = false)
    (hinput : client.input = note.received) (houtput : client.output = []) (hsent : client.sent = 0) :
    Shows env fd (loggedReceive env fd client) (fun again log' s => Decided fd again log' s)
      (fun _ log' s => Closes log' s) log (w, note) := by
  have hgoes : Partial client.input → Decided fd true log (w, note) := fun hpart =>
    ⟨client, hc, .reading hasked hanswered hwire hinput houtput hsent hpart⟩
  unfold loggedReceive
  dsimp only
  split
  · next hlen => exact hgoes (.inl hlen)
  · split
    · next hbad =>
        refine .silent hasked hanswered (fun payload hwhole => ?_) hwire hsending
        have hsize := hwhole.size
        have hlength := hwhole.length_eq
        have hmax := hwhole.le_max
        have hpos := List.length_pos_of_ne_nil hwhole.ne_nil
        rw [← hinput] at hsize hlength
        omega
    · split
      · next hsize hlen => exact hgoes (.inr ⟨by omega, by omega, hlen⟩)
      · next hfour hsize hlen =>
          have hwhole : Whole note.received (client.input.drop 4) := by
            rw [← hinput]
            have hdrop : (client.input.drop 4).length = client.input.length - 4 := List.length_drop
            refine ⟨?_, by omega, by omega, by omega, rfl⟩
            exact List.ne_nil_of_length_pos (by omega)
          unfold loggedRequest
          apply wp_bind.2
          apply wp_bind.2
          apply wp_modify.2
          apply wp_bind.2
          apply shows_request
          rintro value ⟨v, note'⟩ ⟨hv, hnote⟩
          obtain rfl : note' = note := hnote
          apply wp_bind.2
          apply wp_modify.2
          apply wp_pure.2
          have hasked' : log.asked ++ [client.input.drop 4] = [client.input.drop 4] := by rw [hasked]; rfl
          have hanswered' : log.answered ++ [value] = [value] := by rw [hanswered]; rfl
          apply wp_bind.2
          apply shows_within
          cases hframe : frame value with
          | error e =>
              refine .answered hasked' hanswered' hwhole (fun output hok => ?_) fun _ _ => ⟨hwire, hsending⟩
              cases hframe.symm.trans hok
          | ok output =>
              apply wp_bind.2
              apply shows_ask
              rintro now u ⟨-, rfl⟩
              apply wp_bind.2
              apply shows_ask
              intro _ u' hu
              obtain rfl := hu
              apply shows_within
              have hclient : client.sent < output.length := by
                have := frame_eq_ok hframe
                omega
              refine shows_sendReply ?_ hasked' hanswered' hwhole hframe ?_ hclient
              · rw [getElem?_setClient]
                show Option.map _ v.sup.clients[fd]? = _
                rw [show v.sup.clients[fd]? = w.sup.clients[fd]? from hv, hc]
                rfl
              · show note'.wire = output.take client.sent
                rw [hsent, hwire]
                rfl

theorem shows_service (hc : w.sup.clients[fd]? = some client) (hlive : Live log note client)
    (hsending : note.sending = false) :
    Shows env fd (loggedService env fd client) (fun again log' s => Decided fd again log' s)
      (fun _ log' s => Closes log' s) log (w, note) := by
  have hclose : ∀ n : Note, n.received = note.received → n.wire = note.wire → n.sending = false →
      ∀ u : World, Decided fd false log (u, n) := by
    intro n hreceived hwire hsending u
    show Over log n n.sending
    rw [hsending]
    cases hlive.over with
    | silent h1 h2 h3 h4 h5 => exact .silent h1 h2 (by rwa [hreceived]) (by rwa [hwire]) h5
    | answered h1 h2 h3 h4 h5 =>
        exact .answered h1 h2 (by rwa [hreceived]) (by rwa [hwire]) (by rwa [hwire])
  unfold loggedService
  apply wp_bind.2
  apply shows_ask
  rintro now u ⟨-, rfl⟩
  split
  · exact hclose note rfl rfl hsending _
  · cases hlive with
    | writing hasked hanswered hwhole houtput hwire hsent =>
        have hne : client.output ≠ [] := List.ne_nil_of_length_pos (by omega)
        rw [if_pos hne]
        apply shows_within
        exact shows_sendReply hc hasked hanswered hwhole houtput hwire hsent
    | reading hasked hanswered hwire hinput houtput hsent hpart =>
        rw [if_neg (not_not.2 houtput)]
        apply wp_bind.2
        apply shows_ask
        rintro r u' ⟨rfl, -⟩
        have hobserve : observe fd (.recv fd) { w with clock := now } r (observe fd .now w now note) =
            note.read r := if_pos rfl
        rw [hobserve]
        cases r with
        | error e =>
            show Decided fd (decide (e = .EAGAIN ∨ e = .EINTR)) log _
            by_cases he : e = .EAGAIN ∨ e = .EINTR
            · rw [decide_eq_true he]
              exact ⟨client, hc, .reading hasked hanswered hwire hinput houtput hsent hpart⟩
            · rw [decide_eq_false he]
              exact hclose (note.read (.error e)) rfl rfl rfl _
        | ok data =>
            cases data with
            | nil => exact hclose (note.read (.ok [])) (List.append_nil _) rfl rfl _
            | cons c data =>
                apply wp_bind.2
                apply shows_ask
                intro _ u'' hu
                obtain rfl := hu
                refine shows_receive ?_ hasked hanswered hwire rfl ?_ houtput hsent
                · rw [getElem?_setClient]
                  show Option.map _ w.sup.clients[fd]? = _
                  rw [hc]
                  rfl
                · show client.input ++ c :: data = note.received ++ c :: data
                  rw [hinput]

/-- Dropping a connection that is to be closed. -/
theorem shows_drop {s : World × Note} (h : Closes log s) {D : Bytes → Log → World × Note → Prop} :
    Shows env fd (within (ask (.dropClient fd))) (fun _ log' s => Standing fd log' s.2 s.1) D log s := by
  obtain ⟨w, note⟩ := s
  apply shows_ask
  intro _ v hv
  obtain rfl := hv
  have hobserve : observe fd (.dropClient fd) w () note = { note with finished := note.sending } := if_pos rfl
  rw [hobserve]
  apply Over.standing
  · simp
  · cases h with
    | silent h1 h2 h3 h4 h5 => exact .silent h1 h2 h3 h4 h5
    | answered h1 h2 h3 h4 h5 => exact .answered h1 h2 h3 h4 h5

/-- One event. -/
theorem shows_event (hfd : fd ≠ env.control) (h : Standing fd log note w) (hsending : note.sending = false)
    (error : Bool) (udata : Nat) :
    Shows env fd (loggedEvent env (.descriptor fd error udata)) (fun _ log' s => Standing fd log' s.2 s.1)
      (fun _ log' s => Standing fd log' s.2 s.1) log (w, note) := by
  unfold loggedEvent
  dsimp only
  rw [if_neg hfd]
  apply wp_bind.2
  apply shows_ask
  intro s v hlook
  obtain ⟨rfl, hv⟩ := hlook
  obtain rfl : w = v := hv.symm
  split
  · -- the descriptor of a listener
    have haloof : Aloof env (each activateJob (ownersOf w.sup.jobs fd)) :=
      .each (fun _ => aloof_activateJob) _
    apply haloof.shows
    · rintro _ ⟨v, note'⟩ ⟨hv, rfl⟩
      exact h.congr hv
    · rintro _ ⟨v, note'⟩ ⟨hv, rfl⟩
      exact h.congr hv
  · cases hc : w.sup.clients[fd]? with
    | none => exact h
    | some client =>
        have hlive : Live log note client := by
          unfold Standing at h
          rwa [hc] at h
        dsimp only
        split
        · exact h
        · split
          · apply shows_drop
            show Over log note note.sending
            rw [hsending]
            exact hlive.over
          · apply wp_bind.2
            apply wp_attempt.2
            refine (shows_service hc hlive hsending).post ?_ ?_
            · intro again log' s hs
              cases again with
              | true =>
                  obtain ⟨client', hc', hlive'⟩ := hs
                  exact hlive'.standing hc'
              | false => exact shows_drop hs
            · intro e log' s hs
              exact shows_drop hs

end Running

/-- The state at every moment of the life of a connection. -/
theorem Life.standing {fd : Fd} {log : Log} {note : Note} {w : World} (h : Life env fd log note w) :
    fd ≠ env.control ∧ Standing fd log note w := by
  induction h with
  | accepted hfd h =>
      exact ⟨hfd, Live.standing h (.reading rfl rfl rfl rfl rfl rfl (.inl (Nat.succ_pos 3)))⟩
  | other _ hother hcall ih => exact ⟨ih.1, ih.2.congr (clients_of_about hother hcall)⟩
  | @dropped log note w v r _ hcall ih =>
      refine ⟨ih.1, ?_⟩
      obtain rfl := hcall
      have hstanding := ih.2
      unfold Standing at hstanding
      apply Over.standing
      · simp
      · split at hstanding
        · cases hstanding.over with
          | silent h1 h2 h3 h4 h5 => exact .silent h1 h2 h3 h4 rfl
          | answered h1 h2 h3 h4 h5 => exact .answered h1 h2 h3 h4 h5
        · cases hstanding with
          | silent h1 h2 h3 h4 h5 => exact .silent h1 h2 h3 h4 rfl
          | answered h1 h2 h3 h4 h5 =>
              exact .answered h1 h2 h3 (fun output hok => ⟨(h4 output hok).1, fun hdone => by cases hdone⟩)
                fun e he => ⟨(h5 e he).1, rfl⟩
  | @event log log' note note' w v error udata result _ hrun ih =>
      refine ⟨ih.1, ?_⟩
      have hstart : Standing fd log { note with sending := false } w := by
        have hstanding := ih.2
        unfold Standing at hstanding ⊢
        split at hstanding
        · cases hstanding with
          | reading h1 h2 h3 h4 h5 h6 h7 => exact .reading h1 h2 h3 h4 h5 h6 h7
          | writing h1 h2 h3 h4 h5 h6 => exact .writing h1 h2 h3 h4 h5 h6
        · cases hstanding with
          | silent h1 h2 h3 h4 h5 => exact .silent h1 h2 h3 h4 h5
          | answered h1 h2 h3 h4 h5 => exact .answered h1 h2 h3 h4 h5
      have hend := (Prog.spec_iff.1 (shows_event ih.1 hstart rfl error udata)).2 _ _ hrun
      cases result with
      | error e => exact hend
      | ok _ => exact hend

/-- **One connection, at most one request.** Whatever a client sends and however it arrives,
`request ()` is called at most once, with the payload of the one frame that was sent; it is
not called for a part of a frame or for a length that is not allowed; and what is sent back is a
part of the frame of the reply, and all of it when the connection is closed normally. -/
theorem one_request {fd : Fd} {log : Log} {note : Note} {w : World} (h : Life env fd log note w) :
    log.asked.length ≤ 1 ∧
    (∀ payload, payload ≠ [] → payload.length ≤ maxMessage → note.received = framed payload →
      log.asked = [payload]) ∧
    (∀ payload, payload.length ≤ maxMessage → note.received <+: framed payload →
      note.received ≠ framed payload → log.asked = []) ∧
    (frameSize note.received = 0 ∨ maxMessage < frameSize note.received → log.asked = []) ∧
    (log.asked = [] ∧ note.wire = [] ∨
      ∃ payload value, log.asked = [payload] ∧ log.answered = [value] ∧
        (∀ output, frame value = .ok output → note.wire <+: output ∧
          (w.sup.clients[fd]? = none → note.finished = true → note.wire = output)) ∧
        ∀ e, frame value = .error e → note.wire = []) := by
  have hover : ∃ done, Over log note done ∧
      (w.sup.clients[fd]? = none → note.finished = true → done = true) := by
    have hstanding := h.standing.2
    unfold Standing at hstanding
    split at hstanding
    · next client hc => exact ⟨false, hstanding.over, fun hnone => by rw [hc] at hnone; cases hnone⟩
    · exact ⟨note.finished, hstanding, fun _ hfinished => hfinished⟩
  obtain ⟨done, hover, hdone⟩ := hover
  cases hover with
  | silent hasked hanswered hwhole hwire _ =>
      refine ⟨by simp [hasked], ?_, fun _ _ _ _ => hasked, fun _ => hasked, .inl ⟨hasked, hwire⟩⟩
      intro payload hne hmax hframed
      exact absurd (hframed ▸ whole_framed hne hmax) (hwhole payload)
  | @answered payload value hasked hanswered hwhole hok herror =>
      refine ⟨by simp [hasked], ?_, ?_, ?_, .inr ⟨payload, value, hasked, hanswered, ?_, ?_⟩⟩
      · intro payload' hne hmax hframed
        have hsame : Whole note.received payload' := hframed ▸ whole_framed hne hmax
        rw [hasked, hwhole.unique hsame]
      · intro payload' hmax hinit hne
        exact absurd hwhole (not_whole_of_part hmax hinit hne)
      · intro hsize
        have hlength := hwhole.size
        have hmax := hwhole.le_max
        have hpos := List.length_pos_of_ne_nil hwhole.ne_nil
        omega
      · intro output hframe
        obtain ⟨hinit, hall⟩ := hok output hframe
        exact ⟨hinit, fun hclosed hfinished => hall (hdone hclosed hfinished)⟩
      · intro e hframe
        exact (herror e hframe).1

/-! A client that sends the frame of one byte, which is no property list. -/

def talkAnswer (o : Op) (w : World) : o.Ans × World :=
  match o with
  | .recv _ => (.ok (framed [120]), w)
  | o => demoAnswer o w

theorem sem_talkAnswer (o : Op) (w : World) : sem demoEnv o w (talkAnswer o w).1 (talkAnswer o w).2 := by
  cases o with
  | recv fd => exact ⟨rfl, fun data h => by cases h; decide⟩
  | _ => exact sem_demoAnswer _ w

/-- The connection has been accepted. -/
def talkStart : World := { sup := { clients := (∅ : Map Fd Client).insert 7 { deadline := 1, generation := 1 } } }

def talkSeen (o : Op) (s : World × Note) : o.Ans × (World × Note) :=
  ((talkAnswer o s.1).1, (talkAnswer o s.1).2, observe 7 o s.1 (talkAnswer o s.1).1 s.2)

/-- Its one event has been handled. -/
@[irreducible] def talked : (Except Bytes Unit × Log) × (World × Note) :=
  (loggedEvent demoEnv (.descriptor 7 false 1) {}).exec talkSeen (talkStart, {})

theorem talked_facts : talked.1.2.asked = [[120]] ∧ talked.2.2.received = framed [120] ∧
    talked.2.2.finished = true ∧ talked.2.1.sup.clients[(7 : Fd)]? = none := by
  unfold talked
  decide +kernel

theorem life_talked : Life demoEnv 7 talked.1.2 talked.2.2 talked.2.1 := by
  have hstart : Life demoEnv 7 {} {} talkStart :=
    .accepted (by decide) (by rw [talkStart, Std.ExtTreeMap.getElem?_insert_self])
  have hrun : Prog.Reach (seen demoEnv 7) (loggedEvent demoEnv (.descriptor 7 false 1) {}) (talkStart, {})
      (.ret talked.1) talked.2 := by
    unfold talked
    exact Prog.reach_exec (fun o s => ⟨sem_talkAnswer o s.1, rfl⟩) _ _
  exact .event hstart hrun

theorem one_request_talked : talked.1.2.asked = [[120]] ∧ ∃ value, talked.1.2.answered = [value] ∧
    ∀ output, frame value = .ok output → talked.2.2.wire = output := by
  obtain ⟨hasked, -, hfinished, hclosed⟩ := talked_facts
  obtain ⟨-, -, -, -, hwire⟩ := one_request life_talked
  refine ⟨hasked, ?_⟩
  rcases hwire with ⟨hnone, -⟩ | ⟨payload, value, -, hanswered, hok, -⟩
  · rw [hasked] at hnone
    cases hnone
  · exact ⟨value, hanswered, fun output hframe => (hok output hframe).2 hclosed hfinished⟩

end MiniDarwin.Launchd
