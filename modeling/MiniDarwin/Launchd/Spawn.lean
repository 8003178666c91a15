import MiniDarwin.Effects.Loop
import MiniDarwin.Launchd.Job

/-!
The child's side of `spawn ()` (`job.cpp`), from `fork ()` to `execve ()`.

Only the child's descriptors matter here, so its world is a descriptor
table. Any call may fail, and what a call does to the table is what its
manual page says: `dup2 ()` leaves an inheritable copy, `F_DUPFD_CLOEXEC`
takes the lowest free descriptor from a given one on, and neither gives a
descriptor beyond the size of the table.

`failed` is no part of the process. It is the number of a failure that the
parent has not been told of.
-/

namespace MiniDarwin.Launchd.Spawn

open Posix (Bytes)
open Effects Effects.Proc

/-- What a descriptor refers to, and `FD_CLOEXEC`. -/
structure Slot where
  file : Nat
  cloexec : Bool
  deriving DecidableEq

abbrev Table := Fd → Option Slot

structure Child where
  table : Table
  failed : Option Nat := none

def Child.set (w : Child) (fd : Fd) (slot : Option Slot) : Child :=
  { w with table := Function.update w.table fd slot }

@[simp] theorem Child.set_failed (w : Child) (fd : Nat) (slot : Option Slot) :
    (w.set fd slot).failed = w.failed := rfl

@[simp] theorem Child.set_self (w : Child) (fd : Nat) (slot : Option Slot) :
    (w.set fd slot).table fd = slot := Function.update_self ..

theorem Child.set_other {w : Child} {fd other : Nat} {slot : Option Slot} (h : other ≠ fd) :
    (w.set fd slot).table other = w.table other := Function.update_of_ne h ..

/-! ### Calls -/

inductive Op where
  | setpgid
  | sigprocmask
  | sigaction (signal : Nat)
  | dup2 (source target : Fd)
  /-- `fcntl (source, F_DUPFD_CLOEXEC, least)` -/
  | dupfd (source least : Fd)
  | chdir (path : Bytes)
  | setgroups (groups : List Nat)
  | setgid (gid : Nat)
  | setuid (uid : Nat)
  | close (fd : Fd)
  | execve (program : Bytes) (arguments environment : List Bytes)
  | write (fd : Fd) (data : Bytes)

/-- The answers, an error being `errno`. `execve ()` only returns when it fails,
and a `write ()` that was interrupted is made again as part of the call. -/
abbrev Op.Ans : Op → Type
  | .dupfd _ _ => Except Nat Fd
  | .write _ _ => Except Nat Nat
  | .execve _ _ _ => Nat
  | _ => Except Nat Unit

abbrev childCalls : Sig := ⟨Op, Op.Ans⟩

def EINVAL : Nat := 22

/-- A call that leaves the descriptors alone. -/
def plain (w : Child) (r : Except Nat Unit) (v : Child) : Prop :=
  (r = .ok () ∧ v = w) ∨ ∃ e, r = .error e ∧ v = { w with failed := some e }

/-- What a call may answer and do in a process whose table has `limit` slots. -/
def childSem (limit : Nat) : Sem childCalls Child
  | .setpgid, w, r, v => plain w r v
  | .sigprocmask, w, r, v => plain w r v
  | .sigaction _, w, r, v =>
      (r = .error EINVAL ∧ v = w) ∨ (r ≠ .error EINVAL ∧ plain w r v)
  | .dup2 source target, w, r, v =>
      (∃ e, r = .error e ∧ v = { w with failed := some e }) ∨
        ∃ slot, w.table source = some slot ∧ target < limit ∧ r = .ok () ∧
          v = w.set target (some (if source = target then slot else { slot with cloexec := false }))
  | .dupfd source least, w, r, v =>
      (∃ e, r = .error e ∧ v = { w with failed := some e }) ∨
        ∃ slot fd, w.table source = some slot ∧ least ≤ fd ∧ fd < limit ∧ w.table fd = none ∧
          (∀ i, least ≤ i → i < fd → w.table i ≠ none) ∧ r = .ok fd ∧
          v = w.set fd (some { slot with cloexec := true })
  | .chdir _, w, r, v => plain w r v
  | .setgroups _, w, r, v => plain w r v
  | .setgid _, w, r, v => plain w r v
  | .setuid _, w, r, v => plain w r v
  -- whatever it answers, an open descriptor is closed
  | .close fd, w, _, v => v = w.set fd none
  | .execve _ _ _, w, e, v => v = { w with failed := some e }
  | .write _ data, w, r, v => (∀ n, r = .ok n → n ≤ data.length) ∧ v = { w with failed := none }

/-- The number of a failure that the parent must be told of. -/
def failure : (o : Op) → o.Ans → Option Nat
  | .setpgid, .error e | .sigprocmask, .error e | .dup2 _ _, .error e | .dupfd _ _, .error e
  | .chdir _, .error e | .setgroups _, .error e | .setgid _, .error e | .setuid _, .error e => some e
  | .sigaction _, .error e => if e ≠ EINVAL then some e else none
  | .execve _ _ _, e => some e
  | _, _ => none

/-! ### The program -/

/-- What the parent has prepared. -/
structure Plan where
  config : Config
  listeners : List Listener
  input : Fd
  output : Fd
  error : Fd
  writer : Fd
  /-- `getdtablesize ()` -/
  descriptorLimit : Nat

/-- A function of the child. Its variable is `pipeFd`; that it gives up is
`_exit (127)`. -/
abbrev C := Proc childCalls Fd Unit

def askChild (o : Op) : C o.Ans := sys (S := childCalls) o

/-- The bytes of an `int`. -/
def intBytes (n : Nat) : Bytes :=
  (List.range intSize).map fun i => UInt8.ofNat (n / 256 ^ i % 256)

/-- The loop of `childFailure ()`; every round but the last writes a byte. -/
def writeError (fd : Fd) : Nat → Bytes → C Unit
  | 0, _ => pure ()
  | rounds + 1, bytes =>
      if bytes = [] then pure ()
      else do
        match ← askChild (.write fd bytes) with
        | .ok 0 => pure ()
        | .ok n => writeError fd rounds (bytes.drop n)
        | .error _ => pure ()

def childFailure {α : Type} (error : Nat) : C α := do
  writeError (← get) intSize (intBytes error)
  fail ()

/-- `if (call < 0) childFailure (pipeFd, errno)` -/
def must {α : Type} : Except Nat α → C α
  | .ok a => pure a
  | .error e => childFailure e

/-- `NSIG`, `SIGKILL` and `SIGSTOP` -/
def NSIG : Nat := 32

def SIGKILL : Nat := 9

def SIGSTOP : Nat := 17

def resetSignal (signal : Nat) : C Unit :=
  if signal = SIGKILL ∨ signal = SIGSTOP then pure ()
  else do
    match ← askChild (.sigaction signal) with
    | .ok () => pure ()
    | .error e => if e ≠ EINVAL then childFailure e else pure ()

/-- The loop that fills `staging`. -/
def stageSources (least : Fd) : List Fd → List Fd → C (List Fd)
  | [], staging => pure staging
  | source :: sources, staging => do
      let fd ← must (← askChild (.dupfd source least))
      stageSources least sources (staging ++ [fd])

/-- The loop over the targets, from one on. -/
def placeSockets : Fd → List Fd → C Unit
  | _, [] => pure ()
  | target, fd :: staging => do
      must (← askChild (.dup2 fd target))
      placeSockets (target + 1) staging

/-- Move everything clear of the targets first: any source or the error pipe may
already occupy one. -/
def passSockets (sources : List Fd) : C Unit :=
  if sources = [] then pure ()
  else do
    let moved ← must (← askChild (.dupfd (← get) (3 + sources.length)))
    modify fun _ => moved
    placeSockets 3 (← stageSources (3 + sources.length) sources [])

def changeDirectory (directory : Bytes) : C Unit :=
  if directory = [] then pure () else do must (← askChild (.chdir directory))

/-- `setgid (*config.gid)`: a property list that gives a user gives a group. -/
def changeIdentity (config : Config) : C Unit :=
  match config.uid with
  | none => pure ()
  | some uid => do
      must (← askChild (.setgroups config.groups))
      must (← askChild (.setgid (config.gid.getD 0)))
      must (← askChild (.setuid uid))

def closeOther (fd : Fd) : C Unit := do
  if fd ≠ (← get) then do
    let _ ← askChild (.close fd)
    pure ()
  else pure ()

/-! ### The environment -/

def socketsVariable : Bytes := ascii "MINIDARWIN_LAUNCHD_SOCKETS"

/-- The loop that builds the value of the variable. -/
def socketNames : Nat → List Listener → Bytes → Bytes
  | _, [], names => names
  | i, listener :: listeners, names =>
      socketNames (i + 1) listeners
        (names ++ (if i ≠ 0 then ascii " " else []) ++ listener.name ++ ascii "=" ++ decimal (3 + i))

def environmentOf (config : Config) (listeners : List Listener) : Map Bytes Bytes :=
  let environment := (Std.ExtTreeMap.ofList config.environment).insertIfNew (ascii "PATH")
    (ascii "/usr/bin:/bin:/usr/sbin:/sbin")
  if listeners ≠ [] then environment.insert socketsVariable (socketNames 0 listeners [])
  else environment.erase socketsVariable

def entriesOf (environment : Map Bytes Bytes) : List Bytes :=
  environment.toList.map fun entry => entry.1 ++ ascii "=" ++ entry.2

/-- What the child does after `fork ()`. -/
def child (plan : Plan) : C Unit := do
  must (← askChild .setpgid)
  must (← askChild .sigprocmask)
  each resetSignal (List.range' 1 (NSIG - 1))
  must (← askChild (.dup2 plan.input 0))
  must (← askChild (.dup2 plan.output 1))
  must (← askChild (.dup2 plan.error 2))
  passSockets (plan.listeners.map (·.fd))
  changeDirectory plan.config.directory
  changeIdentity plan.config
  each closeOther (List.range' (3 + plan.listeners.length)
    (plan.descriptorLimit - (3 + plan.listeners.length)))
  let error ← askChild (.execve plan.config.program plan.config.arguments
    (entriesOf (environmentOf plan.config plan.listeners)))
  childFailure error

/-! ### What is promised -/

/-- The copy of a descriptor that a new program inherits. -/
def inherited (slot : Option Slot) : Option Slot := slot.map fun s => { s with cloexec := false }

theorem inherited_ne_none {slot : Option Slot} (h : slot ≠ none) : inherited slot ≠ none := by
  cases slot with
  | none => exact absurd rfl h
  | some s => exact Option.some_ne_none _

/-- The child right after `fork ()`. `pipe` is the error pipe. The last field is what
`getdtablesize ()` is documented to return: the number of slots there are. -/
structure Prepared (plan : Plan) (pipe : Nat) (w : Child) : Prop where
  input : 3 ≤ plan.input ∧ w.table plan.input ≠ none
  output : 3 ≤ plan.output ∧ w.table plan.output ≠ none
  error : 3 ≤ plan.error ∧ w.table plan.error ≠ none
  writer : 3 ≤ plan.writer ∧ w.table plan.writer = some ⟨pipe, true⟩
  listeners : ∀ listener ∈ plan.listeners, 3 ≤ listener.fd ∧ w.table listener.fd ≠ none
  calm : w.failed = none
  limit : ∀ fd : Nat, w.table fd ≠ none → fd < plan.descriptorLimit

/-- The table a job is given: its files, its sockets, and the pipe that closes
itself. -/
structure Ready (plan : Plan) (pipe : Nat) (w v : Child) : Prop where
  input : v.table 0 = inherited (w.table plan.input)
  output : v.table 1 = inherited (w.table plan.output)
  error : v.table 2 = inherited (w.table plan.error)
  listeners : ∀ (i : Nat) listener, plan.listeners[i]? = some listener →
    v.table (3 + i) = inherited (w.table listener.fd)
  only : ∃ fd, 3 + plan.listeners.length ≤ fd ∧ v.table fd = some ⟨pipe, true⟩ ∧
    ∀ other, 3 + plan.listeners.length ≤ other → other ≠ fd → v.table other = none

/-- The descriptor refers to the pipe. -/
def Piped (pipe : Nat) (fd : Nat) (w : Child) : Prop := ∃ cloexec, w.table fd = some ⟨pipe, cloexec⟩

/-- A failure is reported before anything else is done, and `execve ()` is called on
a table that is ready. -/
def Proper (plan : Plan) (pipe : Nat) (w : Child) : Op → Child → Prop
  | .write fd data, v => Piped pipe fd v ∧ ∀ e, v.failed = some e → data = intBytes e
  | .execve program arguments environment, v => v.failed = none ∧ Ready plan pipe w v ∧
      program = plan.config.program ∧ arguments = plan.config.arguments ∧
      environment = entriesOf (environmentOf plan.config plan.listeners)
  | _, v => v.failed = none

variable {plan : Plan} {pipe : Nat} {limit : Nat} {w v : Child} {g : Nat}

/-- What a function of the child owes: that it gives up, it has reported. -/
abbrev owes {α : Type} (plan : Plan) (pipe : Nat) (w : Child) (m : C α)
    (Q : α → Nat → Child → Prop) (g : Nat) (v : Child) : Prop :=
  wp (childSem plan.descriptorLimit) (Proper plan pipe w) m Q (fun _ _ u => u.failed = none) g v

/-! ### Reporting -/

theorem owes_writeError {rounds : Nat} {bytes : Bytes} (hpipe : Piped pipe g v)
    (hbytes : ∀ e, v.failed = some e → bytes = intBytes e) (h : v.failed ≠ none → rounds ≠ 0 ∧ bytes ≠ [])
    {Q : Unit → Nat → Child → Prop} (hQ : ∀ g' u, u.failed = none → Q () g' u) :
    owes plan pipe w (writeError g rounds bytes) Q g v := by
  induction rounds generalizing bytes v with
  | zero =>
      refine hQ _ _ ?_
      by_contra hne
      exact (h hne).1 rfl
  | succ rounds ih =>
      rw [writeError]
      split
      · next hnil =>
          refine hQ _ _ ?_
          by_contra hne
          exact (h hne).2 hnil
      · refine wp_bind.2 (wp_sys.2 ⟨⟨hpipe, hbytes⟩, ?_⟩)
        rintro (e | n) u ⟨-, rfl⟩
        · exact hQ _ _ rfl
        · cases n with
          | zero => exact hQ _ _ rfl
          | succ n =>
              refine ih hpipe ?_ ?_
              · intro e he
                cases he
              · intro hne
                exact absurd rfl hne

theorem intBytes_ne_nil (e : Nat) : intBytes e ≠ [] := by
  intro h
  have := congrArg List.length h
  simp [intBytes, intSize] at this

theorem owes_childFailure {α : Type} {e : Nat} {Q : α → Nat → Child → Prop} (hpipe : Piped pipe g v)
    (hfailed : v.failed = some e) : owes plan pipe w (childFailure e : C α) Q g v := by
  refine wp_bind.2 (wp_get.2 (wp_bind.2 (owes_writeError hpipe ?_ ?_ ?_)))
  · intro e' he'
    rw [hfailed] at he'
    cases he'
    rfl
  · exact fun _ => ⟨by decide, intBytes_ne_nil e⟩
  · exact fun _ _ hu => hu

/-- A call that must succeed and leaves the descriptors alone. -/
theorem owes_plain {r : Except Nat Unit} {u : Child} {Q : Unit → Nat → Child → Prop}
    (hpipe : Piped pipe g v) (hr : plain v r u) (hQ : Q () g v) :
    owes plan pipe w (must r) Q g u := by
  obtain ⟨rfl, rfl⟩ | ⟨e, rfl, rfl⟩ := hr
  · exact hQ
  · exact owes_childFailure hpipe rfl

/-! ### One descriptor after another -/

theorem Piped.set {fd : Nat} {slot : Option Slot} (h : Piped pipe g v) (hne : g ≠ fd) :
    Piped pipe g (v.set fd slot) := by
  obtain ⟨cloexec, hg⟩ := h
  exact ⟨cloexec, (Child.set_other hne).trans hg⟩

/-- `dup2 ()` onto another descriptor than the pipe's. -/
theorem owes_dup2 {source target : Nat} {Q : Unit → Nat → Child → Prop} (hpipe : Piped pipe g v)
    (hcalm : v.failed = none) (hne : source ≠ target)
    (hQ : v.table source ≠ none → Q () g (v.set target (inherited (v.table source)))) :
    owes plan pipe w (askChild (.dup2 source target)) (fun r g' u => owes plan pipe w (must r) Q g' u)
      g v := by
  refine wp_sys.2 ⟨hcalm, ?_⟩
  rintro r u (⟨e, rfl, rfl⟩ | ⟨slot, hslot, -, rfl, rfl⟩)
  · exact owes_childFailure hpipe rfl
  · rw [if_neg hne]
    rw [hslot] at hQ
    exact hQ (by simp)

/-- `F_DUPFD_CLOEXEC` takes a free descriptor that the table has. -/
theorem owes_dupfd {source least : Nat} {Q : Nat → Nat → Child → Prop} (hpipe : Piped pipe g v)
    (hcalm : v.failed = none)
    (hQ : ∀ slot fd, v.table source = some slot → least ≤ fd → fd < plan.descriptorLimit →
      v.table fd = none → Q fd g (v.set fd (some { slot with cloexec := true }))) :
    owes plan pipe w (askChild (.dupfd source least)) (fun r g' u => owes plan pipe w (must r) Q g' u)
      g v := by
  refine wp_sys.2 ⟨hcalm, ?_⟩
  rintro r u (⟨e, rfl, rfl⟩ | ⟨slot, fd, hslot, hleast, hlimit, hfree, -, rfl, rfl⟩)
  · exact owes_childFailure hpipe rfl
  · exact hQ slot fd hslot hleast hlimit hfree

theorem owes_resetSignals (signals : List Nat) {Q : Unit → Nat → Child → Prop} (hpipe : Piped pipe g v)
    (hcalm : v.failed = none) (hQ : Q () g v) : owes plan pipe w (each resetSignal signals) Q g v := by
  refine (wp_each (fun _ g' u => g' = g ∧ u = v) ?_ ⟨rfl, rfl⟩).post ?_ (fun _ _ _ => id)
  · rintro signal _ g' u ⟨rfl, rfl⟩
    rw [resetSignal]
    split
    · exact ⟨rfl, rfl⟩
    · refine wp_bind.2 (wp_sys.2 ⟨hcalm, ?_⟩)
      rintro r u' (⟨rfl, rfl⟩ | ⟨hr, ⟨rfl, rfl⟩ | ⟨e, rfl, rfl⟩⟩)
      · exact ⟨rfl, rfl⟩
      · exact ⟨rfl, rfl⟩
      · have he : e ≠ EINVAL := fun he => hr (by rw [he])
        show owes plan pipe w (if e ≠ EINVAL then childFailure e else pure ()) _ _ _
        rw [if_pos he]
        exact owes_childFailure hpipe rfl
  · rintro _ g' u ⟨rfl, rfl⟩
    exact hQ

/-! ### The sockets -/

/-- What was open is as it was. -/
def Extends (w v : Child) : Prop := ∀ fd, w.table fd ≠ none → v.table fd = w.table fd

theorem Extends.set {u : Child} {fd : Nat} {slot : Option Slot} (h : Extends u v) (hfree : v.table fd = none) :
    Extends u (v.set fd slot) := by
  intro other hother
  have hsame := h other hother
  refine (Child.set_other ?_).trans hsame
  rintro rfl
  exact hother (hsame.symm.trans hfree)

/-- Every descriptor is one that the table has. -/
def Within (limit : Nat) (v : Child) : Prop := ∀ fd : Nat, v.table fd ≠ none → fd < limit

theorem Within.set {fd : Nat} {slot : Option Slot} (h : Within limit v) (hfd : fd < limit) :
    Within limit (v.set fd slot) := by
  intro other hother
  by_cases heq : other = fd
  · exact heq ▸ hfd
  · exact h other (by rwa [Child.set_other heq] at hother)

/-- A copy of the socket that is out of the way. -/
def Staged (u : Child) (least : Nat) (v : Child) (source fd : Nat) : Prop :=
  least ≤ fd ∧ v.table fd ≠ none ∧ inherited (v.table fd) = inherited (u.table source)

theorem Staged.set {u : Child} {least source fd other : Nat} {slot : Option Slot} (h : Staged u least v source fd)
    (hne : fd ≠ other) : Staged u least (v.set other slot) source fd := by
  unfold Staged
  rwa [Child.set_other hne]

theorem owes_stageSources {u : Child} {least : Nat} {done sources staging : List Nat}
    {Q : List Nat → Nat → Child → Prop} (hpipe : Piped pipe g v) (hcalm : v.failed = none)
    (hext : Extends u v) (hin : Within plan.descriptorLimit v)
    (hopen : ∀ source ∈ sources, u.table source ≠ none)
    (hdone : List.Forall₂ (Staged u least v) done staging)
    (hQ : ∀ staging' v', v'.failed = none → Piped pipe g v' → Extends u v' → Extends v v' →
      Within plan.descriptorLimit v' →
      List.Forall₂ (Staged u least v') (done ++ sources) staging' → Q staging' g v') :
    owes plan pipe w (stageSources least sources staging) Q g v := by
  induction sources generalizing done staging v with
  | nil =>
      rw [List.append_nil] at hQ
      exact hQ staging v hcalm hpipe hext (fun _ _ => rfl) hin hdone
  | cons source sources ih =>
      rw [stageSources]
      simp only [wp_bind]
      refine owes_dupfd hpipe hcalm ?_
      intro slot fd hslot hleast hlimit hfree
      have hne : ∀ other, v.table other ≠ none → other ≠ fd := by
        rintro other hother rfl
        exact hother hfree
      have hsource : v.table source = u.table source := hext source (hopen source (.head _))
      obtain ⟨cloexec, hg⟩ := hpipe
      have hpipe' : Piped pipe g (v.set fd (some { slot with cloexec := true })) :=
        Piped.set ⟨cloexec, hg⟩ (hne g (by simp [hg]))
      have hdone' : List.Forall₂ (Staged u least (v.set fd (some { slot with cloexec := true })))
          (done ++ [source]) (staging ++ [fd]) := by
        refine List.rel_append (hdone.imp fun a b hab => hab.set (hne b hab.2.1)) ?_
        refine List.Forall₂.cons ⟨hleast, by simp, ?_⟩ .nil
        rw [Child.set_self, ← hsource, hslot]
        rfl
      refine ih hpipe' hcalm (hext.set hfree) (hin.set hlimit) (fun s hs => hopen s (.tail _ hs)) hdone' ?_
      intro staging' v' hcalm' hp hext' hsub hin' hstaged
      refine hQ staging' v' hcalm' hp hext' ?_ hin' (by rwa [List.append_assoc] at hstaged)
      intro other hother
      have hset : (v.set fd (some { slot with cloexec := true })).table other = v.table other :=
        Child.set_other (hne other hother)
      rw [← hset]
      exact hsub other (by rwa [hset])

theorem owes_placeSockets {least target : Nat} {staging : List Nat} {Q : Unit → Nat → Child → Prop}
    (hpipe : Piped pipe g v) (hcalm : v.failed = none) (hg : least ≤ g)
    (hstaged : ∀ fd ∈ staging, least ≤ fd) (hroom : target + staging.length ≤ least)
    (hQ : ∀ v', v'.failed = none → Piped pipe g v' →
      (∀ fd, fd < target ∨ target + staging.length ≤ fd → v'.table fd = v.table fd) →
      (∀ i fd, staging[i]? = some fd → v'.table (target + i) = inherited (v.table fd)) → Q () g v') :
    owes plan pipe w (placeSockets target staging) Q g v := by
  induction staging generalizing target v with
  | nil => exact hQ v hcalm hpipe (fun _ _ => rfl) (fun i fd h => by simp at h)
  | cons fd staging ih =>
      rw [placeSockets]
      simp only [wp_bind]
      rw [List.length_cons] at hroom
      have hfd : least ≤ fd := hstaged fd (.head _)
      refine owes_dup2 hpipe hcalm (by omega) ?_
      intro _
      refine ih (hpipe.set (by omega)) hcalm (fun x hx => hstaged x (.tail _ hx)) (by omega) ?_
      intro v' hcalm' hp hsame hplaced
      refine hQ v' hcalm' hp ?_ ?_
      · intro other hother
        rw [List.length_cons] at hother
        rw [hsame other (by omega)]
        exact Child.set_other (by omega)
      · intro i x hx
        obtain _ | i := i
        · cases hx
          rw [Nat.add_zero, hsame target (by omega)]
          exact Child.set_self ..
        · rw [List.getElem?_cons_succ] at hx
          have hle : least ≤ x := hstaged x (.tail _ (List.mem_of_getElem? hx))
          have hplace := hplaced i x hx
          rw [Child.set_other (by omega)] at hplace
          rwa [Nat.add_assoc, Nat.add_comm 1 i] at hplace

/-! ### Assembly -/

/-- The table once the three files are in their places. -/
structure Standard (plan : Plan) (w v : Child) : Prop where
  calm : v.failed = none
  input : v.table 0 = inherited (w.table plan.input)
  output : v.table 1 = inherited (w.table plan.output)
  error : v.table 2 = inherited (w.table plan.error)
  above : ∀ fd : Nat, 3 ≤ fd → v.table fd = w.table fd

/-- The table once the sockets are in theirs too, with the pipe at `g`. -/
structure Passed (plan : Plan) (pipe : Nat) (w : Child) (g : Nat) (v : Child) : Prop where
  calm : v.failed = none
  input : v.table 0 = inherited (w.table plan.input)
  output : v.table 1 = inherited (w.table plan.output)
  error : v.table 2 = inherited (w.table plan.error)
  listeners : ∀ (i : Nat) listener, plan.listeners[i]? = some listener →
    v.table (3 + i) = inherited (w.table listener.fd)
  clear : 3 + plan.listeners.length ≤ g
  pipe : v.table g = some ⟨pipe, true⟩
  within : Within plan.descriptorLimit v

theorem Passed.piped (h : Passed plan pipe w g v) : Piped pipe g v := ⟨true, h.pipe⟩

theorem owes_passSockets {Q : Unit → Nat → Child → Prop} (hw : Prepared plan pipe w)
    (hv : Standard plan w v) (hQ : ∀ g' v', Passed plan pipe w g' v' → Q () g' v') :
    owes plan pipe w (passSockets (plan.listeners.map (·.fd))) Q plan.writer v := by
  have hwriter : v.table plan.writer = some ⟨pipe, true⟩ :=
    (hv.above _ hw.writer.1).trans hw.writer.2
  have hin : Within plan.descriptorLimit v := by
    intro fd hfd
    by_cases hlow : 3 ≤ fd
    · exact hw.limit fd (by rwa [hv.above fd hlow] at hfd)
    · have hlt : plan.writer < plan.descriptorLimit := hw.limit plan.writer (by simp [hw.writer.2])
      exact lt_trans (lt_of_lt_of_le (not_le.1 hlow) hw.writer.1) hlt
  rw [passSockets]
  split
  · next hnil =>
      have hnone : plan.listeners = [] := List.map_eq_nil_iff.1 hnil
      refine hQ _ _ ⟨hv.calm, hv.input, hv.output, hv.error, ?_, ?_, hwriter, hin⟩
      · simp [hnone]
      · rw [hnone]
        exact hw.writer.1
  · simp only [wp_bind, wp_get, wp_modify]
    rw [List.length_map]
    refine owes_dupfd ⟨true, hwriter⟩ hv.calm ?_
    intro slot g' hslot hleast hlimit hfree
    rw [hwriter] at hslot
    cases hslot
    set v1 := v.set g' (some ⟨pipe, true⟩) with hv1
    have hext : Extends v v1 := Extends.set (fun _ _ => rfl) hfree
    have hpipe1 : v1.table g' = some ⟨pipe, true⟩ := Child.set_self ..
    have hopen : ∀ source ∈ plan.listeners.map (·.fd), v.table source ≠ none := by
      intro source hsource
      obtain ⟨listener, hl, rfl⟩ := List.mem_map.1 hsource
      rw [hv.above _ (hw.listeners listener hl).1]
      exact (hw.listeners listener hl).2
    have hnone : List.Forall₂ (Staged v (3 + plan.listeners.length) v1) [] [] := .nil
    refine owes_stageSources ⟨true, hpipe1⟩ hv.calm hext (hin.set hlimit) hopen hnone ?_
    intro staging v2 hcalm2 hp2 hext2 hsub2 hin2 hstaged
    rw [List.nil_append] at hstaged
    have hlen : staging.length = plan.listeners.length := by
      rw [← hstaged.length_eq, List.length_map]
    have hpipe2 : v2.table g' = some ⟨pipe, true⟩ := by
      rw [hsub2 g' (by simp [hpipe1]), hpipe1]
    have hclear : ∀ fd ∈ staging, 3 + plan.listeners.length ≤ fd := by
      intro fd hfd
      obtain ⟨i, rfl⟩ := List.mem_iff_get.1 hfd
      exact (hstaged.get (by rw [hstaged.length_eq]; exact i.2) i.2).1
    refine owes_placeSockets ⟨true, hpipe2⟩ hcalm2 hleast hclear (by omega) ?_
    intro v3 hcalm3 _ hsame hplaced
    -- the three files lie below the targets, the pipe above them
    have hlow : ∀ fd : Nat, fd < 3 → v.table fd ≠ none → v3.table fd = v.table fd := by
      intro fd hfd hne
      rw [hsame fd (.inl hfd), hext2 fd hne]
    have hpipe3 : v3.table g' = some ⟨pipe, true⟩ := (hsame g' (.inr (by omega))).trans hpipe2
    refine hQ _ _ ⟨hcalm3, ?_, ?_, ?_, ?_, hleast, hpipe3, ?_⟩
    · rw [hlow 0 (by omega) (by rw [hv.input]; exact inherited_ne_none hw.input.2), hv.input]
    · rw [hlow 1 (by omega) (by rw [hv.output]; exact inherited_ne_none hw.output.2), hv.output]
    · rw [hlow 2 (by omega) (by rw [hv.error]; exact inherited_ne_none hw.error.2), hv.error]
    · intro i listener hi
      have hlt : i < plan.listeners.length := (List.getElem?_eq_some_iff.1 hi).1
      have hlts : i < staging.length := hlen ▸ hlt
      have hsource : (plan.listeners.map (·.fd)).get ⟨i, by simpa using hlt⟩ = listener.fd := by
        simp [(List.getElem?_eq_some_iff.1 hi).2]
      have hget := hstaged.get (by simpa using hlt) hlts
      rw [hplaced i (staging.get ⟨i, hlts⟩) (by simp [hlts]), hget.2.2, hsource,
        hv.above _ (hw.listeners listener (List.mem_of_getElem? hi)).1]
    · intro fd hfd
      by_cases hbelow : 3 + staging.length ≤ fd
      · exact hin2 fd (by rwa [hsame fd (.inr hbelow)] at hfd)
      · exact lt_trans (by omega) (lt_of_le_of_lt hleast hlimit)

theorem owes_closeOthers {start count : Nat} {Q : Unit → Nat → Child → Prop} (hcalm : v.failed = none)
    (hQ : ∀ v', v'.failed = none → (∀ fd : Nat, start ≤ fd → fd < start + count → fd ≠ g → v'.table fd = none) →
      (∀ fd : Nat, fd < start ∨ start + count ≤ fd ∨ fd = g → v'.table fd = v.table fd) → Q () g v') :
    owes plan pipe w (each closeOther (List.range' start count)) Q g v := by
  induction count generalizing start v with
  | zero =>
      refine hQ v hcalm ?_ (fun _ _ => rfl)
      intro fd hle hlt
      omega
  | succ count ih =>
      rw [List.range'_succ, each]
      simp only [wp_bind]
      refine wp_bind.2 (wp_get.2 ?_)
      by_cases hne : start = g
      · subst hne
        simp only [ne_eq, not_true_eq_false, if_false]
        refine ih hcalm ?_
        intro v' hcalm' hclosed hsame
        refine hQ v' hcalm' ?_ ?_
        · intro fd hle hlt hfd
          exact hclosed fd (by omega) (by omega) hfd
        · intro fd hfd
          exact hsame fd (by omega)
      · simp only [ne_eq, hne, not_false_eq_true, if_true]
        refine wp_bind.2 (wp_sys.2 ⟨hcalm, ?_⟩)
        rintro r u rfl
        refine ih hcalm ?_
        intro v' hcalm' hclosed hsame
        refine hQ v' hcalm' ?_ ?_
        · intro fd hle hlt hfd
          by_cases heq : fd = start
          · rw [hsame fd (by omega), heq, Child.set_self]
          · exact hclosed fd (by omega) (by omega) hfd
        · intro fd hfd
          rw [hsame fd (by omega)]
          exact Child.set_other (by omega)

theorem owes_changeDirectory {directory : Bytes} {Q : Unit → Nat → Child → Prop} (hpipe : Piped pipe g v)
    (hcalm : v.failed = none) (hQ : Q () g v) : owes plan pipe w (changeDirectory directory) Q g v := by
  rw [changeDirectory]
  split
  · exact hQ
  · refine wp_bind.2 (wp_sys.2 ⟨hcalm, ?_⟩)
    exact fun r u hr => owes_plain hpipe hr hQ

theorem owes_changeIdentity {config : Config} {Q : Unit → Nat → Child → Prop} (hpipe : Piped pipe g v)
    (hcalm : v.failed = none) (hQ : Q () g v) : owes plan pipe w (changeIdentity config) Q g v := by
  rw [changeIdentity]
  split
  · exact hQ
  · simp only [wp_bind]
    refine wp_sys.2 ⟨hcalm, fun r u hr => owes_plain hpipe hr ?_⟩
    refine wp_sys.2 ⟨hcalm, fun r u hr => owes_plain hpipe hr ?_⟩
    exact wp_sys.2 ⟨hcalm, fun r u hr => owes_plain hpipe hr hQ⟩

theorem Passed.ready (h : Passed plan pipe w g v) {u : Child}
    (hclosed : ∀ fd : Nat, 3 + plan.listeners.length ≤ fd → fd ≠ g → u.table fd = none)
    (hsame : ∀ fd : Nat, fd < 3 + plan.listeners.length ∨ fd = g → u.table fd = v.table fd) :
    Ready plan pipe w u where
  input := (hsame 0 (.inl (by omega))).trans h.input
  output := (hsame 1 (.inl (by omega))).trans h.output
  error := (hsame 2 (.inl (by omega))).trans h.error
  listeners i listener hi := by
    have hlt : i < plan.listeners.length := (List.getElem?_eq_some_iff.1 hi).1
    exact (hsame (3 + i) (.inl (by omega))).trans (h.listeners i listener hi)
  only := ⟨g, h.clear, (hsame g (.inr rfl)).trans h.pipe, hclosed⟩

theorem ne_of_three_le {fd target : Nat} (h : 3 ≤ fd) (ht : target < 3) : fd ≠ target := by omega

/-- The three files are put in their places. -/
theorem owes_standard {Q : Unit → Nat → Child → Prop} (hw : Prepared plan pipe w)
    (hQ : ∀ v, Standard plan w v → Q () plan.writer v) :
    owes plan pipe w (do
      must (← askChild (.dup2 plan.input 0))
      must (← askChild (.dup2 plan.output 1))
      must (← askChild (.dup2 plan.error 2))) Q plan.writer w := by
  have hpipe : Piped pipe plan.writer w := ⟨true, hw.writer.2⟩
  have hne : ∀ {fd target : Nat}, 3 ≤ fd → target < 3 → fd ≠ target := ne_of_three_le
  simp only [wp_bind]
  refine owes_dup2 hpipe hw.calm (hne hw.input.1 (by decide)) fun _ => ?_
  have hpipe0 : Piped pipe plan.writer (w.set 0 (inherited (w.table plan.input))) :=
    hpipe.set (hne hw.writer.1 (by decide))
  refine owes_dup2 hpipe0 hw.calm (hne hw.output.1 (by decide)) fun _ => ?_
  rw [Child.set_other (hne hw.output.1 (by decide))]
  refine owes_dup2 (hpipe0.set (hne hw.writer.1 (by decide))) hw.calm (hne hw.error.1 (by decide)) fun _ => ?_
  rw [Child.set_other (hne hw.error.1 (by decide)), Child.set_other (hne hw.error.1 (by decide))]
  refine hQ _ ⟨hw.calm, ?_, ?_, ?_, ?_⟩
  · rw [Child.set_other (by decide), Child.set_other (by decide), Child.set_self]
  · rw [Child.set_other (by decide), Child.set_self]
  · rw [Child.set_self]
  · intro fd hfd
    rw [Child.set_other (by omega), Child.set_other (by omega), Child.set_other (by omega)]

theorem owes_child (hw : Prepared plan pipe w) :
    owes plan pipe w (child plan) (fun _ _ _ => False) plan.writer w := by
  have hpipe : Piped pipe plan.writer w := ⟨true, hw.writer.2⟩
  have hstandard := @owes_standard plan pipe w
  rw [child]
  simp only [wp_bind] at hstandard ⊢
  refine wp_sys.2 ⟨hw.calm, fun r u hr => owes_plain hpipe hr ?_⟩
  refine wp_sys.2 ⟨hw.calm, fun r u hr => owes_plain hpipe hr ?_⟩
  refine owes_resetSignals _ hpipe hw.calm ?_
  refine hstandard hw fun v hv => ?_
  refine owes_passSockets hw hv fun g v hpassed => ?_
  refine owes_changeDirectory hpassed.piped hpassed.calm ?_
  refine owes_changeIdentity hpassed.piped hpassed.calm ?_
  refine owes_closeOthers hpassed.calm fun u hcalm hclosed hsame => ?_
  have hlimit : g < plan.descriptorLimit := hpassed.within g (by simp [hpassed.pipe])
  have hready : Ready plan pipe w u := by
    refine hpassed.ready ?_ ?_
    · intro fd hle hne
      by_cases hlt : fd < plan.descriptorLimit
      · exact hclosed fd hle (by have := hpassed.clear; omega) hne
      · rw [hsame fd (.inr (.inl (by have := hpassed.clear; omega)))]
        by_contra hopen
        exact hlt (hpassed.within fd hopen)
    · intro fd hfd
      exact hsame fd (hfd.imp_right .inr)
  refine wp_sys.2 ⟨⟨hcalm, hready, rfl, rfl, rfl⟩, ?_⟩
  rintro e u' rfl
  exact owes_childFailure (v := { u with failed := some e })
    ⟨true, (hsame g (.inr (.inr rfl))).trans hpassed.pipe⟩ rfl

/-! ### The value of the variable -/

/-- `name=descriptor` -/
def socketEntry (listener : Listener) (i : Nat) : Bytes := listener.name ++ ascii "=" ++ decimal (3 + i)

theorem intercalate_cons (separator x : Bytes) (l : List Bytes) :
    separator.intercalate (x :: l) = x ++ (l.map (separator ++ ·)).flatten := by
  induction l generalizing x with
  | nil => simp [List.intercalate]
  | cons y l ih =>
      have hstep : separator.intercalate (x :: y :: l) = x ++ separator ++ separator.intercalate (y :: l) := by
        simp [List.intercalate, List.intersperse]
      rw [hstep, ih, List.map_cons, List.flatten_cons, List.append_assoc, List.append_assoc]

theorem socketNames_succ (i : Nat) (listeners : List Listener) (names : Bytes) :
    socketNames (i + 1) listeners names = names ++
      (((listeners.zipIdx (i + 1)).map fun x => socketEntry x.1 x.2).map (ascii " " ++ ·)).flatten := by
  induction listeners generalizing i names with
  | nil => simp [socketNames]
  | cons listener listeners ih =>
      rw [socketNames, ih, if_pos (Nat.succ_ne_zero i), List.zipIdx_cons, List.map_cons, List.map_cons,
        List.flatten_cons]
      simp only [socketEntry, List.append_assoc]

/-- The sockets in their order, each with its descriptor. -/
theorem socketNames_eq (listeners : List Listener) :
    socketNames 0 listeners [] =
      (ascii " ").intercalate (listeners.zipIdx.map fun x => socketEntry x.1 x.2) := by
  cases listeners with
  | nil => rfl
  | cons listener listeners =>
      rw [socketNames, socketNames_succ, List.zipIdx_cons, List.map_cons, intercalate_cons]
      rfl

/-- A job without sockets has no such variable, whatever its property list says. -/
theorem environmentOf_sockets (config : Config) (listeners : List Listener) :
    (environmentOf config listeners)[socketsVariable]? =
      if listeners = [] then none
      else some ((ascii " ").intercalate (listeners.zipIdx.map fun x => socketEntry x.1 x.2)) := by
  rw [environmentOf]
  by_cases h : listeners = []
  · simp [h]
  · simp [h, socketNames_eq]

/-! ### The descriptors of a job -/

theorem plain.failed {r : Except Nat Unit} (hr : plain w r v) : ∀ e, r = .error e → v.failed = some e := by
  rintro e rfl
  obtain ⟨h, -⟩ | ⟨e', h, rfl⟩ := hr
  · cases h
  · cases h
    rfl

/-- A failure is on record when the call returns. -/
theorem failed_of_failure {o : Op} {r : o.Ans} {e : Nat} (hr : childSem limit o w r v)
    (he : failure o r = some e) : v.failed = some e := by
  cases o with
  | setpgid | sigprocmask | chdir path | setgroups groups | setgid gid | setuid uid =>
      obtain e' | _ := r
      · cases he
        exact hr.failed e rfl
      · cases he
  | sigaction signal =>
      obtain e' | _ := r
      · obtain ⟨h, -⟩ | ⟨hne, h⟩ := hr
        · cases h
          cases he
        · have hinval : e' ≠ EINVAL := fun heq => hne (by rw [heq])
          rw [failure, if_pos hinval] at he
          cases he
          exact h.failed e rfl
      · cases he
  | dup2 source target =>
      obtain e' | _ := r
      · cases he
        obtain ⟨e', h, rfl⟩ | ⟨_, -, -, h, -⟩ := hr
        · cases h
          rfl
        · cases h
      · cases he
  | dupfd source least =>
      obtain e' | _ := r
      · cases he
        obtain ⟨e', h, rfl⟩ | ⟨_, _, -, -, -, -, -, h, -⟩ := hr
        · cases h
          rfl
        · cases h
      · cases he
  | close fd =>
      cases he
  | execve program arguments environment =>
      cases he
      cases hr
      rfl
  | write fd data => cases he

/-! ### A child that does not fail -/

/-- The answers of calls that do not fail. -/
def unfailing (limit : Nat) : Sem childCalls Child := fun o v r v' => childSem limit o v r v' ∧ failure o r = none

/-- If no call fails the program comes to `execve ()`, however they are answered. -/
def Starts {α : Type} (limit : Nat) : Prog childCalls α → Child → Prop
  | .ret _, _ => False
  | .call (.execve _ _ _) _, _ => True
  | .call o k, v => ∀ r v', unfailing limit o v r v' → Starts limit (k r) v'

theorem starts_bind {α β : Type} {p : Prog childCalls α} {f : α → Prog childCalls β}
    (h : p.Spec (unfailing limit) (fun _ _ => True) (fun a v => Starts limit (f a) v) v) : Starts limit (p.bind f) v := by
  induction p generalizing v with
  | ret a => exact h
  | call o k ih =>
      cases o with
      | execve => trivial
      | _ => exact fun r v' hr => ih r (h.2 r v' hr)

/-- A function of the child that returns if no call fails. -/
def Passes {α : Type} (limit : Nat) (m : C α) : Prop :=
  ∀ g v, wp (unfailing limit) (fun _ _ => True) m (fun _ _ _ => True) (fun _ _ _ => False) g v

namespace Passes

variable {α β : Type}

theorem pure {a : α} : Passes limit (pure a : C α) := fun _ _ => trivial

theorem bind {m : C α} {f : α → C β} (h : Passes limit m) (hf : ∀ a, Passes limit (f a)) : Passes limit (m >>= f) :=
  fun g v => wp_bind.2 ((h g v).post (fun a g' v' _ => hf a g' v') fun _ _ _ => id)

theorem get : Passes limit (get : C Fd) := fun _ _ => wp_get.2 trivial

theorem modify {f : Fd → Fd} : Passes limit (modify f : C Unit) := fun _ _ => wp_modify.2 trivial

theorem ite {p : Prop} [Decidable p] {m m' : C α} (h : Passes limit m) (h' : Passes limit m') :
    Passes limit (if p then m else m') := by
  split
  · exact h
  · exact h'

theorem each {γ : Type} {f : γ → C Unit} (h : ∀ x, Passes limit (f x)) (l : List γ) : Passes limit (each f l) := by
  induction l with
  | nil => exact .pure
  | cons x l ih => exact .bind (h x) fun _ => ih

/-- What is done with the answer of a call that did not fail. -/
theorem ask {o : Op} {f : o.Ans → C α} (h : ∀ r, failure o r = none → Passes limit (f r)) :
    Passes limit (askChild o >>= f) := fun g _ => wp_bind.2 (wp_sys.2 ⟨trivial, fun r v' hr => h r hr.2 g v'⟩)

theorem must {r : Except Nat α} (h : ∀ e, r ≠ .error e) : Passes limit (must r) := by
  cases r with
  | ok a => exact .pure
  | error e => exact absurd rfl (h e)

end Passes

/-- An answer that is no failure. -/
theorem ne_error {α : Type} {r : Except Nat α} {f : Except Nat α → Option Nat} (hf : ∀ e, f (.error e) = some e)
    (h : f r = none) : ∀ e, r ≠ .error e := by
  rintro e rfl
  rw [hf] at h
  cases h

theorem passes_resetSignal (signal : Nat) : Passes limit (resetSignal signal) := by
  refine .ite .pure (.ask fun r hr => ?_)
  cases r with
  | ok a => exact .pure
  | error e =>
      have he : ¬ e ≠ EINVAL := by simpa [failure] using hr
      show Passes limit (if e ≠ EINVAL then childFailure e else Pure.pure ())
      rw [if_neg he]
      exact .pure

theorem passes_stageSources (least : Fd) (sources staging : List Fd) :
    Passes limit (stageSources least sources staging) := by
  induction sources generalizing staging with
  | nil => exact .pure
  | cons source sources ih =>
      exact .ask fun r hr => .bind (.must (ne_error (fun _ => rfl) hr)) fun fd => ih _

theorem passes_placeSockets (target : Fd) (staging : List Fd) : Passes limit (placeSockets target staging) := by
  induction staging generalizing target with
  | nil => exact .pure
  | cons fd staging ih => exact .ask fun r hr => .bind (.must (ne_error (fun _ => rfl) hr)) fun _ => ih _

theorem passes_passSockets (sources : List Fd) : Passes limit (passSockets sources) := by
  refine .ite .pure (.bind .get fun pipeFd => .ask fun r hr => .bind (.must (ne_error (fun _ => rfl) hr)) fun moved => ?_)
  exact .bind .modify fun _ => .bind (passes_stageSources _ _ _) fun staging => passes_placeSockets _ _

theorem passes_changeDirectory (directory : Bytes) : Passes limit (changeDirectory directory) :=
  .ite .pure (.ask fun _ hr => .must (ne_error (fun _ => rfl) hr))

theorem passes_changeIdentity (config : Config) : Passes limit (changeIdentity config) := by
  unfold changeIdentity
  split
  · exact .pure
  · refine .ask fun _ hr => .bind (.must (ne_error (fun _ => rfl) hr)) fun _ => ?_
    refine .ask fun _ hr => .bind (.must (ne_error (fun _ => rfl) hr)) fun _ => ?_
    exact .ask fun _ hr => .must (ne_error (fun _ => rfl) hr)

theorem passes_closeOther (fd : Fd) : Passes limit (closeOther fd) :=
  .bind .get fun _ => .ite (.ask fun _ _ => .pure) .pure

/-- What comes after a function that returns. -/
theorem Passes.starts {α β : Type} {m : C α} {f : α → C β} (h : Passes limit m)
    (hf : ∀ a g v, Starts limit (f a g) v) : Starts limit ((m >>= f) g) v := by
  refine starts_bind (Prog.Spec.mono (h g v) (fun _ _ => id) ?_)
  rintro ⟨e | a, g'⟩ v' h
  · exact h.elim
  · exact hf a g' v'

theorem starts_ask {β : Type} {o : Op} {f : o.Ans → C β} (h : ∀ r v, failure o r = none → Starts limit (f r g) v) :
    Starts limit ((askChild o >>= f) g) v := by
  cases o with
  | execve => trivial
  | _ => exact fun r v' hr => h r v' hr.2

/-- `execve ()` is the only call after which there is nothing left to do. -/
theorem starts_child : Starts limit (child plan g) v := by
  rw [child]
  refine starts_ask fun _ _ hr => Passes.starts (.must (ne_error (fun _ => rfl) hr)) fun _ _ _ => ?_
  refine starts_ask fun _ _ hr => Passes.starts (.must (ne_error (fun _ => rfl) hr)) fun _ _ _ => ?_
  refine Passes.starts (.each passes_resetSignal _) fun _ _ _ => ?_
  refine starts_ask fun _ _ hr => Passes.starts (.must (ne_error (fun _ => rfl) hr)) fun _ _ _ => ?_
  refine starts_ask fun _ _ hr => Passes.starts (.must (ne_error (fun _ => rfl) hr)) fun _ _ _ => ?_
  refine starts_ask fun _ _ hr => Passes.starts (.must (ne_error (fun _ => rfl) hr)) fun _ _ _ => ?_
  refine Passes.starts (passes_passSockets _) fun _ _ _ => ?_
  refine Passes.starts (passes_changeDirectory _) fun _ _ _ => ?_
  refine Passes.starts (passes_changeIdentity _) fun _ _ _ => ?_
  exact Passes.starts (.each passes_closeOther _) fun _ _ _ => trivial

/-- Whatever descriptors the supervisor has open besides, a new program starts with
its three files, its sockets in the order of the variable that names them, all
inheritable, and the error pipe, which closes itself; and a failure on the way
there is written to that pipe before the child does anything else. If no call
fails the program is started. The descriptors need not be distinct for this, nor
the sockets few. -/
theorem child_descriptors (hw : Prepared plan pipe w) :
    (∀ program arguments environment k v,
      Prog.Reach (childSem plan.descriptorLimit) (child plan plan.writer) w
        (.call (.execve program arguments environment) k) v →
      Ready plan pipe w v ∧ ∃ env : Map Bytes Bytes, environment = entriesOf env ∧
        env[socketsVariable]? = if plan.listeners = [] then none
          else some ((ascii " ").intercalate (plan.listeners.zipIdx.map fun x => socketEntry x.1 x.2))) ∧
      (∀ o k v r v' e, Prog.Reach (childSem plan.descriptorLimit) (child plan plan.writer) w (.call o k) v →
        childSem plan.descriptorLimit o v r v' → failure o r = some e →
        ∃ fd k', k r = .call (.write fd (intBytes e)) k' ∧ Piped pipe fd v') ∧
      Starts plan.descriptorLimit (child plan plan.writer) w := by
  have hspec := owes_child hw
  refine ⟨?_, ?_, starts_child⟩
  · intro program arguments environment k v hreach
    obtain ⟨-, hready, -, -, henv⟩ := (hspec.reach hreach).1
    exact ⟨hready, _, henv, environmentOf_sockets plan.config plan.listeners⟩
  · intro o k v r v' e hreach hr he
    have hnext := (hspec.reach hreach).2 r v' hr
    have hfailed := failed_of_failure hr he
    generalize k r = p at hnext
    cases p with
    | ret a =>
        obtain ⟨_ | _, g'⟩ := a
        · exact absurd (hfailed.symm.trans hnext) (Option.some_ne_none e)
        · exact hnext.elim
    | call o' k' =>
        have hproper := hnext.1
        cases o' with
        | write fd data =>
            obtain ⟨hpipe, hdata⟩ := hproper
            rw [hdata e hfailed]
            exact ⟨fd, k', rfl, hpipe⟩
        | execve program arguments environment =>
            exact absurd (hfailed.symm.trans hproper.1) (Option.some_ne_none e)
        | _ => exact absurd (hfailed.symm.trans hproper) (Option.some_ne_none e)

/-! ### A run -/

/-- The answers of a process with `limit` descriptors where nothing else is missing. -/
def Op.answer (limit : Nat) : (o : Op) → Child → o.Ans × Child
  | .setpgid, v | .sigprocmask, v | .sigaction _, v | .chdir _, v | .setgroups _, v | .setgid _, v | .setuid _, v =>
      (.ok (), v)
  | .dup2 source target, v =>
      match v.table source with
      | some slot =>
          if target < limit then
            (.ok (), v.set target (some (if source = target then slot else { slot with cloexec := false })))
          else (.error EINVAL, { v with failed := some EINVAL })
      | none => (.error EINVAL, { v with failed := some EINVAL })
  | .dupfd source least, v =>
      match v.table source, (List.range' least (limit - least)).find? fun fd => v.table fd = none with
      | some slot, some fd => (.ok fd, v.set fd (some { slot with cloexec := true }))
      | _, _ => (.error EINVAL, { v with failed := some EINVAL })
  | .close fd, v => (.ok (), v.set fd none)
  | .execve _ _ _, v => (EINVAL, { v with failed := some EINVAL })
  | .write _ data, v => (.ok data.length, { v with failed := none })

theorem sem_answer (o : Op) (v : Child) : childSem limit o v (o.answer limit v).1 (o.answer limit v).2 := by
  cases o with
  | setpgid | sigprocmask | chdir path | setgroups groups | setgid gid | setuid uid => exact .inl ⟨rfl, rfl⟩
  | sigaction signal => exact .inr ⟨by simp [Op.answer], .inl ⟨rfl, rfl⟩⟩
  | dup2 source target =>
      simp only [Op.answer]
      split
      · next slot hslot =>
          split
          · next htarget => exact .inr ⟨slot, hslot, htarget, rfl, rfl⟩
          · exact .inl ⟨EINVAL, rfl, rfl⟩
      · exact .inl ⟨EINVAL, rfl, rfl⟩
  | dupfd source least =>
      simp only [Op.answer]
      split
      · next slot fd hslot hfind =>
          obtain ⟨hfree, i, hi, rfl, hbefore⟩ := List.find?_eq_some_iff_getElem.1 hfind
          have hroom : i < limit - least := by simpa using hi
          have hfd : (List.range' least (limit - least))[i] = least + i := by rw [List.getElem_range', Nat.one_mul]
          rw [hfd] at hfree ⊢
          refine .inr ⟨slot, least + i, hslot, Nat.le_add_right least i, Nat.add_lt_of_lt_sub' hroom, of_decide_eq_true hfree, ?_,
            rfl, rfl⟩
          intro (j : Nat) hle hlt
          obtain ⟨k, rfl⟩ := Nat.exists_eq_add_of_le hle
          have hk : k < i := Nat.lt_of_add_lt_add_left hlt
          simpa using hbefore k hk
      · exact .inl ⟨EINVAL, rfl, rfl⟩
  | close fd => rfl
  | execve program arguments environment => rfl
  | write fd data => exact ⟨fun n hn => (Except.ok.inj hn).ge, rfl⟩

/-- A job whose two sockets are where the other's is to be, the pipe where a third
would be, and one more descriptor open. -/
def crossed : Plan where
  config := { label := ascii "job", program := ascii "/bin/job", arguments := [ascii "/bin/job"] }
  listeners :=
    [{ path := ascii "/run/a", inode := 1, name := ascii "A", fd := 4 },
     { path := ascii "/run/b", inode := 2, name := ascii "B", fd := 3 }]
  input := 6
  output := 7
  error := 8
  writer := 5
  descriptorLimit := 16

def crossedChild : Child where
  table fd := if fd < 10 then some ⟨fd, true⟩ else none

/-- The run of the child up to `execve ()`. -/
def crossedRun : Prog childCalls (Except Unit Unit × Fd) × Child :=
  Prog.execFor (Op.answer 16) 49 (child crossed 5) crossedChild

/-- What a program is about to start, if it is. -/
def starting {α : Type} : Prog childCalls α → Option Bytes
  | .call (.execve program _ _) _ => some program
  | _ => none

theorem starting_eq_some {α : Type} {p : Prog childCalls α} {program : Bytes} (h : starting p = some program) :
    ∃ arguments environment k, p = .call (.execve program arguments environment) k := by
  unfold starting at h
  split at h
  · next program' arguments environment k =>
      obtain rfl := Option.some.inj h
      exact ⟨arguments, environment, k, rfl⟩
  · cases h

theorem child_descriptors_crossed :
    Starts 16 (child crossed 5) crossedChild ∧
      ∃ arguments environment k v, Prog.Reach (childSem 16) (child crossed 5) crossedChild
        (.call (.execve (ascii "/bin/job") arguments environment) k) v ∧ Ready crossed 5 crossedChild v ∧
        v.table 3 = some ⟨4, false⟩ ∧ v.table 4 = some ⟨3, false⟩ ∧ v.table 9 = none := by
  have hw : Prepared crossed 5 crossedChild := by
    refine ⟨by decide, by decide, by decide, by decide, by decide, rfl, ?_⟩
    intro fd hfd
    by_contra hge
    have hfd' : ¬ fd < 10 := fun hlt => hge (Nat.lt_trans hlt (by decide))
    exact hfd (if_neg hfd')
  obtain ⟨hready, -, hstarts⟩ := child_descriptors hw
  have hreach : Prog.Reach (childSem 16) (child crossed 5) crossedChild crossedRun.1 crossedRun.2 :=
    Prog.reach_execFor sem_answer 49 _ _
  have hstarting : starting crossedRun.1 = some (ascii "/bin/job") := by decide +kernel
  have htable : crossedRun.2.table 3 = some ⟨4, false⟩ ∧ crossedRun.2.table 4 = some ⟨3, false⟩ ∧
      crossedRun.2.table 9 = none := by decide +kernel
  obtain ⟨arguments, environment, k, hp⟩ := starting_eq_some hstarting
  rw [hp] at hreach
  exact ⟨hstarts, arguments, environment, k, _, hreach, (hready _ _ _ _ _ hreach).1, htable⟩

end MiniDarwin.Launchd.Spawn
