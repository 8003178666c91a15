import MiniDarwin.Launchd.Ownership

/-!
Events and the descriptors they are about.

`kevent ()` reports a descriptor number, and by the time the report is
handled the number may be another file's: a connection that has been
accepted in between, or a socket that has been bound. So the kernel is
given the memory of it that it has. Every descriptor it hands out is a file
of its own, a registration (`Knote`) is on a file, it goes when the
descriptor is closed, and it reports once. The kernel hands out any
descriptor that neither the control socket, nor a job, nor a connection
holds.
-/

namespace MiniDarwin.Launchd.Events

open Posix (Bytes)
open Effects Effects.Proc

/-- A registration: `EV_ADD | EV_ONESHOT`. -/
structure Knote where
  fd : Nat
  filter : Filter
  udata : Nat
  file : Nat
  deriving DecidableEq

structure Queue where
  /-- the file that a descriptor refers to -/
  files : Nat → Option Nat
  /-- how many files there have been -/
  made : Nat
  knotes : List Knote := []
  /-- the registrations that the last `kevent ()` has reported -/
  batch : List Knote := []
  /-- the descriptors that have been handed out and are not yet a job's or a connection's -/
  loose : List Nat := []

/-- The queue of a supervisor that has nothing but the control socket. -/
def Queue.start (env : Env) : Queue where
  files := Function.update (fun _ => none) env.control (some 0)
  made := 1

def Queue.give (q : Queue) (fd : Nat) : Queue :=
  { q with
    files := Function.update q.files fd (some q.made)
    made := q.made + 1
    loose := fd :: q.loose }

/-- The descriptors become a job's or a connection's. -/
def Queue.take (q : Queue) (fds : List Nat) : Queue :=
  { q with loose := q.loose.filter (· ∉ fds) }

def Queue.close (q : Queue) (fds : List Nat) : Queue :=
  { q with
    files := fun fd => if fd ∈ fds then none else q.files fd
    knotes := q.knotes.filter (·.fd ∉ fds) }

def Queue.register (q : Queue) (fd : Nat) (filter : Filter) (udata : Nat) : Queue :=
  match q.files fd with
  | none => q
  | some file =>
      let others := q.knotes.filter fun k => ¬ (k.fd = fd ∧ k.filter = filter)
      { q with knotes := ⟨fd, filter, udata, file⟩ :: others }

def Queue.deliver (q : Queue) (ks : List Knote) : Queue :=
  { q with knotes := q.knotes.filter (· ∉ ks), batch := ks }

/-! ### Calls -/

/-- The descriptors of a job's sockets. -/
def fdsOf (job : Job) : List Nat := job.listeners.map (·.fd)

/-- A job has a socket with the descriptor. -/
def Listens (w : World) (fd : Nat) : Prop :=
  ∃ (l : Label) (job : Job), w.sup.jobs[l]? = some job ∧ fd ∈ fdsOf job

/-- The descriptor is open and will not be handed out. -/
def Held (env : Env) (w : World) (fd : Nat) : Prop :=
  fd = env.control ∨ fd ∈ w.sup.clients ∨ Listens w fd

def isDescriptor : KEvent → Bool
  | .descriptor _ _ _ => true
  | _ => false

/-- The event reports the registration. -/
def Reports (event : KEvent) (k : Knote) : Prop := ∃ error, event = .descriptor k.fd error k.udata

/-- What becomes of the queue. -/
def heard (env : Env) : (o : Op) → World → Queue → o.Ans → Queue → Prop
  | .socket, w, q, .ok fd, q' => ¬ Held env w fd ∧ q' = q.give fd
  | .accept, w, q, .ok (fd, _), q' => ¬ Held env w fd ∧ q' = q.give fd
  | .addClient fd _, _, q, _, q' => q' = q.take [fd]
  | .emplace job, _, q, _, q' => q' = q.take (fdsOf job)
  | .dropClient fd, w, q, _, q' => q' = if fd ∈ w.sup.clients then q.close [fd] else q
  | .erase l, w, q, _, q' => q' = q.close ((w.sup.jobs[l]?).elim [] fdsOf)
  | .watch fd filter udata, _, q, .ok (), q' => q' = q.register fd filter udata
  -- every descriptor is reported at most once
  | .wait, _, q, .ok events, q' => ∃ ks, (∀ k ∈ ks, k ∈ q.knotes) ∧ (ks.map (·.fd)).Nodup ∧
      List.Forall₂ Reports (events.filter isDescriptor) ks ∧ q' = q.deliver ks
  | .wait, _, q, .error _, q' => q' = q.deliver []
  | _, _, q, _, q' => q' = q

/-- The calls of the supervisor, and what the kernel knows of its descriptors. -/
def queued (env : Env) : Sem calls (World × Queue) := fun o s r s' =>
  sem env o s.1 r s'.1 ∧ heard env o s.1 s.2 r s'.2

/-! ### Who an event is for -/

/-- `service ()` is called for the connection. -/
def Serviced (env : Env) (s : Supervisor) (fd udata : Nat) (client : Client) : Prop :=
  fd ≠ env.control ∧ ownersOf s.jobs fd = [] ∧ s.clients[fd]? = some client ∧
    client.generation = udata

/-- A registration of one of the job's own sockets has been reported. -/
def Prompted (s : World × Queue) (l : Label) : Prop :=
  ∃ job, s.1.sup.jobs[l]? = some job ∧ ∃ listener ∈ job.listeners, ∃ k ∈ s.2.batch,
    k.fd = listener.fd ∧ s.2.files listener.fd = some k.file

/-- The signals of a batch have been handled, and some of its events. -/
def handled (env : Env) (events before : List KEvent) : M Unit := do
  each (handleSignal env) events
  each (handleEvent env) before

/-! ### The invariant -/

/-- The registration is on the file that its descriptor still refers to. -/
def Current (env : Env) (s : World × Queue) (k : Knote) : Prop :=
  s.2.files k.fd = some k.file ∧
    (k.udata = 0 ∧ (k.fd = env.control ∨ Listens s.1 k.fd) ∨ k.fd ∈ s.1.sup.clients)

/-- `due` are the registrations whose reports are still to be handled. -/
structure Sound (env : Env) (due : List Knote) (s : World × Queue) : Prop where
  next : 1 ≤ s.1.sup.nextClient
  generations : ∀ (fd : Fd) (c : Client), s.1.sup.clients[fd]? = some c → 1 ≤ c.generation
  apart : ∀ fd : Nat, fd ∈ s.1.sup.clients → ¬ Listens s.1 fd
  loose : ∀ fd ∈ s.2.loose, ¬ Held env s.1 fd
  knotes : ∀ k ∈ s.2.knotes, Current env s k
  batch : ∀ k ∈ due, k ∈ s.2.batch ∧
    (Current env s k ∨ s.1.sup.shuttingDown = true ∧ k.udata = 0)

variable {env : Env} {due : List Knote} {w v : World} {q : Queue} {s s' : World × Queue} {fd : Nat}

theorem Current.held {k : Knote} (h : Current env s k) : Held env s.1 k.fd := by
  obtain ⟨-, ⟨-, hc | hl⟩ | hc⟩ := h
  · exact .inl hc
  · exact .inr (.inr hl)
  · exact .inr (.inl hc)

/-- Who holds what is as it was; shutdown may have begun. -/
structure SameOwners (w v : World) : Prop where
  listens : ∀ fd, Listens v fd ↔ Listens w fd
  generations : ∀ fd : Fd, (v.sup.clients[fd]?).map (·.generation) = (w.sup.clients[fd]?).map (·.generation)
  next : v.sup.nextClient = w.sup.nextClient
  down : w.sup.shuttingDown = true → v.sup.shuttingDown = true

theorem SameOwners.mem_clients (h : SameOwners w v) : (fd : Fd) ∈ v.sup.clients ↔ fd ∈ w.sup.clients := by
  rw [Std.ExtTreeMap.mem_iff_isSome_getElem?, Std.ExtTreeMap.mem_iff_isSome_getElem?,
    ← Option.isSome_map, h.generations fd, Option.isSome_map]

theorem SameOwners.held (h : SameOwners w v) : Held env v fd ↔ Held env w fd := by
  unfold Held
  rw [h.mem_clients, h.listens]

theorem SameOwners.current (h : SameOwners w v) {k : Knote} (hk : Current env (w, q) k) :
    Current env (v, q) k := by
  refine ⟨hk.1, hk.2.imp (fun hu => ⟨hu.1, hu.2.imp_right (h.listens k.fd).2⟩) fun hc => ?_⟩
  exact h.mem_clients.2 hc

theorem Sound.same (h : Sound env due (w, q)) (ho : SameOwners w v) : Sound env due (v, q) where
  next := ho.next ▸ h.next
  generations fd c hc := by
    have hgen := ho.generations fd
    rw [hc] at hgen
    obtain ⟨c', hc', heq⟩ := Option.map_eq_some_iff.1 hgen.symm
    have := h.generations fd c' hc'
    simp only at heq
    omega
  apart fd hfd hl := h.apart fd (ho.mem_clients.1 hfd) ((ho.listens fd).1 hl)
  loose fd hfd hheld := h.loose fd hfd (ho.held.1 hheld)
  knotes k hk := ho.current (h.knotes k hk)
  batch k hk := ⟨(h.batch k hk).1, (h.batch k hk).2.imp ho.current (And.imp_left ho.down)⟩

theorem SameOwners.of_sup (hsup : v.sup = w.sup) : SameOwners w v where
  listens fd := by
    unfold Listens
    rw [hsup]
  generations fd := by rw [hsup]
  next := by rw [hsup]
  down h := by rwa [hsup]

/-- A job that has changed has the listeners it had. -/
theorem SameOwners.of_insert {l : Label} {job job' : Job} (hj : w.sup.jobs[l]? = some job)
    (hl : job'.listeners = job.listeners)
    (hsup : v.sup = { w.sup with jobs := w.sup.jobs.insert l job' }) : SameOwners w v where
  listens fd := by
    have hfds : fdsOf job' = fdsOf job := by rw [fdsOf, fdsOf, hl]
    unfold Listens
    rw [hsup]
    constructor
    · rintro ⟨l', job'', hj', hfd⟩
      obtain ⟨rfl, rfl⟩ | ⟨-, hj'⟩ := mem_insert hj'
      · exact ⟨l', job, hj, hfds ▸ hfd⟩
      · exact ⟨l', job'', hj', hfd⟩
    · rintro ⟨l', job'', hj', hfd⟩
      by_cases heq : l' = l
      · subst heq
        obtain rfl : job = job'' := Option.some.inj (hj.symm.trans hj')
        exact ⟨l', job', by simp, hfds ▸ hfd⟩
      · exact ⟨l', job'', by simp [Std.ExtTreeMap.getElem?_insert, Ne.symm heq, hj'], hfd⟩
  generations fd := by rw [hsup]
  next := by rw [hsup]
  down h := by rwa [hsup]

theorem SameOwners.act {l : Label} {a : Act} {time : Time} {reads : List PipeRead} :
    SameOwners w (w.act env l a time reads) := by
  unfold World.act
  split
  · exact .of_sup rfl
  · next job hj => exact .of_insert hj (Act.apply_listeners a _ time reads job) rfl

theorem SameOwners.spawn {l : Label} {time : Time} {outcome : Result Forked} :
    SameOwners w (w.spawn l time outcome) := by
  unfold World.spawn
  split
  · exact .of_sup rfl
  · next job hj => exact .of_insert hj (by cases outcome <;> rfl) rfl

/-- A connection that has changed has the generation it had. -/
theorem SameOwners.setClient {fd : Fd} {f : Client → Client} (hf : ∀ c, (f c).generation = c.generation) :
    SameOwners w (w.setClient fd f) where
  listens _ := Iff.rfl
  generations other := by
    show ((w.sup.clients.modify fd f)[other]?).map _ = _
    rw [Std.ExtTreeMap.getElem?_modify]
    split
    · next heq =>
        obtain rfl : fd = other := by simpa using heq
        rw [Option.map_map]
        congr 1
        ext c
        rw [Function.comp_apply, hf]
    · rfl
  next := rfl
  down := id

/-! ### One call -/

theorem Sound.mono {due' : List Knote} (h : Sound env due s) (hsub : ∀ k ∈ due', k ∈ due) : Sound env due' s where
  next := h.next
  generations := h.generations
  apart := h.apart
  loose := h.loose
  knotes := h.knotes
  batch k hk := h.batch k (hsub k hk)

theorem Sound.give (h : Sound env due (w, q)) (hfd : ¬ Held env w fd) : Sound env due (w, q.give fd) := by
  have hcurrent : ∀ k, Current env (w, q) k → Current env (w, q.give fd) k := by
    intro k hk
    have hne : k.fd ≠ fd := by
      rintro rfl
      exact hfd hk.held
    exact ⟨(Function.update_of_ne hne ..).trans hk.1, hk.2⟩
  refine ⟨h.next, h.generations, h.apart, ?_, fun k hk => hcurrent k (h.knotes k hk), ?_⟩
  · intro other hother
    obtain rfl | hm := List.mem_cons.1 hother
    · exact hfd
    · exact h.loose other hm
  · intro k hk
    exact ⟨(h.batch k hk).1, (h.batch k hk).2.imp_left (hcurrent k)⟩

/-- Descriptors that were loose have become somebody's. -/
theorem Sound.take (h : Sound env due (w, q)) {fds : List Nat}
    (hdown : v.sup.shuttingDown = w.sup.shuttingDown) (hnext : w.sup.nextClient ≤ v.sup.nextClient)
    (hgen : ∀ (fd : Fd) (c : Client), v.sup.clients[fd]? = some c → 1 ≤ c.generation)
    (hclients : ∀ fd : Nat, fd ∈ w.sup.clients → fd ∈ v.sup.clients)
    (hlistens : ∀ fd : Nat, Listens w fd → Listens v fd)
    (hapart : ∀ fd : Nat, fd ∈ v.sup.clients → ¬ Listens v fd)
    (hheld : ∀ fd : Nat, Held env v fd → Held env w fd ∨ fd ∈ fds) : Sound env due (v, q.take fds) := by
  have hcurrent : ∀ k, Current env (w, q) k → Current env (v, q.take fds) k := by
    intro k hk
    exact ⟨hk.1, hk.2.imp (And.imp_right (Or.imp_right (hlistens k.fd))) (hclients k.fd)⟩
  refine ⟨h.next.trans hnext, hgen, hapart, ?_, fun k hk => hcurrent k (h.knotes k hk), ?_⟩
  · intro fd hfd hv
    obtain ⟨hm, hnot⟩ := List.mem_filter.1 hfd
    obtain hw | hin := hheld fd hv
    · exact h.loose fd hm hw
    · simp [hin] at hnot
  · intro k hk
    exact ⟨(h.batch k hk).1, (h.batch k hk).2.imp (hcurrent k) (And.imp_left (hdown.trans ·))⟩

/-- Descriptors have been closed. -/
theorem Sound.close (h : Sound env due (w, q)) {fds : List Nat}
    (hdown : v.sup.shuttingDown = w.sup.shuttingDown) (hnext : v.sup.nextClient = w.sup.nextClient)
    (hgen : ∀ (fd : Fd) (c : Client), v.sup.clients[fd]? = some c → 1 ≤ c.generation)
    (hclients : ∀ fd : Nat, fd ∉ fds → fd ∈ w.sup.clients → fd ∈ v.sup.clients)
    (hlistens : ∀ fd : Nat, fd ∉ fds → Listens w fd → Listens v fd)
    (hheld : ∀ fd : Nat, Held env v fd → Held env w fd)
    (hapart : ∀ fd : Nat, fd ∈ v.sup.clients → ¬ Listens v fd)
    (hdue : ∀ k ∈ due, k.fd ∈ fds → w.sup.shuttingDown = true ∧ k.udata = 0) :
    Sound env due (v, q.close fds) := by
  have hcurrent : ∀ k, k.fd ∉ fds → Current env (w, q) k → Current env (v, q.close fds) k := by
    intro k hnot hk
    exact ⟨(if_neg hnot).trans hk.1,
      hk.2.imp (And.imp_right (Or.imp_right (hlistens k.fd hnot))) (hclients k.fd hnot)⟩
  refine ⟨hnext ▸ h.next, hgen, hapart, fun fd hfd hv => h.loose fd hfd (hheld fd hv), ?_, ?_⟩
  · intro k hk
    obtain ⟨hm, hnot⟩ := List.mem_filter.1 hk
    exact hcurrent k (by simpa using hnot) (h.knotes k hm)
  · intro k hk
    refine ⟨(h.batch k hk).1, ?_⟩
    by_cases hin : k.fd ∈ fds
    · exact .inr ⟨hdown.trans (hdue k hk hin).1, (hdue k hk hin).2⟩
    · exact (h.batch k hk).2.imp (hcurrent k hin) (And.imp_left (hdown.trans ·))

theorem Sound.register (h : Sound env due (w, q)) {filter : Filter} {udata : Nat}
    (hfd : udata = 0 ∧ (fd = env.control ∨ Listens w fd) ∨ fd ∈ w.sup.clients) :
    Sound env due (w, q.register fd filter udata) := by
  unfold Queue.register
  split
  · exact h
  · next file hfile =>
      refine ⟨h.next, h.generations, h.apart, h.loose, ?_, h.batch⟩
      intro k hk
      obtain rfl | hm := List.mem_cons.1 hk
      · exact ⟨hfile, hfd⟩
      · exact h.knotes k (List.mem_of_mem_filter hm)

theorem Sound.addClient (h : Sound env due (w, q)) {deadline : Time} (hfd : fd ∈ q.loose)
    (hsup : v.sup = { w.sup with
      clients := w.sup.clients.insertIfNew (fd : Fd) { deadline, generation := w.sup.nextClient }
      nextClient := w.sup.nextClient + 1 }) : Sound env due (v, q.take [fd]) := by
  have hfree := h.loose fd hfd
  have hlistens : ∀ x, Listens v x ↔ Listens w x := by
    intro x
    unfold Listens
    rw [hsup]
  have hclients : ∀ x : Nat, x ∈ v.sup.clients ↔ fd = x ∨ x ∈ w.sup.clients := by
    intro x
    rw [hsup, Std.ExtTreeMap.mem_insertIfNew, Std.LawfulEqOrd.compare_eq_iff_eq]
  refine h.take (by rw [hsup]) (by rw [hsup]; exact Nat.le_succ _) ?_ (fun x hx => (hclients x).2 (.inr hx))
    (fun x => (hlistens x).2) ?_ ?_
  · intro x c hc
    rw [hsup, Std.ExtTreeMap.getElem?_insertIfNew] at hc
    split at hc
    · cases hc
      exact h.next
    · exact h.generations x c hc
  · intro x hx hl
    obtain rfl | hx := (hclients x).1 hx
    · exact hfree (.inr (.inr ((hlistens _).1 hl)))
    · exact h.apart x hx ((hlistens x).1 hl)
  · rintro x (hc | hx | hl)
    · exact .inl (.inl hc)
    · obtain rfl | hx := (hclients x).1 hx
      · exact .inr (.head _)
      · exact .inl (.inr (.inl hx))
    · exact .inl (.inr (.inr ((hlistens x).1 hl)))

theorem Sound.emplace (h : Sound env due (w, q)) {job : Job} (hfds : ∀ fd ∈ fdsOf job, fd ∈ q.loose)
    (hsup : v.sup = { w.sup with jobs := w.sup.jobs.insertIfNew job.config.label job }) :
    Sound env due (v, q.take (fdsOf job)) := by
  have hto : ∀ x, Listens w x → Listens v x := by
    rintro x ⟨l, job', hj, hx⟩
    refine ⟨l, job', ?_, hx⟩
    rw [hsup, Std.ExtTreeMap.getElem?_insertIfNew]
    split
    · next hnew =>
        obtain ⟨heq, hnot⟩ := hnew
        rw [Std.LawfulEqOrd.compare_eq_iff_eq] at heq
        subst heq
        exact absurd (Std.ExtTreeMap.mem_iff_isSome_getElem?.2 (by simp [hj])) hnot
    · exact hj
  have hof : ∀ x, Listens v x → Listens w x ∨ x ∈ fdsOf job := by
    rintro x ⟨l, job', hj, hx⟩
    rw [hsup, Std.ExtTreeMap.getElem?_insertIfNew] at hj
    split at hj
    · cases hj
      exact .inr hx
    · exact .inl ⟨l, job', hj, hx⟩
  have hclients : v.sup.clients = w.sup.clients := by rw [hsup]
  refine h.take (by rw [hsup]) (by rw [hsup]) ?_ (fun x hx => hclients ▸ hx) hto ?_ ?_
  · intro x c hc
    exact h.generations x c (by rwa [hclients] at hc)
  · intro x hx hl
    rw [hclients] at hx
    obtain hl | hin := hof x hl
    · exact h.apart x hx hl
    · exact h.loose x (hfds x hin) (.inr (.inl hx))
  · rintro x (hc | hx | hl)
    · exact .inl (.inl hc)
    · exact .inl (.inr (.inl (hclients ▸ hx)))
    · exact (hof x hl).imp_left fun hl => .inr (.inr hl)

theorem Sound.dropClient (h : Sound env due (w, q)) (hdue : ∀ k ∈ due, k.fd ≠ fd)
    (hsup : v.sup = { w.sup with clients := w.sup.clients.erase (fd : Fd) }) :
    Sound env due (v, q.close [fd]) := by
  have hlistens : ∀ x, Listens v x ↔ Listens w x := by
    intro x
    unfold Listens
    rw [hsup]
  have hclients : ∀ x : Nat, x ∈ v.sup.clients ↔ fd ≠ x ∧ x ∈ w.sup.clients := by
    intro x
    rw [hsup, Std.ExtTreeMap.mem_erase, ne_eq, Std.LawfulEqOrd.compare_eq_iff_eq]
  refine h.close (by rw [hsup]) (by rw [hsup]) ?_ ?_ (fun x _ => (hlistens x).2) ?_ ?_ ?_
  · intro x c hc
    rw [hsup, Std.ExtTreeMap.getElem?_erase] at hc
    split at hc
    · cases hc
    · exact h.generations x c hc
  · intro x hx hm
    exact (hclients x).2 ⟨fun heq => hx (by simp [heq]), hm⟩
  · rintro x (hc | hx | hl)
    · exact .inl hc
    · exact .inr (.inl ((hclients x).1 hx).2)
    · exact .inr (.inr ((hlistens x).1 hl))
  · intro x hx hl
    exact h.apart x ((hclients x).1 hx).2 ((hlistens x).1 hl)
  · intro k hk hin
    exact absurd (List.mem_singleton.1 hin) (hdue k hk)

theorem Sound.erase (h : Sound env due (w, q)) {l : Label} (hdue : due = [] ∨ w.sup.shuttingDown = true)
    (hsup : v.sup = { w.sup with jobs := w.sup.jobs.erase l }) :
    Sound env due (v, q.close ((w.sup.jobs[l]?).elim [] fdsOf)) := by
  have hof : ∀ x, Listens v x → Listens w x := by
    rintro x ⟨l', job, hj, hx⟩
    rw [hsup] at hj
    exact ⟨l', job, (mem_erase hj).2, hx⟩
  have hclients : v.sup.clients = w.sup.clients := by rw [hsup]
  refine h.close (by rw [hsup]) (by rw [hsup]) ?_ (fun x _ hx => hclients ▸ hx) ?_ ?_ ?_ ?_
  · intro x c hc
    exact h.generations x c (by rwa [hclients] at hc)
  · rintro x hx ⟨l', job, hj, hin⟩
    have hne : l' ≠ l := by
      rintro rfl
      rw [hj] at hx
      exact hx hin
    refine ⟨l', job, ?_, hin⟩
    rw [hsup, Std.ExtTreeMap.getElem?_erase, if_neg (by simp [Ne.symm hne])]
    exact hj
  · rintro x (hc | hx | hl)
    · exact .inl hc
    · exact .inr (.inl (hclients ▸ hx))
    · exact .inr (.inr (hof x hl))
  · intro x hx hl
    exact h.apart x (hclients ▸ hx) (hof x hl)
  · intro k hk hin
    obtain rfl | hdown := hdue
    · cases hk
    · refine ⟨hdown, ?_⟩
      have hlistens : Listens w k.fd := by
        cases hj : w.sup.jobs[l]? with
        | none => simp [hj] at hin
        | some job => exact ⟨l, job, hj, by simpa [hj] using hin⟩
      -- a connection is no job's socket
      obtain ⟨-, hkind | hclient⟩ | ⟨-, hudata⟩ := (h.batch k hk).2
      · exact hkind.1
      · exact absurd hlistens (h.apart k.fd hclient)
      · exact hudata

/-- When the calls that the invariant depends on are made, and when a job is woken. -/
def Heeds (env : Env) (due : List Knote) : Op → World × Queue → Prop
  | .addClient fd _, s => fd ∈ s.2.loose
  | .emplace job, s => ∀ fd ∈ fdsOf job, fd ∈ s.2.loose
  | .watch fd _ udata, s =>
      udata = 0 ∧ (fd = env.control ∨ Listens s.1 fd) ∨ fd ∈ s.1.sup.clients
  | .dropClient fd, _ => ∀ k ∈ due, k.fd ≠ fd
  | .erase _, s => due = [] ∨ s.1.sup.shuttingDown = true
  | .act l .activate, s => Prompted s l
  | .wait, s => due = [] ∧ Sound env [] s
  | _, _ => True

theorem Sound.call {o : Op} {r : o.Ans} (h : Sound env due s) (hwait : o ≠ .wait)
    (hE : Heeds env due o s) (hs : queued env o s r s') : Sound env due s' := by
  obtain ⟨w, q⟩ := s
  obtain ⟨v, q'⟩ := s'
  obtain ⟨hs, hq⟩ := hs
  cases o with
  | wait => exact absurd rfl hwait
  | socket =>
      obtain rfl : v = w := hs
      obtain e | fd := r
      · obtain rfl : q' = q := hq
        exact h
      · obtain ⟨hfree, rfl⟩ := hq
        exact h.give hfree
  | accept =>
      obtain rfl : v = w := hs
      obtain e | ⟨fd, peer⟩ := r
      · obtain rfl : q' = q := hq
        exact h
      · obtain ⟨hfree, rfl⟩ := hq
        exact h.give hfree
  | addClient fd deadline =>
      obtain rfl : q' = _ := hq
      obtain rfl : v = _ := hs
      exact h.addClient hE rfl
  | emplace job =>
      obtain rfl : q' = _ := hq
      obtain rfl : v = _ := hs
      exact h.emplace hE rfl
  | dropClient fd =>
      obtain rfl : v = _ := hs
      obtain rfl : q' = _ := hq
      dsimp only
      split
      · exact h.dropClient hE rfl
      · next hnot =>
          have herase : w.sup.clients.erase fd = w.sup.clients := by
            apply Std.ExtTreeMap.ext_getElem?
            intro x
            rw [Std.ExtTreeMap.getElem?_erase]
            split
            · next heq =>
                obtain rfl := Std.LawfulEqOrd.compare_eq_iff_eq.1 heq
                exact (Std.ExtTreeMap.getElem?_eq_none hnot).symm
            · rfl
          refine h.same (.of_sup ?_)
          rw [herase]
  | erase l =>
      obtain rfl : v = _ := hs
      obtain rfl : q' = _ := hq
      exact h.erase hE rfl
  | watch fd filter udata =>
      obtain rfl : v = w := hs
      obtain e | _ := r
      · obtain rfl : q' = q := hq
        exact h
      · obtain rfl : q' = _ := hq
        exact h.register hE
  | act l a =>
      obtain rfl : q' = q := hq
      obtain ⟨time, reads, -, rfl⟩ := hs
      exact h.same .act
  | spawn l =>
      obtain rfl : q' = q := hq
      obtain ⟨time, outcome, -, -, rfl⟩ := hs
      exact h.same .spawn
  | feed fd data =>
      obtain rfl : q' = q := hq
      obtain rfl : v = _ := hs
      exact h.same (.setClient fun _ => rfl)
  | respond fd output deadline =>
      obtain rfl : q' = q := hq
      obtain rfl : v = _ := hs
      exact h.same (.setClient fun _ => rfl)
  | sent fd count =>
      obtain rfl : q' = q := hq
      obtain rfl : v = _ := hs
      exact h.same (.setClient fun _ => rfl)
  | beginShutdown =>
      obtain rfl : q' = q := hq
      obtain rfl : v = _ := hs
      exact h.same ⟨fun _ => Iff.rfl, fun _ => rfl, rfl, fun _ => rfl⟩
  | setReboot flags argument | setOverrides m | answer command argument | killGroup group =>
      obtain rfl : q' = q := hq
      obtain rfl : v = _ := hs
      exact h.same ⟨fun _ => Iff.rfl, fun _ => rfl, rfl, id⟩
  | _ =>
      obtain rfl : q' = q := hq
      exact h.same (.of_sup (sem_quiet rfl hs).sup)

/-! ### The functions of the supervisor -/

/-- The invariant, and descriptors that are still to be taken. -/
def Firm (env : Env) (due : List Knote) (held : List Nat) (s : World × Queue) : Prop :=
  Sound env due s ∧ ∀ fd ∈ held, fd ∈ s.2.loose

abbrev Safe (env : Env) (due : List Knote) (held : List Nat) {α : Type} (m : M α) : Prop :=
  Maintains (queued env) (Heeds env due) (Firm env due held) m

/-- A call that the invariant does not depend on. -/
def harmless : Op → Bool
  | .addClient _ _ | .emplace _ | .watch _ _ _ | .dropClient _ | .erase _ | .act _ .activate | .wait => false
  | _ => true

theorem heeds_of_harmless {o : Op} (ho : harmless o = true) : Heeds env due o s := by
  cases o with
  | act l a => cases a <;> trivial
  | _ => trivial

theorem loose_of_harmless {o : Op} {r : o.Ans} (ho : harmless o = true) (hs : queued env o s r s') :
    ∀ fd ∈ s.2.loose, fd ∈ s'.2.loose := by
  obtain ⟨w, q⟩ := s
  obtain ⟨v, q'⟩ := s'
  obtain ⟨-, hq⟩ := hs
  intro fd hfd
  cases o with
  | socket =>
      obtain e | x := r
      · obtain rfl : q' = q := hq
        exact hfd
      · obtain ⟨-, rfl⟩ := hq
        exact .tail _ hfd
  | accept =>
      obtain e | ⟨x, peer⟩ := r
      · obtain rfl : q' = q := hq
        exact hfd
      · obtain ⟨-, rfl⟩ := hq
        exact .tail _ hfd
  | addClient | emplace | watch | dropClient | erase | wait => cases ho
  | _ =>
      obtain rfl : q' = q := hq
      exact hfd

variable {held : List Nat} {α : Type}

theorem safe_ask {o : Op} (ho : harmless o = true) : Safe env due held (ask o) := by
  intro g s hs
  refine wp_sys.2 ⟨heeds_of_harmless ho, fun r s' hr => ?_⟩
  refine ⟨hs.1.call ?_ (heeds_of_harmless ho) hr, fun fd hfd => loose_of_harmless ho hr fd (hs.2 fd hfd)⟩
  rintro rfl
  cases ho

theorem safe_lift {r : Result α} : Safe env due held (lift r) := by
  cases r with
  | error message => exact .fail
  | ok a => exact .pure

theorem safe_orThrow {operation : Bytes} {r : Except Errno α} :
    Safe env due held (orThrow env operation r) := by
  cases r with
  | error e => exact .fail
  | ok a => exact .pure

/-- A call that must not fail. -/
theorem safe_checked {β : Type} {o : Op} {operation : Bytes} {f : o.Ans → Except Errno α} {k : α → M β}
    (ho : harmless o = true) (hk : ∀ a, Safe env due held (k a)) :
    Safe env due held (ask o >>= fun r => orThrow env operation (f r) >>= k) :=
  .bind (safe_ask ho) fun _ => .bind safe_orThrow hk

theorem safe_readFile {path : Bytes} {trusted : Bool} : Safe env due held (readFile env path trusted) := by
  unfold readFile
  refine safe_checked rfl fun file => safe_checked rfl fun _ => ?_
  refine .bind safe_lift fun _ => .bind safe_lift fun _ => ?_
  exact safe_checked rfl fun bytes => .bind safe_lift fun _ => .pure

theorem safe_removeStale {path : Bytes} : Safe env due held (removeStale env path) := by
  refine .bind (safe_ask rfl) fun r => ?_
  split
  · exact .bind (safe_ask rfl) fun _ => safe_orThrow
  · exact .fail
  · exact .ite .fail .pure

theorem safe_closeListener {listener : Listener} : Safe env due held (closeListener listener) := by
  refine .bind (safe_ask rfl) fun r => ?_
  split
  · exact .ite (.bind (safe_ask rfl) fun _ => .pure) .pure
  · exact .pure

theorem safe_closeListeners {listeners : List Listener} : Safe env due held (each closeListener listeners) :=
  .each (fun _ => safe_closeListener) listeners

theorem Firm.less {held' : List Nat} (h : Firm env due held s) (hsub : ∀ fd ∈ held', fd ∈ held) :
    Firm env due held' s := ⟨h.1, fun fd hfd => h.2 fd (hsub fd hfd)⟩

/-- The specification of a function that takes less than it is given if it fails. -/
abbrev Takes (env : Env) (due : List Knote) (held : List Nat) (m : M α) (Q : α → World × Queue → Prop)
    (g : Unit) (s : World × Queue) : Prop :=
  wp (queued env) (Heeds env due) m (fun a _ s' => Q a s') (fun _ _ s' => Firm env due held s') g s

theorem takes_bind {β : Type} {held' : List Nat} {m : M α} {k : α → M β} {Q : β → World × Queue → Prop}
    {g : Unit} (h : Safe env due held' m) (hsub : ∀ fd ∈ held, fd ∈ held') (hs : Firm env due held' s)
    (hk : ∀ a g' s', Firm env due held' s' → Takes env due held (k a) Q g' s') :
    Takes env due held (m >>= k) Q g s :=
  wp_bind.2 ((h g s hs).post (fun a g' s' hs' => hk a g' s' hs') fun _ _ _ hs' => hs'.less hsub)

/-- The socket of a listener that is returned has a descriptor of its own. -/
theorem takes_openListener {config : SocketConfig} {g : Unit} (hs : Firm env due held s) :
    Takes env due held (openListener env config)
      (fun listener s' => Firm env due (listener.fd :: held) s') g s := by
  unfold openListener
  refine takes_bind safe_removeStale (fun _ => id) hs fun _ g1 s1 h1 => ?_
  refine wp_bind.2 (wp_sys.2 ⟨trivial, fun r s2 hr => ?_⟩)
  have hloose : ∀ fd ∈ held, fd ∈ s2.2.loose := fun fd hfd =>
    loose_of_harmless (o := .socket) rfl hr fd (h1.2 fd hfd)
  have hsound : Sound env due s2 := h1.1.call (o := .socket) (by simp) trivial hr
  obtain e | fd := r
  · exact ⟨hsound, hloose⟩
  · have hsub : ∀ x ∈ held, x ∈ fd :: held := fun _ hx => .tail _ hx
    have h2 : Firm env due (fd :: held) s2 := by
      refine ⟨hsound, fun x hx => ?_⟩
      obtain rfl | hx := List.mem_cons.1 hx
      · obtain ⟨-, -, hq⟩ := hr
        rw [hq]
        exact .head _
      · exact hloose x hx
    have hunbind : ∀ {operation : Bytes} {e : Errno} {g' s'}, Firm env due (fd :: held) s' →
        Takes env due held (unbind env config.path operation e)
          (fun (listener : Listener) s' => Firm env due (listener.fd :: held) s') g' s' := by
      intro operation e g' s' hs'
      exact wp_bind.2 ((safe_ask rfl g' s' hs').post (fun _ _ _ h => h.less hsub) fun _ _ _ h => h.less hsub)
    refine wp_bind.2 ((wp_pure (a := fd)).2 ?_)
    refine takes_bind (safe_ask rfl) hsub h2 fun _ _ s3 h3 => ?_
    refine takes_bind safe_orThrow hsub h3 fun _ _ s4 h4 => ?_
    refine takes_bind (safe_ask rfl) hsub h4 fun _ _ s5 h5 => ?_
    refine takes_bind safe_orThrow hsub h5 fun inode _ s6 h6 => ?_
    refine takes_bind (safe_ask rfl) hsub h6 fun _ _ s7 h7 => ?_
    split
    · exact hunbind h7
    · refine takes_bind (safe_ask rfl) hsub h7 fun _ _ s8 h8 => ?_
      split
      · exact hunbind h8
      · refine takes_bind (safe_ask rfl) hsub h8 fun _ _ s9 h9 => ?_
        split
        · exact hunbind h9
        · exact h9

theorem takes_openListeners {configs : List SocketConfig} {listeners : List Listener} {g : Unit}
    (hs : Firm env due (listeners.map (·.fd)) s) :
    Takes env due [] (openListeners env configs listeners)
      (fun listeners' s' => Firm env due (listeners'.map (·.fd)) s') g s := by
  induction configs generalizing listeners g s with
  | nil => exact hs
  | cons config configs ih =>
      refine wp_bind.2 (wp_onFail.2 ((takes_openListener hs).post ?_ ?_))
      · intro listener g' s' hs'
        refine ih (hs'.less fun fd hfd => ?_)
        rw [List.map_append, List.mem_append] at hfd
        obtain hfd | hfd := hfd
        · exact .tail _ hfd
        · obtain rfl := List.mem_singleton.1 hfd
          exact .head _
      · intro e g' s' hs'
        have hnone : ∀ {s}, Firm env due (listeners.map (·.fd)) s → Firm env due [] s :=
          fun h => h.less fun fd hfd => by cases hfd
        exact (safe_closeListeners g' s' hs').post (fun _ _ _ => hnone) fun _ _ _ => hnone

theorem safe_load {path : Bytes} : Safe env due [] (load env path) := by
  intro g s hs
  unfold load
  refine takes_bind safe_readFile (fun _ => id) hs fun bytes _ s1 h1 => ?_
  refine takes_bind safe_lift (fun _ => id) h1 fun value _ s2 h2 => ?_
  refine takes_bind safe_lift (fun _ => id) h2 fun config _ s3 h3 => ?_
  refine takes_bind (safe_ask rfl) (fun _ => id) h3 fun sup _ s4 h4 => ?_
  refine takes_bind safe_lift (fun _ => id) h4 fun _ _ s5 h5 => ?_
  refine takes_bind safe_lift (fun _ => id) h5 fun _ _ s6 h6 => ?_
  refine takes_bind (.each (fun socket => ?_) _) (fun _ => id) h6 fun _ _ s7 h7 => ?_
  · split
    · exact .fail
    · exact .pure
  · refine wp_bind.2 ((takes_openListeners h7).post (fun listeners g' s8 h8 => ?_) fun _ _ _ => id)
    have htaken : Heeds env due (.emplace (config.job listeners)) s8 := h8.2
    refine wp_sys.2 ⟨htaken, fun r s9 hr => ⟨h8.1.call (by simp) htaken hr, ?_⟩⟩
    intro fd hfd
    cases hfd

/-! ### Shutdown -/

/-- Once shutdown has begun it goes on. -/
theorem sem_down {o : Op} {r : o.Ans} (h : sem env o w r v) (hw : w.sup.shuttingDown = true) :
    v.sup.shuttingDown = true := by
  cases o with
  | act l a =>
      obtain ⟨time, reads, -, rfl⟩ := h
      have hsame : SameOwners w (w.act env l a time reads) := .act
      exact hsame.down hw
  | spawn l =>
      obtain ⟨time, outcome, -, -, rfl⟩ := h
      exact SameOwners.spawn.down hw
  | beginShutdown =>
      obtain rfl : v = _ := h
      rfl
  | emplace | erase | setReboot | setOverrides | answer | addClient | dropClient | feed | respond | sent
  | killGroup =>
      obtain rfl : v = _ := h
      exact hw
  | _ => rwa [(sem_quiet rfl h).sup]

/-- Jobs may be erased: there is no report left, or shutdown has begun. -/
def Clear (due : List Knote) (s : World × Queue) : Prop := due = [] ∨ s.1.sup.shuttingDown = true

theorem Clear.call {o : Op} {r : o.Ans} (h : Clear due s) (hs : queued env o s r s') : Clear due s' :=
  h.imp_right (sem_down hs.1)

/-- Between two calls jobs stay erasable. -/
theorem Maintains.clear {m : M α} {g : Unit} (h : Safe env due held m) (hs : Firm env due held s)
    (hclear : Clear due s) :
    wp (queued env) (Heeds env due) m (fun _ _ s' => Firm env due held s' ∧ Clear due s')
      (fun _ _ s' => Firm env due held s' ∧ Clear due s') g s :=
  ((h g s hs).invariant (fun _ _ _ _ _ hc hr => hc.call hr) hclear).mono (fun _ _ => And.left)
    (fun _ _ _ => id) fun _ _ _ => id

theorem takes_eraseJob {l : Label} {job : Job} {g : Unit} (hs : Firm env due [] s) (hclear : Clear due s) :
    wp (queued env) (Heeds env due) (eraseJob l job) (fun _ _ s' => Firm env due [] s' ∧ Clear due s')
      (fun _ _ s' => Firm env due [] s' ∧ Clear due s') g s := by
  have herase : Heeds env due (.erase l) s := hclear
  refine wp_bind.2 (wp_sys.2 ⟨herase, fun r s1 hr => ?_⟩)
  refine Maintains.clear safe_closeListeners ⟨hs.1.call (by simp) herase hr, ?_⟩ (hclear.call hr)
  intro fd hfd
  cases hfd

theorem takes_collectJob {l : Label} {g : Unit} (hs : Firm env due [] s) (hclear : Clear due s) :
    wp (queued env) (Heeds env due) (collectJob l) (fun _ _ s' => Firm env due [] s' ∧ Clear due s')
      (fun _ _ s' => Firm env due [] s' ∧ Clear due s') g s := by
  refine wp_bind.2 ((Maintains.clear (safe_ask rfl) hs hclear).post (fun sup _ s1 h1 => ?_) fun _ _ _ => id)
  split
  · exact h1
  · split
    · exact takes_eraseJob h1.1 h1.2
    · exact Maintains.clear (safe_ask rfl) h1.1 h1.2

theorem takes_collectGarbage {g : Unit} (hs : Firm env due [] s) (hclear : Clear due s) :
    wp (queued env) (Heeds env due) collectGarbage (fun _ _ s' => Firm env due [] s' ∧ Clear due s')
      (fun _ _ s' => Firm env due [] s' ∧ Clear due s') g s := by
  refine wp_bind.2 ((Maintains.clear (safe_ask rfl) hs hclear).post (fun sup _ s1 h1 => ?_) fun _ _ _ => id)
  refine wp_bind.2 ((wp_each (fun _ _ s' => Firm env due [] s' ∧ Clear due s')
    (fun l _ _ _ h => takes_collectJob h.1 h.2) h1).post (fun _ _ s2 h2 => ?_) fun _ _ _ => id)
  refine wp_bind.2 ((Maintains.clear (safe_ask rfl) h2.1 h2.2).post (fun _ _ _ h => h) fun _ _ _ => id)

theorem safe_shutdown : Safe env due [] shutdown := by
  refine .bind (safe_ask rfl) fun sup => ?_
  split
  · exact .pure
  · intro g s hs
    refine wp_bind.2 (wp_sys.2 ⟨trivial, fun r s1 hr => ?_⟩)
    have h1 : Firm env due [] s1 := ⟨hs.1.call (o := .beginShutdown) (by simp) trivial hr, by simp⟩
    have hdown : Clear due s1 := by
      obtain ⟨w, q⟩ := s
      obtain ⟨v, q'⟩ := s1
      obtain ⟨hr, -⟩ := hr
      obtain rfl : v = _ := hr
      exact .inr rfl
    exact wp_bind.2 ((takes_collectGarbage h1 hdown).post (fun _ _ _ h => h.1) fun _ _ _ h => h.1)

/-! ### Requests -/

theorem safe_makeDirectory {directory : Bytes} : Safe env due held (makeDirectory env directory) := by
  refine .ite .pure (.bind (safe_ask rfl) fun r => ?_)
  split
  · exact .pure
  · exact .pure
  · exact .fail

theorem safe_setOverride {label : Bytes} {disabled : Bool} :
    Safe env due held (setOverride env label disabled) := by
  unfold setOverride
  refine .bind safe_lift fun _ => .bind safe_lift fun _ => .bind (safe_ask rfl) fun sup => ?_
  refine .bind safe_lift fun bytes => .bind safe_makeDirectory fun _ => .bind (safe_ask rfl) fun _ => ?_
  refine safe_checked rfl fun _ => safe_checked rfl fun _ => safe_checked rfl fun _ => ?_
  exact safe_checked rfl fun _ => safe_checked rfl fun _ => safe_ask rfl

theorem safe_control {command : Bytes} {l : Label} {job : Job} : Safe env due held (control command l job) := by
  refine .ite (.bind safe_lift fun _ => safe_ask rfl) (.ite (safe_ask rfl) (.ite (safe_ask rfl) .fail))

theorem safe_manage {command argument : Bytes} : Safe env due [] (manage env command argument) := by
  refine .bind (safe_ask rfl) fun sup => .bind safe_lift fun _ => .bind safe_lift fun _ => ?_
  refine .ite (.bind safe_load fun _ => .bind (safe_ask rfl) fun _ => .pure) ?_
  refine .ite (.bind safe_setOverride fun _ => .bind (safe_ask rfl) fun _ => .pure) ?_
  refine .ite (.bind safe_setOverride fun _ => .bind (safe_ask rfl) fun _ => .pure) ?_
  split
  · exact .fail
  · exact .bind safe_control fun _ => .pure

theorem safe_obey {bytes : Bytes} : Safe env due [] (obey env bytes) := by
  refine .bind safe_lift fun request => ?_
  dsimp only
  refine .ite (.bind (safe_ask rfl) fun sup => .bind safe_lift fun _ => .bind (safe_ask rfl) fun _ => .pure) ?_
  refine .ite (.bind safe_lift fun flags => .bind (safe_ask rfl) fun _ => .bind safe_shutdown fun _ => .pure) ?_
  exact safe_manage

theorem safe_request {bytes : Bytes} : Safe env due [] (request env bytes) := by
  refine .bind safe_obey.attempt fun r => ?_
  split
  · exact .pure
  · exact .pure

theorem safe_sendReply {fd : Fd} {client : Client} : Safe env due held (sendReply fd client) := by
  refine .bind (safe_ask rfl) fun r => ?_
  split
  · exact .bind (safe_ask rfl) fun _ => .pure
  · exact .pure
  · exact .pure
  · exact .pure

theorem safe_receive {fd : Fd} {client : Client} : Safe env due [] (receive env fd client) := by
  unfold receive
  dsimp only
  refine .ite .pure (.ite .pure (.ite .pure ?_))
  refine .bind safe_request fun value => .bind safe_lift fun output => .bind (safe_ask rfl) fun now => ?_
  exact .bind (safe_ask rfl) fun _ => safe_sendReply

theorem safe_service {fd : Fd} {client : Client} : Safe env due [] (service env fd client) := by
  refine .bind (safe_ask rfl) fun now => .ite .pure (.ite safe_sendReply ?_)
  refine .bind (safe_ask rfl) fun r => ?_
  split
  · exact .pure
  · exact .pure
  · exact .bind (safe_ask rfl) fun _ => safe_receive

/-! ### One event -/

theorem heeds_mono {due' : List Knote} {o : Op} (hsub : ∀ k ∈ due', k ∈ due) (h : Heeds env due o s) :
    Heeds env due' o s := by
  have hnil : due = [] → due' = [] := by
    rintro rfl
    exact List.eq_nil_iff_forall_not_mem.2 fun k hk => by cases hsub k hk
  cases o with
  | act l a => cases a <;> exact h
  | dropClient fd => exact fun k hk => h k (hsub k hk)
  | erase l => exact h.imp_left hnil
  | wait => exact ⟨hnil h.1, h.2⟩
  | _ => exact h

theorem safe_addConnection {g : Unit} (hs : Firm env due [fd] s) :
    Takes env due [] (addConnection fd) (fun _ s' => Firm env due [] s') g s := by
  have hsub : ∀ x ∈ ([] : List Nat), x ∈ [fd] := fun x hx => by cases hx
  refine takes_bind (safe_ask rfl) hsub hs fun r _ s1 h1 => ?_
  split
  · exact h1.less hsub
  · refine takes_bind (safe_ask rfl) hsub h1 fun now _ s2 h2 => ?_
    have hloose : Heeds env due (.addClient fd (now + ioTimeout)) s2 := h2.2 fd (.head _)
    exact wp_sys.2 ⟨hloose, fun r s3 hr => ⟨h2.1.call (by simp) hloose hr, by simp⟩⟩

theorem safe_acceptClients (n : Nat) : Safe env due [] (acceptClients n) := by
  induction n with
  | zero => exact .pure
  | succ n ih =>
      intro g s hs
      refine wp_bind.2 (wp_sys.2 ⟨trivial, fun r s1 hr => ?_⟩)
      have h1 : Sound env due s1 := hs.1.call (o := .accept) (by simp) trivial hr
      split
      · exact ih _ _ ⟨h1, by simp⟩
      · exact ⟨h1, by simp⟩
      · next fd peer =>
          have hfirm : Firm env due [fd] s1 := by
            refine ⟨h1, fun x hx => ?_⟩
            obtain rfl := List.mem_singleton.1 hx
            obtain ⟨-, -, hq⟩ := hr
            rw [hq]
            exact .head _
          have hsub : ∀ x ∈ ([] : List Nat), x ∈ [fd] := fun x hx => by cases hx
          refine takes_bind (safe_ask rfl) hsub hfirm fun sup _ s2 h2 => ?_
          split
          · exact ih _ _ (h2.less hsub)
          · exact wp_bind.2 ((safe_addConnection h2).post (fun _ _ _ h => ih _ _ h) fun _ _ _ => id)

/-- The job has a socket with the descriptor. -/
def Owns (s : World × Queue) (fd : Nat) (l : Label) : Prop :=
  ∃ job, s.1.sup.jobs[l]? = some job ∧ fd ∈ fdsOf job

theorem owns_of_mem_ownersOf {l : Label} (hl : l ∈ ownersOf s.1.sup.jobs fd) : Owns s fd l := by
  obtain ⟨⟨l', job⟩, hm, rfl⟩ := List.mem_map.1 hl
  obtain ⟨hm, hfd⟩ := List.mem_filter.1 hm
  exact ⟨job, Std.ExtTreeMap.mem_toList_iff_getElem?_eq_some.1 hm, of_decide_eq_true hfd⟩

theorem Owns.act {l l' : Label} {a : Act} {r : Unit} (h : Owns s fd l) (hs : queued env (.act l' a) s r s') :
    Owns s' fd l := by
  obtain ⟨job, hj, hfd⟩ := h
  obtain ⟨time, reads, -, hv⟩ := hs.1
  unfold Owns
  rw [hv]
  unfold World.act
  split
  · exact ⟨job, hj, hfd⟩
  · next job' hj' =>
      by_cases heq : l = l'
      · subst heq
        obtain rfl : job = job' := Option.some.inj (hj.symm.trans hj')
        refine ⟨_, Std.ExtTreeMap.getElem?_insert_self, ?_⟩
        rw [fdsOf, Act.apply_listeners]
        exact hfd
      · exact ⟨job, by simp [Std.ExtTreeMap.getElem?_insert, Ne.symm heq, hj], hfd⟩

/-- A report on one of its sockets wakes a job only if the registration was the
job's own: unless shutdown has begun, the descriptor is still the file's. -/
theorem takes_activateJob {k : Knote} {rest : List Knote} {owners : List Label} {l : Label} {g : Unit}
    (hl : l ∈ owners) (hs : Sound env (k :: rest) s) (howns : ∀ l ∈ owners, Owns s k.fd l) :
    wp (queued env) (Heeds env (k :: rest)) (activateJob l)
      (fun _ _ s' => Sound env (k :: rest) s' ∧ ∀ l ∈ owners, Owns s' k.fd l)
      (fun _ _ s' => Sound env (k :: rest) s') g s := by
  refine wp_bind.2 (wp_sys.2 ⟨trivial, ?_⟩)
  rintro sup ⟨v, q⟩ ⟨⟨rfl, hv⟩, hq⟩
  obtain ⟨w, q'⟩ := s
  obtain rfl : v = w := hv
  obtain rfl : q = q' := hq
  split
  · next job hj =>
      split
      · next hdue =>
          have hprompted : Heeds env (k :: rest) (.act l .activate) (v, q) := by
            obtain ⟨job', hj', hfd⟩ := howns l hl
            obtain ⟨listener, hm, hlistener⟩ := List.mem_map.1 hfd
            obtain ⟨hbatch, hcurrent | ⟨hdown, -⟩⟩ := hs.batch k (.head _)
            · exact ⟨job', hj', listener, hm, k, hbatch, hlistener.symm, by rw [hlistener]; exact hcurrent.1⟩
            · have hopen : v.sup.shuttingDown = false := by simpa using hdue.2
              rw [hopen] at hdown
              cases hdown
          refine wp_sys.2 ⟨hprompted, fun r s1 hr => ⟨hs.call (by simp) hprompted hr, ?_⟩⟩
          exact fun l' hl' => (howns l' hl').act hr
      · exact ⟨hs, howns⟩
  · exact ⟨hs, howns⟩

theorem Firm.sound {g : Unit} {m : M α} {rest : List Knote} (h : Safe env due [] m) (hs : Sound env due s)
    (hsub : ∀ k ∈ rest, k ∈ due) :
    wp (queued env) (Heeds env rest) m (fun _ _ s' => Sound env rest s') (fun _ _ s' => Sound env rest s') g s :=
  (h g s ⟨hs, by simp⟩).mono (fun _ _ => heeds_mono hsub) (fun _ _ _ h' => h'.1.mono hsub)
    fun _ _ _ h' => h'.1.mono hsub

theorem takes_handleEvent {k : Knote} {rest : List Knote} {event : KEvent} {g : Unit} (hreport : Reports event k)
    (hfd : ∀ k' ∈ rest, k'.fd ≠ k.fd) (hs : Sound env (k :: rest) s) :
    wp (queued env) (Heeds env rest) (handleEvent env event) (fun _ _ s' => Sound env rest s')
      (fun _ _ s' => Sound env rest s') g s := by
  have hsub : ∀ k' ∈ rest, k' ∈ k :: rest := fun _ h => .tail _ h
  obtain ⟨error, rfl⟩ := hreport
  rw [handleEvent]
  split
  · exact Firm.sound (safe_acceptClients 32) hs hsub
  · refine wp_bind.2 (wp_sys.2 ⟨trivial, ?_⟩)
    rintro sup ⟨v, q⟩ ⟨⟨rfl, hv⟩, hq⟩
    obtain ⟨w, q'⟩ := s
    obtain rfl : v = w := hv
    obtain rfl : q = q' := hq
    -- the event is the connection's own, so closing it concerns no report that is left
    have hdrop : ∀ {g' s'}, Sound env (k :: rest) s' →
        wp (queued env) (Heeds env rest) (ask (.dropClient k.fd)) (fun _ _ s'' => Sound env rest s'')
          (fun _ _ s'' => Sound env rest s'') g' s' := by
      intro g' s' hs'
      have hheeds : Heeds env rest (.dropClient k.fd) s' := hfd
      exact wp_sys.2 ⟨hheeds, fun r s'' hr => (hs'.mono hsub).call (by simp) hheeds hr⟩
    split
    · have howners : ∀ l ∈ ownersOf v.sup.jobs k.fd, Owns (v, q) k.fd l := fun l hl => owns_of_mem_ownersOf hl
      generalize ownersOf v.sup.jobs k.fd = owners at howners
      refine (wp_each (D := fun _ _ s' => Sound env (k :: rest) s') (fun labels _ s' =>
          (∀ l ∈ labels, l ∈ owners) ∧ Sound env (k :: rest) s' ∧ ∀ l ∈ owners, Owns s' k.fd l) ?_
          ⟨fun _ => id, hs, howners⟩).mono
        (fun _ _ => heeds_mono hsub) (fun _ _ _ h => h.2.1.mono hsub) (fun _ _ _ h => h.mono hsub)
      rintro l labels g' s' ⟨hlabels, hs', howns⟩
      refine (takes_activateJob (hlabels l (.head _)) hs' howns).post ?_ fun _ _ _ => id
      exact fun _ _ _ h => ⟨fun l' hl' => hlabels l' (.tail _ hl'), h⟩
    · split
      · exact hs.mono hsub
      · split
        · exact hs.mono hsub
        · split
          · exact hdrop hs
          · refine wp_bind.2 ((safe_service.attempt () _ ⟨hs, by simp⟩).mono (fun _ _ => heeds_mono hsub)
              (fun r _ s' h => ?_) fun _ _ _ h => h.1.mono hsub)
            split
            · exact h.1.mono hsub
            · exact hdrop h.1

theorem safe_handleSignal {event : KEvent} : Safe env due [] (handleSignal env event) := by
  unfold handleSignal
  split
  · exact safe_shutdown
  · exact .ite safe_shutdown .pure
  · exact .pure

/-- The events that are left, and the registrations they report. -/
structure Left (env : Env) (events : List KEvent) (ks : List Knote) (s : World × Queue) : Prop where
  reports : List.Forall₂ Reports (events.filter isDescriptor) ks
  once : (ks.map (·.fd)).Nodup
  sound : Sound env ks s

theorem takes_handleEvents {event : KEvent} {events : List KEvent} {g : Unit}
    (h : ∃ ks, Left env (event :: events) ks s) :
    wp (queued env) (Heeds env []) (handleEvent env event) (fun _ _ s' => ∃ ks, Left env events ks s')
      (fun _ _ s' => ∃ ks, Sound env ks s') g s := by
  obtain ⟨ks, hreports, honce, hsound⟩ := h
  cases hd : isDescriptor event with
  | false =>
      rw [List.filter_cons_of_neg (by simp [hd])] at hreports
      have hnothing : handleEvent env event = pure () := by
        cases event with
        | descriptor fd error udata => cases hd
        | _ => rfl
      rw [hnothing]
      exact ⟨ks, hreports, honce, hsound⟩
  | true =>
      rw [List.filter_cons_of_pos hd] at hreports
      cases hreports with
      | @cons _ k _ rest hreport hreports =>
          rw [List.map_cons, List.nodup_cons] at honce
          have hfd : ∀ k' ∈ rest, k'.fd ≠ k.fd := fun k' hk' heq => honce.1 (heq ▸ List.mem_map_of_mem hk')
          refine (takes_handleEvent hreport hfd hsound).mono (fun _ _ => heeds_mono fun _ h => by cases h) ?_ ?_
          · exact fun _ _ _ h => ⟨rest, hreports, honce.2, h⟩
          · exact fun _ _ _ h => ⟨rest, h⟩

/-- The handling of a batch, up to any of its events. -/
theorem takes_handled {events before after : List KEvent} {ks : List Knote} {g : Unit}
    (hevents : events = before ++ after) (h : Left env events ks s) :
    wp (queued env) (Heeds env []) (handled env events before) (fun _ _ s' => ∃ ks, Left env after ks s')
      (fun _ _ s' => ∃ ks, Sound env ks s') g s := by
  refine wp_bind.2 ((Firm.sound (.each (fun _ => safe_handleSignal) events) h.sound fun _ => id).mono
    (fun _ _ => heeds_mono fun _ h => by cases h) (fun _ g1 s1 h1 => ?_) fun _ _ _ h => ⟨ks, h⟩)
  subst hevents
  have hleft : ∃ ks, Left env (before ++ after) ks s1 := ⟨ks, h.reports, h.once, h1⟩
  refine (wp_each (fun l _ s' => ∃ ks, Left env (l ++ after) ks s') ?_ hleft).post (fun _ _ _ => id) fun _ _ _ => id
  exact fun event l _ _ h => takes_handleEvents h

/-! ### The loop -/

theorem safe_reapRounds (n : Nat) : Safe env due held (reapRounds env n) := by
  induction n with
  | zero => exact .pure
  | succ n ih =>
      refine .bind (safe_ask rfl) fun r => ?_
      split
      · exact .pure
      · exact .fail
      · next pid =>
          refine .ite .pure (.bind (safe_ask rfl) fun sup => ?_)
          refine .bind ?_ fun _ => .bind (safe_ask rfl) fun r => ?_
          · unfold cleanGroup
            split
            · exact .pure
            · exact .bind (safe_ask rfl) fun _ => safe_ask rfl
          · split
            · exact .fail
            · exact .pure
            · refine .bind ?_ fun _ => ih
              unfold noteExit
              split
              · exact .pure
              · exact safe_ask rfl

theorem safe_tickJob {now : Time} {l : Label} : Safe env [] [] (tickJob now l) := by
  refine .bind (safe_ask rfl) fun sup => ?_
  split
  · exact .pure
  · refine .ite ?_ (.ite (.bind (safe_ask rfl) fun _ => safe_ask rfl) (.ite ?_ .pure))
    · intro g s hs
      exact (takes_eraseJob hs (.inl rfl)).post (fun _ _ _ h => h.1) fun _ _ _ h => h.1
    · refine .bind (safe_ask rfl) fun r => ?_
      split
      · exact .pure
      · exact safe_ask rfl

theorem safe_tick : Safe env [] [] (tick env) := by
  refine .bind (.bind (safe_ask rfl) fun n => safe_reapRounds n) fun _ => .bind (safe_ask rfl) fun now => ?_
  exact .bind (safe_ask rfl) fun sup => .each (fun _ => safe_tickJob) _

theorem safe_shutdownDone : Safe env [] [] shutdownDone := by
  refine .bind (safe_ask rfl) fun _ => .ite ?_ .pure
  intro g s hs
  exact (takes_collectGarbage hs (.inl rfl)).post (fun _ _ _ h => h.1) fun _ _ _ h => h.1

theorem safe_finishShutdown : Safe env due held (finishShutdown env) :=
  .ite .pure (.bind (safe_ask rfl) fun _ => .bind (safe_ask rfl) fun _ => .pure)

/-- A descriptor that is somebody's is registered. -/
theorem takes_watch {filter : Filter} {udata : Nat} {operation : Bytes} {g : Unit} {Q : Unit → World × Queue → Prop}
    (hs : Sound env [] s)
    (hfd : udata = 0 ∧ (fd = env.control ∨ Listens s.1 fd) ∨ fd ∈ s.1.sup.clients)
    (hQ : ∀ s', s'.1 = s.1 → Sound env [] s' → Q () s') :
    wp (queued env) (Heeds env []) (do orThrow env operation (← ask (.watch fd filter udata)))
      (fun a _ s' => Q a s') (fun _ _ s' => Sound env [] s') g s := by
  have hheeds : Heeds env [] (.watch fd filter udata) s := hfd
  refine wp_bind.2 (wp_sys.2 ⟨hheeds, fun r s1 hr => ?_⟩)
  have h1 := hs.call (by simp) hheeds hr
  obtain e | _ := r
  · exact h1
  · exact hQ s1 hr.1 h1

theorem takes_watchListeners {g : Unit} (hs : Sound env [] s) :
    wp (queued env) (Heeds env []) (watchListeners env) (fun _ _ s' => Sound env [] s')
      (fun _ _ s' => Sound env [] s') g s := by
  refine wp_bind.2 (wp_sys.2 ⟨trivial, ?_⟩)
  rintro sup s1 ⟨⟨rfl, hw⟩, hq⟩
  obtain rfl : s1 = s := Prod.ext hw hq
  refine (wp_each (fun entries _ s' => (∀ e ∈ entries, e ∈ s1.1.sup.jobs.toList) ∧ s'.1 = s1.1 ∧ Sound env [] s') ?_
    ⟨fun _ => id, rfl, hs⟩).post (fun _ _ _ h => h.2.2) fun _ _ _ => id
  rintro ⟨l, job⟩ entries g1 s2 ⟨hentries, hsame, h2⟩
  have hj := Std.ExtTreeMap.mem_toList_iff_getElem?_eq_some.1 (hentries (l, job) (.head _))
  have hrest : ∀ e ∈ entries, e ∈ s1.1.sup.jobs.toList := fun e he => hentries e (.tail _ he)
  split
  · refine (wp_each (fun listeners _ s' => (∀ x ∈ listeners, x ∈ job.listeners) ∧ s'.1 = s1.1 ∧ Sound env [] s') ?_
      ⟨fun _ => id, hsame, h2⟩).post (fun _ _ _ h => ⟨hrest, h.2⟩) fun _ _ _ => id
    rintro listener listeners g2 s3 ⟨hlisteners, hsame3, h3⟩
    have hlistens : Listens s3.1 listener.fd := by
      rw [hsame3]
      exact ⟨l, job, hj, List.mem_map_of_mem (hlisteners listener (.head _))⟩
    refine takes_watch h3 (.inl ⟨rfl, .inr hlistens⟩) fun s4 hsame4 h4 => ?_
    exact ⟨fun x hx => hlisteners x (.tail _ hx), hsame4.trans hsame3, h4⟩
  · exact ⟨hrest, hsame, h2⟩

theorem takes_watchClients {g : Unit} (hs : Sound env [] s) :
    wp (queued env) (Heeds env []) (watchClients env) (fun _ _ s' => Sound env [] s')
      (fun _ _ s' => Sound env [] s') g s := by
  refine wp_bind.2 (wp_sys.2 ⟨trivial, ?_⟩)
  rintro sup s1 ⟨⟨rfl, hw⟩, hq⟩
  obtain rfl : s1 = s := Prod.ext hw hq
  -- the connections that are left are open, for a pass closes its own only
  refine (wp_each (fun (entries : List (Fd × Client)) _ s' => entries.Pairwise (fun a b => a.1 ≠ b.1) ∧
      (∀ e ∈ entries, e.1 ∈ s'.1.sup.clients) ∧ Sound env [] s') ?_ ⟨?_, ?_, hs⟩).post (fun _ _ _ h => h.2.2)
    fun _ _ _ => id
  · rintro ⟨fd, client⟩ entries g1 s2 ⟨hdistinct, hopen, h2⟩
    obtain ⟨hne, hdistinct⟩ := List.pairwise_cons.1 hdistinct
    refine wp_bind.2 (wp_sys.2 ⟨trivial, fun now s3 hr => ?_⟩)
    have h3 : Sound env [] s3 := h2.call (o := .now) (by simp) trivial hr
    have hclients : s3.1.sup.clients = s2.1.sup.clients := by
      obtain ⟨⟨-, hv⟩, -⟩ := hr
      rw [hv]
    split
    · have hheeds : Heeds env [] (.dropClient fd) s3 := fun k hk => by cases hk
      refine wp_sys.2 ⟨hheeds, fun r s4 hr => ⟨hdistinct, fun e he => ?_, h3.call (by simp) hheeds hr⟩⟩
      obtain ⟨hv, -⟩ := hr
      rw [show s4.1 = _ from hv, Std.ExtTreeMap.mem_erase, hclients]
      exact ⟨by simpa using hne e he, hopen e (.tail _ he)⟩
    · refine takes_watch h3 (.inr (hclients ▸ hopen (fd, client) (.head _))) fun s4 hsame h4 => ?_
      refine ⟨hdistinct, fun e he => ?_, h4⟩
      rw [hsame, hclients]
      exact hopen e (.tail _ he)
  · refine Std.ExtTreeMap.distinct_keys_toList.imp fun {a b} hab heq => hab ?_
    exact Std.LawfulEqOrd.compare_eq_iff_eq.2 heq
  · rintro ⟨fd, client⟩ he
    rw [Std.ExtTreeMap.mem_iff_isSome_getElem?, Std.ExtTreeMap.mem_toList_iff_getElem?_eq_some.1 he]
    rfl

theorem Sound.wait {events : List KEvent} (h : Sound env [] s) (hs : queued env .wait s (.ok events) s') :
    Left env events s'.2.batch s' := by
  obtain ⟨w, q⟩ := s
  obtain ⟨v, q'⟩ := s'
  obtain ⟨hv, ks, hks, honce, hreports, hq⟩ := hs
  obtain rfl : v = w := hv
  obtain rfl : q' = q.deliver ks := hq
  refine ⟨hreports, honce, h.next, h.generations, h.apart, h.loose, ?_, ?_⟩
  · exact fun k hk => h.knotes k (List.mem_of_mem_filter hk)
  · exact fun k hk => ⟨hk, .inl (h.knotes k (hks k hk))⟩

theorem takes_poll {g : Unit} (hs : Sound env [] s) :
    wp (queued env) (Heeds env []) (poll env) (fun _ _ s' => Sound env [] s') (fun _ _ s' => Sound env [] s')
      g s := by
  have hnone : ∀ {ks s'}, Sound env ks s' → Sound env [] s' := fun h => h.mono fun _ h' => by cases h'
  have hcontrol : wp (queued env) (Heeds env [])
      (do orThrow env (ascii "kevent register") (← ask (.watch env.control .EVFILT_READ 0)))
      (fun _ _ s' => Sound env [] s') (fun _ _ s' => Sound env [] s') g s :=
    takes_watch hs (.inl ⟨rfl, .inl rfl⟩) fun _ _ h => h
  rw [poll]
  simp only [wp_bind] at hcontrol ⊢
  refine hcontrol.post (fun r g1 s1 h1 => h1.post (fun _ g2 s2 h2 => ?_) fun _ _ _ => id) fun _ _ _ => id
  refine (takes_watchListeners h2).post (fun _ g3 s3 h3 => ?_) fun _ _ _ => id
  refine (takes_watchClients h3).post (fun _ g4 s4 h4 => ?_) fun _ _ _ => id
  refine wp_sys.2 ⟨⟨rfl, h4⟩, fun r s5 hr => ?_⟩
  obtain e | events := r
  · have h5 : Sound env [] s5 := by
      obtain ⟨w, q⟩ := s4
      obtain ⟨v, q'⟩ := s5
      obtain ⟨hv, hq⟩ := hr
      obtain rfl : v = w := hv
      obtain rfl : q' = q.deliver [] := hq
      exact ⟨h4.next, h4.generations, h4.apart, h4.loose, fun k hk => h4.knotes k (List.mem_of_mem_filter hk),
        fun k hk => by cases hk⟩
    split
    · exact h5
    · exact h5
    · next heq => cases heq
  · have hall := takes_handled (g := g4) (List.append_nil events).symm (h4.wait hr)
    refine hall.post (fun _ _ s' h => ?_) fun _ _ s' h => ?_
    · obtain ⟨ks, hleft⟩ := h
      exact hnone hleft.sound
    · obtain ⟨ks, hsound⟩ := h
      exact hnone hsound

theorem safe_readOverrides : Safe env due held (readOverrides env) := by
  refine .ite .pure (.bind (safe_ask rfl) fun r => ?_)
  split
  · exact .pure
  · refine .bind (Maintains.attempt ?_) fun r => ?_
    · refine .bind safe_readFile fun _ => .bind safe_lift fun _ => ?_
      exact .bind safe_lift fun _ => safe_lift
    · split
      · exact safe_ask rfl
      · exact safe_ask rfl

theorem safe_loadDirectories : Safe env due [] (loadDirectories env) := by
  refine .each (fun path => .bind (safe_ask rfl) fun r => ?_) _
  split
  · exact .pure
  · exact .each (fun file => .bind safe_load.attempt fun _ => .pure) _

theorem spec_of_wp {m : M Bool} (h : wp (queued env) (Heeds env []) m (fun _ _ s' => Sound env [] s')
    (fun _ _ s' => Sound env [] s') () s) :
    (m ()).Spec (queued env) (Heeds env []) (fun _ s' => Sound env [] s') s := by
  refine Prog.Spec.mono h (fun _ _ => id) ?_
  rintro ⟨x | x, g⟩ s' hs' <;> exact hs'

theorem spec_boot (hs : Sound env [] s) :
    (boot env ()).Spec (queued env) (Heeds env []) (fun _ s' => Sound env [] s') s := by
  have hboot : Safe env [] [] (boot env) :=
    .bind safe_readOverrides fun _ => .bind safe_loadDirectories fun _ => .pure
  exact spec_of_wp (Firm.sound hboot hs fun _ => id)

theorem spec_turn (hs : Sound env [] s) :
    (turn env ()).Spec (queued env) (Heeds env []) (fun _ s' => Sound env [] s') s := by
  refine spec_of_wp (wp_bind.2 ((Firm.sound safe_tick hs fun _ => id).post (fun _ _ s1 h1 => ?_) fun _ _ _ => id))
  refine wp_bind.2 ((Firm.sound safe_shutdownDone h1 fun _ => id).post (fun done _ s2 h2 => ?_) fun _ _ _ => id)
  split
  · exact wp_bind.2 ((Firm.sound safe_finishShutdown h2 fun _ => id).post (fun _ _ _ h => h) fun _ _ _ => id)
  · exact wp_bind.2 ((takes_poll h2).post (fun _ _ _ h => h) fun _ _ _ => id)

/-! ### Whole runs -/

/-- A supervisor that is started on the system of `w`, and what the kernel knows. -/
abbrev Begins (env : Env) (w : World) (p : Prog calls (Except Bytes Bool × Unit)) (s : World × Queue) : Prop :=
  Runs (queued env) (next env) (boot env ()) ({ w with sup := {} }, Queue.start env) p s

theorem sound_start (w : World) : Sound env [] ({ w with sup := {} }, Queue.start env) where
  next := le_rfl
  generations fd c hc := by simp at hc
  apart fd hfd := by simp at hfd
  loose fd hfd := by cases hfd
  knotes k hk := by cases hk
  batch k hk := by cases hk

theorem Begins.spec {p : Prog calls (Except Bytes Bool × Unit)} (h : Begins env w p s) :
    p.Spec (queued env) (Heeds env []) (fun _ s' => Sound env [] s') s := by
  refine Runs.spec h (spec_boot (sound_start w)) ?_
  intro a u p' hu hp
  unfold next at hp
  split at hp
  · cases hp
    exact spec_turn hu
  · cases hp

/-- `handleEvent ()` calls `service ()` where `Serviced` says so. -/
theorem handleEvent_serviced {udata : Nat} {client : Client} (h : Serviced env v.sup fd udata client) :
    ∃ k, handleEvent env (.descriptor fd false udata) () = .call .look k ∧
      ∃ f, k v.sup = (attempt (service env fd client) >>= f : M Unit) () := by
  obtain ⟨hcontrol, howners, hclient, hgeneration⟩ := h
  refine ⟨_, by rw [handleEvent, if_neg hcontrol]; rfl, ?_⟩
  simp only [Prog.bind, andThen, howners, hclient, hgeneration]
  rw [if_neg (by simp), if_neg (by simp), if_neg (by simp)]
  exact ⟨_, rfl⟩

/-- **An event is for the connection or the job whose registration it reports.** In
every run, whatever batch `kevent ()` returns and in whatever order: when one of
its events is handled, `service ()` is called only if the connection's
descriptor is still the file that was registered, and a job is only woken if
one of its own sockets was. -/
theorem event_hits_its_own {w : World} {p : Prog calls (Except Bytes Bool × Unit)} {s : World × Queue}
    (h : Begins env w p s) :
    (∀ l k, p = .call (.act l .activate) k → Prompted s l) ∧
      ∀ k, p = .call .wait k → ∀ events s1, queued env .wait s (.ok events) s1 →
        ∀ before fd error udata after s2, events = before ++ .descriptor fd error udata :: after →
          Prog.Reach (queued env) (handled env events before ()) s1 (.ret (.ok (), ())) s2 →
          ∃ knote ∈ s2.2.batch, knote.fd = fd ∧ knote.udata = udata ∧
            ∀ client, Serviced env s2.1.sup fd udata client → s2.2.files fd = some knote.file := by
  have hspec := h.spec
  constructor
  · rintro l k rfl
    exact hspec.1
  · rintro k rfl events s1 hwait before fd error udata after s2 hevents hreach
    have hleft := hspec.1.2.wait hwait
    have hwp := takes_handled (g := ()) hevents hleft
    obtain ⟨ks, hreports, -, hsound⟩ : ∃ ks, Left env (.descriptor fd error udata :: after) ks s2 :=
      Prog.Spec.reach hwp hreach
    rw [List.filter_cons_of_pos rfl] at hreports
    cases hreports with
    | @cons _ knote _ rest hreport _ =>
        obtain ⟨error', heq⟩ := hreport
        cases heq
        obtain ⟨hbatch, hstate⟩ := hsound.batch knote (.head _)
        refine ⟨knote, hbatch, rfl, rfl, fun client hclient => ?_⟩
        obtain hcurrent | ⟨-, hudata⟩ := hstate
        · exact hcurrent.1
        · -- a connection has a generation of its own, and the sockets of jobs have none
          have hpos := hsound.generations _ client hclient.2.2.1
          rw [hclient.2.2.2, hudata] at hpos
          omega

/-! ### A run

A job with a socket, and a client that asks for shutdown. When the job is gone, its descriptor
is handed out to another client before the report on the socket is handled. -/

def raceEnv : Env :=
  { socketEnv with
    directories := [ascii "/d"]
    xmlReadMemory := fun bytes =>
      if bytes = socketText "a" "/a" then some (socketDoc "a" "/a")
      else if bytes = requestText "reboot" "system" then some (requestDoc "reboot" "system")
      else none }

instance : Decidable (Held env w fd) :=
  decidable_of_iff (fd = env.control ∨ fd ∈ w.sup.clients ∨ ∃ e ∈ w.sup.jobs.toList, fd ∈ fdsOf e.2) <|
    or_congr Iff.rfl <| or_congr Iff.rfl <| by
      constructor
      · rintro ⟨e, he, hfd⟩
        exact ⟨e.1, e.2, Std.ExtTreeMap.mem_toList_iff_getElem?_eq_some.1 he, hfd⟩
      · rintro ⟨l, job, hj, hfd⟩
        exact ⟨(l, job), Std.ExtTreeMap.mem_toList_iff_getElem?_eq_some.2 hj, hfd⟩

/-- The lowest descriptor that is free. -/
def lowest (s : Listed) : Option Fd := [4, 5].find? fun fd => ¬ Held raceEnv s.world fd

/-- The registrations that are reported, in an order. -/
def reported (order : List Fd) (q : Queue) : List Knote :=
  order.filterMap fun fd => q.knotes.find? fun k => k.fd = fd

def raceMemory (order : List Fd) (o : Op) (s : Listed) (q : Queue) : o.Ans × Listed :=
  match o with
  | .socket =>
      match lowest s with
      | some fd => (.ok fd, s)
      | none => (.error .EAGAIN, s)
  | .accept =>
      if s.memory.sup.clients.isEmpty then
        match lowest s with
        | some fd => (.ok (fd, true), s)
        | none => (.error .EAGAIN, s)
      else (.error .EAGAIN, s)
  | .wait => (.ok ((reported order q).map fun k => .descriptor k.fd false k.udata), s)
  | .recv _ => (.ok (framed (requestText "reboot" "system")), s)
  | .lstat path => ((s.world.fileAt raceEnv path).elim (.error .ENOENT) fun node => .ok node.kind, s)
  | .unlink path =>
      match raceEnv.place path with
      | some p =>
          if s.sockets.lookup p = none then (.error .ENOENT, s)
          else (.ok (), { s with sockets := s.sockets.filter fun e => e.1 ≠ p })
      | none => (.error .ENOENT, s)
  | .bind path =>
      match raceEnv.place path with
      | some p =>
          if s.sockets.lookup p = none then (.ok s.fresh, { s with sockets := (p, s.fresh) :: s.sockets })
          else (.error .EEXIST, s)
      | none => (.error .ENOENT, s)
  | .openRead path =>
      if s.world.fileAt raceEnv path = none then (.ok ⟨true, true, socketText "a" "/a"⟩, s) else (.error .EEXIST, s)
  | o => ((demoAnswer o s.memory).1, { s with memory := (demoAnswer o s.memory).2 })

/-- What becomes of the queue, as far as it is settled. -/
def raceQueue (order : List Fd) : (o : Op) → World → Queue → o.Ans → Queue
  | .socket, _, q, .ok fd => q.give fd
  | .accept, _, q, .ok (fd, _) => q.give fd
  | .addClient fd _, _, q, _ => q.take [fd]
  | .emplace job, _, q, _ => q.take (fdsOf job)
  | .dropClient fd, w, q, _ => if fd ∈ w.sup.clients then q.close [fd] else q
  | .erase l, w, q, _ => q.close ((w.sup.jobs[l]?).elim [] fdsOf)
  | .watch fd filter udata, _, q, .ok () => q.register fd filter udata
  | .wait, _, q, .ok _ => q.deliver (reported order q)
  | .wait, _, q, .error _ => q.deliver []
  | _, _, q, _ => q

def raceAnswer (order : List Fd) (o : Op) (s : Listed × Queue) : o.Ans × (Listed × Queue) :=
  let r := raceMemory order o s.1 s.2
  (r.1, r.2, raceQueue order o s.1.world s.2 r.1)

theorem lookup_filter_ne {l : List (Place × Nat)} {p p' : Place} :
    (l.filter fun e => e.1 ≠ p).lookup p' = if p' = p then none else l.lookup p' := by
  induction l with
  | nil => simp
  | cons e l ih =>
      by_cases he : e.1 = p
      · rw [List.filter_cons_of_neg (by simpa using he), ih, List.lookup_cons]
        split
        · rfl
        · next hne =>
            have hkey : (p' == e.1) = false := by simpa [he] using hne
            rw [hkey]
      · rw [List.filter_cons_of_pos (by simpa using he), List.lookup_cons, ih, List.lookup_cons]
        split
        · next heq => rw [if_neg fun h => he ((beq_iff_eq.1 heq).symm.trans h)]
        · rfl

theorem world_unlink (s : Listed) (p : Place) :
    Listed.world { s with sockets := s.sockets.filter fun e => e.1 ≠ p } = s.world.put p none := by
  unfold Listed.world World.put
  simp only [World.mk.injEq, true_and, and_true]
  funext p'
  rw [lookup_filter_ne, Function.update_apply]
  split <;> rfl

theorem apply_raceEnv (a : Act) (down : Bool) (time : Time) (reads : List PipeRead) (job : Job) :
    a.apply raceEnv down time reads job = a.apply demoEnv down time reads job := by
  have hrace : raceEnv.setupError = fun _ => [] := rfl
  have hdemo : demoEnv.setupError = fun _ => [] := rfl
  cases a with
  | drain => simp only [Act.apply, hrace, hdemo]
  | _ => simp only [Act.apply]

theorem sem_raceMemory (order : List Fd) (o : Op) (s : Listed) (q : Queue) :
    sem raceEnv o s.world (raceMemory order o s q).1 (raceMemory order o s q).2.world := by
  cases o with
  | socket =>
      unfold raceMemory
      dsimp only
      split <;> exact rfl
  | accept =>
      unfold raceMemory
      dsimp only
      split
      · split <;> exact rfl
      · exact rfl
  | recv fd => exact ⟨rfl, fun data h => by cases h; decide +kernel⟩
  | lstat path =>
      refine ⟨rfl, ?_⟩
      dsimp only [raceMemory]
      cases s.world.fileAt raceEnv path with
      | none => exact fun i hi => by cases hi
      | some node => exact .inl rfl
  | unlink path =>
      dsimp only [raceMemory]
      cases hp : raceEnv.place path with
      | none => exact .inl ⟨rfl, fun h => by cases h⟩
      | some p =>
          dsimp only
          split
          · exact .inl ⟨rfl, fun h => by cases h⟩
          · next hused =>
              exact .inr ⟨p, hp, by simpa [Listed.world] using hused, rfl, world_unlink s p⟩
  | bind path =>
      dsimp only [raceMemory]
      cases hp : raceEnv.place path with
      | none => exact .inl ⟨rfl, _, rfl⟩
      | some p =>
          dsimp only
          split
          · next hfree =>
              exact .inr ⟨p, s.fresh, hp, by simp [Listed.world, hfree], s.fresh_spec, rfl, s.world_bind p s.fresh⟩
          · exact .inl ⟨rfl, _, rfl⟩
  | openRead path =>
      dsimp only [raceMemory]
      split
      · next hnone =>
          refine ⟨rfl, ?_⟩
          rw [hnone]
          trivial
      · next hsome =>
          refine ⟨rfl, ?_⟩
          cases hnode : s.world.fileAt raceEnv path with
          | none => trivial
          | some node =>
              cases node with
              | socket i => exact ⟨_, rfl⟩
              | regular data trusted => exact .inr ⟨_, by simp, rfl⟩
  | act l a =>
      refine ⟨s.memory.clock, [], le_rfl, ?_⟩
      simp only [raceMemory, demoAnswer, World.act, Listed.world, apply_raceEnv]
      split <;> rfl
  | spawn l =>
      refine ⟨s.memory.clock, .ok ⟨2, by decide, 5⟩, le_rfl, rfl, ?_⟩
      simp only [raceMemory, demoAnswer, World.spawn, Listed.world]
      split <;> rfl
  | look => exact ⟨rfl, rfl⟩
  | now => exact ⟨le_rfl, rfl⟩
  | send fd data => exact ⟨rfl, fun n h => by cases h; exact le_rfl⟩
  | readAll file => exact ⟨rfl, fun data h => by cases h; rfl⟩
  | create path => exact .inl ⟨rfl, _, rfl⟩
  | write path data => exact .inl ⟨rfl, _, rfl⟩
  | rename old new => exact .inl ⟨rfl, _, rfl⟩
  | _ => exact rfl

theorem lowest_free {s : Listed} (h : lowest s = some fd) : ¬ Held raceEnv s.world fd := by
  simpa using List.find?_some h

theorem reported_eq {order : List Fd} {k : Knote} (h : k ∈ reported order q) : k ∈ q.knotes ∧ k.fd ∈ order := by
  obtain ⟨fd, hfd, hk⟩ := List.mem_filterMap.1 h
  obtain rfl : k.fd = fd := by simpa using List.find?_some hk
  exact ⟨List.mem_of_find?_eq_some hk, hfd⟩

theorem reported_nodup {order : List Fd} (h : order.Nodup) : ((reported order q).map (·.fd)).Nodup := by
  induction order with
  | nil => exact .nil
  | cons fd order ih =>
      obtain ⟨hfd, horder⟩ := List.nodup_cons.1 h
      rw [reported, List.filterMap_cons]
      split
      · exact ih horder
      · next k hk =>
          obtain rfl : k.fd = fd := by simpa using List.find?_some hk
          refine List.nodup_cons.2 ⟨fun hmem => ?_, ih horder⟩
          obtain ⟨k', hk', heq⟩ := List.mem_map.1 hmem
          exact hfd ((show k'.fd = k.fd from heq) ▸ (reported_eq hk').2)

theorem reports_all (ks : List Knote) :
    List.Forall₂ Reports ((ks.map fun k => KEvent.descriptor k.fd false k.udata).filter isDescriptor) ks := by
  induction ks with
  | nil => exact .nil
  | cons k ks ih => exact .cons ⟨false, rfl⟩ ih

theorem queued_raceAnswer {order : List Fd} (horder : order.Nodup) (o : Op) (s : Listed × Queue) :
    queued raceEnv o (s.1.world, s.2) (raceAnswer order o s).1
      ((raceAnswer order o s).2.1.world, (raceAnswer order o s).2.2) := by
  refine ⟨sem_raceMemory order o s.1 s.2, ?_⟩
  cases o with
  | socket =>
      unfold raceAnswer raceMemory
      dsimp only
      split
      · next fd h => exact ⟨lowest_free h, rfl⟩
      · exact rfl
  | accept =>
      unfold raceAnswer raceMemory
      dsimp only
      split
      · split
        · next fd h => exact ⟨lowest_free h, rfl⟩
        · exact rfl
      · exact rfl
  | wait =>
      exact ⟨reported order s.2, fun k hk => (reported_eq hk).1, reported_nodup horder, reports_all _, rfl⟩
  | _ => exact rfl

/-- The world and the queue that the kernel has. -/
def asQueued (s : Listed × Queue) : World × Queue := (s.1.world, s.2)

@[irreducible] def raceBoot : (Except Bytes Bool × Unit) × (Listed × Queue) :=
  (boot raceEnv ()).exec (raceAnswer []) ({}, Queue.start raceEnv)

/-- The client has connected. -/
@[irreducible] def raceAccepted : (Except Bytes Bool × Unit) × (Listed × Queue) :=
  (turn raceEnv ()).exec (raceAnswer [3]) raceBoot.2

/-- A connection on the socket of the job is handled. -/
@[irreducible] def raceActivating : Prog calls (Except Bytes Bool × Unit) × (Listed × Queue) :=
  Prog.execFor (raceAnswer [4]) 14 (turn raceEnv ()) raceAccepted.2

@[irreducible] def raceWaiting : Prog calls (Except Bytes Bool × Unit) × (Listed × Queue) :=
  Prog.execFor (raceAnswer []) 11 (turn raceEnv ()) raceAccepted.2

/-- The request for shutdown, another client, and a connection on the socket of the job. -/
def raceEvents : List KEvent := [.descriptor 5 false 1, .descriptor 3 false 0, .descriptor 4 false 0]

/-- The batch has been reported. -/
@[irreducible] def raceReported : Listed × Queue := (raceAnswer [5, 3, 4] .wait raceWaiting.2).2

/-- The job has gone, and its descriptor is the other client's. -/
@[irreducible] def raceReused : (Except Bytes Unit × Unit) × (Listed × Queue) :=
  (handled raceEnv raceEvents (raceEvents.take 2) ()).exec (raceAnswer []) raceReported

def waits : Prog calls (Except Bytes Bool × Unit) → Bool
  | .call .wait _ => true
  | _ => false

/-- Is it about to launch the job of a label? -/
def activates (l : Label) : Prog calls (Except Bytes Bool × Unit) → Bool
  | .call (.act l' .activate) _ => l' = l
  | _ => false

theorem waits_iff {p : Prog calls (Except Bytes Bool × Unit)} (h : waits p = true) : ∃ k, p = .call .wait k := by
  unfold waits at h
  split at h
  · exact ⟨_, rfl⟩
  · cases h

theorem activates_iff {l : Label} {p : Prog calls (Except Bytes Bool × Unit)} (h : activates l p = true) :
    ∃ k, p = .call (.act l .activate) k := by
  unfold activates at h
  split at h
  · next l' k =>
      obtain rfl : l' = l := of_decide_eq_true h
      exact ⟨k, rfl⟩
  · cases h

theorem race_facts :
    (raceBoot.1 = (.ok false, ()) ∧ raceAccepted.1 = (.ok false, ()) ∧ waits raceWaiting.1 = true ∧
      activates (ascii "a") raceActivating.1 = true ∧
      (reported [5, 3, 4] raceWaiting.2.2).map (fun k => KEvent.descriptor k.fd false k.udata) = raceEvents ∧
      raceReused.1 = (.ok (), ())) ∧
    (ownersOf (asQueued raceReported).1.sup.jobs 5 = [] ∧
      ((asQueued raceReported).1.sup.clients[(5 : Fd)]?).map (·.generation) = some 1) ∧
    ((asQueued raceReused.2).1.sup.clients[(4 : Fd)]?).map (·.generation) = some 2 ∧
      (asQueued raceReused.2).2.files 4 = some 3 ∧
      ∀ k ∈ (asQueued raceReused.2).2.batch, k.fd = 4 → k.file = 1 := by
  decide +kernel

theorem reach_race {α : Type} {order : List Fd} {p r : Prog calls α} {s t : Listed × Queue} (horder : order.Nodup)
    (h : Prog.Reach (fun o s r t => (r, t) = raceAnswer order o s) p s r t) :
    Prog.Reach (queued raceEnv) p (asQueued s) r (asQueued t) := by
  refine Prog.Reach.along (π := asQueued) (fun o s r t heq => ?_) h
  have hanswer := queued_raceAnswer horder o s
  rwa [← heq] at hanswer

theorem begins_raceAccepted : Begins raceEnv (Listed.world {}) (turn raceEnv ()) (asQueued raceAccepted.2) := by
  obtain ⟨⟨hbooted, haccepted, -⟩, -⟩ := race_facts
  have hboot : Begins raceEnv (Listed.world {}) (.ret raceBoot.1) (asQueued raceBoot.2) := by
    unfold raceBoot
    exact Runs.start.reach (reach_race (s := ({}, Queue.start raceEnv)) .nil (Prog.reach_exec (fun _ _ => rfl) _ _))
  rw [hbooted] at hboot
  have haccept : Begins raceEnv (Listed.world {}) (.ret raceAccepted.1) (asQueued raceAccepted.2) := by
    unfold raceAccepted
    exact (Runs.again hboot rfl).reach (reach_race (List.nodup_singleton 3) (Prog.reach_exec (fun _ _ => rfl) _ _))
  rw [haccepted] at haccept
  exact .again haccept rfl

theorem begins_race : Begins raceEnv (Listed.world {}) raceWaiting.1 (asQueued raceWaiting.2) ∧
    Begins raceEnv (Listed.world {}) raceActivating.1 (asQueued raceActivating.2) := by
  unfold raceWaiting raceActivating
  exact ⟨begins_raceAccepted.reach (reach_race .nil (Prog.reach_execFor (fun _ _ => rfl) _ _ _)),
    begins_raceAccepted.reach (reach_race (List.nodup_singleton 4) (Prog.reach_execFor (fun _ _ => rfl) _ _ _))⟩

theorem raceAnswer_wait (order : List Fd) (s : Listed × Queue) :
    (raceAnswer order .wait s).1 = .ok ((reported order s.2).map fun k => .descriptor k.fd false k.udata) := rfl

theorem raceReported_waited :
    queued raceEnv .wait (asQueued raceWaiting.2) (.ok raceEvents) (asQueued raceReported) := by
  have horder : [5, 3, 4].Nodup := by simp
  have h := queued_raceAnswer horder .wait raceWaiting.2
  rw [raceAnswer_wait, race_facts.1.2.2.2.2.1] at h
  unfold raceReported
  exact h

theorem raceReused_handled :
    Prog.Reach (queued raceEnv) (handled raceEnv raceEvents (raceEvents.take 2) ()) (asQueued raceReported)
      (.ret (.ok (), ())) (asQueued raceReused.2) := by
  rw [← race_facts.1.2.2.2.2.2]
  unfold raceReused
  exact reach_race .nil (Prog.reach_exec (fun _ _ => rfl) _ _)

/-- The client is served from its own file. The report on descriptor 4 is the job's, whose
socket has been closed, and the connection that has the descriptor now is not served for it.
In the other run the job is launched by its own socket. -/
theorem event_hits_its_own_reused :
    (∃ knote ∈ (asQueued raceReported).2.batch, knote.fd = 5 ∧ knote.udata = 1 ∧
      ∃ client, Serviced raceEnv (asQueued raceReported).1.sup 5 1 client ∧
        (asQueued raceReported).2.files 5 = some knote.file) ∧
    (∃ knote ∈ (asQueued raceReused.2).2.batch, knote.fd = 4 ∧ knote.udata = 0 ∧
      (4 : Fd) ∈ (asQueued raceReused.2).1.sup.clients ∧ (asQueued raceReused.2).2.files 4 ≠ some knote.file ∧
      ∀ client, ¬ Serviced raceEnv (asQueued raceReused.2).1.sup 4 0 client) ∧
    ∃ k, raceActivating.1 = .call (.act (ascii "a") .activate) k ∧ Prompted (asQueued raceActivating.2) (ascii "a") := by
  obtain ⟨hwaiting, hactivating⟩ := begins_race
  obtain ⟨⟨-, -, hwaits, hactivates, -⟩, ⟨howners, hclient⟩, hreused, hfile, hbatch⟩ := race_facts
  obtain ⟨k, hk⟩ := waits_iff hwaits
  obtain ⟨-, hhits⟩ := event_hits_its_own hwaiting
  refine ⟨?_, ?_, ?_⟩
  · obtain ⟨knote, hmem, hfd, hudata, hown⟩ :=
      hhits k hk raceEvents _ raceReported_waited [] 5 false 1 _ _ rfl (.refl _ _)
    obtain ⟨client, hclient, hgeneration⟩ := Option.map_eq_some_iff.1 hclient
    have hserviced : Serviced raceEnv (asQueued raceReported).1.sup 5 1 client :=
      ⟨by decide, howners, hclient, hgeneration⟩
    exact ⟨knote, hmem, hfd, hudata, client, hserviced, hown client hserviced⟩
  · obtain ⟨knote, hmem, hfd, hudata, hown⟩ :=
      hhits k hk raceEvents _ raceReported_waited (raceEvents.take 2) 4 false 0 [] _ rfl raceReused_handled
    have hother : (asQueued raceReused.2).2.files 4 ≠ some knote.file := by
      rw [hfile, hbatch knote hmem hfd]
      decide
    refine ⟨knote, hmem, hfd, hudata, ?_, hother, fun client hserviced => hother (hown client hserviced)⟩
    rw [Std.ExtTreeMap.mem_iff_isSome_getElem?, ← Option.isSome_map, hreused]
    rfl
  · obtain ⟨k, hk⟩ := activates_iff hactivates
    exact ⟨k, hk, (event_hits_its_own hactivating).1 _ k hk⟩

end MiniDarwin.Launchd.Events
