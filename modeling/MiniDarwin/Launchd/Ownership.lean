import MiniDarwin.Launchd.Sockets

/-!
The sockets of the jobs over whole runs.

The functions of the supervisor keep the sockets in order: `load ()` opens
them, `jobs_.erase ()` closes them, `setOverride ()` writes beside them, and
no other makes a call that concerns them.
-/

namespace MiniDarwin.Launchd

open Posix (Bytes)
open Effects Effects.Proc

variable {env : Env} {P : Set Bytes} {w v : World} {g : Unit} {path : Bytes} {mine : List Listener} {α : Type}

/-! ### `load ()` -/

theorem throwIf_ok {p : Prop} [Decidable p] {message : Bytes} {x : Unit} (h : throwIf p message = .ok x) : ¬ p := by
  intro hp
  simp [throwIf, hp] at h

/-- `Sockets` names no path twice. -/
theorem socketConfigs_nodup {dict : List (Bytes × Value)} {sockets result : List SocketConfig}
    (h : socketConfigs dict sockets = .ok result) (hnodup : (sockets.map (·.path)).Nodup) :
    (result.map (·.path)).Nodup := by
  induction dict generalizing sockets with
  | nil =>
      cases h
      exact hnodup
  | cons entry rest ih =>
      obtain ⟨_, -, h⟩ := bind_eq_ok h
      obtain ⟨socket, -, h⟩ := bind_eq_ok h
      obtain ⟨_, hfresh, h⟩ := bind_eq_ok h
      refine ih h ?_
      have hne := throwIf_ok hfresh
      rw [List.map_append, List.nodup_append]
      refine ⟨hnodup, by simp, fun a ha b hb => ?_⟩
      obtain rfl : b = socket.path := by simpa using hb
      exact fun heq => hne (heq ▸ ha)

theorem parseConfig_nodup {value : Value} {config : Config} {euid : Nat} {foreground : Bool}
    (h : parseConfig euid value foreground = .ok config) : (config.sockets.map (·.path)).Nodup := by
  unfold parseConfig at h
  obtain ⟨dict, -, h⟩ := bind_eq_ok h
  -- the fields before the sockets
  iterate 21 obtain ⟨_, -, h⟩ := bind_eq_ok h
  obtain ⟨sockets, hsockets, h⟩ := bind_eq_ok h
  iterate 2 obtain ⟨_, -, h⟩ := bind_eq_ok h
  cases h
  show (sockets.map (·.path)).Nodup
  unfold field at hsockets
  split at hsockets
  · obtain ⟨items, -, hsockets⟩ := bind_eq_ok hsockets
    obtain ⟨_, -, hsockets⟩ := bind_eq_ok hsockets
    exact socketConfigs_nodup hsockets List.nodup_nil
  · cases hsockets
    exact List.nodup_nil

theorem owner_none {jobs : Map Label Job} {socket : SocketConfig} (h : owner jobs socket = none) {l : Label} {job : Job}
    (hj : jobs[l]? = some job) : socket.path ∉ job.config.sockets.map (·.path) := by
  have hfind := Option.map_eq_none_iff.1 h
  simpa using List.find?_eq_none.1 hfind (l, job) (Std.ExtTreeMap.mem_toList_iff_getElem?_eq_some.2 hj)

theorem minds_readFile {trusted : Bool} (hw : Owned env P mine w) :
    Minds env P (readFile env path trusted) (fun _ _ v => Stands env P mine w v) (fun _ _ v => Stands env P mine w v)
      g w := by
  refine minds_checked hw rfl rfl (fun file w1 h1 => ?_) fun _ _ h1 => h1
  refine minds_checked h1.2 rfl rfl (fun _ w2 h2 => ?_) fun _ _ h2 => h2.after h1.1
  have hsame := h2.1.trans h1.1
  refine wp_bind.2 (minds_lift (fun _ _ => ?_) fun _ _ => ⟨hsame, h2.2⟩)
  refine wp_bind.2 (minds_lift (fun _ _ => ?_) fun _ _ => ⟨hsame, h2.2⟩)
  refine minds_checked h2.2 rfl rfl (fun _ w3 h3 => ?_) fun _ _ h3 => h3.after hsame
  exact wp_bind.2 (minds_lift (fun _ _ => h3.after hsame) fun _ _ => h3.after hsame)

/-- Every run of `m` from a world with its sockets in order leaves a world with its sockets in order. -/
abbrev Tends (env : Env) (P : Set Bytes) (m : M α) : Prop :=
  Maintains (under (Known env P) (sem env)) (Careful env P) (Owned env P []) m

theorem tends_load (hP : Tidy env P) {path : Bytes} : Tends env P (load env path) := by
  intro g w hw
  unfold load
  refine wp_bind.2 ((minds_readFile hw).post (fun bytes g1 w1 h1 => ?_) fun _ _ _ h1 => h1.2)
  refine wp_bind.2 (minds_lift (fun value _ => ?_) fun _ _ => h1.2)
  refine wp_bind.2 (minds_lift (fun config hconfig => ?_) fun _ _ => h1.2)
  refine wp_bind.2 (minds_ask h1.2 (by simp) fun s w2 _ hs => ?_)
  obtain ⟨rfl, rfl⟩ := hs
  refine wp_bind.2 (minds_lift (fun _ _ => ?_) fun _ _ => h1.2)
  refine wp_bind.2 (minds_lift (fun _ hdup => ?_) fun _ _ => h1.2)
  -- no other job names one of the paths
  refine wp_bind.2 ((wp_each
    (fun rest _ v => v = w2 ∧ ∀ socket ∈ config.sockets, socket ∈ rest ∨ owner w2.sup.jobs socket = none)
    (fun socket rest g u hu => ?_) ⟨rfl, fun _ => .inl⟩).post ?_ fun _ _ _ => id)
  · obtain ⟨rfl, hrest⟩ := hu
    split
    · exact h1.2
    · next hnone =>
        refine ⟨rfl, fun other hother => ?_⟩
        obtain hm | hm := hrest other hother
        · obtain rfl | hm := List.mem_cons.1 hm
          · exact .inr hnone
          · exact .inl hm
        · exact .inr hm
  rintro _ g3 _ ⟨rfl, hown⟩
  refine wp_bind.2 ((minds_openListeners hP [] h1.2 (parseConfig_nodup hconfig) fun c hc a ha heq => ?_).post ?_
    fun _ _ _ hv => hv.2)
  · obtain ha | ⟨l, job, hj, ha⟩ := ha
    · cases ha
    · refine owner_none ((hown c hc).resolve_left (by simp)) hj ?_
      rw [← (h1.2.jobs l job hj).1]
      exact List.mem_map.2 ⟨a, ha, heq⟩
  · rintro listeners g4 w4 ⟨h4, hpaths⟩
    refine minds_ask h4.2 (by simp) fun _ v _ hs => ?_
    obtain rfl : v = _ := hs
    have hjob : Owned env P (config.job listeners).listeners w4 := h4.2
    refine hjob.emplace ?_ hpaths rfl rfl
    rw [h4.1]
    exact throwIf_ok hdup

/-! ### The other functions -/

theorem tends_ask {o : Op} (h : o.mild = true) : Tends env P (ask o) := fun _ _ hw =>
  minds_mild hw h fun _ _ _ hv => hv

theorem tends_lift {r : Result α} : Tends env P (lift r) := fun _ _ hw => minds_lift (fun _ _ => hw) fun _ _ => hw

theorem tends_orThrow {operation : Bytes} {r : Except Errno α} : Tends env P (orThrow env operation r) := fun _ _ hw =>
  minds_orThrow (fun _ _ => hw) fun _ => hw

theorem tends_eraseJob (hP : Tidy env P) {l : Label} {job : Job} (hw : Owned env P [] w) (hj : w.sup.jobs[l]? = some job) :
    Minds env P (eraseJob l job) (fun _ _ v => Owned env P [] v) (fun _ _ v => Owned env P [] v) g w := by
  refine wp_bind.2 (minds_ask hw (by simp) fun _ v _ hs => ?_)
  have hv : v = _ := hs
  exact (minds_closeListeners hP (hw.erase hj (by rw [hv]) (by rw [hv]))).post (fun _ _ _ hu => hu.2) fun _ _ _ => id

theorem tends_collectJob (hP : Tidy env P) {l : Label} : Tends env P (collectJob l) := by
  intro g w hw
  refine wp_bind.2 (minds_ask hw (by simp) fun s v _ hs => ?_)
  obtain ⟨rfl, rfl⟩ := hs
  split
  · exact hw
  · next job hj =>
      split
      · exact tends_eraseJob hP hw hj
      · exact tends_ask rfl g v hw

theorem tends_collectGarbage (hP : Tidy env P) : Tends env P collectGarbage :=
  .bind (tends_ask rfl) fun _ => .bind (.each (fun _ => tends_collectJob hP) _) fun _ =>
    .bind (tends_ask rfl) fun _ => .pure

theorem tends_shutdown (hP : Tidy env P) : Tends env P shutdown := by
  refine .bind (tends_ask rfl) fun s => ?_
  split
  · exact .pure
  · exact .bind (tends_ask rfl) fun _ => .bind (tends_collectGarbage hP) fun _ => .pure

theorem tends_readFile {trusted : Bool} : Tends env P (readFile env path trusted) := fun _ _ hw =>
  (minds_readFile hw).post (fun _ _ _ hv => hv.2) fun _ _ _ hv => hv.2

theorem tends_readOverrides : Tends env P (readOverrides env) := by
  unfold readOverrides
  refine .ite .pure (.bind (tends_ask rfl) fun r => ?_)
  split
  · exact .pure
  · refine .bind (.attempt ?_) fun r => ?_
    · exact .bind tends_readFile fun _ => .bind tends_lift fun _ => .bind tends_lift fun _ => tends_lift
    · split <;> exact tends_ask rfl

/-- The database is written beside the old one, which it then replaces. -/
theorem tends_setOverride (hP : Tidy env P) {label : Bytes} {disabled : Bool} :
    Tends env P (setOverride env label disabled) := by
  unfold setOverride
  refine .bind tends_lift fun _ => .bind tends_lift fun _ => .bind (tends_ask rfl) fun s => ?_
  refine .bind tends_lift fun bytes => .bind ?_ fun _ => ?_
  · unfold makeDirectory
    refine .ite .pure (.bind (tends_ask rfl) fun r => ?_)
    split
    · exact .pure
    · exact .pure
    · exact .fail
  show Tends env P (ask (.unlink env.temporary) >>= _)
  have hcreate : Tends env P (ask (.create env.temporary)) := by
    intro g w hw
    refine minds_ask hw (by simp) fun r v _ hs => ?_
    obtain ⟨rfl, -⟩ | ⟨q, hq, -, -, rfl⟩ := hs
    · exact hw
    · exact hw.put (hw.clear_own hP (.inr rfl) q hq) fun i hi => by cases hi
  have hwrite : Tends env P (ask (.write env.temporary bytes)) := by
    intro g w hw
    refine minds_ask hw (by simp) fun r v _ hs => ?_
    obtain ⟨rfl, -⟩ | ⟨q, data, trusted, hq, -, -, rfl⟩ := hs
    · exact hw
    · exact hw.put (hw.clear_own hP (.inr rfl) q hq) fun i hi => by cases hi
  have hrename : Tends env P (ask (.rename env.temporary env.overrides)) := by
    intro g w hw
    refine minds_ask hw (by simp) fun r v _ hs => ?_
    obtain ⟨rfl, -⟩ | ⟨q, q', hq, hq', -, -, rfl⟩ := hs
    · exact hw
    · exact hw.rename (hw.clear_own hP (.inr rfl) q hq) (hw.clear_own hP (.inl rfl) q' hq')
  refine .bind (fun g w hw => minds_unlink hw (hw.clear_own hP (.inr rfl)) fun _ _ hv => hv.2) fun _ => ?_
  refine .bind hcreate fun _ => .bind tends_orThrow fun _ => ?_
  refine .bind (tends_ask rfl) fun _ => .bind tends_orThrow fun _ => ?_
  refine .bind hwrite fun _ => .bind tends_orThrow fun _ => ?_
  refine .bind (tends_ask rfl) fun _ => .bind tends_orThrow fun _ => ?_
  exact .bind hrename fun _ => .bind tends_orThrow fun _ => tends_ask rfl

theorem tends_control {command : Bytes} {l : Label} {job : Job} : Tends env P (control command l job) := by
  unfold control
  exact .ite (.bind tends_lift fun _ => tends_ask rfl) (.ite (tends_ask rfl) (.ite (tends_ask rfl) .fail))

theorem tends_manage (hP : Tidy env P) {command argument : Bytes} : Tends env P (manage env command argument) := by
  refine .bind (tends_ask rfl) fun s => .bind tends_lift fun _ => .bind tends_lift fun _ => ?_
  refine .ite (.bind (tends_load hP) fun _ => .bind (tends_ask rfl) fun _ => .pure) ?_
  refine .ite (.bind (tends_setOverride hP) fun _ => .bind (tends_ask rfl) fun _ => .pure) ?_
  refine .ite (.bind (tends_setOverride hP) fun _ => .bind (tends_ask rfl) fun _ => .pure) ?_
  split
  · exact .fail
  · exact .bind tends_control fun _ => .pure

theorem tends_request (hP : Tidy env P) {bytes : Bytes} : Tends env P (request env bytes) := by
  refine .bind (.attempt (.bind tends_lift fun x => ?_)) fun r => ?_
  · refine .ite ?_ (.ite ?_ (tends_manage hP))
    · exact .bind (tends_ask rfl) fun _ => .bind tends_lift fun _ => .bind (tends_ask rfl) fun _ => .pure
    · exact .bind tends_lift fun _ => .bind (tends_ask rfl) fun _ => .bind (tends_shutdown hP) fun _ => .pure
  · split <;> exact .pure

theorem tends_acceptClients (n : Nat) : Tends env P (acceptClients n) := by
  induction n with
  | zero => exact .pure
  | succ n ih =>
      refine .bind (tends_ask rfl) fun r => ?_
      split
      · exact ih
      · exact .pure
      · refine .bind (tends_ask rfl) fun s => .ite ih (.bind (.bind (tends_ask rfl) fun r => ?_) fun _ => ih)
        split
        · exact .pure
        · exact .bind (tends_ask rfl) fun _ => tends_ask rfl

theorem tends_sendReply {fd : Fd} {client : Client} : Tends env P (sendReply fd client) := by
  refine .bind (tends_ask rfl) fun r => ?_
  split
  · exact .bind (tends_ask rfl) fun _ => .pure
  · exact .pure
  · exact .pure
  · exact .pure

theorem tends_service (hP : Tidy env P) {fd : Fd} {client : Client} : Tends env P (service env fd client) := by
  refine .bind (tends_ask rfl) fun now => .ite .pure (.ite tends_sendReply (.bind (tends_ask rfl) fun r => ?_))
  split
  · exact .pure
  · exact .pure
  · refine .bind (tends_ask rfl) fun _ => ?_
    unfold receive
    refine .ite .pure (.ite .pure (.ite .pure (.bind (tends_request hP) fun _ => .bind tends_lift fun _ => ?_)))
    exact .bind (tends_ask rfl) fun _ => .bind (tends_ask rfl) fun _ => tends_sendReply

theorem tends_reapRounds (n : Nat) : Tends env P (reapRounds env n) := by
  induction n with
  | zero => exact .pure
  | succ n ih =>
      refine .bind (tends_ask rfl) fun r => ?_
      split
      · exact .pure
      · exact .fail
      · refine .ite .pure (.bind (tends_ask rfl) fun s => .bind ?_ fun _ => .bind (tends_ask rfl) fun r => ?_)
        · unfold cleanGroup
          split
          · exact .pure
          · exact .bind (tends_ask rfl) fun _ => tends_ask rfl
        · split
          · exact .fail
          · exact .pure
          · refine .bind ?_ fun _ => ih
            unfold noteExit
            split
            · exact .pure
            · exact tends_ask rfl

theorem tends_tickJob (hP : Tidy env P) {now : Time} {l : Label} : Tends env P (tickJob now l) := by
  intro g w hw
  refine wp_bind.2 (minds_ask hw (by simp) fun s v _ hs => ?_)
  obtain ⟨rfl, rfl⟩ := hs
  split
  · exact hw
  · next job hj =>
      split
      · exact tends_eraseJob hP hw hj
      · refine Maintains.ite ?_ (.ite (.bind (tends_ask rfl) fun r => ?_) .pure) g v hw
        · exact .bind (tends_ask rfl) fun _ => tends_ask rfl
        · split
          · exact .pure
          · exact tends_ask rfl

theorem tends_handleEvent (hP : Tidy env P) {event : KEvent} : Tends env P (handleEvent env event) := by
  unfold handleEvent
  split
  · refine .ite (tends_acceptClients 32) (.bind (tends_ask rfl) fun s => .ite (.each (fun l => ?_) _) ?_)
    · refine .bind (tends_ask rfl) fun s => ?_
      split
      · exact .ite (tends_ask rfl) .pure
      · exact .pure
    · split
      · exact .pure
      · refine .ite .pure (.ite (tends_ask rfl) (.bind (.attempt (tends_service hP)) fun r => ?_))
        split
        · exact .pure
        · exact tends_ask rfl
  · exact .pure

theorem tends_handleSignal (hP : Tidy env P) {event : KEvent} : Tends env P (handleSignal env event) := by
  unfold handleSignal
  split
  · exact tends_shutdown hP
  · exact .ite (tends_shutdown hP) .pure
  · exact .pure

theorem tends_poll (hP : Tidy env P) : Tends env P (poll env) := by
  refine .bind (tends_ask rfl) fun _ => .bind tends_orThrow fun _ => .bind ?_ fun _ => .bind ?_ fun _ => ?_
  · refine .bind (tends_ask rfl) fun s => .each (fun entry => .ite (.each (fun listener => ?_) _) .pure) _
    exact .bind (tends_ask rfl) fun _ => tends_orThrow
  · refine .bind (tends_ask rfl) fun s => .each (fun entry => .bind (tends_ask rfl) fun now => ?_) _
    exact .ite (tends_ask rfl) (.bind (tends_ask rfl) fun _ => tends_orThrow)
  · refine .bind (tends_ask rfl) fun r => ?_
    split
    · exact .pure
    · exact .fail
    · exact .bind (.each (fun _ => tends_handleSignal hP) _) fun _ => .each (fun _ => tends_handleEvent hP) _

theorem tends_turn (hP : Tidy env P) : Tends env P (turn env) := by
  refine .bind (.bind ?_ fun _ => ?_) fun _ => .bind ?_ fun done => .ite ?_ ?_
  · exact .bind (tends_ask rfl) fun n => tends_reapRounds n
  · exact .bind (tends_ask rfl) fun now => .bind (tends_ask rfl) fun s => .each (fun l => tends_tickJob hP) _
  · exact .bind (tends_ask rfl) fun s => .ite (tends_collectGarbage hP) .pure
  · refine .bind (.ite .pure ?_) fun _ => .pure
    exact .bind (tends_ask rfl) fun s => .bind (tends_ask rfl) fun _ => .pure
  · exact .bind (tends_poll hP) fun _ => .pure

theorem tends_boot (hP : Tidy env P) : Tends env P (boot env) := by
  refine .bind tends_readOverrides fun _ => .bind (.each (fun path => .bind (tends_ask rfl) fun r => ?_) _) fun _ => .pure
  split
  · exact .pure
  · exact .each (fun file => .bind (.attempt (tends_load hP)) fun _ => .pure) _

/-! ### Runs -/

/-- A supervisor starts with no socket but its own. -/
theorem Owned.start (hP : Tidy env P) (hjobs : w.sup.jobs = ∅)
    (hfiles : ∀ q i, w.files q = some (.socket i) ↔ env.place env.socket = some q ∧ i = env.inode) :
    Owned env P [] w := by
  have hnone : ∀ {l : Label} {job : Job}, w.sup.jobs[l]? ≠ some job := by simp [hjobs]
  have hheld : ∀ {a}, ¬ Held w [] a := by
    rintro a (ha | ⟨l, job, hj, -⟩)
    · cases ha
    · exact hnone hj
  obtain ⟨q, hq⟩ := hP.control
  refine ⟨Option.bind_eq_some_iff.2 ⟨q, hq, (hfiles q _).2 ⟨hq, rfl⟩⟩, fun q1 q2 i h1 h2 => ?_,
    fun a ha => absurd ha hheld, fun a ha => absurd ha hheld, fun l job hj => absurd hj hnone,
    fun l job a l' job' b ha => absurd ha.1 hnone, List.nodup_nil, by simp⟩
  exact Option.some.inj (((hfiles q1 i).1 h1).1.symm.trans ((hfiles q2 i).1 h2).1)

/-- A run in which only the paths of `P` come up. -/
abbrev RunsAmong (env : Env) (P : Set Bytes) (w : World) (p : Prog calls (Except Bytes Bool × Unit)) (v : World) :
    Prop :=
  Runs (under (Known env P) (sem env)) (next env) (boot env ()) w p v

theorem Tends.spec {m : M Bool} (h : Tends env P m) (hw : Owned env P [] w) :
    (m ()).Spec (under (Known env P) (sem env)) (Careful env P) (fun _ u => Owned env P [] u) w := by
  refine Prog.Spec.mono (h () w hw) (fun _ _ => id) ?_
  rintro ⟨x | x, g⟩ v hx <;> exact hx

theorem RunsAmong.spec {p : Prog calls (Except Bytes Bool × Unit)} (h : RunsAmong env P w p v) (hP : Tidy env P)
    (hw : Owned env P [] w) :
    p.Spec (under (Known env P) (sem env)) (Careful env P) (fun _ u => Owned env P [] u) v := by
  refine Runs.spec h (Tends.spec (tends_boot hP) hw) ?_
  intro a u s hu hs
  unfold next at hs
  split at hs
  · cases hs
    exact Tends.spec (tends_turn hP) hu
  · cases hs

/-- At every moment of a run the sockets are in order. -/
theorem RunsAmong.owned {p : Prog calls (Except Bytes Bool × Unit)} (h : RunsAmong env P w p v) (hP : Tidy env P)
    (hw : Owned env P [] w) : ∃ mine, Owned env P mine v := by
  have hspec := RunsAmong.spec h hP hw
  cases p with
  | ret a => exact ⟨[], hspec⟩
  | call o k =>
      obtain ⟨mine, hv, -⟩ := hspec.1
      exact ⟨mine, hv⟩

/-- **The sockets of a job are its own.** As long as different paths lead to different places, it holds at every moment,
whatever is loaded and unloaded, whichever loads and calls fail: a job that is loaded has a listener for each socket it
names, and the path leads to the very socket that the listener listens on; no other job names the same place; and what
launchd removes is no socket of a job that is loaded, nor its own. -/
theorem sockets_are_own (env : Env) (P : Set Bytes) (w v : World) (p : Prog calls (Except Bytes Bool × Unit))
    (hP : Tidy env P) (hjobs : w.sup.jobs = ∅)
    (hfiles : ∀ q i, w.files q = some (.socket i) ↔ env.place env.socket = some q ∧ i = env.inode)
    (h : RunsAmong env P w p v) :
    v.fileAt env env.socket = some (.socket env.inode) ∧
    (∀ (l : Label) (job : Job), v.sup.jobs[l]? = some job →
      job.listeners.map (·.path) = job.config.sockets.map (·.path) ∧
      ∀ a ∈ job.listeners, v.fileAt env a.path = some (.socket a.inode) ∧ a.inode ≠ env.inode) ∧
    (∀ l job a l' job' b, Loaded v l job a → Loaded v l' job' b → l ≠ l' →
      env.place a.path ≠ env.place b.path ∧ a.inode ≠ b.inode) ∧
    (∀ path k i, p = .call (.unlink path) k → v.fileAt env path = some (.socket i) →
      i ≠ env.inode ∧ ∀ l job a, Loaded v l job a → a.inode ≠ i) := by
  have hstart := Owned.start hP hjobs hfiles
  obtain ⟨mine, hv⟩ := RunsAmong.owned h hP hstart
  -- one inode has one place, and a place one path
  have hpath : ∀ {l job a}, Loaded v l job a →
      ∃ q, env.place a.path = some q ∧ v.files q = some (.socket a.inode) := fun ha =>
    place_of_fileAt (hv.placed _ (.inr ⟨_, _, ha⟩))
  refine ⟨hv.control, fun l job hj => ⟨(hv.jobs l job hj).1, fun a ha => ?_⟩, ?_, ?_⟩
  · refine ⟨hv.placed a (.inr ⟨l, job, hj, ha⟩), fun heq => ?_⟩
    obtain ⟨q, hq, hfile⟩ := hpath ⟨hj, ha⟩
    obtain ⟨q', hq', hfile'⟩ := place_of_fileAt hv.control
    obtain rfl := hv.inodes q q' _ (heq ▸ hfile) hfile'
    exact hP.own _ (hv.known a (.inr ⟨l, job, hj, ha⟩)) env.socket (by simp) q hq hq'
  · intro l job a l' job' b ha hb hne
    obtain ⟨q, hq, hfile⟩ := hpath ha
    obtain ⟨q', hq', hfile'⟩ := hpath hb
    have hplace : env.place a.path ≠ env.place b.path := fun heq =>
      hv.apart l job a l' job' b ha hb hne
        (hP.apart _ (hv.known a (.inr ⟨l, job, ha⟩)) _ (hv.known b (.inr ⟨l', job', hb⟩)) q hq (heq ▸ hq))
    refine ⟨hplace, fun heq => hplace ?_⟩
    obtain rfl := hv.inodes q q' _ (heq ▸ hfile) hfile'
    exact hq.trans hq'.symm
  · rintro path k i rfl hi
    obtain ⟨mine, hcall, hclear⟩ := (RunsAmong.spec h hP hstart).1
    obtain ⟨hcontrol, hheld⟩ := hcall.strange (hclear path rfl) hi
    exact ⟨hcontrol, fun l job a ha => hheld a (.inr ⟨l, job, ha⟩)⟩

/-! ### A run

Two jobs, each with a socket, on a system where every call succeeds. -/

def socketText (label path : String) : Bytes :=
  ascii "<plist><dict><key>Label</key><string>" ++ ascii label ++
    ascii "</string><key>Program</key><string>/p</string><key>Sockets</key><dict><key>s</key><dict>" ++
    ascii "<key>SockPathName</key><string>" ++ ascii path ++ ascii "</string></dict></dict></dict></plist>"

def socketDoc (label path : String) : Doc where
  root := some (.plain (ascii "plist"), [.element (.plain (ascii "dict"))
    [.element (.plain (ascii "key")) [.text (ascii "Label")],
     .element (.plain (ascii "string")) [.text (ascii label)],
     .element (.plain (ascii "key")) [.text (ascii "Program")],
     .element (.plain (ascii "string")) [.text (ascii "/p")],
     .element (.plain (ascii "key")) [.text (ascii "Sockets")],
     .element (.plain (ascii "dict"))
      [.element (.plain (ascii "key")) [.text (ascii "s")],
       .element (.plain (ascii "dict"))
        [.element (.plain (ascii "key")) [.text (ascii "SockPathName")],
         .element (.plain (ascii "string")) [.text (ascii path)]]]]])
  intSubset := false

def socketEnv : Env :=
  { demoEnv with
    directories := [ascii "/d", ascii "/e"]
    xmlReadMemory := fun bytes =>
      if bytes = socketText "a" "/a" then some (socketDoc "a" "/a")
      else if bytes = socketText "b" "/b" then some (socketDoc "b" "/b")
      else none
    directory := fun path => some (if path = [] then 0 else 1) }

def socketPaths : List Bytes := [ascii "/a", ascii "/b"]

/-- The world, with the sockets in a list. -/
structure Listed where
  memory : World := {}
  sockets : List (Place × Nat) := [((0, ascii "s"), 1)]

def Listed.world (s : Listed) : World := { s.memory with files := fun q => (s.sockets.lookup q).map .socket }

/-- An inode that no socket has. -/
def Listed.fresh (s : Listed) : Nat :=
  1 + (s.sockets.map (·.2)).sum + (s.memory.sup.jobs.toList.flatMap fun e => e.2.listeners.map (·.inode)).sum + 1

def socketAnswer (o : Op) (s : Listed) : o.Ans × Listed :=
  match o with
  | .look => (s.memory.sup, s)
  | .emplace job => ((), { s with memory :=
      { s.memory with
        sup := { s.memory.sup with jobs := s.memory.sup.jobs.insertIfNew job.config.label job }
        trace := .loaded job.config :: s.memory.trace } })
  | .lstat path => ((s.world.fileAt socketEnv path).elim (.error .ENOENT) fun node => .ok node.kind, s)
  | .bind path =>
      match socketEnv.place path with
      | some q =>
          if s.sockets.lookup q = none then (.ok s.fresh, { s with sockets := (q, s.fresh) :: s.sockets })
          else (.error .EEXIST, s)
      | none => (.error .ENOENT, s)
  | .openRead path =>
      if s.world.fileAt socketEnv path = none then
        (.ok ⟨true, true, if path = ascii "/d/a.plist" then socketText "a" "/a" else socketText "b" "/b"⟩, s)
      else (.error .EEXIST, s)
  | .readdir _ => (some [ascii "a.plist"], s)
  | o => ((demoAnswer o s.memory).1, s)

/-- The calls of the run. -/
def Listed.allows (s : Listed) : Op → Bool
  | .lstat path | .bind path => path ∈ socketPaths
  | .openRead path => s.world.fileAt socketEnv path = none
  | .look | .emplace _ | .socket | .fcntl | .chmod _ | .listen _ | .fstat | .readAll _ | .readdir _ => true
  | _ => false

theorem Listed.fresh_spec (s : Listed) : ¬ s.world.InUse socketEnv s.fresh := by
  have hpos : 1 < s.fresh := by
    unfold Listed.fresh
    omega
  rintro (h | ⟨q, hq⟩ | ⟨l, job, hj, a, ha, h⟩)
  · have h1 : s.fresh = 1 := h
    omega
  · obtain ⟨i, hi, hnode⟩ := Option.map_eq_some_iff.1 hq
    obtain rfl : i = s.fresh := by simpa using hnode
    obtain ⟨before, after, heq, -⟩ := List.lookup_eq_some_iff.1 hi
    have hle : s.fresh ≤ (s.sockets.map (·.2)).sum :=
      List.le_sum_of_mem (List.mem_map.2 ⟨(q, s.fresh), by rw [heq]; simp, rfl⟩)
    unfold Listed.fresh at hle
    omega
  · have hmem : (l, job) ∈ s.memory.sup.jobs.toList := Std.ExtTreeMap.mem_toList_iff_getElem?_eq_some.2 hj
    have hle : a.inode ≤ (s.memory.sup.jobs.toList.flatMap fun e => e.2.listeners.map (·.inode)).sum :=
      List.le_sum_of_mem (List.mem_flatMap.2 ⟨_, hmem, List.mem_map.2 ⟨a, ha, rfl⟩⟩)
    unfold Listed.fresh at h
    omega

theorem Listed.world_bind (s : Listed) (q : Place) (i : Nat) :
    Listed.world { s with sockets := (q, i) :: s.sockets } = s.world.put q (some (.socket i)) := by
  unfold Listed.world World.put
  simp only [World.mk.injEq, true_and, and_true]
  funext q'
  by_cases heq : q' = q
  · simp [heq]
  · have hne : (q' == q) = false := by simpa using heq
    simp [Function.update_of_ne heq, List.lookup_cons, hne]

theorem sem_socketAnswer (o : Op) (s : Listed) (h : s.allows o = true) :
    under (Known socketEnv {path | path ∈ socketPaths}) (sem socketEnv) o s.world (socketAnswer o s).1
      (socketAnswer o s).2.world := by
  cases o with
  | look => exact ⟨trivial, rfl, rfl⟩
  | emplace job => exact ⟨trivial, rfl⟩
  | lstat path =>
      refine ⟨.inl (by simpa [Listed.allows] using h), rfl, ?_⟩
      dsimp only [socketAnswer]
      cases s.world.fileAt socketEnv path with
      | none => exact fun i hi => by cases hi
      | some node => exact .inl rfl
  | bind path =>
      refine ⟨show path ∈ socketPaths by simpa [Listed.allows] using h, ?_⟩
      dsimp only [socketAnswer]
      cases hq : socketEnv.place path with
      | none => exact .inl ⟨rfl, _, rfl⟩
      | some q =>
          dsimp only
          split
          · next hfree =>
              exact .inr ⟨q, s.fresh, hq, by simp [Listed.world, hfree], s.fresh_spec, rfl, s.world_bind q s.fresh⟩
          · exact .inl ⟨rfl, _, rfl⟩
  | openRead path =>
      have hnone : s.world.fileAt socketEnv path = none := by simpa [Listed.allows] using h
      refine ⟨trivial, by simp [socketAnswer, hnone], ?_⟩
      simp [hnone]
  | readAll file => exact ⟨trivial, rfl, fun data hd => by cases hd; rfl⟩
  | socket | fcntl | chmod | listen | fstat | readdir => exact ⟨trivial, rfl⟩
  | _ => cases h

/-- Both jobs have been loaded. -/
@[irreducible] def socketBoot : (Except Bytes Bool × Unit) × Listed := (boot socketEnv ()).exec socketAnswer {}

theorem socketBoot_loads :
    (boot socketEnv ()).heeds socketAnswer (fun o s => s.allows o) {} = true ∧
      (socketBoot.2.world.sup.jobs[ascii "a"]?).map (fun job => job.listeners.map (·.inode)) = some [3] ∧
      (socketBoot.2.world.sup.jobs[ascii "b"]?).map (fun job => job.listeners.map (·.inode)) = some [9] := by
  unfold socketBoot
  decide +kernel

theorem tidy_sockets : Tidy socketEnv {path | path ∈ socketPaths} := by
  have hown : ∀ path ∈ socketPaths, ∀ path' ∈ [socketEnv.socket, socketEnv.overrides, socketEnv.temporary],
      socketEnv.place path ≠ socketEnv.place path' := by decide
  have hapart : ∀ path ∈ socketPaths, ∀ path' ∈ socketPaths, socketEnv.place path = socketEnv.place path' →
      path = path' := by decide
  exact ⟨⟨_, rfl⟩, by decide, by decide, fun path hp path' hp' q hq hq' => hown path hp path' hp' (hq.trans hq'.symm),
    fun path hp path' hp' q hq hq' => hapart path hp path' hp' (hq.trans hq'.symm)⟩

theorem reaches_socketBoot : RunsAmong socketEnv {path | path ∈ socketPaths} (Listed.world {}) (.ret socketBoot.1)
    socketBoot.2.world := by
  have hheeds := socketBoot_loads.1
  unfold socketBoot
  refine Runs.start.reach (Prog.Reach.along (π := Listed.world)
    (t := fun o s r s' => s.allows o = true ∧ (r, s') = socketAnswer o s) ?_
    (Prog.reach_heeds (fun o s ho => ⟨ho, rfl⟩) hheeds))
  rintro o s r s' ⟨ho, heq⟩
  have h := sem_socketAnswer o s ho
  rwa [← heq] at h

theorem only_control (q : Place) (i : Nat) :
    (Listed.world {}).files q = some (.socket i) ↔ socketEnv.place socketEnv.socket = some q ∧ i = socketEnv.inode := by
  have hplace : socketEnv.place socketEnv.socket = some (0, ascii "s") := by decide
  have hinode : socketEnv.inode = 1 := rfl
  have hfiles : (Listed.world {}).files q = (([((0, ascii "s"), 1)] : List (Place × Nat)).lookup q).map .socket := rfl
  rw [hplace, hinode, hfiles, Option.some.injEq]
  by_cases heq : q = (0, ascii "s")
  · simp [heq, eq_comm]
  · have hne : (q == (0, ascii "s")) = false := by simpa using heq
    simp [List.lookup_cons, hne, Ne.symm heq]

theorem sockets_are_own_two :
    ∃ (job job' : Job) (a b : Listener), Loaded socketBoot.2.world (ascii "a") job a ∧
      Loaded socketBoot.2.world (ascii "b") job' b ∧
      socketBoot.2.world.fileAt socketEnv a.path = some (.socket 3) ∧
      socketBoot.2.world.fileAt socketEnv b.path = some (.socket 9) ∧
      socketEnv.place a.path ≠ socketEnv.place b.path := by
  obtain ⟨-, ha, hb⟩ := socketBoot_loads
  obtain ⟨-, hplaced, hapart, -⟩ := sockets_are_own socketEnv {path | path ∈ socketPaths} _ _ _ tidy_sockets rfl
    only_control reaches_socketBoot
  obtain ⟨job, hja, hla⟩ := Option.map_eq_some_iff.1 ha
  obtain ⟨job', hjb, hlb⟩ := Option.map_eq_some_iff.1 hb
  obtain ⟨a, hx, hix⟩ := List.map_eq_singleton_iff.1 hla
  obtain ⟨b, hy, hiy⟩ := List.map_eq_singleton_iff.1 hlb
  have hma : a ∈ job.listeners := by simp [hx]
  have hmb : b ∈ job'.listeners := by simp [hy]
  refine ⟨job, job', a, b, ⟨hja, hma⟩, ⟨hjb, hmb⟩, ?_, ?_, ?_⟩
  · rw [((hplaced _ job hja).2 a hma).1, hix]
  · rw [((hplaced _ job' hjb).2 b hmb).1, hiy]
  · exact (hapart _ job a _ job' b ⟨hja, hma⟩ ⟨hjb, hmb⟩ (by decide)).1

end MiniDarwin.Launchd
