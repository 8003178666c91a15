import MiniDarwin.Launchd.Overrides

/-!
The sockets of the jobs.

`load ()` compares the paths of sockets as strings, and the kernel finds one
place by many strings. `Tidy` is what the comparison takes for granted: of
the paths that come up, different ones lead to different places, and none of
them to a file of launchd's own. In such a run every path names the socket of
its job as long as the job is loaded, whichever loads fail and whenever, and
launchd removes no socket but those it has made for a job that is gone.
-/

namespace MiniDarwin.Launchd

open Posix (Bytes)
open Effects Effects.Proc

variable {env : Env} {P : Set Bytes} {mine : List Listener} {w v u : World} {g : Unit} {path : Bytes} {q : Place}
  {α β : Type}

/-! ### Paths and places -/

/-- Where `setOverride ()` writes the database before it renames it. -/
def Env.temporary (env : Env) : Bytes := env.overrides ++ ascii ".new"

/-- Different paths of `P` lead to different places, and none of them to a file of launchd's own. -/
structure Tidy (env : Env) (P : Set Bytes) : Prop where
  control : ∃ q, env.place env.socket = some q
  overrides : env.place env.overrides ≠ env.place env.socket
  temporary : env.place env.temporary ≠ env.place env.socket
  own : ∀ path ∈ P, ∀ path' ∈ [env.socket, env.overrides, env.temporary], ∀ q, env.place path = some q →
    env.place path' ≠ some q
  apart : ∀ path ∈ P, ∀ path' ∈ P, ∀ q, env.place path = some q → env.place path' = some q → path = path'

/-- The call is about sockets at known paths, or about none. -/
def Known (env : Env) (P : Set Bytes) : Op → World → Prop
  | .lstat path, _ => path ∈ P ∨ path = env.overrides
  | .bind path, _ => path ∈ P
  | _, _ => True

/-- A listener of a job that is loaded. -/
def Loaded (w : World) (l : Label) (job : Job) (listener : Listener) : Prop :=
  w.sup.jobs[l]? = some job ∧ listener ∈ job.listeners

/-- A listener that is open: one of these, or one of a job that is loaded. -/
def Held (w : World) (mine : List Listener) (listener : Listener) : Prop :=
  listener ∈ mine ∨ ∃ l job, Loaded w l job listener

/-- Every socket that is open is at its path, `mine` being those of a job that is not loaded yet, or no more. -/
structure Owned (env : Env) (P : Set Bytes) (mine : List Listener) (w : World) : Prop where
  control : w.fileAt env env.socket = some (.socket env.inode)
  inodes : ∀ q q' i, w.files q = some (.socket i) → w.files q' = some (.socket i) → q = q'
  known : ∀ listener, Held w mine listener → listener.path ∈ P
  placed : ∀ listener, Held w mine listener → w.fileAt env listener.path = some (.socket listener.inode)
  jobs : ∀ (l : Label) (job : Job), w.sup.jobs[l]? = some job →
    job.listeners.map (·.path) = job.config.sockets.map (·.path) ∧ (job.listeners.map (·.path)).Nodup
  apart : ∀ l job listener l' job' listener', Loaded w l job listener → Loaded w l' job' listener' → l ≠ l' →
    listener.path ≠ listener'.path
  nodup : (mine.map (·.path)).Nodup
  fresh : ∀ a ∈ mine, ∀ l job listener, Loaded w l job listener → a.path ≠ listener.path

/-- No socket of launchd's is at the path, nor should be. -/
def Clear (env : Env) (w : World) (mine : List Listener) (path : Bytes) : Prop :=
  ∀ q, env.place path = some q → env.place env.socket ≠ some q ∧
    ∀ listener, Held w mine listener → env.place listener.path ≠ some q

theorem place_of_fileAt {node : Node} (h : w.fileAt env path = some node) :
    ∃ q, env.place path = some q ∧ w.files q = some node := Option.bind_eq_some_iff.1 h

namespace Owned

/-- Files that are not at these places are as they were. -/
theorem files (h : Owned env P mine w) (hsup : v.sup = w.sup)
    (hkeep : ∀ q i, w.files q = some (.socket i) →
      (env.place env.socket = some q ∨ ∃ listener, Held w mine listener ∧ env.place listener.path = some q) →
      v.files q = some (.socket i))
    (hinodes : ∀ q q' i, v.files q = some (.socket i) → v.files q' = some (.socket i) → q = q') :
    Owned env P mine v := by
  have hheld : ∀ {listener}, Held v mine listener → Held w mine listener := by
    intro listener hl
    unfold Held Loaded at hl ⊢
    rwa [hsup] at hl
  have hloaded : ∀ {l job listener}, Loaded v l job listener → Loaded w l job listener := by
    intro l job listener hl
    unfold Loaded at hl ⊢
    rwa [hsup] at hl
  refine ⟨?_, hinodes, fun a ha => h.known a (hheld ha), fun a ha => ?_, ?_, ?_, h.nodup, ?_⟩
  · obtain ⟨q, hq, hfile⟩ := place_of_fileAt h.control
    exact Option.bind_eq_some_iff.2 ⟨q, hq, hkeep q _ hfile (.inl hq)⟩
  · obtain ⟨q, hq, hfile⟩ := place_of_fileAt (h.placed a (hheld ha))
    exact Option.bind_eq_some_iff.2 ⟨q, hq, hkeep q _ hfile (.inr ⟨a, hheld ha, hq⟩)⟩
  · rw [hsup]
    exact h.jobs
  · exact fun l job a l' job' b ha hb => h.apart l job a l' job' b (hloaded ha) (hloaded hb)
  · exact fun a ha l job b hb => h.fresh a ha l job b (hloaded hb)

/-- A change at a place that is nobody's. -/
theorem put (h : Owned env P mine w) {node : Option Node}
    (hq : env.place env.socket ≠ some q ∧ ∀ listener, Held w mine listener → env.place listener.path ≠ some q)
    (hnode : ∀ i, node = some (.socket i) → ∀ q', w.files q' ≠ some (.socket i)) :
    Owned env P mine (w.put q node) := by
  refine h.files rfl ?_ ?_
  · rintro q' i hi hwho
    have hne : q' ≠ q := by
      rintro rfl
      obtain hplace | ⟨a, ha, hplace⟩ := hwho
      · exact hq.1 hplace
      · exact hq.2 a ha hplace
    simpa [World.put, Function.update_of_ne hne] using hi
  · intro q1 q2 i h1 h2
    by_cases hq1 : q1 = q <;> by_cases hq2 : q2 = q
    · rw [hq1, hq2]
    · simp only [World.put, hq1, Function.update_self, Function.update_of_ne hq2] at h1 h2
      exact absurd h2 (hnode i h1 q2)
    · simp only [World.put, hq2, Function.update_self, Function.update_of_ne hq1] at h1 h2
      exact absurd h1 (hnode i h2 q1)
    · simp only [World.put, Function.update_of_ne hq1, Function.update_of_ne hq2] at h1 h2
      exact h.inodes q1 q2 i h1 h2

/-- A path that is given up. -/
theorem drop {a : Listener} (h : Owned env P (a :: mine) w) : Owned env P mine w := by
  have hheld : ∀ {listener}, Held w mine listener → Held w (a :: mine) listener := fun hl =>
    hl.imp (List.mem_cons_of_mem a) id
  exact ⟨h.control, h.inodes, fun b hb => h.known b (hheld hb), fun b hb => h.placed b (hheld hb), h.jobs, h.apart,
    (List.nodup_cons.1 h.nodup).2, fun b hb => h.fresh b (List.mem_cons_of_mem a hb)⟩

/-- Nothing is in the way of a path that no other has. -/
theorem clear (hP : Tidy env P) (h : Owned env P mine w) (hpath : path ∈ P)
    (hfresh : ∀ listener, Held w mine listener → listener.path ≠ path) : Clear env w mine path := by
  intro q hq
  refine ⟨hP.own path hpath env.socket (by simp) q hq, fun a ha hplace => hfresh a ha ?_⟩
  exact hP.apart _ (h.known a ha) _ hpath q hplace hq

/-- Nothing is in the way of launchd's own files. -/
theorem clear_own (hP : Tidy env P) (h : Owned env P mine w)
    (hpath : path = env.overrides ∨ path = env.temporary) : Clear env w mine path := by
  intro q hq
  have hmem : path ∈ [env.socket, env.overrides, env.temporary] := by
    obtain rfl | rfl := hpath <;> simp
  refine ⟨fun hs => ?_, fun a ha hplace => hP.own _ (h.known a ha) path hmem q hplace hq⟩
  obtain rfl | rfl := hpath
  · exact hP.overrides (hq.trans hs.symm)
  · exact hP.temporary (hq.trans hs.symm)

/-- The path of one that is given up is clear. -/
theorem clear_dropped (hP : Tidy env P) {a : Listener} (h : Owned env P (a :: mine) w) :
    Clear env w mine a.path := by
  refine h.drop.clear hP (h.known a (.inl (List.mem_cons_self ..))) ?_
  rintro b (hb | ⟨l, job, hb⟩) heq
  · exact (List.nodup_cons.1 h.nodup).1 (List.mem_map.2 ⟨b, hb, heq⟩)
  · exact h.fresh a (List.mem_cons_self ..) l job b hb heq.symm

/-- The socket at a clear path is not one of launchd's. -/
theorem strange (h : Owned env P mine w) (hpath : Clear env w mine path) {i : Nat}
    (hi : w.fileAt env path = some (.socket i)) :
    i ≠ env.inode ∧ ∀ listener, Held w mine listener → listener.inode ≠ i := by
  obtain ⟨q, hq, hfile⟩ := place_of_fileAt hi
  obtain ⟨hcontrol, hheld⟩ := hpath q hq
  constructor
  · rintro rfl
    obtain ⟨q', hq', hfile'⟩ := place_of_fileAt h.control
    obtain rfl := h.inodes q q' _ hfile hfile'
    exact hcontrol hq'
  · rintro a ha rfl
    obtain ⟨q', hq', hfile'⟩ := place_of_fileAt (h.placed a ha)
    obtain rfl := h.inodes q q' _ hfile hfile'
    exact hheld a ha hq'

/-- The jobs have changed, but not their listeners. -/
theorem of_jobs (h : Owned env P mine w) (hfiles : v.files = w.files)
    (hjobs : ∀ (l : Label) (job' : Job), v.sup.jobs[l]? = some job' →
      ∃ job : Job, w.sup.jobs[l]? = some job ∧ job'.listeners = job.listeners ∧ job'.config = job.config) :
    Owned env P mine v := by
  have hloaded : ∀ {l job' listener}, Loaded v l job' listener → ∃ job, Loaded w l job listener := by
    rintro l job' listener ⟨hj, hm⟩
    obtain ⟨job, hj', hlisteners, -⟩ := hjobs l job' hj
    exact ⟨job, hj', hlisteners ▸ hm⟩
  have hheld : ∀ {listener}, Held v mine listener → Held w mine listener := by
    rintro listener (hm | ⟨l, job', hl⟩)
    · exact .inl hm
    · obtain ⟨job, hl'⟩ := hloaded hl
      exact .inr ⟨l, job, hl'⟩
  have hfileAt : ∀ path, v.fileAt env path = w.fileAt env path := by
    intro path
    unfold World.fileAt
    rw [hfiles]
  refine ⟨(hfileAt _).trans h.control, ?_, fun a ha => h.known a (hheld ha),
    fun a ha => (hfileAt _).trans (h.placed a (hheld ha)), ?_, ?_, h.nodup, ?_⟩
  · rw [hfiles]
    exact h.inodes
  · intro l job' hj
    obtain ⟨job, hj', hlisteners, hconfig⟩ := hjobs l job' hj
    rw [hlisteners, hconfig]
    exact h.jobs l job hj'
  · intro l job a l' job' b ha hb
    obtain ⟨_, ha'⟩ := hloaded ha
    obtain ⟨_, hb'⟩ := hloaded hb
    exact h.apart l _ a l' _ b ha' hb'
  · intro a ha l job b hb
    obtain ⟨_, hb'⟩ := hloaded hb
    exact h.fresh a ha l _ b hb'

/-- The sockets of a new job are its own from now on. -/
theorem emplace {job : Job} (h : Owned env P job.listeners w) (hnew : job.config.label ∉ w.sup.jobs)
    (hpaths : job.listeners.map (·.path) = job.config.sockets.map (·.path)) (hfiles : v.files = w.files)
    (hjobs : v.sup.jobs = w.sup.jobs.insertIfNew job.config.label job) : Owned env P [] v := by
  have hj : ∀ {l : Label} {job' : Job}, v.sup.jobs[l]? = some job' →
      (l = job.config.label ∧ job' = job) ∨ w.sup.jobs[l]? = some job' := by
    intro l job' hj'
    rw [hjobs, Std.ExtTreeMap.getElem?_insertIfNew] at hj'
    split at hj'
    · next heq =>
        cases hj'
        exact .inl ⟨by simpa using Eq.symm (by simpa using heq.1), rfl⟩
    · exact .inr hj'
  have hheld : ∀ {listener}, Held v [] listener → Held w job.listeners listener := by
    rintro listener (hm | ⟨l, job', hl, hm⟩)
    · cases hm
    · obtain ⟨rfl, rfl⟩ | hj' := hj hl
      · exact .inl hm
      · exact .inr ⟨l, job', hj', hm⟩
  have hfileAt : ∀ path, v.fileAt env path = w.fileAt env path := by
    intro path
    unfold World.fileAt
    rw [hfiles]
  refine ⟨(hfileAt _).trans h.control, ?_, fun a ha => h.known a (hheld ha),
    fun a ha => (hfileAt _).trans (h.placed a (hheld ha)), ?_, ?_, by simp, by simp⟩
  · rw [hfiles]
    exact h.inodes
  · intro l job' hj'
    obtain ⟨rfl, rfl⟩ | hj' := hj hj'
    · exact ⟨hpaths, h.nodup⟩
    · exact h.jobs l job' hj'
  · rintro l job1 a l' job2 b ⟨h1, ha⟩ ⟨h2, hb⟩ hne
    obtain ⟨rfl, rfl⟩ | h1 := hj h1 <;> obtain ⟨rfl, rfl⟩ | h2 := hj h2
    · exact absurd rfl hne
    · exact h.fresh a ha l' job2 b ⟨h2, hb⟩
    · exact (h.fresh b hb l job1 a ⟨h1, ha⟩).symm
    · exact h.apart l job1 a l' job2 b ⟨h1, ha⟩ ⟨h2, hb⟩ hne

/-- The sockets of a job that is gone are still there. -/
theorem erase {l : Label} {job : Job} (h : Owned env P [] w) (hj : w.sup.jobs[l]? = some job)
    (hfiles : v.files = w.files) (hjobs : v.sup.jobs = w.sup.jobs.erase l) : Owned env P job.listeners v := by
  have hrest : ∀ {l' : Label} {job' : Job}, v.sup.jobs[l']? = some job' → l' ≠ l ∧ w.sup.jobs[l']? = some job' := by
    intro l' job' hj'
    rw [hjobs] at hj'
    exact mem_erase hj'
  have hheld : ∀ {listener}, Held v job.listeners listener → Held w [] listener := by
    rintro listener (hm | ⟨l', job', hl, hm⟩)
    · exact .inr ⟨l, job, hj, hm⟩
    · exact .inr ⟨l', job', (hrest hl).2, hm⟩
  have hfileAt : ∀ path, v.fileAt env path = w.fileAt env path := by
    intro path
    unfold World.fileAt
    rw [hfiles]
  refine ⟨(hfileAt _).trans h.control, ?_, fun a ha => h.known a (hheld ha),
    fun a ha => (hfileAt _).trans (h.placed a (hheld ha)), ?_, ?_, (h.jobs l job hj).2, ?_⟩
  · rw [hfiles]
    exact h.inodes
  · exact fun l' job' hj' => h.jobs l' job' (hrest hj').2
  · rintro l1 job1 a l2 job2 b ⟨h1, ha⟩ ⟨h2, hb⟩
    exact h.apart l1 job1 a l2 job2 b ⟨(hrest h1).2, ha⟩ ⟨(hrest h2).2, hb⟩
  · rintro a ha l' job' b ⟨h', hb⟩
    exact h.apart l job a l' job' b ⟨hj, ha⟩ ⟨(hrest h').2, hb⟩ (hrest h').1.symm

/-- One more socket is open. -/
theorem bind {a : Listener} (h : Owned env P mine w) (hplace : env.place a.path = some q) (hfree : w.files q = none)
    (hinode : ¬ w.InUse env a.inode) (hknown : a.path ∈ P)
    (hfresh : ∀ listener, Held w mine listener → listener.path ≠ a.path) :
    Owned env P (a :: mine) (w.put q (some (.socket a.inode))) := by
  have hput : Owned env P mine (w.put q (some (.socket a.inode))) := by
    refine h.put ⟨fun hs => ?_, fun b hb hs => ?_⟩ fun i hi q' hq' => ?_
    · obtain ⟨q', hq', hfile⟩ := place_of_fileAt h.control
      obtain rfl := Option.some.inj (hq'.symm.trans hs)
      simp [hfree] at hfile
    · obtain ⟨q', hq', hfile⟩ := place_of_fileAt (h.placed b hb)
      obtain rfl := Option.some.inj (hq'.symm.trans hs)
      simp [hfree] at hfile
    · cases hi
      exact hinode (.inr (.inl ⟨q', hq'⟩))
  have hheld : ∀ {listener}, Held (w.put q (some (.socket a.inode))) (a :: mine) listener →
      listener = a ∨ Held (w.put q (some (.socket a.inode))) mine listener := by
    rintro listener (hm | hl)
    · exact (List.mem_cons.1 hm).imp_right .inl
    · exact .inr (.inr hl)
  refine ⟨hput.control, hput.inodes, fun b hb => ?_, fun b hb => ?_, hput.jobs, hput.apart, ?_, ?_⟩
  · obtain rfl | hb := hheld hb
    · exact hknown
    · exact hput.known b hb
  · obtain rfl | hb := hheld hb
    · exact fileAt_put_self hplace
    · exact hput.placed b hb
  · rw [List.map_cons, List.nodup_cons]
    refine ⟨fun hm => ?_, h.nodup⟩
    obtain ⟨b, hb, heq⟩ := List.mem_map.1 hm
    exact hfresh b (.inl hb) heq
  · intro b hb l job listener hl
    obtain rfl | hb := List.mem_cons.1 hb
    · exact (hfresh listener (.inr ⟨l, job, hl⟩)).symm
    · exact h.fresh b hb l job listener hl

/-- The database takes the place of what was there. -/
theorem rename (h : Owned env P mine w) {q' : Place}
    (hq : env.place env.socket ≠ some q ∧ ∀ listener, Held w mine listener → env.place listener.path ≠ some q)
    (hq' : env.place env.socket ≠ some q' ∧ ∀ listener, Held w mine listener → env.place listener.path ≠ some q') :
    Owned env P mine ((w.put q' (w.files q)).put q none) := by
  have hfiles : ∀ q1, ((w.put q' (w.files q)).put q none).files q1 =
      if q1 = q then none else if q1 = q' then w.files q else w.files q1 := by
    intro q1
    simp only [World.put, Function.update_apply]
  refine h.files rfl ?_ ?_
  · rintro q1 i hi hwho
    have hne : ∀ {q2}, (env.place env.socket ≠ some q2 ∧
        ∀ listener, Held w mine listener → env.place listener.path ≠ some q2) → q1 ≠ q2 := by
      rintro q2 hq2 rfl
      obtain hplace | ⟨a, ha, hplace⟩ := hwho
      · exact hq2.1 hplace
      · exact hq2.2 a ha hplace
    rw [hfiles, if_neg (hne hq), if_neg (hne hq')]
    exact hi
  · intro q1 q2 i h1 h2
    rw [hfiles] at h1 h2
    -- the inode that was at the one place is at the other now
    have hback : ∀ {q1}, (if q1 = q then none else if q1 = q' then w.files q else w.files q1) =
        some (.socket i) → q1 = q' ∧ w.files q = some (.socket i) ∨ q1 ≠ q ∧ w.files q1 = some (.socket i) := by
      intro q1 h1
      split at h1
      · cases h1
      · next hne =>
          split at h1
          · next heq => exact .inl ⟨heq, h1⟩
          · exact .inr ⟨hne, h1⟩
    obtain ⟨e1, f1⟩ | ⟨n1, f1⟩ := hback h1 <;> obtain ⟨e2, f2⟩ | ⟨n2, f2⟩ := hback h2
    · rw [e1, e2]
    · exact absurd (h.inodes q2 q i f2 f1) n2
    · exact absurd (h.inodes q1 q i f1 f2) n1
    · exact h.inodes q1 q2 i f1 f2

end Owned

/-! ### Calls -/

theorem Job.stop_listeners (time : Time) (job : Job) :
    (job.stop time).1.listeners = job.listeners := by
  unfold Job.stop
  dsimp only
  split
  · rfl
  · split <;> rfl

theorem Act.apply_listeners (a : Act) (down : Bool) (time : Time) (reads : List PipeRead) (job : Job) :
    (a.apply env down time reads job).1.listeners = job.listeners := by
  cases a with
  | start =>
      simp only [Act.apply, Job.start]
      split
      · next hs =>
          split at hs
          · cases hs
          · cases hs
            split <;> rfl
      · rfl
  | stop => exact job.stop_listeners time
  | unload => exact Job.stop_listeners time { job with remove := true }
  | retire => exact job.stop_listeners time
  | escalate now =>
      obtain heq | ⟨-, -, -, heq⟩ | ⟨-, -, -, heq⟩ := job.escalate_cases down now <;>
        simp [Act.apply, heq, Job.exited]
  | drain =>
      obtain ⟨_, _, _, _, heq, -⟩ := job.drainExecError_eq env.setupError reads
      simp [Act.apply, heq]
  | reaped status => cases status <;> rfl
  | launchFailed | activate => rfl

/-- The call touches no file that launchd has made, and no listener. -/
def Op.mild : Op → Bool
  | .unlink _ | .bind _ | .create _ | .write _ _ | .rename _ _ | .emplace _ | .erase _ => false
  | _ => true

/-- A job that has changed has the listeners it had. -/
theorem Owned.insert (h : Owned env P mine w) {l : Label} {job job' : Job} (hj : w.sup.jobs[l]? = some job)
    (hlisteners : job'.listeners = job.listeners) (hconfig : job'.config = job.config) (hfiles : v.files = w.files)
    (hjobs : v.sup.jobs = w.sup.jobs.insert l job') : Owned env P mine v := by
  refine h.of_jobs hfiles fun l' job'' hj' => ?_
  rw [hjobs] at hj'
  obtain ⟨rfl, rfl⟩ | ⟨-, hj'⟩ := mem_insert hj'
  · exact ⟨job, hj, hlisteners, hconfig⟩
  · exact ⟨job'', hj', rfl, rfl⟩

theorem Owned.kept (h : Owned env P mine w) (hfiles : v.files = w.files) (hjobs : v.sup.jobs = w.sup.jobs) :
    Owned env P mine v := by
  refine h.of_jobs hfiles fun l job hj => ⟨job, ?_, rfl, rfl⟩
  rwa [← hjobs]

theorem Owned.call {o : Op} {r : o.Ans} (h : Owned env P mine w) (hmild : o.mild = true) (hs : sem env o w r v) :
    Owned env P mine v := by
  cases o with
  | unlink | bind | create | write | rename | emplace | erase => cases hmild
  | look =>
      obtain ⟨-, rfl⟩ := hs
      exact h
  | act l a =>
      obtain ⟨time, reads, -, rfl⟩ := hs
      unfold World.act
      split
      · exact h.kept rfl rfl
      · next job hj => exact h.insert hj (Act.apply_listeners a _ time reads job) (Act.apply_config ..) rfl rfl
  | spawn l =>
      obtain ⟨time, outcome, -, -, rfl⟩ := hs
      unfold World.spawn
      split
      · exact h.kept rfl rfl
      · next job hj => exact h.insert hj (by cases outcome <;> rfl) (Job.spawn_config ..) rfl rfl
  | now =>
      obtain ⟨-, rfl⟩ := hs
      exact h.kept rfl rfl
  | recv | send | lstat | openRead | readAll =>
      obtain ⟨rfl, -⟩ := hs
      exact h
  | beginShutdown | setReboot | setOverrides | answer | addClient | dropClient | feed | respond
  | sent | killGroup =>
      obtain rfl : v = _ := hs
      exact h.kept rfl rfl
  | _ =>
      obtain rfl : v = w := hs
      exact h

/-- What holds whenever a call is made: every socket is where it should be, and what is removed is no socket of
launchd's that is in use. -/
def Careful (env : Env) (P : Set Bytes) (o : Op) (w : World) : Prop :=
  ∃ mine, Owned env P mine w ∧ ∀ path, o = .unlink path → Clear env w mine path

/-- The specification of a function of the supervisor in a run with known paths. -/
abbrev Minds (env : Env) (P : Set Bytes) (m : M α) (Q : α → Unit → World → Prop) (D : Bytes → Unit → World → Prop)
    (g : Unit) (w : World) : Prop :=
  wp (under (Known env P) (sem env)) (Careful env P) m Q D g w

variable {D : Bytes → Unit → World → Prop}

theorem minds_ask {o : Op} {Q : o.Ans → Unit → World → Prop} (hw : Owned env P mine w)
    (hunlink : ∀ path, o ≠ .unlink path) (h : ∀ r v, Known env P o w → sem env o w r v → Q r g v) :
    Minds env P (ask o) Q D g w :=
  ⟨⟨mine, hw, fun path ho => absurd ho (hunlink path)⟩, fun r v hs => h r v hs.1 hs.2⟩

/-- A call that changes neither the jobs nor a file. -/
theorem minds_mild {o : Op} {Q : o.Ans → Unit → World → Prop} (hw : Owned env P mine w) (hmild : o.mild = true)
    (h : ∀ r v, Known env P o w → Owned env P mine v → Q r g v) : Minds env P (ask o) Q D g w := by
  refine minds_ask hw (fun path ho => ?_) fun r v hk hs => h r v hk (hw.call hmild hs)
  subst ho
  cases hmild

/-- The sockets are as they should be and the memory is as it was. -/
def Stands (env : Env) (P : Set Bytes) (mine : List Listener) (w v : World) : Prop :=
  v.sup = w.sup ∧ Owned env P mine v

theorem Stands.after {mine' : List Listener} (h : v.sup = w.sup) (h' : Stands env P mine' v u) :
    Stands env P mine' w u := ⟨h'.1.trans h, h'.2⟩

theorem Held.congr {a : Listener} (h : v.sup = w.sup) : Held v mine a ↔ Held w mine a := by
  unfold Held Loaded
  rw [h]

theorem minds_still {o : Op} {Q : o.Ans → Unit → World → Prop} (hw : Owned env P mine w) (hmild : o.mild = true)
    (hquiet : o.quiet = true) (h : ∀ r v, Known env P o w → Stands env P mine w v → Q r g v) :
    Minds env P (ask o) Q D g w := by
  refine minds_ask hw (fun path ho => ?_) fun r v hk hs => h r v hk ⟨(sem_quiet hquiet hs).sup, hw.call hmild hs⟩
  subst ho
  cases hmild

/-- The removal of something that is not launchd's. -/
theorem minds_unlink {Q : Except Errno Unit → Unit → World → Prop} (hw : Owned env P mine w)
    (hpath : Clear env w mine path) (h : ∀ r v, Stands env P mine w v → Q r g v) :
    Minds env P (ask (.unlink path)) Q D g w := by
  refine ⟨⟨mine, hw, fun path' ho => ?_⟩, fun r v hs => ?_⟩
  · cases ho
    exact hpath
  · obtain ⟨rfl, -⟩ | ⟨q, hq, -, -, rfl⟩ := hs.2
    · exact h r v ⟨rfl, hw⟩
    · exact h r _ ⟨rfl, hw.put (hpath q hq) fun i hi => by cases hi⟩

theorem minds_lift {r : Result α} {Q : α → Unit → World → Prop} (hQ : ∀ a, r = .ok a → Q a g w)
    (hD : ∀ e, r = .error e → D e g w) : Minds env P (lift r) Q D g w := by
  cases r with
  | error e => exact hD e rfl
  | ok a => exact hQ a rfl

theorem minds_orThrow {operation : Bytes} {r : Except Errno α} {Q : α → Unit → World → Prop}
    (hQ : ∀ a, r = .ok a → Q a g w) (hD : ∀ e, D e g w) : Minds env P (orThrow env operation r) Q D g w := by
  cases r with
  | error e => exact hD _
  | ok a => exact hQ a rfl

/-- A call that must not fail. -/
theorem minds_checked {o : Op} {operation : Bytes} {f : o.Ans → Except Errno α} {k : α → M β}
    {Q : β → Unit → World → Prop} (hw : Owned env P mine w) (hmild : o.mild = true) (hquiet : o.quiet = true)
    (hk : ∀ a v, Stands env P mine w v → Minds env P (k a) Q D g v) (hD : ∀ e v, Stands env P mine w v → D e g v) :
    Minds env P (ask o >>= fun r => orThrow env operation (f r) >>= k) Q D g w :=
  wp_bind.2 (minds_still hw hmild hquiet fun _ v _ hv =>
    wp_bind.2 (minds_orThrow (fun a _ => hk a v hv) fun e => hD e v hv))

/-! ### The listeners -/

theorem minds_closeListener {a : Listener} (hP : Tidy env P) (hw : Owned env P (a :: mine) w) :
    Minds env P (closeListener a) (fun _ _ v => Stands env P mine w v) D g w := by
  refine wp_bind.2 (minds_still hw.drop rfl rfl fun r v _ hv => ?_)
  have hclear : Clear env v mine a.path := by
    have := hw.clear_dropped hP
    intro q hq
    exact ⟨(this q hq).1, fun b hb => (this q hq).2 b ((Held.congr hv.1).1 hb)⟩
  split
  · split
    · exact wp_bind.2 (minds_unlink hv.2 hclear fun _ u hu => hu.after hv.1)
    · exact hv
  · exact hv

theorem minds_closeListeners {l : List Listener} (hP : Tidy env P) (hw : Owned env P l w) :
    Minds env P (each closeListener l) (fun _ _ v => Stands env P [] w v) D g w := by
  refine wp_each (fun rest _ v => Stands env P rest w v) (fun a rest g u hu => ?_) ⟨rfl, hw⟩
  exact (minds_closeListener hP hu.2).post (fun _ _ v hv => hv.after hu.1) fun _ _ _ => id

/-- The path that is looked at is clear unless one of these has it. -/
theorem Owned.clear_known (hP : Tidy env P) (h : Owned env P mine w) (hpath : path ∈ P ∨ path = env.overrides)
    (hfresh : ∀ a, Held w mine a → a.path ≠ path) : Clear env w mine path :=
  hpath.elim (fun hmem => h.clear hP hmem hfresh) fun heq => h.clear_own hP (.inl heq)

theorem minds_removeStale (hP : Tidy env P) (hw : Owned env P mine w) (hfresh : ∀ a, Held w mine a → a.path ≠ path) :
    Minds env P (removeStale env path) (fun _ _ v => Stands env P mine w v) (fun _ _ v => Stands env P mine w v) g w := by
  refine wp_bind.2 (minds_still hw rfl rfl fun r v hknown hv => ?_)
  split
  · have hclear := hv.2.clear_known hP hknown fun a ha => hfresh a ((Held.congr hv.1).1 ha)
    refine wp_bind.2 (minds_unlink hv.2 hclear fun r u hu => ?_)
    exact minds_orThrow (fun _ _ => hu.after hv.1) fun _ => hu.after hv.1
  · exact hv
  · split
    · exact hv
    · exact hv

/-- A socket that could not be set up is removed. -/
theorem minds_unbind {a : Listener} {operation : Bytes} {e : Errno} {Q : α → Unit → World → Prop} (hP : Tidy env P)
    (hw : Owned env P (a :: mine) w) :
    Minds env P (unbind env a.path operation e) Q (fun _ _ v => Stands env P mine w v) g w :=
  wp_bind.2 (minds_unlink hw.drop (hw.clear_dropped hP) fun _ _ hv => hv)

theorem minds_openListener {config : SocketConfig} (hP : Tidy env P) (hw : Owned env P mine w)
    (hfresh : ∀ a, Held w mine a → a.path ≠ config.path) :
    Minds env P (openListener env config) (fun a _ v => a.path = config.path ∧ Stands env P (a :: mine) w v)
      (fun _ _ v => Stands env P mine w v) g w := by
  refine wp_bind.2 ((minds_removeStale hP hw hfresh).post (fun _ g1 w1 h1 => ?_) fun _ _ _ => id)
  refine minds_checked h1.2 rfl rfl (fun fd w2 h2 => ?_) fun _ _ h2 => h2.after h1.1
  refine minds_checked h2.2 rfl rfl (fun _ w3 h3 => ?_) fun _ _ h3 => h3.after (h2.1.trans h1.1)
  have hsame := h3.1.trans (h2.1.trans h1.1)
  refine wp_bind.2 (minds_ask h3.2 (by simp) fun r w4 hknown hs => wp_bind.2 ?_)
  obtain ⟨rfl, e, rfl⟩ | ⟨q, i, hplace, hfree, hinode, rfl, rfl⟩ := hs
  · exact ⟨hsame, h3.2⟩
  -- the socket is at its path from now on
  generalize ha : (⟨config.path, i, config.name, fd⟩ : Listener) = a
  obtain ⟨rfl, hpath⟩ : i = a.inode ∧ config.path = a.path := by simp [← ha]
  rw [hpath] at ha
  have hopen : Owned env P (a :: mine) (w3.put q (some (.socket a.inode))) := by
    refine h3.2.bind (by rwa [← hpath]) hfree hinode (by rwa [← hpath]) fun b hb => ?_
    rw [← hpath]
    exact hfresh b ((Held.congr hsame).1 hb)
  refine wp_bind.2 (minds_still hopen rfl rfl fun r w5 _ h5 => ?_)
  have hsame5 : w5.sup = w.sup := h5.1.trans hsame
  rw [hpath]
  split
  · exact (minds_unbind hP h5.2).post (fun _ _ _ => id) fun _ _ _ hv => hv.after hsame5
  · refine wp_bind.2 (minds_still h5.2 rfl rfl fun r w6 _ h6 => ?_)
    have hsame6 : w6.sup = w.sup := h6.1.trans hsame5
    split
    · exact (minds_unbind hP h6.2).post (fun _ _ _ => id) fun _ _ _ hv => hv.after hsame6
    · refine wp_bind.2 (minds_still h6.2 rfl rfl fun r w7 _ h7 => ?_)
      have hsame7 : w7.sup = w.sup := h7.1.trans hsame6
      split
      · exact (minds_unbind hP h7.2).post (fun _ _ _ => id) fun _ _ _ hv => hv.after hsame7
      · rw [ha]
        exact ⟨rfl, hsame7, h7.2⟩

theorem Owned.perm {mine' : List Listener} (h : Owned env P mine w) (hp : mine.Perm mine') : Owned env P mine' w := by
  have hheld : ∀ {a}, Held w mine' a → Held w mine a := fun ha => ha.imp_left hp.mem_iff.2
  exact ⟨h.control, h.inodes, fun a ha => h.known a (hheld ha), fun a ha => h.placed a (hheld ha), h.jobs, h.apart,
    (hp.map _).nodup_iff.1 h.nodup, fun a ha => h.fresh a (hp.mem_iff.2 ha)⟩

theorem minds_openListeners {configs : List SocketConfig} (hP : Tidy env P) (listeners : List Listener)
    (hw : Owned env P listeners w) (hnodup : (configs.map (·.path)).Nodup)
    (hfresh : ∀ c ∈ configs, ∀ a, Held w listeners a → a.path ≠ c.path) :
    Minds env P (openListeners env configs listeners)
      (fun l _ v => Stands env P l w v ∧ l.map (·.path) = listeners.map (·.path) ++ configs.map (·.path))
      (fun _ _ v => Stands env P [] w v) g w := by
  induction configs generalizing listeners w g with
  | nil => exact ⟨⟨rfl, hw⟩, by simp⟩
  | cons config configs ih =>
      rw [List.map_cons, List.nodup_cons] at hnodup
      refine wp_bind.2 (wp_onFail.2 ((minds_openListener hP hw (hfresh config (by simp))).post ?_ ?_))
      · rintro a g1 w1 ⟨hpath, h1⟩
        have hperm : (a :: listeners).Perm (listeners ++ [a]) := (List.perm_append_singleton a listeners).symm
        refine (ih (listeners ++ [a]) (h1.2.perm hperm) hnodup.2 fun c hc b hb => ?_).post ?_ ?_
        · obtain hb | hb := ((Held.congr h1.1).1 hb)
          · obtain hb | hb := List.mem_append.1 hb
            · exact hfresh c (by simp [hc]) b (.inl hb)
            · obtain rfl := List.mem_singleton.1 hb
              rw [hpath]
              exact fun heq => hnodup.1 (List.mem_map.2 ⟨c, hc, heq.symm⟩)
          · exact hfresh c (by simp [hc]) b (.inr hb)
        · rintro l _ v ⟨hv, hl⟩
          exact ⟨hv.after h1.1, by simp [hl, hpath]⟩
        · exact fun _ _ v hv => hv.after h1.1
      · rintro e g1 w1 h1
        exact (minds_closeListeners (D := fun _ _ _ => False) hP h1.2).post (fun _ _ v hv => hv.after h1.1)
          fun _ _ _ hno => hno.elim

end MiniDarwin.Launchd
