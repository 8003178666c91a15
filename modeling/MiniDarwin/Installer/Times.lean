import MiniDarwin.Installer.Nesting
import MiniDarwin.Installer.Timeless
import MiniDarwin.Effects.Loop

/-!
The modification times of the directories of an offline root.

`stage_copy ()` notes the seconds of each, and `restore_base_directories ()`
sets them when everything has been written, so that a directory comes back
with the time it had, but for the fraction of a second.
-/

namespace MiniDarwin.Installer

open Posix Effects Effects.Proc

variable {K : Kernel Part} {tx : Tx} {pkg pkg' : Package} {g g' : Globals} {w w' v : World Part} {env : Env}
  {D R p q : Path} {fs0 : Fs} {t t' : Times} {s s' : World Part × Times} {α β : Type} {mode : Mode}

section

variable {W : Type} {σ : Sem (calls Part) W} {E F C : Op Part → W → Prop} {Q Q' : α → Globals → W → Prop}
  {A A' : String → Globals → W → Prop} {m : M α} {x : W}

/-- What is known of every call may be used to specify the rest. -/
theorem wp_under (h : wp σ E m Q A g x) (hC : ∀ o v, E o v → C o v) (h' : wp (under C σ) F m Q' A' g x) :
    wp σ E m (fun a g' v => Q a g' v ∧ Q' a g' v) (fun e g' v => A e g' v ∧ A' e g' v) g x := by
  refine (Prog.Spec.under h hC h').mono (fun _ _ => id) ?_
  rintro ⟨_ | _, _⟩ _ hx <;> exact hx

/-- Whatever the calls do, joined paths are looked at or the run ends. -/
theorem wp_bind_hostJoin {f : Path → M α} (hA : ∀ msg, A msg g x) (h : wp σ E (f (p ++ q)) Q A g x) :
    wp σ E (hostJoin p q >>= f) Q A g x := by
  refine wp_bind.2 ?_
  unfold hostJoin
  split
  · next hq => simpa [hq] using h
  · split
    · exact hA _
    · exact h

theorem wp_bind_relJoin {f : Path → M α} (hA : ∀ msg, A msg g x) (h : wp σ E (f (p ++ q)) Q A g x) :
    wp σ E (relJoin p q >>= f) Q A g x := by
  refine wp_bind.2 ?_
  unfold relJoin
  split
  · next hp => simpa [hp] using h
  · split
    · next hq => simpa [hq] using h
    · split
      · exact hA _
      · exact h

end

/-! ### Copying -/

/-- The calls of the copy. -/
def Copying (fs0 : Fs) (D : Path) (o : Op Part) (s : World Part × Times) : Prop :=
  Grows fs0 D D (fun _ => True) o s.1

/-- Times are set beneath `D` only. -/
def Lands (D : Path) (o : Op Part) (s : World Part × Times) : Prop :=
  ∀ p u, o = .utimes p u → ∀ q, locate s.1.fs p = .ok q → D <+: q

theorem Lands.of_timeless {o : Op Part} (h : o.setsTimes = false) : Lands D o s := by
  rintro p u rfl
  cases h

theorem Copying.undisturbed {o : Op Part} {r : Except Errno o.Val} (h : Copying fs0 D o s) (hl : Lands D o s)
    (hapart : ∀ q, ¬ D <+: R ++ q) (hu : Undisturbed R w t s) (hs : timed K o s r s') : Undisturbed R w t s' := by
  have htree : ∀ q, s'.1.fs.get (R ++ q) = s.1.fs.get (R ++ q) := fun q =>
    Grows.elsewhere h hs.1 fun d _ heq => hapart q (heq ▸ List.prefix_append _ _)
  cases o with
  | utimes p u =>
      refine hu.utimes hs ?_
      rintro _ hq ⟨x, rfl⟩
      exact hapart x (hl p u rfl _ hq)
  | spawn | rename => simp [Copying, Grows, Op.quiet] at h
  | _ => exact hu.step hs rfl htree

/-- The seconds that were noted are those of the directories at `R`. -/
def Seconds (R : Path) (t : Times) (g : Globals) : Prop :=
  ∀ x ∈ g.baseDirectories, x.2.2 = (t (R ++ x.1)).sec

/-- What the copy is to keep: the tree at `R` with its times, and what was noted of them. -/
def Tracks (K : Kernel Part) (fs0 : Fs) (D R : Path) (w : World Part) (t : Times) (m : M α) (P : World Part → Prop) :
    Prop :=
  ∀ g s, Undisturbed R w t s → Seconds R t g →
    wp (under (Copying fs0 D) (timed K)) (Lands D) m
      (fun _ g' s' => Undisturbed R w t s' ∧ Seconds R t g' ∧ P s'.1) (fun _ _ _ => True) g s

namespace Tracks

variable {P P' : World Part → Prop} {m : M α} {f : α → M β}

theorem pure (a : α) : Tracks K fs0 D R w t (Pure.pure a) fun _ => True := fun _ _ hu hg => ⟨hu, hg, trivial⟩

theorem die (msg : String) : Tracks K fs0 D R w t (Installer.die msg : M α) P := fun _ _ _ _ => trivial

theorem bind (h : Tracks K fs0 D R w t m P) (hf : ∀ a, Tracks K fs0 D R w t (f a) P') :
    Tracks K fs0 D R w t (m >>= f) P' := fun g s hu hg =>
  wp_bind.2 (wp.post (h g s hu hg) (fun a g' s' hx => hf a g' s' hx.1 hx.2.1) fun _ _ _ => id)

theorem ite {p : Prop} [Decidable p] {m n : M α} (hm : Tracks K fs0 D R w t m P) (hn : Tracks K fs0 D R w t n P) :
    Tracks K fs0 D R w t (if p then m else n) P := by
  split
  · exact hm
  · exact hn

theorem any (h : Tracks K fs0 D R w t m P) : Tracks K fs0 D R w t m fun _ => True := fun g s hu hg =>
  wp.post (h g s hu hg) (fun _ _ _ hx => ⟨hx.1, hx.2.1, trivial⟩) fun _ _ _ => id

theorem hostJoin {f : Path → M α} (h : Tracks K fs0 D R w t (f (p ++ q)) P) :
    Tracks K fs0 D R w t (Installer.hostJoin p q >>= f) P := fun g s hu hg =>
  wp_bind_hostJoin (fun _ => trivial) (h g s hu hg)

theorem relJoin {f : Path → M α} (h : Tracks K fs0 D R w t (f (p ++ q)) P) :
    Tracks K fs0 D R w t (Installer.relJoin p q >>= f) P := fun g s hu hg =>
  wp_bind_relJoin (fun _ => trivial) (h g s hu hg)

theorem createHook : Tracks K fs0 D R w t (Installer.createHook p) fun _ => True := by
  intro g s hu hg
  refine wp_bind.2 (wp_get.2 ?_)
  split
  · exact wp_modify.2 ⟨hu, hg, trivial⟩
  · exact ⟨hu, hg, trivial⟩

theorem copyEach {copy : Path → Path → Path → M Unit} {src dst rel : Path} {names : List Name}
    (h : ∀ n ∈ names, Tracks K fs0 D R w t (copy (src ++ [n]) (dst ++ [n]) (rel ++ [n])) fun _ => True) :
    Tracks K fs0 D R w t (Installer.copyEach copy src dst rel names) fun _ => True := by
  induction names with
  | nil => exact .pure _
  | cons n names ih =>
      exact .hostJoin (.hostJoin (.relJoin ((h n (.head _)).bind fun _ => ih fun m hm => h m (.tail _ hm))))

/-- A base directory is noted. -/
theorem noteBase {rel : Path} {u : Timespec} (hu : u.sec = (t (R ++ rel)).sec) {m : M α}
    (h : Tracks K fs0 D R w t m P) :
    Tracks K fs0 D R w t
      (do
        let g ← get
        let bases ← entriesAppend g.baseDirectories (rel, mode, u.sec)
        modify fun g => { g with baseDirectories := bases }
        m) P := by
  intro g s hus hg
  refine wp_bind.2 (wp_get.2 (wp_bind.2 ?_))
  unfold entriesAppend
  split
  · trivial
  · refine wp_pure.2 (wp_bind.2 (wp_modify.2 (h _ s hus fun x hx => ?_)))
    rcases List.mem_append.1 hx with hx | hx
    · exact hg x hx
    · obtain rfl := List.mem_singleton.1 hx
      exact hu

variable (hapart : ∀ q, ¬ D <+: R ++ q)
include hapart

theorem ask {o : Op Part} (ho : o.setsTimes = false) : Tracks K fs0 D R w t (Posix.ask o) fun _ => True := by
  intro g s hu hg
  refine wp_ask.2 ⟨.of_timeless ho, ?_⟩
  rintro r s' ⟨hc, hs⟩
  exact ⟨hc.undisturbed (.of_timeless ho) hapart hu hs, hg, trivial⟩

theorem call {o : Op Part} {msg : Errno → String} (ho : o.setsTimes = false) :
    Tracks K fs0 D R w t (Installer.call o msg) fun _ => True := by
  intro g s hu hg
  refine wp_call.2 (wp_ask.2 ⟨.of_timeless ho, ?_⟩)
  rintro r s' ⟨hc, hs⟩
  cases r with
  | error e => trivial
  | ok x => exact ⟨hc.undisturbed (.of_timeless ho) hapart hu hs, hg, trivial⟩

theorem readlink : Tracks K fs0 D R w t (Installer.readlink p) fun _ => True := (call hapart rfl).bind fun _ => .pure _

theorem applyOwnership : Tracks K fs0 D R w t (Installer.applyOwnership env p) fun _ => True :=
  .ite (call hapart rfl) (.pure _)

/-- A change of owner leaves the tree as it is. -/
theorem applyOwnership_same (hu : Undisturbed R w t s) (hg : Seconds R t g) :
    wp (under (Copying fs0 D) (timed K)) (Lands D) (Installer.applyOwnership env p)
      (fun _ g' s' => Undisturbed R w t s' ∧ Seconds R t g' ∧ s'.1 = s.1) (fun _ _ _ => True) g s := by
  unfold Installer.applyOwnership
  split
  · refine wp_call.2 (wp_ask.2 ⟨.of_timeless rfl, ?_⟩)
    rintro r s2 ⟨hc, hs⟩
    cases r with
    | error e => trivial
    | ok x => exact ⟨hc.undisturbed (.of_timeless rfl) hapart hu hs, hg, sem_quiet rfl hs.1⟩
  · exact ⟨hu, hg, rfl⟩

theorem writeRounds {rounds : Nat} {data : Bytes} :
    Tracks K fs0 D R w t (Installer.writeRounds p rounds data) fun _ => True := by
  induction rounds generalizing data with
  | zero => exact .pure _
  | succ rounds ih => exact .ite (.pure _) ((call hapart rfl).bind fun n => .ite (.die _) ih)

/-- The time is set of something beneath `D` that is there. -/
theorem setTimes {u : Timespec} (hp : D <+: p) (hne : p ≠ []) (hu : Undisturbed R w t s) (hg : Seconds R t g)
    (hthere : s.1.fs.get p ≠ none) :
    wp (under (Copying fs0 D) (timed K)) (Lands D) (Installer.setTimes p u)
      (fun _ g' s' => Undisturbed R w t s' ∧ Seconds R t g' ∧ True) (fun _ _ _ => True) g s := by
  have hlands : Lands D (.utimes p u) s := by
    rintro _ _ ⟨⟩ q hq
    rw [locate_self hthere hne] at hq
    cases hq
    exact hp
  refine wp_call.2 (wp_ask.2 ⟨hlands, ?_⟩)
  rintro r s' ⟨hc, hs⟩
  cases r with
  | error e => trivial
  | ok x => exact ⟨hc.undisturbed hlands hapart hu hs, hg, trivial⟩

theorem fileCopy {src : Path} : Tracks K fs0 D R w t (Installer.fileCopy src p mode) fun v => v.fs.get p ≠ none := by
  refine (call hapart rfl).bind fun _ => ((call hapart rfl).bind fun _ => createHook).bind fun _ =>
    (call hapart rfl).bind fun _ => (writeRounds hapart).bind fun _ => ?_
  intro g s hu hg
  refine wp_bind.2 (wp_call.2 (wp_ask.2 ⟨.of_timeless rfl, ?_⟩))
  rintro r s1 ⟨hc, hs⟩
  cases r with
  | error e => trivial
  | ok x =>
      have hu1 := hc.undisturbed (.of_timeless rfl) hapart hu hs
      have hthere : s1.1.fs.get p ≠ none := by
        obtain ⟨q, hb, -⟩ := hc
        obtain ⟨_, _, _, hq, -, ha⟩ := sem_fchmod hs.1
        rw [hb.locate] at hq
        obtain rfl := Except.ok.inj hq
        rw [hb.eq, ha.get, if_pos rfl]
        simp
      refine wp_bind.2 (wp_call.2 (wp_ask.2 ⟨.of_timeless rfl, ?_⟩))
      rintro r s2 ⟨hc2, hs2⟩
      cases r with
      | error e => trivial
      | ok x =>
          refine wp_pure.2 ⟨hc2.undisturbed (.of_timeless rfl) hapart hu1 hs2, hg, ?_⟩
          rwa [sem_quiet rfl hs2.1]

theorem cloneOrCopy {src : Path} {u : Timespec} (hp : D <+: p) (hne : p ≠ []) :
    Tracks K fs0 D R w t (Installer.cloneOrCopy src p mode u) fun _ => True := by
  refine (ask hapart rfl).bind fun r => ?_
  cases r with
  | ok x => exact .pure _
  | error e =>
      refine .ite (.die _) fun g s hu hg => wp_bind.2 (wp.post (fileCopy hapart g s hu hg) ?_ fun _ _ _ => id)
      rintro _ g' s' ⟨hu', hg', hthere⟩
      exact setTimes hapart hp hne hu' hg' hthere

theorem stageLink {src : Path} {u : Timespec} (hp : D <+: p) (hne : p ≠ []) :
    Tracks K fs0 D R w t
      (do
        let target ← Installer.readlink src
        let _ ← Installer.call (.symlink target p) fun e => s!"symlink {hostStr p}: {strerror e}"
        Installer.applyOwnership env p
        Installer.setTimes p u) fun _ => True := by
  refine (readlink hapart).bind fun target => ?_
  intro g s hu hg
  refine wp_bind.2 (wp_call.2 (wp_ask.2 ⟨.of_timeless rfl, ?_⟩))
  rintro r s1 ⟨hc, hs⟩
  cases r with
  | error e => trivial
  | ok x =>
      have hu1 := hc.undisturbed (.of_timeless rfl) hapart hu hs
      have hthere : s1.1.fs.get p ≠ none := by
        obtain ⟨q, hb⟩ := hc
        obtain ⟨_, hq, hm⟩ := sem_makes (v := .link target) rfl hs.1
        rw [hb.locate] at hq
        obtain rfl := Except.ok.inj hq
        rw [hb.eq, hm.get, if_pos rfl]
        simp
      refine wp_bind.2 ((applyOwnership_same hapart hu1 hg).post ?_ fun _ _ _ => id)
      rintro _ g2 s2 ⟨hu2, hg2, heq⟩
      exact setTimes hapart hp hne hu2 hg2 (by rwa [heq])

/-- The entries of a directory of the tree at `R`. -/
theorem listdir {f : List Name → M α} {rel : Path} {m : Mode} {msg : Errno → String}
    (hw : w.fs.get (R ++ rel) = some (.dir m))
    (h : ∀ names : List Name, (∀ n ∈ names, w.fs.get (R ++ (rel ++ [n])) ≠ none) → Tracks K fs0 D R w t (f names) P) :
    Tracks K fs0 D R w t (Installer.call (.listdir (R ++ rel)) msg >>= f) P := by
  intro g s hu hg
  refine wp_bind.2 (wp_call.2 (wp_ask.2 ⟨.of_timeless rfl, ?_⟩))
  rintro r s1 ⟨hc, hs⟩
  cases r with
  | error e => trivial
  | ok names =>
      refine h names (fun n hn => ?_) g s1 (hc.undisturbed (.of_timeless rfl) hapart hu hs) hg
      obtain ⟨l, hl, hperm⟩ := hs.1
      have hreal : realDir s.1.fs (R ++ rel) = .ok (R ++ rel) := at_self ⟨m, (hu.tree rel).trans hw⟩
      simp only [Op.run, hreal, Except.map, Except.ok.injEq, Prod.mk.injEq] at hl
      obtain ⟨rfl, -⟩ := hl
      rw [← hu.tree, ← List.append_assoc]
      exact Fs.mem_children.1 (hperm.mem_iff.1 hn)

/-- What `lstat ()` returns of something in the tree at `R`. -/
theorem lstat {f : Stat → M α} {rel : Path} {v : Node} {msg : Errno → String} (hR : R ≠ [])
    (hw : w.fs.get (R ++ rel) = some v) (h : Tracks K fs0 D R w t (f v.stat) P) :
    Tracks K fs0 D R w t (Installer.call (.lstat (R ++ rel)) msg >>= f) P := by
  intro g s hu hg
  refine wp_bind.2 (wp_call.2 (wp_ask.2 ⟨.of_timeless rfl, ?_⟩))
  rintro r s1 ⟨hc, hs⟩
  cases r with
  | error e => trivial
  | ok st =>
      have hst : v.stat = st := by
        have hget : s.1.fs.get (R ++ rel) = some v := (hu.tree rel).trans hw
        have hloc : locate s.1.fs (R ++ rel) = .ok (R ++ rel) := locate_self (by rw [hget]; simp) (by simp [hR])
        have hrun : (Op.lstat (τ := Part) (R ++ rel)).run s.1 = .ok (st, s1.1) := hs.1
        simp only [Op.run, hloc, Except.bind, hget, Except.ok.injEq, Prod.mk.injEq] at hrun
        exact hrun.1
      rw [← hst]
      exact h g s1 (hc.undisturbed (.of_timeless rfl) hapart hu hs) hg

/-- The time of something in the tree at `R` is the one it had. -/
theorem mtime {f : Timespec → M α} {rel : Path} {msg : Errno → String} (hR : R ≠ [])
    (hw : w.fs.get (R ++ rel) ≠ none)
    (h : Tracks K fs0 D R w t (f (t (R ++ rel))) P) :
    Tracks K fs0 D R w t (Installer.call (.mtime (R ++ rel)) msg >>= f) P := by
  intro g s hu hg
  refine wp_bind.2 (wp_call.2 (wp_ask.2 ⟨.of_timeless rfl, ?_⟩))
  rintro r s1 ⟨hc, hs⟩
  cases r with
  | error e => trivial
  | ok u =>
      have htime : t (R ++ rel) = u := by
        obtain ⟨-, -, q, hq, rfl⟩ := hs
        have hthere : s.1.fs.get (R ++ rel) ≠ none := by rwa [hu.tree]
        rw [locate_self hthere (by simp [hR])] at hq
        cases hq
        exact (hu.times rel hw).symm
      rw [← htime]
      exact h g s1 (hc.undisturbed (.of_timeless rfl) hapart hu hs) hg

/-- The copy notes the seconds it finds, and the times it finds are those there were. -/
theorem stageCopy {left : Nat} {dst rel : Path} (hR : R ≠ []) (hp : D <+: dst) (hne : dst ≠ [])
    (hw : w.fs.get (R ++ rel) ≠ none) :
    Tracks K fs0 D R w t (Installer.stageCopy env left (R ++ rel) dst rel) fun _ => True := by
  induction left generalizing rel dst with
  | zero => exact .die _
  | succ left ih =>
      obtain ⟨v, hv⟩ := Option.ne_none_iff_exists'.1 hw
      refine lstat hapart hR hv (mtime hapart hR hw ?_)
      cases v with
      | other => exact .die _
      | link _ => exact stageLink hapart hp hne
      | file m _ => exact (cloneOrCopy hapart hp hne).bind fun _ => applyOwnership hapart
      | dir m =>
          refine (call hapart rfl).bind fun _ => noteBase rfl (listdir hapart hv fun names hnames => ?_)
          refine (copyEach fun n hn => ?_).bind fun _ => (applyOwnership hapart).bind fun _ => call hapart rfl
          rw [List.append_assoc]
          exact ih (hp.trans (List.prefix_append _ _)) (by simp) (hnames n hn)

end Tracks

/-- The copy, seen with the times. -/
theorem wp_timed_stageCopy (env : Env) (hdir : w.fs.IsDir tx.dir) (hroot : w.fs.IsDir tx.root) (hg : g.createHook = false)
    (hbd : g.baseDirectories = []) :
    wp (timed K) (fun _ _ => True) (stageCopy env (limitDepth + 1) tx.root tx.stage [])
      (fun _ g' s => GrewBase tx.dir tx.dir ([Tx.stageName] <+: ·) g w g' s.1 ∧
        Copied w.fs tx.root s.1.fs tx.stage ∧ Bases w.fs tx.root [] g'.baseDirectories ∧ Seconds tx.root t g')
      (fun _ _ _ => True) g (w, t) := by
  have hready : Ready w.fs tx.dir tx.dir w := ⟨at_self hdir, Fs.Kept.refl _⟩
  have hcopy := copySpec (K := K) env tx.root_ne_nil tx.dir_apart (limitDepth + 1) w.fs
    [Tx.stageName] [] g w (by simp) hready (by simpa using hdir) (by simpa using hroot.ne_none) hg
  have htracks : Tracks K w.fs tx.dir tx.root w t
      (stageCopy env (limitDepth + 1) (tx.root ++ []) (tx.dir ++ [Tx.stageName]) []) fun _ => True :=
    .stageCopy tx.dir_apart tx.root_ne_nil (List.prefix_append tx.dir [Tx.stageName]) (by simp)
      (by simpa using hroot.ne_none)
  have hlift := wp.project (t := timed K) (π := Prod.fst) (v := (w, t)) hcopy fun _ _ _ _ => timed_sem
  have hboth := wp_under hlift (fun _ _ h => h.mono (Fs.Kept.refl _) fun _ _ => trivial)
    (htracks g (w, t) .refl (by simp [Seconds, hbd]))
  simp only [List.append_nil] at hboth
  refine hboth.mono (fun _ _ _ => trivial) ?_ (fun _ _ _ _ => trivial)
  rintro _ g' s ⟨⟨hgrew, hcopied, l, hl, hbases⟩, -, hseconds, -⟩
  rw [hbd, List.nil_append] at hl
  exact ⟨hgrew, hcopied, hl ▸ hbases, hseconds⟩

/-! ### Restoring the times -/

/-- What is there keeps its time, when only the mode of a directory changes. -/
theorem sameContents_of_altered {v : Node} {u : Node} (hp : w.fs.get p ≠ none) (hq : w.fs.get q = some u)
    (hm : v.chmod 0 = u.chmod 0) (ha : Altered w q v w') : SameContents w.fs p w'.fs p := by
  have hget : ∀ x, (w'.fs.get x).map (Node.chmod 0) = (w.fs.get x).map (Node.chmod 0) := by
    intro x
    rw [ha.get]
    split
    · next heq => rw [heq, hq, Option.map_some, Option.map_some, hm]
    · rfl
  refine ⟨hp, hget p, fun n => ?_⟩
  have := hget (p ++ [n])
  rw [← Option.map_eq_none_iff (f := Node.chmod 0), this, Option.map_eq_none_iff]

/-- What is to come, and what has been set. -/
structure Restoring (S : Path) (bd l : List (Path × Mode × Int)) (s : World Part × Times) : Prop where
  listed : ∀ x ∈ l, x ∈ bd
  dirs : ∀ x ∈ bd, s.1.fs.IsDir (S ++ x.1)
  set : ∀ x ∈ bd, x ∈ l ∨ s.2 (S ++ x.1) = ⟨x.2.2, 0⟩

/-- A call that keeps the contents of the directories. -/
theorem Restoring.step {S : Path} {bd l : List (Path × Mode × Int)} {o : Op Part} {r : Except Errno o.Val}
    (h : Restoring S bd l s) (hs : timed K o s r s') (ho : o.timeless = true)
    (hsame : ∀ q, s.1.fs.get q ≠ none → SameContents s.1.fs q s'.1.fs q) : Restoring S bd l s' := by
  refine ⟨h.listed, fun x hx => ?_, fun x hx => (h.set x hx).imp id fun ht => ?_⟩
  · obtain ⟨m, hm⟩ := h.dirs x hx
    have hnode := (hsame _ (by rw [hm]; simp)).node
    rw [hm] at hnode
    cases hv : s'.1.fs.get (S ++ x.1) with
    | none => simp [hv] at hnode
    | some v =>
        rw [hv] at hnode
        cases v with
        | dir m' => exact ⟨m', hv⟩
        | _ => simp [Node.chmod] at hnode
  · rw [hs.2.kept ho (hsame _ (h.dirs x hx).ne_none), ht]

theorem wp_timed_restore {S : Path} {bd : List (Path × Mode × Int)} (hS : S ≠ []) (hg : g.baseDirectories = bd)
    (hdirs : ∀ x ∈ bd, s.1.fs.IsDir (S ++ x.1)) (hfun : ∀ x ∈ bd, ∀ y ∈ bd, x.1 = y.1 → x.2.2 = y.2.2) :
    wp (timed K) (fun _ _ => True) (restoreBaseDirectories S)
      (fun _ _ s' => ∀ x ∈ bd, s'.2 (S ++ x.1) = ⟨x.2.2, 0⟩) (fun _ _ _ => True) g s := by
  unfold restoreBaseDirectories
  refine wp_bind.2 (wp_get.2 ?_)
  rw [hg]
  refine (wp_each (fun l _ s' => Restoring S bd l s') ?_ ⟨by simp, hdirs, fun x hx => .inl (by simpa using hx)⟩).post
    (fun _ _ _ h x hx => (h.set x hx).resolve_left (by simp)) fun _ _ _ => id
  rintro ⟨p, m, sec⟩ l g1 s1 h
  have hmem : (p, m, sec) ∈ bd := h.listed _ (.head _)
  have hne : S ++ p ≠ [] := by simp [hS]
  unfold restoreBaseDirectory
  refine wp_bind_hostJoin (fun _ => trivial) (wp_bind.2 (wp_call.2 (wp_ask.2 ⟨trivial, ?_⟩)))
  rintro r s2 hs
  have heq : s2.1 = s1.1 := sem_quiet rfl hs.1
  have h2 : Restoring S bd ((p, m, sec) :: l) s2 :=
    h.step hs rfl fun q hq => by rw [heq]; exact .refl hq
  cases r with
  | error e => trivial
  | ok st =>
      show wp _ _ (if _ then _ else _) _ _ _ _
      split
      · trivial
      refine wp_bind.2 (wp_call.2 (wp_ask.2 ⟨trivial, ?_⟩))
      rintro r s3 hs3
      cases r with
      | error e => trivial
      | ok x =>
          obtain ⟨m0, hm0⟩ := h2.dirs _ hmem
          have h3 : Restoring S bd ((p, m, sec) :: l) s3 := by
            refine h2.step hs3 rfl fun q hq => ?_
            obtain ⟨c, u, hc, hu, ha⟩ := sem_chmod hs3.1
            have hreal := @realPath_append [] [] (S ++ p) s2.1.fs (at_self Fs.isDir_nil) ⟨m0, hm0⟩
            rw [show realPath s2.1.fs (S ++ p) = .ok (S ++ p) from hreal] at hc
            cases hc
            refine sameContents_of_altered hq hu ?_ ha
            cases u <;> rfl
          refine wp_call.2 (wp_ask.2 ⟨trivial, ?_⟩)
          rintro r s4 hs4
          have heq4 : s4.1 = s3.1 := sem_quiet rfl hs4.1
          cases r with
          | error e => trivial
          | ok y =>
              obtain ⟨-, q, hq, htimes⟩ := hs4
              rw [locate_self (h3.dirs _ hmem).ne_none hne] at hq
              obtain rfl := Except.ok.inj hq
              refine ⟨fun x hx => h.listed x (.tail _ hx), by rw [heq4]; exact h3.dirs, fun x hx => ?_⟩
              by_cases hxp : x.1 = p
              · right
                rw [htimes, hxp, Function.update_self, hfun x hx _ hmem hxp]
              · rw [htimes, Function.update_of_ne (by simpa using hxp)]
                refine (h3.set x hx).imp (fun hin => ?_) id
                rcases List.mem_cons.1 hin with heq | hin
                · exact absurd (congrArg Prod.fst heq) hxp
                · exact hin

/-! ### The stage -/

/-- What is known without the times is known with them. -/
theorem wp_timed {E : Op Part → World Part → Prop} {m : M α} {Q : α → Globals → World Part → Prop}
    {A : String → Globals → World Part → Prop} (h : wp (sem K) E m Q A g s.1) :
    wp (timed K) (fun _ _ => True) m (fun a g' s' => Q a g' s'.1) (fun _ _ _ => True) g s :=
  (wp.project (t := timed K) (π := Prod.fst) (v := s) h fun _ _ _ _ => timed_sem).mono (fun _ _ _ => trivial)
    (fun _ _ _ => id) fun _ _ _ _ => trivial

theorem wp_timed_fillStage (env : Env) (hcs : ∀ c ∈ pkg.components, Harmless K c) (hdir : w.fs.IsDir tx.dir)
    (hroot : w.fs.IsDir tx.root) (hg : g.createHook = false) (hlive : g.live = false) (hbd : g.baseDirectories = []) :
    wp (timed K) (fun _ _ => True) (fillStage env tx pkg)
      (fun _ _ s => ∀ p, w.fs.IsDir (tx.root ++ p) → s.2 (tx.stage ++ p) = ⟨(t (tx.root ++ p)).sec, 0⟩)
      (fun _ _ _ => True) g (w, t) := by
  unfold fillStage
  refine wp_bind.2 ((wp_timed_stageCopy env hdir hroot hg hbd).post ?_ fun _ _ _ => id)
  rintro _ g1 ⟨w1, t1⟩ ⟨hg1, hcopied, hbases, hseconds⟩
  have hdirs1 : ∀ p, w.fs.IsDir (tx.root ++ p) → w1.fs.IsDir (tx.stage ++ p) := by
    rintro p ⟨m, hm⟩
    exact ⟨_, by rw [hcopied, hm]; rfl⟩
  have hS1 : w1.fs.IsDir tx.stage := by simpa using hdirs1 [] (by simpa using hroot)
  have hhooked : Hooked g1 := hg1.hooked (by rw [Hooked, hg, hlive])
  refine wp_bind_hostJoin (fun _ => trivial) (wp_bind.2 (wp_call.2 (wp_ask.2 ⟨trivial, ?_⟩)))
  rintro r ⟨w2, t2⟩ ⟨hs, -⟩
  cases r with
  | error e => trivial
  | ok x =>
      obtain ⟨q, hq, hm⟩ := sem_makes (v := .dir 0o700) rfl hs
      have hloc : locate w1.fs (tx.stage ++ scriptsDir) = .ok (tx.stage ++ scriptsDir) :=
        locate_of_isDir (at_self hS1) (by simp [scriptsDir]) (by simpa [scriptsDir] using hS1)
      obtain rfl : tx.stage ++ scriptsDir = q := Except.ok.inj (hloc.symm.trans hq)
      have hk2 : w1.fs.Kept w2.fs := fun c hc => by
        rw [hm.get, if_neg]
        rintro rfl
        exact hc hm.free
      have hT2 : w2.fs.IsDir (tx.stage ++ scriptsDir) := ⟨_, by rw [hm.get, if_pos rfl]⟩
      have hloop := stays_components (K := K) env pkg.components (g := g1) (w := w2) (b := tx.stage) (B := tx.stage)
        (t := tx.stage ++ scriptsDir) (T := tx.stage ++ scriptsDir) (fun _ _ => True) hhooked hcs
        (at_self (hk2.isDir hS1)) (at_self hT2) (fun _ _ _ _ _ _ _ _ _ _ _ => trivial) trivial
      refine wp_bind.2 ((wp_timed (s := (w2, t2)) hloop).post ?_ fun _ _ _ => id)
      rintro _ g3 ⟨w3, t3⟩ ⟨hran, -, -⟩
      have hk3 : w1.fs.Kept w3.fs := hk2.trans hran.kept
      have hbd3 : g3.baseDirectories = g1.baseDirectories := by
        obtain ⟨_, -, -, rfl⟩ := hran
        rfl
      have hrem := removeSpec (K := K) (limitDepth + 1) tx.stage tx.stage (nm ".mdpkg-scripts".toList) g3 w3
        (fixed_self (hk3.isDir hS1))
      unfold removeOrDie
      refine wp_bind.2 (wp_bind.2 ((wp_timed (s := (w3, t3)) hrem).post ?_ fun _ _ _ => id))
      rintro b g4 ⟨w4, t4⟩ ⟨hsh, -, -⟩
      replace hsh : Shrunk tx.scripts g3 w3 g4 w4 := hsh
      cases b with
      | false => trivial
      | true =>
          have hbd4 : g4.baseDirectories = g1.baseDirectories :=
            (congrArg Globals.baseDirectories hsh.globals).trans hbd3
          have hnone : w.fs.get (tx.root ++ scriptsDir) = none := by
            have hfree := hm.free
            rw [hcopied] at hfree
            simpa using hfree
          have hdirs4 : ∀ x ∈ g1.baseDirectories, w4.fs.IsDir (tx.stage ++ x.1) := by
            intro x hx
            obtain ⟨-, hm1⟩ := (hbases x.1 x.2.1).1 ⟨x.2.2, hx⟩
            obtain ⟨m, hm3⟩ := hk3.isDir (hdirs1 _ ⟨_, hm1⟩)
            refine ⟨m, (hsh.outside _ ?_).trans hm3⟩
            rw [Tx.scripts, List.prefix_append_right_inj]
            -- there are no base directories in the work area
            rintro ⟨r, hr⟩
            rw [← hr, ← List.append_assoc, Fs.get_append_eq_none hnone] at hm1
            cases hm1
          have hfun : ∀ x ∈ g1.baseDirectories, ∀ y ∈ g1.baseDirectories, x.1 = y.1 → x.2.2 = y.2.2 := by
            intro x hx y hy heq
            rw [hseconds x hx, hseconds y hy, heq]
          refine wp_pure.2 ((wp_timed_restore (g := g4) (s := (w4, t4)) tx.stage_ne_nil hbd4 hdirs4 hfun).post ?_
            fun _ _ _ => id)
          rintro _ g5 s5 htimes p ⟨m, hm5⟩
          obtain ⟨sec, hx⟩ := (hbases p m).2 ⟨List.nil_prefix, hm5⟩
          rw [htimes _ hx, hseconds _ hx]

/-! ### `publish ()` -/

/-- A directory that is synchronized keeps its time, and so does all else. -/
theorem wp_timed_syncDir {Q : Unit → Globals → World Part × Times → Prop}
    (h : ∀ t', (∀ q, w.fs.get q ≠ none → t' q = t q) → Q () g (w, t')) :
    wp (timed K) (fun _ _ => True) (syncDir p) Q (fun _ _ _ => True) g (w, t) := by
  refine wp_call.2 (wp_ask.2 ⟨trivial, ?_⟩)
  rintro r ⟨w', t'⟩ hs
  obtain rfl : w' = w := sem_quiet rfl hs.1
  cases r with
  | error e => trivial
  | ok x => exact h t' fun q hq => hs.2.kept rfl (.refl hq)

theorem wp_timed_removeDir (hparent : w.fs.IsDir tx.parent) :
    wp (timed K) (fun _ _ => True) (removeTree (limitDepth + 1) tx.dir)
      (fun _ _ s => ∀ q, w.fs.get (tx.root ++ q) ≠ none → s.2 (tx.root ++ q) = t (tx.root ++ q)) (fun _ _ _ => True) g
      (w, t) := by
  have hrem := removeSpec (K := K) (limitDepth + 1) tx.parent tx.parent
    (Name.suffixed tx.name ".mdpkg-transaction".toList) g w (fixed_self hparent)
  refine (wp_undisturbed (t := t) (R := tx.root) (wp.and hrem (Timeless.removeTree K g w)) ?_).mono
    (fun _ _ _ => trivial) (fun _ _ _ h => h.2.times) (fun _ _ _ _ => trivial)
  rintro o v r v' ⟨ho, htime⟩ - hs
  refine ⟨?_, fun q => (ho.step (g := g) hs).outside _ (tx.dir_apart q)⟩
  cases o with
  | utimes | spawn => simp [Op.setsTimes] at htime
  | rename => simp [Removes, Op.quiet] at ho
  | _ => rfl

theorem wp_timed_publish (hdir : w.fs.IsDir tx.dir) (hroot : w.fs.IsDir tx.root) (hstage : w.fs.IsDir tx.stage)
    (horig : w.fs.get tx.original = none) :
    wp (timed K) (fun _ _ => True) (publish tx)
      (fun _ _ s => ∀ q, w.fs.get (tx.stage ++ q) ≠ none → s.2 (tx.root ++ q) = t (tx.stage ++ q))
      (fun _ _ _ => True) g (w, t) := by
  unfold publish
  refine wp_bind.2 (wp_timed_syncDir fun t1 h1 => wp_bind.2 (wp_timed_syncDir fun t2 h2 => ?_))
  -- the old root is put aside
  refine wp_bind.2 (wp_call.2 (wp_ask.2 ⟨trivial, ?_⟩))
  rintro r ⟨w3, t3⟩ hs3
  cases r with
  | error e => trivial
  | ok _ =>
      have hm : Moved w tx.root tx.original w3 := moved_aside hdir hroot horig hs3.1
      obtain ⟨hdir3, hstage3, hroot3⟩ := aside_of_moved hm
      have hsd3 : w3.fs.IsDir tx.stage := by
        obtain ⟨m, hm⟩ := hstage
        exact ⟨m, by simpa [hm] using hstage3 []⟩
      have hloc : locate w.fs tx.original = .ok tx.original :=
        locate_of_isDir (b := tx.dir) (at_self hdir) (by simp) (by simpa using hdir)
      have ht3 : ∀ q, w.fs.get (tx.stage ++ q) ≠ none → t3 (tx.stage ++ q) = t (tx.stage ++ q) := by
        intro q hq
        refine ((timed_rename hs3 (locate_self hroot.ne_none tx.root_ne_nil) hloc hm).2 (tx.stage ++ q) ?_ ?_ hq).trans
          ((h2 _ hq).trans (h1 _ hq))
        · intro r
          rw [List.append_assoc]
          exact tx.not_original_stage _
        · intro r
          rw [Tx.stage, List.append_assoc, List.append_assoc]
          exact tx.root_apart _
      refine wp_bind.2 (wp_timed_syncDir fun t4 h4 => wp_bind.2 (wp_timed_syncDir fun t5 h5 => ?_))
      -- the stage takes its place
      refine wp_bind.2 (wp_call.2 (wp_ask.2 ⟨trivial, ?_⟩))
      rintro r ⟨w6, t6⟩ hs6
      cases r with
      | error e => trivial
      | ok _ =>
          have hm6 : Moved w3 tx.stage tx.root w6 := moved_in hdir3 hsd3 hroot3 hs6.1
          obtain ⟨hdir6, hroot6⟩ := published_of_moved hm6 hdir3 hsd3
          have hloc6 : locate w3.fs tx.root = .ok tx.root := locate_root (isDir_parent_of_dir hdir3)
          have ht6 : ∀ q, w.fs.get (tx.stage ++ q) ≠ none → t6 (tx.root ++ q) = t (tx.stage ++ q) := by
            intro q hq
            have hq3 : w3.fs.get (tx.stage ++ q) ≠ none := by rwa [hstage3]
            exact ((timed_rename hs6 (locate_self hsd3.ne_none tx.stage_ne_nil) hloc6 hm6).1 q hq3).trans
              ((h5 _ hq3).trans ((h4 _ hq3).trans (ht3 q hq)))
          refine wp_bind.2 (wp_modify.2 (wp_bind.2 (wp_timed_syncDir fun t7 h7 => wp_bind.2 (wp_timed_syncDir
            fun t8 h8 => wp_bind.2 ((wp_timed_removeDir (isDir_parent_of_dir hdir6)).post ?_ fun _ _ _ => id)))))
          rintro _ g9 s9 h9 q hq
          have hq6 : w6.fs.get (tx.root ++ q) ≠ none := by
            rw [hm6.get_target, hstage3]
            exact hq
          exact (h9 q hq6).trans ((h8 _ hq6).trans ((h7 _ hq6).trans (ht6 q hq)))

/-! ### `install_package ()` -/

/-- What sets no times and leaves the root alone leaves its times. -/
theorem wp_timed_apart {E : Op Part → World Part → Prop} {m : M α} {Q : α → Globals → World Part → Prop}
    {A : String → Globals → World Part → Prop} (h : wp (sem K) E m Q A g w) (hm : Timeless m)
    (hE : ∀ o v r v', E o v → (∀ q, v.fs.get (R ++ q) = w.fs.get (R ++ q)) → sem K o v r v' →
      (∀ a b, o ≠ .rename a b) ∧ ∀ q, v'.fs.get (R ++ q) = v.fs.get (R ++ q)) :
    wp (timed K) (fun _ _ => True) m (fun a g' s => Q a g' s.1 ∧ Undisturbed R w t s) (fun _ _ _ => True) g (w, t) := by
  refine (wp_undisturbed (t := t) (R := R) (wp.and h (hm K g w)) ?_).mono (fun _ _ _ => trivial)
    (fun _ _ _ h => ⟨h.1.1, h.2⟩) (fun _ _ _ _ => trivial)
  rintro o v r v' ⟨ho, htime⟩ hv hs
  obtain ⟨hne, hsame⟩ := hE o v r v' ho hv hs
  refine ⟨?_, hsame⟩
  cases o with
  | utimes | spawn => simp [Op.setsTimes] at htime
  | rename a b => exact absurd rfl (hne a b)
  | _ => rfl

theorem wp_timed_prepare (env : Env) (hcs : ∀ c ∈ pkg.components, Harmless K c) (hdir : w.fs.IsDir tx.dir)
    (hroot : w.fs.IsDir tx.root) (hg : g.createHook = false) (hlive : g.live = false) (hbd : g.baseDirectories = []) :
    wp (timed K) (fun _ _ => True) (prepare env tx pkg)
      (fun _ _ s => ∀ p, w.fs.IsDir (tx.root ++ p) → s.2 (tx.stage ++ p) = ⟨(t (tx.root ++ p)).sec, 0⟩)
      (fun _ _ _ => True) g (w, t) := by
  unfold prepare
  refine wp_bind_hostJoin (fun _ => trivial) ?_
  have hbe : Beneath w tx.dir tx.dir (· = [Tx.targetName]) (tx.dir ++ [Tx.targetName]) [Tx.targetName] :=
    ⟨rfl, by simp, at_self hdir, by simpa using hdir, rfl⟩
  have hmark := wp_timed_apart (K := K) (t := t) (R := tx.root) (stays_fileWrite (g := g) tx.rootBytes 0o600
    ⟨at_self hdir, Fs.Kept.refl _⟩ hbe) Timeless.fileWrite ?_
  · refine wp_bind.2 (hmark.post ?_ fun _ _ _ => id)
    rintro _ g1 ⟨w1, t1⟩ ⟨⟨hg1, -⟩, hu1⟩
    have hp := hg1.preparing
    have hdir1 : w1.fs.IsDir tx.dir := hg1.kept.isDir hdir
    have hroot1 : w1.fs.IsDir tx.root := hg1.kept.isDir hroot
    obtain ⟨_, _, _, _, hgeq⟩ := hg1
    refine wp_bind.2 (wp_timed_syncDir fun t2 h2 => ?_)
    refine (wp_timed_fillStage (K := K) (g := g1) env hcs hdir1 hroot1 (by rw [hgeq]; exact hg)
      (by rw [hgeq]; exact hlive) (by rw [hgeq]; exact hbd)).post ?_ fun _ _ _ => id
    rintro _ g3 s3 h3 p ⟨m, hm⟩
    have hdir1 : w1.fs.IsDir (tx.root ++ p) := ⟨m, (hu1.tree p).trans hm⟩
    have ht1 : t1 (tx.root ++ p) = t (tx.root ++ p) := hu1.times p (by rw [hm]; simp)
    rw [h3 p hdir1, h2 _ hdir1.ne_none, ht1]
  · rintro o v r v' ho - hs
    refine ⟨fun a b heq => ?_, fun q => ho.elsewhere hs fun d _ heq => tx.dir_apart q (heq ▸ List.prefix_append _ _)⟩
    subst heq
    simp [Grows, Op.quiet] at ho

theorem wp_timed_transact (env : Env) (hcs : ∀ c ∈ pkg.components, Harmless K c)
    (hfree : ∀ c ∈ pkg.components, ∀ e ∈ c.payload, isReserved e.path = false) (hdir : w.fs.IsDir tx.dir)
    (hroot : w.fs.IsDir tx.root) (horig : w.fs.get tx.original = none) (htag : w.tag = .main) :
    wp (timed K) (fun _ _ => True) (transact env tx pkg)
      (fun _ _ s => ∀ p, w.fs.IsDir (tx.root ++ p) → s.2 (tx.root ++ p) = ⟨(t (tx.root ++ p)).sec, 0⟩)
      (fun _ _ _ => True) {} (w, t) := by
  have hprep := stays_prepare (K := K) env pkg (g := {}) hcs hfree hdir hroot rfl rfl rfl htag
  refine wp_bind.2 ((wp.and (wp_timed (s := (w, t)) hprep)
    (wp_timed_prepare (K := K) (t := t) env hcs hdir hroot rfl rfl rfl)).mono (fun _ _ _ => trivial) ?_
    (fun _ _ _ _ => trivial))
  rintro _ g1 ⟨w1, t1⟩ ⟨⟨hprep, htag1, hfilled⟩, htimes⟩
  have hroot1 : w1.fs.IsDir tx.root := by
    obtain ⟨m, hm⟩ := hroot
    exact ⟨m, by simpa [hm] using hprep.root []⟩
  have hdir1 : w1.fs.IsDir tx.dir := by
    obtain ⟨m, hm⟩ := hdir
    exact ⟨m, hprep.dir.trans hm⟩
  refine (wp_timed_publish (K := K) (t := t1) hdir1 hroot1 (hfilled.isDir hroot) (hprep.original.trans horig)).post ?_
    fun _ _ _ => id
  rintro _ g2 s2 h2 p ⟨m, hm⟩
  have hstage : w1.fs.get (tx.stage ++ p) ≠ none := by
    rw [hfilled.old p (by simp [hm]), hm]
    simp
  exact (h2 p hstage).trans (htimes p ⟨m, hm⟩)

theorem wp_timed_installLocked (hscripts : Scriptless env pkg) (hparent : w.fs.IsDir tx.parent)
    (hroot : w.fs.IsDir tx.root) (hgone : w.fs.get tx.dir = none) (htag : w.tag = .main) :
    wp (timed K) (fun _ _ => True) (installLocked env tx (.ok pkg))
      (fun _ _ s => ∀ p, w.fs.IsDir (tx.root ++ p) → s.2 (tx.root ++ p) = ⟨(t (tx.root ++ p)).sec, 0⟩)
      (fun _ _ _ => True) {} (w, t) := by
  unfold installLocked
  have htimeless : Timeless (preflight env tx.root pkg) := .preflight
  have hpre := wp_timed_apart (K := K) (t := t) (R := tx.root) (finds_preflight K {} w) htimeless ?_
  · refine wp_bind.2 (hpre.post ?_ fun _ _ _ => id)
    rintro pkg' g1 ⟨w1, t1⟩ ⟨⟨⟨rfl, rfl⟩, hplaced⟩, hu1⟩
    refine wp_bind.2 (wp_call.2 (wp_ask.2 ⟨trivial, ?_⟩))
    rintro r ⟨w2, t2⟩ hs
    cases r with
    | error e => trivial
    | ok x =>
        obtain ⟨c, hc, hm⟩ := sem_makes (v := .dir 0o700) rfl hs.1
        have hloc : locate w1.fs tx.dir = .ok tx.dir :=
          locate_of_isDir (b := tx.parent) (at_self hparent) (by simp) (by simpa using hparent)
        obtain rfl : tx.dir = c := Except.ok.inj (hloc.symm.trans hc)
        have htree : ∀ q, w2.fs.get (tx.root ++ q) = w1.fs.get (tx.root ++ q) := by
          intro q
          have hne : tx.root ++ q ≠ tx.dir := fun heq => tx.dir_apart q (heq ▸ List.prefix_refl _)
          rw [hm.get, if_neg hne]
        have hu2 : Undisturbed tx.root w1 t (w2, t2) := hu1.step hs rfl htree
        have hdir2 : w2.fs.IsDir tx.dir := ⟨_, by rw [hm.get, if_pos rfl]⟩
        have hroot2 : w2.fs.IsDir tx.root := by
          obtain ⟨m, hm'⟩ : w1.fs.IsDir tx.root := hroot
          exact ⟨m, by simpa [hm'] using htree []⟩
        have horig2 : w2.fs.get tx.original = none := by
          rw [hm.get, if_neg (by simp [Tx.original])]
          exact Fs.get_append_eq_none hgone
        refine wp_bind.2 (wp_onFail.2 ((wp_timed_transact (K := K) (t := t2) env
          (fun c hc => .inl fun k => hplaced.no_hooks hscripts hc k) (fun c hc => hplaced.free hc) hdir2 hroot2 horig2
          (hm.tag.trans htag)).post ?_ fun _ _ _ _ => wp_trivial))
        rintro _ g3 s3 h3
        refine wp_pure.2 ?_
        rintro p ⟨m, hp⟩
        have ht2 : t2 (tx.root ++ p) = t (tx.root ++ p) := hu2.times p (by rw [hp]; simp)
        rw [h3 p ⟨m, (hu2.tree p).trans hp⟩, ht2]
  · rintro o v r v' ⟨ho, rfl⟩ - hs
    refine ⟨fun a b heq => ?_, fun q => by rw [sem_quiet ho hs]⟩
    subst heq
    simp [Op.quiet] at ho

theorem wp_timed_lockAndRecover (hparent : w.fs.IsDir tx.parent) (hroot : w.fs.IsDir tx.root) :
    wp (timed K) (fun _ _ => True) (lockAndRecover tx) (fun _ _ s => Undisturbed tx.root w t s) (fun _ _ _ => True) {}
      (w, t) := by
  have hlock := wp.invariant (I := fun v => v.fs.IsDir tx.parent ∧ ∀ q, v.fs.get (tx.root ++ q) = w.fs.get (tx.root ++ q))
    (wp_lockAndRecover (K := K) (g := {}) hparent) ?_ ⟨hparent, fun _ => rfl⟩
  · refine (wp_timed_apart (t := t) (R := tx.root) hlock Timeless.lockAndRecover ?_).mono (fun _ _ _ => trivial)
      (fun _ _ _ h => h.2) (fun _ _ _ _ => trivial)
    rintro o v r v' ⟨ho, hv, -⟩ hsame hs
    have hne : v.fs.get tx.root ≠ none := by
      rw [← List.append_nil tx.root, hsame, List.append_nil]
      exact hroot.ne_none
    refine ⟨fun a b heq => ?_, (ho.rooted hs hv hne).2⟩
    -- nothing is moved back where there is a root
    subst heq
    exact hne ho.2.2
  · rintro o v r v' ho ⟨hv, hsame⟩ hs
    have hne : v.fs.get tx.root ≠ none := by
      rw [← List.append_nil tx.root, hsame, List.append_nil]
      exact hroot.ne_none
    obtain ⟨hv', hsame'⟩ := ho.rooted hs hv hne
    exact ⟨hv', fun q => (hsame' q).trans (hsame q)⟩

/-- **Base directories come back with their times**, but for the fraction of a second: a script-free install that succeeds
publishes each with the mode it had and the whole seconds of its time. So the time is the one it had exactly if it had no
fraction. The root is the one that has been locked; where there was one before, that is the same, with the same times. -/
theorem base_times_restored (K : Kernel Part) (env : Env) (tx : Tx) (pkg pkg' : Package) (g g' : Globals)
    (w w0 v : World Part) (t t0 u : Times) (hparent : w.fs.IsDir tx.parent) (htag : w.tag = .main)
    (hlock : Prog.Reach (timed K) (lockAndRecover tx {}) (w, t) (.ret (.ok (), g)) (w0, t0))
    (hinst : Prog.Reach (timed K) (installLocked env tx (.ok pkg) g) (w0, t0) (.ret (.ok pkg', g')) (v, u))
    (hscripts : Scriptless env pkg) :
    (w.fs.IsDir tx.root → Undisturbed tx.root w t (w0, t0)) ∧
      ∀ p m, w0.fs.get (tx.root ++ p) = some (.dir m) →
        v.fs.get (tx.root ++ p) = some (.dir m) ∧ u (tx.root ++ p) = ⟨(t0 (tx.root ++ p)).sec, 0⟩ ∧
          (u (tx.root ++ p) = t0 (tx.root ++ p) ↔ (t0 (tx.root ++ p)).nsec = 0) := by
  have hlocked := Prog.Spec.reach (wp_timed (s := (w, t)) (wp_lockAndRecover (K := K) (g := {}) hparent)) hlock
  obtain ⟨rfl, hrun, hparent0, hroot, hgone, -⟩ := hlocked
  have htag0 : w0.tag = .main := hrun.tag.trans htag
  obtain ⟨-, -, hfilled⟩ := Prog.Spec.reach
    (wp_timed (s := (w0, t0)) (wp_installLocked hscripts hparent0 hroot hgone htag0)) hinst
  have htimes := Prog.Spec.reach (wp_timed_installLocked (t := t0) hscripts hparent0 hroot hgone htag0) hinst
  refine ⟨fun hroot => Prog.Spec.reach (wp_timed_lockAndRecover hparent hroot) hlock, fun p m hp => ?_⟩
  have hu : u (tx.root ++ p) = ⟨(t0 (tx.root ++ p)).sec, 0⟩ := htimes p ⟨m, hp⟩
  refine ⟨?_, hu, ?_⟩
  · have hold : v.fs.get (tx.root ++ p) = _ := hfilled.old p (by rw [hp]; simp)
    rw [hold, hp]
    rfl
  · rw [hu]
    constructor
    · exact fun h => (congrArg Timespec.nsec h).symm
    · exact fun h => by rw [← h]

/-- The install of a package in the empty root, everything there at its time. -/
@[irreducible] def timedRun (pkg : Package) (t : Times) :
    (Except String Package × Globals) × World Part × Times :=
  (installLocked default emptyRootTx (.ok pkg) {}).exec Op.timedAnswer
    ((lockAndRecover emptyRootTx {}).exec Op.timedAnswer (emptyRoot, t)).2

/-- The root that was empty keeps its whole seconds only. -/
theorem base_times_restored_empty :
    ∃ g w0 t0 pkg' g' v u,
      Prog.Reach (timed Kernel.steady) (lockAndRecover emptyRootTx {}) (emptyRoot, fun _ => ⟨7, 5⟩)
          (.ret (.ok (), g)) (w0, t0) ∧
        Prog.Reach (timed Kernel.steady) (installLocked default emptyRootTx (.ok ⟨[danglingComponent]⟩) g) (w0, t0)
            (.ret (.ok pkg', g')) (v, u) ∧
          v.fs.get emptyRootTx.root = some (.dir 0o755) ∧ u emptyRootTx.root = ⟨7, 0⟩ := by
  have hmem : ([packageName, linkName], some "m/../../x".toList) ∈
      installedLinks (timedRun ⟨[danglingComponent]⟩ fun _ => ⟨7, 5⟩).1.1 := by decide +kernel
  unfold timedRun at hmem
  have hlock := Prog.reach_exec (timed_answer (K := Kernel.steady)) (lockAndRecover emptyRootTx {})
    (emptyRoot, fun _ => ⟨7, 5⟩)
  have hinst := Prog.reach_exec (timed_answer (K := Kernel.steady))
    (installLocked default emptyRootTx (.ok ⟨[danglingComponent]⟩) {})
    ((lockAndRecover emptyRootTx {}).exec Op.timedAnswer (emptyRoot, fun _ => ⟨7, 5⟩)).2
  have hres : ((lockAndRecover emptyRootTx {}).exec Op.timedAnswer (emptyRoot, fun _ => ⟨7, 5⟩)).1 = (.ok (), {}) := by
    rfl
  rw [hres] at hlock
  generalize ((lockAndRecover emptyRootTx {}).exec Op.timedAnswer (emptyRoot, fun _ => ⟨7, 5⟩)).2 = s0 at *
  generalize (installLocked default emptyRootTx (.ok ⟨[danglingComponent]⟩) {}).exec Op.timedAnswer s0 = x at *
  obtain ⟨w0, t0⟩ := s0
  obtain ⟨⟨r, g'⟩, v, u⟩ := x
  cases r with
  | error _ => simp [installedLinks] at hmem
  | ok pkg' =>
      have hscripts : Scriptless default ⟨[danglingComponent]⟩ :=
        .inr (by simp [danglingComponent, linkComponent])
      have h := base_times_restored Kernel.steady default emptyRootTx ⟨[danglingComponent]⟩ pkg' {} g' emptyRoot w0 v
        (fun _ => ⟨7, 5⟩) t0 u ⟨0o755, rfl⟩ rfl hlock hinst hscripts
      have hsame := h.1 ⟨0o755, rfl⟩
      have hroot0 : w0.fs.get (emptyRootTx.root ++ []) = some (.dir 0o755) := (hsame.tree []).trans rfl
      obtain ⟨hroot, htime, -⟩ := h.2 [] _ hroot0
      refine ⟨{}, w0, t0, pkg', g', v, u, hlock, hinst, by simpa using hroot, ?_⟩
      have hthere : emptyRoot.fs.get (emptyRootTx.root ++ []) ≠ none := by decide
      have ht : t0 (emptyRootTx.root ++ []) = ⟨7, 5⟩ := hsame.times [] hthere
      rw [ht] at htime
      simpa using htime

end MiniDarwin.Installer
