import MiniDarwin.Installer.Published
import MiniDarwin.Installer.ScriptRead
import MiniDarwin.Effects.Loop

/-!
The limits on nesting.

`LIMIT_DEPTH` bounds `stage_copy ()`, which starts at the root, and
`remove_tree ()`, which starts one level above it, in the transaction
directory. A directory may therefore be one level less deep than a file if
its root is to be installed into again and again. `path_normalize ()`
bounds an archive path and an install location by the same number, each on
its own, so a payload has to be looked at where it is placed.
-/

namespace MiniDarwin.Installer

open Posix Effects Effects.Proc

/-- The directories of the tree at `R` are nested at most `n` deep. -/
def Nested (fs : Fs) (R : Path) (n : Nat) : Prop := ∀ q, fs.IsDir (R ++ q) → q.length ≤ n

/-- A root that can be copied, and removed from the transaction directory again. -/
structure Shallow (tx : Tx) (fs : Fs) : Prop where
  depth : ∀ q, fs.IsDir (tx.root ++ q) → q.length < limitDepth
  fits : ∀ q, fs.get (tx.root ++ q) ≠ none → hostLen (tx.original ++ q) < pathMax

/-- A package that keeps a root so. -/
structure Package.Shallow (tx : Tx) (pkg : Package) : Prop where
  dirs : ∀ c ∈ pkg.components, ∀ e ∈ c.payload, e.isDir = true → e.path.length < limitDepth
  depth : ∀ c ∈ pkg.components, ∀ e ∈ c.payload, e.path.length ≤ limitDepth
  fits : ∀ c ∈ pkg.components, ∀ e ∈ c.payload, hostLen (tx.original ++ e.path) < pathMax
  records : ∀ c ∈ pkg.components, ∀ r : Record, hostLen (tx.original ++ r.path c.identifier) < pathMax

/-- Installs one after the other, each by a process of its own, each successful and without
scripts, of packages that are placed as `Package.Shallow` says. -/
inductive Installs (K : Kernel Part) (tx : Tx) : World Part → World Part → Prop where
  | start (w : World Part) : Installs K tx w w
  | next {w v v0 v' : World Part} {env : Env} {pkg pkg' : Package} {g g' : Globals} (h : Installs K tx w v)
      (hlock : Prog.Reach (sem K) (lockAndRecover tx {}) { v with tag := .main } (.ret (.ok (), g)) v0)
      (hinst : Prog.Reach (sem K) (installLocked env tx (.ok pkg) g) v0 (.ret (.ok pkg', g')) v')
      (hscripts : Scriptless env pkg)
      (hplaced : ∀ placed, Places env tx v0.fs pkg placed → placed.Shallow tx) : Installs K tx w v'

/-- The transaction directory with complete copies of two roots. -/
structure Holding (tx : Tx) (fs new original : Fs) : Prop where
  stage : ∀ q, (fs.get (tx.stage ++ q)).map Node.isDir = (new.get (tx.root ++ q)).map Node.isDir
  original : ∀ q, (fs.get (tx.original ++ q)).map Node.isDir = (original.get (tx.root ++ q)).map Node.isDir
  marker : ¬ fs.IsDir (tx.dir ++ [Tx.targetName])
  only : ∀ n, fs.get (tx.dir ++ [n]) ≠ none → n = Tx.targetName ∨ n = Tx.stageName ∨ n = Tx.originalName

variable {K : Kernel Part} {tx : Tx} {pkg pkg' : Package} {g g' : Globals} {w w' : World Part}
  {p q : Path} {env : Env} {fs fs' new original : Fs} {α β : Type}

/-! ### Lengths -/

theorem strlen_le_append (p q : Path) : strlen p ≤ strlen (p ++ q) := by
  induction q using List.reverseRecOn with
  | nil => rw [List.append_nil]
  | append_singleton q n ih =>
      rw [← List.append_assoc]
      by_cases hne : p ++ q = []
      · rw [List.append_eq_nil_iff.1 hne |>.1]
        exact Nat.zero_le _
      · rw [strlen_concat hne]
        omega

theorem hostLen_mono (h : p <+: q) (d : Path) : hostLen (d ++ p) ≤ hostLen (d ++ q) := by
  obtain ⟨s, rfl⟩ := h
  rw [← List.append_assoc]
  exact Nat.succ_le_succ (strlen_le_append _ _)

theorem hostLen_concat {d : Path} {n : Name} (h : d ≠ []) : hostLen (d ++ [n]) = hostLen d + 1 + n.1.length := by
  rw [hostLen, strlen_concat h, hostLen]
  omega

theorem hostLen_exchange {a b : Name} (d q : Path) (h : a.1.length ≤ b.1.length) :
    hostLen (d ++ [a] ++ q) ≤ hostLen (d ++ [b] ++ q) := by
  induction q using List.reverseRecOn with
  | nil => simpa [hostLen] using strlen_concat_le (d := d) h
  | append_singleton q n ih =>
      rw [← List.append_assoc, ← List.append_assoc, hostLen_concat (by simp), hostLen_concat (by simp)]
      omega

/-! ### The published root -/

theorem Entry.Matches.isDir {e : Entry} {m : Mode} (h : e.Matches (.dir m)) : e.isDir = true := by
  unfold Entry.Matches at h
  unfold Entry.isDir
  cases hc : e.content with
  | directory => rfl
  | file data =>
      rw [hc] at h
      cases h
  | symlink t =>
      rw [hc] at h
      cases h

theorem record_length {c : Component} (h : RecordPath c q) : q.length < limitDepth := by
  obtain ⟨-, r, hr⟩ := h
  have hlen : (r.path c.identifier).length = 5 := by cases r <;> rfl
  have hle := hr.length_le
  rw [hlen] at hle
  exact Nat.lt_of_le_of_lt hle (by decide)

/-- An install keeps a root shallow. -/
theorem Filled.shallow (h : Filled env fs tx.root pkg.components fs' tx.root) (hfs : Shallow tx fs)
    (hpkg : pkg.Shallow tx) : Shallow tx fs' := by
  constructor
  · intro q hq
    by_cases hold : fs.get (tx.root ++ q) = none
    · obtain hold' | ⟨c, hc, ⟨-, e, he, hp⟩ | hrec⟩ := h.only q hq.ne_none
      · exact absurd hold hold'
      · by_cases heq : q = e.path
        · have hin := h.inPlace c hc e he
          obtain hnil | ⟨v, hv, hm⟩ := hin
          · rw [heq, hnil]
            decide
          · obtain ⟨m, hm'⟩ := hq
            rw [heq, hv] at hm'
            obtain rfl := Option.some.inj hm'
            rw [heq]
            exact hpkg.dirs c hc e he hm.isDir
        · have hlt : q.length < e.path.length := by
            refine Nat.lt_of_le_of_ne hp.length_le fun hlen => heq (hp.eq_of_length hlen)
          exact Nat.lt_of_lt_of_le hlt (hpkg.depth c hc e he)
      · exact record_length hrec
    · apply hfs.depth
      obtain ⟨m, hm⟩ := hq
      obtain ⟨v, hv⟩ := Option.ne_none_iff_exists'.1 hold
      have hcopied := h.old q hold
      rw [hm, hv] at hcopied
      cases v with
      | dir m' => exact ⟨m', hv⟩
      | _ => cases hcopied
  · intro q hq
    obtain hold | ⟨c, hc, ⟨-, e, he, hp⟩ | ⟨-, r, hp⟩⟩ := h.only q hq
    · exact hfs.fits q hold
    · exact Nat.lt_of_le_of_lt (hostLen_mono hp _) (hpkg.fits c hc e he)
    · exact Nat.lt_of_le_of_lt (hostLen_mono hp _) (hpkg.records c hc r)

/-- A root that is there when `lock_and_recover ()` begins is left alone. -/
theorem Recovers.rooted {o : Op Part} {r : Except Errno o.Val} (h : Recovers tx o w) (hs : sem K o w r w')
    (hparent : w.fs.IsDir tx.parent) (hroot : w.fs.get tx.root ≠ none) :
    w'.fs.IsDir tx.parent ∧ ∀ q, w'.fs.get (tx.root ++ q) = w.fs.get (tx.root ++ q) := by
  have hshrunk : ∀ {o : Op Part} {r : Except Errno o.Val}, Removes tx.dir o w → sem K o w r w' →
      w'.fs.IsDir tx.parent ∧ ∀ q, w'.fs.get (tx.root ++ q) = w.fs.get (tx.root ++ q) := by
    intro o r ho hs
    have hsh : Shrunk tx.dir ({} : Globals) w {} w' := ho.step hs
    obtain ⟨m, hm⟩ := hparent
    exact ⟨⟨m, (hsh.outside _ not_prefix_self).trans hm⟩, fun q => hsh.outside _ (tx.dir_apart q)⟩
  cases r with
  | error e =>
      obtain rfl := sem_error hs
      exact ⟨hparent, fun _ => rfl⟩
  | ok x =>
      cases o with
      | lock p =>
          obtain rfl : p = tx.lock := h
          obtain ⟨-, -, hsame, -⟩ := lock_made hparent hs
          obtain ⟨m, hm⟩ := hparent
          refine ⟨⟨m, (hsame _ (by simp [Tx.lock])).trans hm⟩, fun q => hsame _ fun heq => ?_⟩
          exact tx.lock_apart.2 (heq ▸ List.prefix_append _ _)
      | rename a b => exact absurd h.2.2 hroot
      | unlink p => exact hshrunk h.1 hs
      | rmdir p => exact hshrunk h.1 hs
      | chmod p m => exact hshrunk h.1 hs
      | _ =>
          obtain rfl := sem_quiet h hs
          exact ⟨hparent, fun _ => rfl⟩

/-! ### `stage_copy ()` -/

/-- The message of `stage_copy ()` at the limit. -/
def nestingLimit : String := "root nesting limit"

/-- The function does not give up because of the nesting. -/
def Admits (s : Sem (calls Part) (World Part)) (m : M α) : Prop :=
  ∀ g w, wp s (fun _ _ => True) m (fun _ _ _ => True) (fun msg _ _ => msg ≠ nestingLimit) g w

theorem ne_nestingLimit {start : String} (rest : String) (h : ¬ start.toList <+: nestingLimit.toList) :
    start ++ rest ≠ nestingLimit := by
  intro heq
  refine h ⟨rest.toList, ?_⟩
  rw [← String.toList_append, heq]

namespace Admits

variable {s : Sem (calls Part) (World Part)}

theorem pure (a : α) : Admits s (Pure.pure a) := fun _ _ => trivial

theorem die {msg : String} (h : msg ≠ nestingLimit) : Admits s (Installer.die msg : M α) := fun _ _ => h

theorem bind {m : M α} {f : α → M β} (h : Admits s m) (hf : ∀ a, Admits s (f a)) : Admits s (m >>= f) :=
  fun g w => wp_bind.2 (wp.post (h g w) (fun a g' w' _ => hf a g' w') (fun _ _ _ => id))

theorem ask {o : Op Part} : Admits s (Posix.ask o) := fun _ _ => wp_ask.2 ⟨trivial, fun _ _ _ => trivial⟩

theorem call {o : Op Part} {msg : Errno → String} (h : ∀ e, msg e ≠ nestingLimit) :
    Admits s (Installer.call o msg) := by
  refine ask.bind fun r => ?_
  cases r with
  | ok v => exact pure v
  | error e => exact die (h e)

theorem ite {c : Prop} [Decidable c] {m n : M α} (hm : Admits s m) (hn : Admits s n) :
    Admits s (if c then m else n) := by
  split
  · exact hm
  · exact hn

theorem createHook : Admits s (Installer.createHook p) := by
  intro g w
  unfold Installer.createHook
  refine wp_bind.2 (wp_get.2 ?_)
  split
  · trivial
  · trivial

theorem hostJoin_eq (g : Globals) (w : World Part) :
    wp s (fun _ _ => True) (Installer.hostJoin p q) (fun r _ _ => r = p ++ q) (fun msg _ _ => msg ≠ nestingLimit) g w := by
  unfold Installer.hostJoin
  split
  · next hq => exact (by rw [hq, List.append_nil] : p = p ++ q)
  · split
    · simp only [String.append_assoc]
      exact ne_nestingLimit _ (by decide)
    · exact (rfl : p ++ q = p ++ q)

theorem relJoin_eq (g : Globals) (w : World Part) :
    wp s (fun _ _ => True) (Installer.relJoin p q) (fun r _ _ => r = p ++ q) (fun msg _ _ => msg ≠ nestingLimit) g w := by
  unfold Installer.relJoin
  split
  · next hp => exact (by rw [hp, List.nil_append] : q = p ++ q)
  · split
    · next hq => exact (by rw [hq, List.append_nil] : p = p ++ q)
    · split
      · simp only [String.append_assoc]
        exact ne_nestingLimit _ (by decide)
      · exact (rfl : p ++ q = p ++ q)

theorem readlink : Admits s (Installer.readlink p) := by
  refine bind (call fun e => ?_) fun _ => pure _
  simp only [String.append_assoc]
  exact ne_nestingLimit _ (by decide)

theorem writeRounds {rounds : Nat} {data : Bytes} : Admits s (Installer.writeRounds p rounds data) := by
  induction rounds generalizing data with
  | zero => exact pure _
  | succ rounds ih =>
      refine ite (pure _) (bind (call fun e => ?_) fun n => ite (die ?_) ih)
      · simp only [String.append_assoc]
        exact ne_nestingLimit _ (by decide)
      · exact ne_nestingLimit _ (by decide)

theorem setTimes {t : Timespec} : Admits s (Installer.setTimes p t) := by
  refine call fun e => ?_
  simp only [String.append_assoc]
  exact ne_nestingLimit _ (by decide)

theorem applyOwnership : Admits s (Installer.applyOwnership env p) := by
  refine ite (call fun e => ?_) (pure _)
  simp only [String.append_assoc]
  exact ne_nestingLimit _ (by decide)

theorem fileCopy {mode : Mode} : Admits s (Installer.fileCopy p q mode) := by
  refine bind (call fun e => ?_) fun _ => bind (bind (call fun e => ?_) fun _ => createHook) fun _ =>
    bind (call fun e => ?_) fun data => bind writeRounds fun _ =>
      bind (call fun e => ?_) fun _ => bind (call fun e => ?_) fun _ => pure _
  all_goals
    simp only [String.append_assoc]
    exact ne_nestingLimit _ (by decide)

theorem cloneOrCopy {mode : Mode} {t : Timespec} : Admits s (Installer.cloneOrCopy p q mode t) := by
  refine ask.bind fun r => ?_
  cases r with
  | ok v => exact pure _
  | error e =>
      refine ite (die ?_) (fileCopy.bind fun _ => setTimes)
      simp only [String.append_assoc]
      exact ne_nestingLimit _ (by decide)

end Admits

/-- The tree at `R` is that of `fs`. -/
def Rooted (fs : Fs) (R : Path) (_ : Op Part) (v : World Part) : Prop := ∀ q, v.fs.get (R ++ q) = fs.get (R ++ q)

theorem admits_copyEach {s : Sem (calls Part) (World Part)} {copy : Path → Path → Path → M Unit} {src dst rel : Path}
    {names : List Name} (h : ∀ n ∈ names, ∀ b, Admits s (copy (src ++ [n]) b (rel ++ [n]))) :
    Admits s (copyEach copy src dst rel names) := by
  induction names with
  | nil => exact .pure _
  | cons n names ih =>
      intro g w
      refine wp_bind.2 (wp.post (Admits.hostJoin_eq g w) ?_ (fun _ _ _ => id))
      rintro a g1 w1 rfl
      refine wp_bind.2 (wp.post (Admits.hostJoin_eq g1 w1) ?_ (fun _ _ _ => id))
      intro b g2 w2 _
      refine wp_bind.2 (wp.post (Admits.relJoin_eq g2 w2) ?_ (fun _ _ _ => id))
      rintro r g3 w3 rfl
      refine wp_bind.2 (wp.post (h n (.head _) b g3 w3) ?_ (fun _ _ _ => id))
      intro _ g4 w4 _
      exact ih (fun m hm => h m (.tail _ hm)) g4 w4

/-- A directory whose entries are copied with one level less. -/
theorem admits_stageDir {R rel dst : Path} {left : Nat} {m : Mode} {t : Int} (hv : fs.get (R ++ rel) = some (.dir m))
    (ih : ∀ {rel dst : Path}, fs.get (R ++ rel) ≠ none → (∀ q, fs.get (R ++ rel ++ q) ≠ none → q.length < left) →
      Admits (under (Rooted fs R) (sem K)) (stageCopy env left (R ++ rel) dst rel))
    (hdepth : ∀ q, fs.get (R ++ rel ++ q) ≠ none → q.length < left + 1) :
    Admits (under (Rooted fs R) (sem K))
      (do
        let _ ← call (.mkdir dst 0o700) fun e => s!"mkdir {hostStr dst}: {strerror e}"
        let g ← get
        let bases ← entriesAppend g.baseDirectories (rel, m, t)
        modify fun g => { g with baseDirectories := bases }
        let names : List Name ←
          call (.listdir (R ++ rel)) fun e => s!"opendir {hostStr (R ++ rel)}: {strerror e}"
        copyEach (stageCopy env left) (R ++ rel) dst rel names
        applyOwnership env dst
        call (.chmod dst (m ||| 0o700)) fun e => s!"chmod {hostStr dst}: {strerror e}") := by
  refine Admits.bind (.call fun e => ?_) fun _ => Admits.bind (fun _ _ => trivial) fun g => Admits.bind ?_ fun bases =>
    Admits.bind (fun _ _ => trivial) fun _ => ?_
  · simp only [String.append_assoc]
    exact ne_nestingLimit _ (by decide)
  · exact .ite (.die (by decide)) (.pure _)
  intro g w
  refine wp_bind.2 (wp_call.2 (wp_ask.2 ⟨trivial, fun r w1 hs => ?_⟩))
  obtain ⟨hroot, hs⟩ := hs
  cases r with
  | error e =>
      simp only [String.append_assoc]
      exact ne_nestingLimit _ (by decide)
  | ok names =>
      obtain ⟨l, hl, hperm⟩ := hs
      have hreal : realDir w.fs (R ++ rel) = .ok (R ++ rel) := at_self ⟨m, (hroot rel).trans hv⟩
      simp only [Op.run, hreal, Except.map, Except.ok.injEq, Prod.mk.injEq] at hl
      obtain ⟨rfl, -⟩ := hl
      have hnames : ∀ n ∈ names, fs.get (R ++ (rel ++ [n])) ≠ none := by
        intro n hn
        rw [← hroot, ← List.append_assoc]
        exact Fs.mem_children.1 (hperm.mem_iff.1 hn)
      have hcopy : ∀ n ∈ names, ∀ b, Admits (under (Rooted fs R) (sem K))
          (stageCopy env left (R ++ rel ++ [n]) b (rel ++ [n])) := by
        intro n hn b
        rw [List.append_assoc]
        refine ih (hnames n hn) fun q hq => ?_
        have hlt := hdepth (n :: q) (by simpa using hq)
        simpa using hlt
      refine ((admits_copyEach hcopy).bind fun _ => Admits.applyOwnership.bind fun _ => .call fun e => ?_) g w1
      simp only [String.append_assoc]
      exact ne_nestingLimit _ (by decide)

/-- `stage_copy ()` while the root stays as it is. -/
theorem admits_stageCopy {R rel dst : Path} {left : Nat} (hR : R ≠ []) (hne : fs.get (R ++ rel) ≠ none)
    (hdepth : ∀ q, fs.get (R ++ rel ++ q) ≠ none → q.length < left) :
    Admits (under (Rooted fs R) (sem K)) (stageCopy env left (R ++ rel) dst rel) := by
  induction left generalizing rel dst with
  | zero => exact absurd (hdepth [] (by simpa using hne)) (Nat.not_lt_zero _)
  | succ left ih =>
      intro g w
      unfold stageCopy
      refine wp_bind.2 (wp_call.2 (wp_ask.2 ⟨trivial, fun r w1 hs => ?_⟩))
      obtain ⟨hroot, hs⟩ := hs
      cases r with
      | error e =>
          simp only [String.append_assoc]
          exact ne_nestingLimit _ (by decide)
      | ok st =>
          obtain ⟨v, hv⟩ := Option.ne_none_iff_exists'.1 hne
          have hst : st = v.stat := by
            have hloc : locate w.fs (R ++ rel) = .ok (R ++ rel) :=
              locate_self (by rw [hroot, hv]; simp) (by simp [hR])
            have hrun : (Op.lstat (τ := Part) (R ++ rel)).run w = .ok (st, w1) := hs
            simp only [Op.run, hloc, Except.bind, hroot rel, hv, Except.ok.injEq, Prod.mk.injEq] at hrun
            exact hrun.1.symm
          subst hst
          refine wp_bind.2 (wp.post (Admits.call (o := .mtime (R ++ rel)) (fun e => ?_) g w1) ?_ (fun _ _ _ => id))
          · simp only [String.append_assoc]
            exact ne_nestingLimit _ (by decide)
          intro t g2 w2 _
          cases v with
          | other =>
              simp only [String.append_assoc]
              exact ne_nestingLimit _ (by decide)
          | link t =>
              refine (Admits.readlink.bind fun target => Admits.bind (.call fun e => ?_) fun _ =>
                Admits.applyOwnership.bind fun _ => Admits.setTimes) g2 w2
              simp only [String.append_assoc]
              exact ne_nestingLimit _ (by decide)
          | file m data =>
              exact (Admits.cloneOrCopy.bind fun _ => Admits.applyOwnership) g2 w2
          | dir m => exact admits_stageDir hv ih hdepth g2 w2

theorem stageCopy_admits (hdir : w.fs.IsDir tx.dir) (hroot : w.fs.IsDir tx.root) (hg : g.createHook = false)
    (hdepth : ∀ q, w.fs.get (tx.root ++ q) ≠ none → q.length ≤ limitDepth) {msg : String}
    (hr : Prog.Reach (sem K) (stageCopy env (limitDepth + 1) tx.root tx.stage [] g) w (.ret (.error msg, g')) w') :
    msg ≠ nestingLimit := by
  have hcopy := copySpec (K := K) env tx.root_ne_nil tx.dir_apart (limitDepth + 1) w.fs
    [Tx.stageName] [] g w (by simp) ⟨at_self hdir, Fs.Kept.refl _⟩ (by simpa using hdir)
    (by simpa using hroot.ne_none) hg
  simp only [List.append_nil] at hcopy
  have hkeeps : ∀ o v r v', Grows w.fs tx.dir tx.dir ([Tx.stageName] <+: ·) o v →
      Rooted w.fs tx.root o v → sem K o v r v' → ∀ q, v'.fs.get (tx.root ++ q) = w.fs.get (tx.root ++ q) := by
    intro o v r v' ho hv hs q
    rw [ho.elsewhere hs, hv]
    intro d _ heq
    exact tx.dir_apart q (heq ▸ List.prefix_append _ _)
  have hinv := wp.invariant (I := fun v : World Part => ∀ q, v.fs.get (tx.root ++ q) = w.fs.get (tx.root ++ q)) hcopy hkeeps
    fun _ => rfl
  have hadmits : Admits (under (Rooted w.fs tx.root) (sem K))
      (stageCopy env (limitDepth + 1) (tx.root ++ []) tx.stage []) :=
    admits_stageCopy tx.root_ne_nil (by simpa using hroot.ne_none)
      fun q hq => Nat.lt_succ_of_le (hdepth q (by simpa using hq))
  rw [List.append_nil] at hadmits
  have hspec := Prog.Spec.under hinv (fun o v h => h.2) (hadmits g w)
  exact (Prog.Spec.reach hspec hr).2

/-- Files are at most one level deeper than directories. -/
theorem Shallow.length_le (h : Shallow tx fs) (hq : fs.get (tx.root ++ q) ≠ none) : q.length ≤ limitDepth := by
  induction q using List.reverseRecOn with
  | nil => exact Nat.zero_le _
  | append_singleton q n _ =>
      rw [← List.append_assoc] at hq
      have hd := h.depth q (Fs.isDir_of_append hq (List.cons_ne_nil _ _))
      rw [List.length_append]
      exact hd

/-! ### `remove_tree ()` -/

/-- Copies of shallow roots are within the bounds of `remove_tree ()`. -/
theorem Holding.removable (h : Holding tx fs new original) (hnew : Shallow tx new) (horiginal : Shallow tx original)
    (hroot : new.IsDir tx.root) : Removable fs (limitDepth + 1) tx.dir tx.dir := by
  constructor
  · intro q hq
    cases q with
    | nil => exact Nat.succ_pos _
    | cons n q =>
        rw [← List.singleton_append, ← List.append_assoc] at hq
        rw [List.length_cons, Nat.succ_lt_succ_iff]
        obtain rfl | rfl | rfl := h.only n (Fs.ne_none_of_append hq.ne_none)
        · by_cases hq' : q = []
          · rw [hq', List.append_nil] at hq
            exact absurd hq h.marker
          · exact absurd (Fs.isDir_of_append hq.ne_none hq') h.marker
        · exact hnew.depth q ((isDir_iff_of_shape (h.stage q)).1 hq)
        · exact horiginal.depth q ((isDir_iff_of_shape (h.original q)).1 hq)
  · intro q n hn
    have hne : tx.dir ++ q ≠ [] := by simp [Tx.dir]
    rw [← hostLen_concat hne, List.append_assoc]
    cases hpath : q ++ [n] with
    | nil => exact absurd hpath (by simp)
    | cons k r =>
        rw [hpath, ← List.singleton_append, ← List.append_assoc] at hn
        rw [← List.singleton_append, ← List.append_assoc]
        obtain rfl | rfl | rfl := h.only k (Fs.ne_none_of_append hn)
        · have hr : r = [] := by
            by_contra hr
            exact h.marker (Fs.isDir_of_append hn hr)
          have htop := hnew.fits [] (by simpa using hroot.ne_none)
          rw [hr]
          exact Nat.lt_of_le_of_lt (hostLen_exchange _ _ (by decide)) htop
        · exact Nat.lt_of_le_of_lt (hostLen_exchange _ _ (by decide)) (hnew.fits r ((ne_none_iff_of_shape (h.stage r)).1 hn))
        · exact horiginal.fits r ((ne_none_iff_of_shape (h.original r)).1 hn)

theorem removeTree_holding (hcalm : Calm K w) (hparent : w.fs.IsDir tx.parent) (h : Holding tx w.fs new original)
    (hnew : Shallow tx new) (horiginal : Shallow tx original) (hroot : new.IsDir tx.root) {r : Except String Bool}
    (hr : Prog.Reach (sem K) (removeTree (limitDepth + 1) tx.dir g) w (.ret (r, g')) w') :
    r = .ok true ∧ w'.fs.get tx.dir = none := by
  have hspec := removeSpec (K := K) (limitDepth + 1) tx.parent tx.parent
    (Name.suffixed tx.name ".mdpkg-transaction".toList) g w (fixed_self hparent)
  have hout := Prog.Spec.reach hspec hr
  cases r with
  | error msg => exact hout.elim
  | ok gone =>
      obtain ⟨-, hgone, hiff⟩ := hout
      obtain rfl := (hiff hcalm).2 (h.removable hnew horiginal hroot)
      exact ⟨rfl, hgone rfl⟩

/-! ### Install after install -/

/-- What every install finds and leaves. -/
structure Standing (tx : Tx) (fs : Fs) : Prop where
  parent : fs.IsDir tx.parent
  root : fs.IsDir tx.root
  shallow : Shallow tx fs

theorem Shallow.congr (h : Shallow tx fs) (heq : ∀ q, fs'.get (tx.root ++ q) = fs.get (tx.root ++ q)) :
    Shallow tx fs' := by
  constructor
  · intro q hq
    apply h.depth q
    obtain ⟨m, hm⟩ := hq
    exact ⟨m, by rw [← heq, hm]⟩
  · intro q hq
    apply h.fits q
    rwa [← heq]

/-- A root that is there is left as it is until it is installed into. -/
theorem lockAndRecover_same (hparent : w.fs.IsDir tx.parent) (hroot : w.fs.IsDir tx.root)
    (hr : Prog.Reach (sem K) (lockAndRecover tx {}) w (.ret (.ok (), g)) w') :
    ∀ q, w'.fs.get (tx.root ++ q) = w.fs.get (tx.root ++ q) := by
  have hkeeps : ∀ o v r v', Recovers tx o v →
      (v.fs.IsDir tx.parent ∧ ∀ q, v.fs.get (tx.root ++ q) = w.fs.get (tx.root ++ q)) → sem K o v r v' →
      v'.fs.IsDir tx.parent ∧ ∀ q, v'.fs.get (tx.root ++ q) = w.fs.get (tx.root ++ q) := by
    rintro o v r v' ho ⟨hparent, hsame⟩ hs
    have hroot : v.fs.get tx.root ≠ none := by
      rw [← List.append_nil tx.root, hsame, List.append_nil]
      exact hroot.ne_none
    obtain ⟨hparent', hsame'⟩ := ho.rooted hs hparent hroot
    exact ⟨hparent', fun q => (hsame' q).trans (hsame q)⟩
  have hinv := wp.invariant
    (I := fun v : World Part => v.fs.IsDir tx.parent ∧ ∀ q, v.fs.get (tx.root ++ q) = w.fs.get (tx.root ++ q))
    (wp_lockAndRecover (K := K) (g := {}) hparent) hkeeps ⟨hparent, fun _ => rfl⟩
  exact (Prog.Spec.reach hinv hr).2.2

theorem lockAndRecover_standing (hw : Standing tx fs) (hfs : w.fs = fs)
    (hr : Prog.Reach (sem K) (lockAndRecover tx {}) w (.ret (.ok (), g)) w') : Standing tx w'.fs := by
  subst hfs
  obtain ⟨-, -, hparent, hroot, -⟩ := Prog.Spec.reach (wp_lockAndRecover (g := {}) hw.parent) hr
  exact ⟨hparent, hroot, hw.shallow.congr (lockAndRecover_same hw.parent hw.root hr)⟩

theorem Installs.standing {v : World Part} (h : Installs K tx w v) (hw : Standing tx w.fs) : Standing tx v.fs := by
  induction h with
  | start => exact hw
  | @next v _ _ _ _ _ _ _ _ hlock hinst hscripts hplaced ih =>
      have hlocked := lockAndRecover_standing ih (by rfl) hlock
      obtain ⟨rfl, hrun, -, -, hgone, -⟩ := Prog.Spec.reach
        (wp_lockAndRecover (g := {}) (w := { v with tag := .main }) ih.parent) hlock
      obtain ⟨hplaces, -, hfilled⟩ := Prog.Spec.reach
        (wp_installLocked hscripts hlocked.parent hlocked.root hgone hrun.tag) hinst
      have hroot := hfilled.isDir hlocked.root
      exact ⟨Fs.isDir_of_append hroot.ne_none (List.cons_ne_nil _ _), hroot,
        hfilled.shallow hlocked.shallow (hplaced _ hplaces)⟩

/-- **Installing never makes a root uninstallable**: from a root whose directories are less
deep than the limit, by packages that keep it so. The root is within the limit after each
install, it can be copied, and copies of such roots can be removed from the transaction
directory. -/
theorem nesting_kept (K : Kernel Part) (tx : Tx) (w v v' : World Part) (hparent : w.fs.IsDir tx.parent)
    (hroot : w.fs.IsDir tx.root) (hw : Shallow tx w.fs) (hv : Installs K tx w v) (hv' : Installs K tx w v') :
    Nested v.fs tx.root limitDepth ∧
      (∀ (K' : Kernel Part) (env : Env) (g g' : Globals) (u u' : World Part) (msg : String), g.createHook = false →
        u.fs.IsDir tx.dir → (∀ q, u.fs.get (tx.root ++ q) = v.fs.get (tx.root ++ q)) →
        Prog.Reach (sem K') (stageCopy env (limitDepth + 1) tx.root tx.stage [] g) u (.ret (.error msg, g')) u' →
        msg ≠ nestingLimit) ∧
      ∀ (K' : Kernel Part) (g g' : Globals) (u u' : World Part) (r : Except String Bool), Calm K' u →
        u.fs.IsDir tx.parent → Holding tx u.fs v.fs v'.fs →
        Prog.Reach (sem K') (removeTree (limitDepth + 1) tx.dir g) u (.ret (r, g')) u' →
        r = .ok true ∧ u'.fs.get tx.dir = none := by
  have hstands := hv.standing ⟨hparent, hroot, hw⟩
  have hstands' := hv'.standing ⟨hparent, hroot, hw⟩
  refine ⟨fun q hq => Nat.le_of_lt (hstands.shallow.depth q hq), ?_, ?_⟩
  · intro K' env g g' u u' msg hg hdir hsame hr
    have hu := hstands.shallow.congr hsame
    have hroot' : u.fs.IsDir tx.root := by
      obtain ⟨m, hm⟩ := hstands.root
      have hnil := hsame []
      rw [List.append_nil, hm] at hnil
      exact ⟨m, hnil⟩
    exact stageCopy_admits hdir hroot' hg (fun q hq => hu.length_le hq) hr
  · intro K' g g' u u' r hcalm hparent' hholding hr
    exact removeTree_holding hcalm hparent' hholding hstands.shallow hstands'.shallow hstands.root hr

/-- The root `/r` with `/r/outer/inner/file`. -/
def nestedRoot : World Part :=
  let fs := emptyRoot.fs.create [emptyRootTx.name, nm "outer".toList] (.dir 0o755) (by decide) (by decide) (by decide)
  let fs := fs.create [emptyRootTx.name, nm "outer".toList, nm "inner".toList] (.dir 0o755) (by decide) (by decide)
    (by decide)
  let fs := fs.create [emptyRootTx.name, nm "outer".toList, nm "inner".toList, nm "file".toList] (.file 0o644 [1])
    (by decide) (by decide) (by decide)
  ⟨fs, .main, fs, []⟩

def nestedLocked : World Part := ((lockAndRecover emptyRootTx {}).exec Op.answer nestedRoot).2

@[irreducible] def nestedRun : (Except String Package × Globals) × World Part :=
  (installLocked default emptyRootTx (.ok ⟨[addingComponent]⟩) {}).exec Op.answer nestedLocked

theorem reach_nestedRun :
    Prog.Reach (sem K) (installLocked default emptyRootTx (.ok ⟨[addingComponent]⟩) {}) nestedLocked
      (.ret nestedRun.1) nestedRun.2 := by
  unfold nestedRun
  exact Prog.reach_exec sem_answer _ _

/-- However it is placed, the component is no deeper than the root. -/
theorem shallow_adding {placed : Package} (h : Places env emptyRootTx fs ⟨[addingComponent]⟩ placed) :
    placed.Shallow emptyRootTx := by
  obtain ⟨c, cs, hc, hnil, hcs⟩ := List.forall₂_cons_left_iff.1 h.placedAs
  obtain rfl := List.forall₂_nil_left_iff.1 hnil
  obtain ⟨e, es, he, hnil, hes⟩ := List.forall₂_cons_left_iff.1 hc.payload
  obtain rfl := List.forall₂_nil_left_iff.1 hnil
  have hpath : e.path = [nm "added".toList] := he.top _ rfl rfl
  constructor <;> simp only [hcs, List.forall_mem_singleton, hes, hpath, hc.identifier]
  · exact fun _ => by decide
  · decide
  · decide
  · intro r
    cases r <;> decide

/-- A component installed in a nested root. -/
theorem nesting_kept_nested :
    ∃ v, Installs Kernel.steady emptyRootTx nestedRoot v ∧
      v.fs.get (emptyRootTx.root ++ [nm "added".toList]) = some (.file 0o644 [2]) ∧
      v.fs.IsDir (emptyRootTx.root ++ [nm "outer".toList, nm "inner".toList]) ∧
      Nested v.fs emptyRootTx.root limitDepth := by
  have hlock : Prog.Reach (sem Kernel.steady) (lockAndRecover emptyRootTx {}) nestedRoot (.ret (.ok (), {}))
      nestedLocked := Prog.reach_exec sem_answer (lockAndRecover emptyRootTx {}) nestedRoot
  have hrun := reach_nestedRun (K := Kernel.steady)
  have hok : nestedRun.1.1.toOption.isSome = true := by decide +kernel
  have hadded : nestedRun.2.fs.get (emptyRootTx.root ++ [nm "added".toList]) = some (.file 0o644 [2]) := by
    decide +kernel
  have hkept : nestedRun.2.fs.IsDir (emptyRootTx.root ++ [nm "outer".toList, nm "inner".toList]) := by decide +kernel
  generalize nestedRun = x at hrun hok hadded hkept
  obtain ⟨⟨r, g'⟩, v⟩ := x
  cases r with
  | error msg => cases hok
  | ok pkg' =>
      have hinst : Installs Kernel.steady emptyRootTx nestedRoot v :=
        .next (.start nestedRoot) hlock hrun (.inr (by simp [addingComponent])) fun _ h => shallow_adding h
      have hshort : ∀ p ∈ nestedRoot.fs.paths, p.length < limitDepth ∧
          hostLen (emptyRootTx.original ++ p.drop 1) < pathMax := by decide +kernel
      have hmem : ∀ q, nestedRoot.fs.get (emptyRootTx.root ++ q) ≠ none →
          (emptyRootTx.root ++ q).length < limitDepth ∧ hostLen (emptyRootTx.original ++ q) < pathMax :=
        fun q hq => hshort _ (nestedRoot.fs.complete _ hq)
      have hshallow : Shallow emptyRootTx nestedRoot.fs := by
        constructor
        · intro q hq
          have := (hmem q hq.ne_none).1
          rw [List.length_append] at this
          omega
        · exact fun q hq => (hmem q hq).2
      exact ⟨v, hinst, hadded, hkept, (nesting_kept Kernel.steady emptyRootTx nestedRoot v nestedRoot ⟨0o755, rfl⟩
        ⟨0o755, rfl⟩ hshallow hinst (.start nestedRoot)).1⟩

/-- A tree of directories. -/
def dirTree (l : List Path) : Fs where
  get p := if p = [] ∨ ∃ q ∈ l, p <+: q then some (.dir 0o755) else none
  paths := [] :: l.flatMap List.inits
  complete p hp := by
    rw [List.mem_cons, List.mem_flatMap]
    by_contra hnot
    rw [not_or] at hnot
    refine hp (if_neg (not_or.2 ⟨hnot.1, ?_⟩))
    rintro ⟨q, hq, hpq⟩
    exact hnot.2 ⟨q, hq, (List.mem_inits _ _).2 hpq⟩
  top := ⟨0o755, if_pos (.inl rfl)⟩
  parent d n hdn := by
    refine ⟨0o755, if_pos (.inr ?_)⟩
    by_contra hnot
    refine hdn (if_neg (not_or.2 ⟨by simp, ?_⟩))
    rintro ⟨q, hq, hpq⟩
    exact hnot ⟨q, hq, (List.prefix_append _ _).trans hpq⟩

/-- A line of directories as long as the limit. -/
def line : Path := List.replicate limitDepth insideName

/-- A root with such a line, and the transaction directory with two copies of it. -/
def deepTree (tx : Tx) : Fs := dirTree [tx.root ++ line, tx.stage ++ line, tx.original ++ line]

theorem deepTree_eq (h : p ≠ []) (hp : ∀ q ∈ [tx.root, tx.stage, tx.original], q ≠ p → ∀ s, ¬ p <+: q ++ s)
    (hmem : p ∈ [tx.root, tx.stage, tx.original]) (s : Path) :
    (deepTree tx).get (p ++ s) = if s <+: line then some (.dir 0o755) else none := by
  have hiff : (p ++ s = [] ∨ ∃ q ∈ [tx.root ++ line, tx.stage ++ line, tx.original ++ line], p ++ s <+: q) ↔
      s <+: line := by
    constructor
    · rintro (hnil | ⟨q, hq, hpq⟩)
      · exact absurd (List.append_eq_nil_iff.1 hnil).1 h
      · have hbase : ∃ b ∈ [tx.root, tx.stage, tx.original], q = b ++ line := by simpa using hq
        obtain ⟨b, hb, rfl⟩ := hbase
        by_cases heq : b = p
        · rwa [heq, List.prefix_append_right_inj] at hpq
        · exact absurd ((List.prefix_append _ _).trans hpq) (hp b hb heq line)
    · intro hs
      refine .inr ⟨p ++ line, ?_, (List.prefix_append_right_inj p).2 hs⟩
      have hmap := List.mem_map_of_mem (f := (· ++ line)) hmem
      simpa using hmap
  show (if _ then _ else _) = _
  simp only [hiff]

theorem deepTree_root (s : Path) :
    (deepTree tx).get (tx.root ++ s) = if s <+: line then some (.dir 0o755) else none := by
  refine deepTree_eq tx.root_ne_nil ?_ (by simp) s
  intro q hq hne s
  rw [List.mem_cons, List.mem_cons, List.mem_singleton] at hq
  obtain rfl | rfl | rfl := hq
  · exact absurd rfl hne
  · rw [Tx.stage, List.append_assoc]
    exact tx.root_apart _
  · rw [Tx.original, List.append_assoc]
    exact tx.root_apart _

theorem deepTree_stage (s : Path) :
    (deepTree tx).get (tx.stage ++ s) = if s <+: line then some (.dir 0o755) else none := by
  refine deepTree_eq tx.stage_ne_nil ?_ (by simp) s
  intro q hq hne s hs
  rw [List.mem_cons, List.mem_cons, List.mem_singleton] at hq
  obtain rfl | rfl | rfl := hq
  · exact tx.dir_apart s ((List.prefix_append _ _).trans hs)
  · exact hne rfl
  · exact tx.not_stage_original s hs

theorem deepTree_original (s : Path) :
    (deepTree tx).get (tx.original ++ s) = if s <+: line then some (.dir 0o755) else none := by
  refine deepTree_eq tx.original_ne_nil ?_ (by simp) s
  intro q hq hne s hs
  rw [List.mem_cons, List.mem_cons, List.mem_singleton] at hq
  obtain rfl | rfl | rfl := hq
  · exact tx.dir_apart s ((List.prefix_append _ _).trans hs)
  · exact tx.not_original_stage s hs
  · exact hne rfl

/-- In the transaction directory there are the two copies. -/
theorem deepTree_only {n : Name} (h : (deepTree tx).get (tx.dir ++ [n]) ≠ none) :
    n = Tx.stageName ∨ n = Tx.originalName := by
  by_contra hnot
  rw [not_or] at hnot
  refine h (if_neg (not_or.2 ⟨by simp, ?_⟩))
  rintro ⟨q, hq, hpq⟩
  rw [List.mem_cons, List.mem_cons, List.mem_singleton] at hq
  obtain rfl | rfl | rfl := hq
  · exact tx.dir_apart line ((List.prefix_append _ _).trans hpq)
  · rw [Tx.stage, List.append_assoc, List.prefix_append_right_inj, List.singleton_append, List.cons_prefix_cons] at hpq
    exact hnot.1 hpq.1
  · rw [Tx.original, List.append_assoc, List.prefix_append_right_inj, List.singleton_append,
      List.cons_prefix_cons] at hpq
    exact hnot.2 hpq.1

def deepWorld : World Part := ⟨deepTree emptyRootTx, .main, deepTree emptyRootTx, []⟩

/-- Copies of a root that is as deep as the limit allows are not removed. -/
theorem deep_copies_stay :
    Nested deepWorld.fs emptyRootTx.root limitDepth ∧ Calm Kernel.steady deepWorld ∧
      deepWorld.fs.IsDir emptyRootTx.parent ∧ Holding emptyRootTx deepWorld.fs deepWorld.fs deepWorld.fs ∧
      ∃ g v, Prog.Reach (sem Kernel.steady) (removeTree (limitDepth + 1) emptyRootTx.dir {}) deepWorld
        (.ret (.ok false, g)) v := by
  have hroot := @deepTree_root emptyRootTx
  have hstage := @deepTree_stage emptyRootTx
  have horiginal := @deepTree_original emptyRootTx
  have hparent : deepWorld.fs.IsDir emptyRootTx.parent := Fs.isDir_nil
  refine ⟨?_, calm_steady _, hparent, ⟨?_, ?_, ?_, ?_⟩, ?_⟩
  · intro q hq
    by_contra hlong
    refine hq.ne_none ((hroot q).trans (if_neg fun hp => hlong ?_))
    have hle := hp.length_le
    rwa [line, List.length_replicate] at hle
  · intro q
    rw [show deepWorld.fs = deepTree emptyRootTx from rfl, hstage, hroot]
  · intro q
    rw [show deepWorld.fs = deepTree emptyRootTx from rfl, horiginal, hroot]
  · intro hd
    exact absurd (deepTree_only hd.ne_none) (by decide)
  · intro n hn
    exact .inr (deepTree_only hn)
  · have hspec := removeSpec (K := Kernel.steady) (limitDepth + 1) emptyRootTx.parent emptyRootTx.parent
      (Name.suffixed emptyRootTx.name ".mdpkg-transaction".toList) {} deepWorld (fixed_self hparent)
    have hrun := Prog.reach_exec (sem_answer (K := Kernel.steady))
      (removeTree (limitDepth + 1) emptyRootTx.dir {}) deepWorld
    generalize (removeTree (limitDepth + 1) emptyRootTx.dir {}).exec Op.answer deepWorld = x at hrun
    obtain ⟨⟨r, g⟩, v⟩ := x
    have hout := Prog.Spec.reach hspec hrun
    cases r with
    | error msg => exact hout.elim
    | ok gone =>
        cases gone with
        | false => exact ⟨g, v, hrun⟩
        | true =>
            obtain ⟨-, -, hiff⟩ := hout
            have hrem := (hiff (calm_steady _)).1 rfl
            have hdeep : deepWorld.fs.IsDir (emptyRootTx.dir ++ (Tx.stageName :: line)) :=
              ⟨0o755, by
                have h := hstage line
                rw [if_pos (List.prefix_refl _), Tx.stage, List.append_assoc] at h
                exact h⟩
            have hlt := hrem.depth _ hdeep
            rw [List.length_cons, line, List.length_replicate] at hlt
            exact absurd hlt (Nat.lt_irrefl _)

end MiniDarwin.Installer
