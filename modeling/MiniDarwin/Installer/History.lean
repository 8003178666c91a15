import MiniDarwin.Installer.Crash

/-!
Any number of installs on one offline root, each stopped anywhere.

`History` collects the states that are possible between two calls. If child
processes change nothing, the file system agrees with the notes of the
observer in each of them, so that the old root is never lost; and then it is
decided by the marker and the bounds of `remove_tree ()` whether the next run
can recover.
-/

namespace MiniDarwin.Installer

open Posix Effects Effects.Proc

variable {K : Kernel Part} {tx : Tx} {g g' : Globals} {w w' : World Part} {p q : Path} {env : Env}
  {fs fs' : Fs}

/-- Nothing is removed while there is no root but one that is put aside. -/
def Safe (tx : Tx) (o : Op Part) (v : World Part) : Prop :=
  ((∃ p, o = .unlink p) ∨ ∃ p, o = .rmdir p) →
    v.fs.get tx.root ≠ none ∨ v.fs.get tx.original = none

/-- What holds at every call of a run that is watched. -/
def Secure (tx : Tx) (o : Op Part) (s : World Part × Notes) : Prop :=
  Coherent tx s.1.fs s.2 ∧ Safe tx o s.1

theorem Recovers.safe {o : Op Part} (h : Recovers tx o w) : Safe tx o w := by
  rintro (⟨p, rfl⟩ | ⟨p, rfl⟩) <;> exact h.2

theorem Safe.of_ne {o : Op Part} (h : ∀ p, o ≠ .unlink p) (h' : ∀ p, o ≠ .rmdir p) :
    Safe tx o w := by
  rintro (⟨p, rfl⟩ | ⟨p, rfl⟩)
  · exact absurd rfl (h p)
  · exact absurd rfl (h' p)

theorem Safe.of_quiet {o : Op Part} (h : o.quiet = true) : Safe tx o w := by
  rintro (⟨p, rfl⟩ | ⟨p, rfl⟩) <;> simp [Op.quiet] at h

theorem Publishes.safe {o : Op Part} (h : Publishes tx o w) : Safe tx o w := by
  rcases h with h | ⟨rfl, -⟩ | ⟨rfl, -⟩
  · exact h.safe
  · exact Safe.of_ne (by simp) (by simp)
  · exact Safe.of_ne (by simp) (by simp)

section

variable {α : Type} {m : M α} {s : Notes} {Q : α → Globals → World Part → Prop}
  {D : String → Globals → World Part → Prop}

/-- What recovers is secure. -/
theorem wp_watched_recovers (h : wp (sem K) (Recovers tx) m Q D g w) (hc : Coherent tx w.fs s) :
    wp (watched K tx) (Secure tx) m (fun a g' x => Q a g' x.1 ∧ Coherent tx x.1.fs x.2)
      (fun e g' x => D e g' x.1 ∧ Coherent tx x.1.fs x.2) g (w, s) :=
  (wp.observed (I := fun x => Coherent tx x.1.fs x.2) h
    (fun _ _ _ _ _ ho hi hs => hi.recovers ho hs) hc).mono
    (fun _ _ hx => ⟨hx.2, hx.1.safe⟩) (fun _ _ _ => id) (fun _ _ _ => id)

/-- What only looks leaves everything as it is. -/
theorem wp_watched_finds {R : α → Prop} (h : Finds m R) (hc : Coherent tx w.fs s) :
    wp (watched K tx) (Secure tx) m (fun a g' x => R a ∧ g' = g ∧ x = (w, s))
      (fun _ _ x => x = (w, s)) g (w, s) := by
  have hI : ∀ (o : Op Part) v r v' c, (o.quiet = true ∧ v = w) → (v, c) = (w, s) →
      sem K o v r v' → (v', note tx o v r c) = (w, s) := by
    rintro o v r v' c ⟨ho, rfl⟩ heq hs
    obtain rfl : c = s := congrArg Prod.snd heq
    obtain rfl := sem_quiet ho hs
    have hspares : Spares K tx o v' := Spares.of_quiet ho
    have hnote := (hspares r _ hs).2 c
    rw [hnote]
  refine (wp.observed (I := fun x => x = (w, s)) (h K g w) hI rfl).mono ?_ ?_ ?_
  · rintro o x ⟨⟨ho, -⟩, rfl⟩
    exact ⟨hc, Safe.of_quiet ho⟩
  · rintro a g' x ⟨⟨hsame, hr⟩, rfl⟩
    exact ⟨hr, hsame.1, rfl⟩
  · rintro _ _ x ⟨-, rfl⟩
    rfl

end

/-- A transaction begins. -/
theorem Coherent.begin {s : Notes} (h : Coherent tx w.fs s) (hroot : w.fs.IsDir tx.root)
    (hlock : ∃ m data, w.fs.get tx.lock = some (.file m data))
    (hf : Fits tx.dir [Tx.stageName]) (hf' : Fits tx.dir [Tx.originalName])
    (hm : Made w tx.dir (.dir 0o700) w') :
    Preparatory tx w'.fs (some (treeAt w.fs tx.root, none)) := by
  have apart : ∀ {p}, ¬ tx.dir <+: p → w'.fs.get p = w.fs.get p := by
    intro p hp
    have hne : p ≠ tx.dir := by
      rintro rfl
      exact hp (List.prefix_refl _)
    rw [hm.get, if_neg hne]
  have hroot' : treeAt w'.fs tx.root = treeAt w.fs tx.root :=
    funext fun q => apart (tx.dir_apart q)
  refine ⟨⟨?_, by simp, .inr ?_, fun _ => ?_, fun _ => ?_, ?_, by simp⟩, ?_, ⟨_, rfl⟩⟩
  · obtain ⟨m, hp⟩ := h.parent
    exact ⟨m, by rw [apart not_prefix_self, hp]⟩
  · rw [hm.get, if_pos rfl]
  · rw [apart tx.lock_apart.1]
    exact hlock
  · intro n hn
    simp only [List.mem_cons, List.not_mem_nil, or_false] at hn
    rcases hn with rfl | rfl | rfl
    · exact hf
    · exact hf'
    · exact fits_target hf'
  · intro old heq
    obtain rfl : treeAt w.fs tx.root = old := congrArg Prod.fst (Option.some.inj heq)
    obtain ⟨m, hd⟩ := hroot
    exact ⟨⟨m, treeAt_nil.trans hd⟩, .inl hroot'⟩
  · rw [apart tx.not_dir_root]
    exact hroot.ne_none

theorem Preparatory.replacing {s : Notes} (h : Preparatory tx fs s) : Replacing tx fs s :=
  ⟨h.toCoherent, fun _ => h.begun⟩

/-- Filling the stage and publishing it. -/
theorem wp_watched_transact {pkg : Package} {s : Notes} (hK : ChildIdle K)
    (hfree : ∀ c ∈ pkg.components, ∀ e ∈ c.payload, isReserved e.path = false)
    (hdir : w.fs.IsDir tx.dir) (hroot : w.fs.IsDir tx.root) (horig : w.fs.get tx.original = none)
    (hg : g = {}) (htag : w.tag = .main) (hp : Preparatory tx w.fs s) :
    wp (watched K tx) (Secure tx) (transact env tx pkg) (fun _ _ x => Coherent tx x.1.fs x.2)
      (fun _ g' x => Coherent tx x.1.fs x.2 ∧ Undoable tx g' x.1) g (w, s) := by
  subst hg
  have hprep := stays_prepare (K := K) env pkg (g := {}) (fun _ _ => .inr hK)
    hfree hdir hroot rfl rfl rfl htag
  refine wp_bind.2 ((wp.observed (I := fun x => Preparatory tx x.1.fs x.2) hprep
    (fun _ _ _ _ _ ho hi hs => hi.spares (ho.spares hK) hs) hp).mono ?_ ?_ ?_)
  · exact fun o x hx => ⟨hx.2.toCoherent, fun _ => .inl hx.2.root⟩
  · rintro _ g1 ⟨w1, s1⟩ ⟨⟨hprep, htag1, hfilled⟩, hp1⟩
    have hroot1 : w1.fs.IsDir tx.root := by
      obtain ⟨m, hm⟩ := hroot
      exact ⟨m, by simpa [hm] using hprep.root []⟩
    have hdir1 : w1.fs.IsDir tx.dir := by
      obtain ⟨m, hm⟩ := hdir
      exact ⟨m, hprep.dir.trans hm⟩
    have hpub := wp_publish (K := K) (g := g1) hdir1 hroot1 (hfilled.isDir hroot)
      (hprep.original.trans horig) hprep.published
    refine (wp.observed (I := fun x => Replacing tx x.1.fs x.2) hpub
      (fun _ _ _ _ _ ho hi hs => hi.publishes ho hs) hp1.replacing).mono ?_ ?_ ?_
    · exact fun o x hx => ⟨hx.2.toCoherent, hx.1.safe⟩
    · exact fun _ _ _ hx => hx.2.toCoherent
    · exact fun _ _ _ hx => ⟨hx.2.toCoherent, hx.1⟩
  · rintro _ g1 ⟨w1, s1⟩ ⟨hprep, hp1⟩
    refine ⟨hp1.toCoherent, ?_, fun hpub => ?_⟩
    · obtain ⟨m, hm⟩ := hdir
      exact ⟨m, hprep.dir.trans hm⟩
    · rw [hprep.published] at hpub
      cases hpub

/-- The same with the `die` hook set. -/
theorem wp_watched_guarded {pkg : Package} {s : Notes} (hK : ChildIdle K) (hl : LstatHolds K)
    (hfree : ∀ c ∈ pkg.components, ∀ e ∈ c.payload, isReserved e.path = false)
    (hdir : w.fs.IsDir tx.dir) (hroot : w.fs.IsDir tx.root) (horig : w.fs.get tx.original = none)
    (htag : w.tag = .main) (hp : Preparatory tx w.fs s) :
    wp (watched K tx) (Secure tx)
      (onFail (do let _ ← ask (.enter .dying); rollback tx) (transact env tx pkg))
      (fun _ _ x => Coherent tx x.1.fs x.2) (fun _ _ x => Coherent tx x.1.fs x.2) {} (w, s) := by
  refine wp_onFail.2 (wp.post (wp_watched_transact hK hfree hdir hroot horig rfl htag hp)
    (fun _ _ _ => id) ?_)
  rintro _ g1 ⟨w1, s1⟩ ⟨hc, hund⟩
  refine wp_bind.2 (wp_ask.2 ⟨⟨hc, Safe.of_ne (by simp) (by simp)⟩, ?_⟩)
  rintro r ⟨w2, s2⟩ ⟨hs, rfl⟩
  have hw2 : w2 = { w1 with tag := .dying, since := w1.fs } := by
    cases r with
    | error e =>
        obtain ⟨-, hr | hr⟩ := hs
        · simp [Op.run] at hr
        · exact hr.elim
    | ok z => exact (congrArg Prod.snd (Except.ok.inj hs)).symm
  subst hw2
  exact wp.post (wp_watched_recovers (wp_rollback hl rfl hund.1 hund.2) hc)
    (fun _ _ _ hx => hx.2) (fun _ _ _ hx => hx.2)

/-- A run that is stopped anywhere has kept the notes true. -/
theorem wp_watched_installOffline {pkg : Except String Package} {s : Notes} (hK : ChildIdle K)
    (hl : LstatHolds K) (htag : w.tag = .main) (hc : Coherent tx w.fs s) :
    wp (watched K tx) (Secure tx) (installOffline env tx pkg) (fun _ _ x => Coherent tx x.1.fs x.2)
      (fun _ _ x => Coherent tx x.1.fs x.2) {} (w, s) := by
  unfold installOffline
  refine wp_bind.2 (wp.post (wp_watched_recovers (wp_lockAndRecover hc.parent) hc) ?_
    (fun _ _ _ hx => hx.2))
  rintro _ g1 ⟨w1, s1⟩ ⟨⟨rfl, hrun, -, hroot, hgone, hlock, hf, hf', -⟩, hc1⟩
  cases pkg with
  | error msg => exact hc1
  | ok pkg =>
      refine wp_bind.2 (wp.post (wp_watched_finds finds_preflight hc1) ?_ ?_)
      · rintro pkg' g2 x ⟨hplaced, rfl, rfl⟩
        refine wp_bind.2 (wp_call.2 (wp_ask.2 ⟨⟨hc1, Safe.of_ne (by simp) (by simp)⟩, ?_⟩))
        rintro r ⟨w2, s2⟩ ⟨hs, rfl⟩
        cases r with
        | error e =>
            have hw2 : w2 = w1 := sem_error hs
            subst hw2
            exact hc1
        | ok y =>
            obtain ⟨q, hq, hm⟩ := sem_makes (v := .dir 0o700) rfl hs
            have hloc : locate w1.fs tx.dir = .ok tx.dir :=
              locate_of_isDir (b := tx.parent) (at_self hc1.parent) (by simp)
                (by simpa using hc1.parent)
            obtain rfl : tx.dir = q := Except.ok.inj (hloc.symm.trans hq)
            have hnote : note tx (.mkdir tx.dir 0o700) w1 (.ok y) s1 =
                some (treeAt w1.fs tx.root, none) := if_pos rfl
            have hroot2 : w2.fs.IsDir tx.root := by
              obtain ⟨m, hm'⟩ := hroot
              have hne : tx.root ≠ tx.dir := fun heq => tx.not_dir_root (heq ▸ List.prefix_refl _)
              exact ⟨m, by rw [hm.get, if_neg hne, hm']⟩
            have horig2 : w2.fs.get tx.original = none := by
              rw [hm.get, if_neg (by simp [Tx.original])]
              exact Fs.get_append_eq_none hgone
            simp only [hnote]
            exact wp_bind.2 (wp_watched_guarded hK hl (fun c hc => hplaced.free hc)
              ⟨_, by rw [hm.get, if_pos rfl]⟩ hroot2 horig2 (hm.tag.trans (hrun.tag.trans htag))
              (hc1.begin hroot hlock hf hf' hm))
      · rintro _ _ _ rfl
        exact hc1

/-- The file system and the notes after any number of runs on one root, each
stopped between two calls, or not at all. -/
inductive History (K : Kernel Part) (tx : Tx) : World Part × Notes → Prop where
  | start {w : World Part} (hparent : w.fs.IsDir tx.parent) (hdir : w.fs.get tx.dir = none) :
      History K tx (w, none)
  | run {w : World Part} {s : Notes} {x : World Part × Notes} (h : History K tx (w, s)) (env : Env)
      (pkg : Except String Package) {q : Prog (calls Part) (Except String Package × Globals)}
      (hr : Prog.Reach (watched K tx) (installOffline env tx pkg {}) ({ w with tag := .main }, s)
        q x) : History K tx x

theorem reach_coherent {x : World Part × Notes} {pkg : Except String Package} {s : Notes}
    {q : Prog (calls Part) (Except String Package × Globals)} (hK : ChildIdle K) (hl : LstatHolds K)
    (htag : w.tag = .main) (hc : Coherent tx w.fs s)
    (hr : Prog.Reach (watched K tx) (installOffline env tx pkg {}) (w, s) q x) :
    Coherent tx x.1.fs x.2 := by
  have h := Prog.Spec.reach (wp_watched_installOffline hK hl htag hc) hr
  cases q with
  | ret a => obtain ⟨_ | _, _⟩ := a <;> exact h
  | call o k => exact h.1.1

theorem History.coherent {x : World Part × Notes} (h : History K tx x) (hK : ChildIdle K)
    (hl : LstatHolds K) : Coherent tx x.1.fs x.2 := by
  induction h with
  | start hparent hdir =>
      exact ⟨hparent, fun _ => hdir, .inl hdir, by simp, by simp, by simp, by simp⟩
  | @run w s x _ env pkg q hr ih =>
      exact reach_coherent (w := { w with tag := .main }) hK hl rfl ih hr

/-! ### The old root -/

/-- A removal that finds nothing put aside leaves it so. -/
theorem treeAt_original_of_removal {o : Op Part} {r : Except Errno o.Val}
    (ho : (∃ p, o = .unlink p) ∨ ∃ p, o = .rmdir p) (hn : w.fs.get tx.original = none)
    (hs : sem K o w r w') : treeAt w'.fs tx.original = treeAt w.fs tx.original := by
  have gone : ∀ {c}, Gone w c w' → treeAt w'.fs tx.original = treeAt w.fs tx.original := by
    intro c hg
    funext q
    rw [treeAt, treeAt, hg.get, Fs.get_append_eq_none hn]
    split <;> rfl
  cases r with
  | error e =>
      obtain rfl := sem_error hs
      rfl
  | ok x =>
      rcases ho with ⟨p, rfl⟩ | ⟨p, rfl⟩
      · obtain ⟨_, _, _, _, _, hg⟩ := sem_unlink hs
        exact gone hg
      · obtain ⟨_, _, _, hg⟩ := sem_rmdir hs
        exact gone hg

/-- **The old root is never lost.** Until the new root is published, the tree the
transaction began with is at the root or, while there is no root, put aside; from
then on the tree that was published is at the root. No call of any run removes
anything that is put aside while there is no root. -/
theorem old_root_never_lost (K : Kernel Part) (tx : Tx) (w : World Part) (s : Notes)
    (hK : ChildIdle K) (hl : LstatHolds K) (h : History K tx (w, s)) :
    (∀ old, s = some (old, none) → (∃ m, old [] = some (.dir m)) ∧
      (treeAt w.fs tx.root = old ∨ w.fs.get tx.root = none ∧ treeAt w.fs tx.original = old)) ∧
    (∀ old new, s = some (old, some new) → treeAt w.fs tx.root = new) ∧
    ∀ env pkg o k v s' r v',
      Prog.Reach (watched K tx) (installOffline env tx pkg {}) ({ w with tag := .main }, s)
        (.call o k) (v, s') →
      ((∃ p, o = .unlink p) ∨ ∃ p, o = .rmdir p) → v.fs.get tx.root = none → sem K o v r v' →
      treeAt v'.fs tx.original = treeAt v.fs tx.original := by
  have hc : Coherent tx w.fs s := h.coherent hK hl
  refine ⟨hc.old, fun old new heq => (hc.new old new heq).2, ?_⟩
  intro env pkg o k v s' r v' hr ho hroot hs
  have hsec := Prog.Spec.reach
    (wp_watched_installOffline (w := { w with tag := .main }) hK hl rfl hc)
    hr
  have horig := (hsec.1.2 ho).resolve_left fun hne => hne hroot
  exact treeAt_original_of_removal ho horig hs

/-- The answers of a run that is watched, when nothing goes wrong. -/
def watchedAnswer (tx : Tx) (o : Op Part) (x : World Part × Notes) :
    Except Errno o.Val × (World Part × Notes) :=
  ((o.answer x.1).1, (o.answer x.1).2, note tx o x.1 (o.answer x.1).1 x.2)

theorem watched_answer (o : Op Part) (x : World Part × Notes) :
    watched K tx o x (watchedAnswer tx o x).1 (watchedAnswer tx o x).2 := ⟨sem_answer o x.1, rfl⟩

/-- The install of one component in a root with a file, stopped after `n` calls. -/
def stoppedAfter (n : Nat) : World Part × Notes :=
  (Prog.execFor (watchedAnswer emptyRootTx) n
    (installOffline default emptyRootTx (.ok ⟨[addingComponent]⟩) {}) (oneFileRoot, none)).2

theorem history_stoppedAfter (n : Nat) : History K emptyRootTx (stoppedAfter n) :=
  .run (.start (w := oneFileRoot) ⟨0o755, rfl⟩ rfl) default (.ok ⟨[addingComponent]⟩)
    (Prog.reach_execFor watched_answer n _ _)

/-- Between the two renames there is no root, and the old one is put aside. -/
theorem old_root_never_lost_between_renames :
    (stoppedAfter 92).1.fs.get emptyRootTx.root = none ∧
      ∃ old, (stoppedAfter 92).2 = some (old, none) ∧ old [nm "old".toList] = some (.file 0o644 [1]) ∧
        treeAt (stoppedAfter 92).1.fs emptyRootTx.original = old := by
  have hnone : (stoppedAfter 92).1.fs.get emptyRootTx.root = none := by rfl
  have h := old_root_never_lost Kernel.steady emptyRootTx (stoppedAfter 92).1 (stoppedAfter 92).2
    (fun _ _ h => h) (fun _ _ _ => id) (history_stoppedAfter 92)
  have hs : (stoppedAfter 92).2 = some (treeAt (stoppedAfter 22).1.fs emptyRootTx.root, none) := by
    rfl
  obtain ⟨⟨m, hm⟩, hat | hat⟩ := h.1 _ hs
  · have : (stoppedAfter 92).1.fs.get emptyRootTx.root = some (.dir m) := by
      rw [← treeAt_nil, hat, hm]
    rw [hnone] at this
    cases this
  · exact ⟨hnone, _, hs, rfl, hat.2⟩

/-! ### The next run -/

/-- A run in which no call fails by itself gets through `lock_and_recover ()` and
leaves `tree` at the root and no transaction directory. -/
def GetsThrough (tx : Tx) (fs : Fs) (tree : Path → Option Node) : Prop :=
  ∀ w : World Part, w.fs = fs → ∀ r g v,
    Prog.Reach (sem Kernel.steady) (lockAndRecover tx {}) w (.ret (r, g)) v →
    r = .ok () ∧ treeAt v.fs tx.root = tree ∧ v.fs.get tx.dir = none

/-- The tree is at the root or, while there is no root, put aside. -/
def Kept (tx : Tx) (fs : Fs) (tree : Path → Option Node) : Prop :=
  fs.get tx.root ≠ none ∧ treeAt fs tx.root = tree ∨ fs.get tx.root = none ∧ treeAt fs tx.original = tree

theorem Coherent.root_eq {old : Path → Option Node} {pub : Option (Path → Option Node)}
    (h : Coherent tx fs (some (old, pub))) (hroot : fs.IsDir tx.root) :
    treeAt fs tx.root = pub.getD old := by
  cases pub with
  | none => exact (h.old old rfl).2.resolve_right fun hn => hroot.ne_none hn.1
  | some new => exact (h.new old new rfl).2

theorem Coherent.kept {old : Path → Option Node} {pub : Option (Path → Option Node)}
    (h : Coherent tx fs (some (old, pub))) : Kept tx fs (pub.getD old) := by
  cases pub with
  | none =>
      obtain ⟨⟨m, hm⟩, hat | hat⟩ := h.old old rfl
      · exact .inl ⟨by rw [← treeAt_nil, hat, hm]; simp, hat⟩
      · exact .inr hat
  | some new =>
      obtain ⟨⟨m, hm⟩, hat⟩ := h.new old new rfl
      exact .inl ⟨by rw [← treeAt_nil, hat]; exact hm ▸ by simp, hat⟩

/-- What `lock_and_recover ()` leaves at the root is what was kept. -/
theorem Recovered.tree {tree : Path → Option Node} (h : Recovered K tx w w') (hroot : w'.fs.IsDir tx.root) :
    treeAt w'.fs tx.root = tree ↔ Kept tx w.fs tree := by
  rcases h.root with hsame | ⟨hnone, hback⟩
  · have hsome : w.fs.get tx.root ≠ none := by
      have := hsame []
      rw [List.append_nil] at this
      exact this ▸ hroot.ne_none
    have heq : treeAt w'.fs tx.root = treeAt w.fs tx.root := funext hsame
    rw [heq]
    exact ⟨fun h => .inl ⟨hsome, h⟩, fun h => h.elim (·.2) fun h => absurd h.1 hsome⟩
  · have heq : treeAt w'.fs tx.root = treeAt w.fs tx.original := funext hback
    rw [heq]
    exact ⟨fun h => .inr ⟨hnone, h⟩, fun h => h.elim (fun h => absurd hnone h.1) (·.2)⟩

/-- Whatever a run has left behind. -/
theorem getsThrough_iff (hparent : fs.IsDir tx.parent) {tree : Path → Option Node} :
    GetsThrough tx fs tree ↔ Orderly tx fs ∧ Kept tx fs tree ∧ Recoverable tx fs := by
  constructor
  · intro hget
    let w : World Part := ⟨fs, .main, fs, []⟩
    have hreach := Prog.reach_exec (sem_answer (K := Kernel.steady)) (lockAndRecover tx {}) w
    have hspec := Prog.Spec.reach
      (wp_lockAndRecover (K := Kernel.steady) (g := {}) (w := w) hparent) hreach
    generalize Prog.exec Op.answer (lockAndRecover tx {}) w = x at hreach hspec
    obtain ⟨⟨r, g⟩, v⟩ := x
    obtain ⟨rfl, htree, -⟩ := hget w rfl r g v hreach
    obtain ⟨-, -, -, hroot, -, -, -, -, hrec⟩ := hspec
    exact ⟨hrec.orderly, (hrec.tree hroot).1 htree, hrec.recoverable (calm_steady _)⟩
  · rintro ⟨horderly, hkept, hrecoverable⟩ w hw r g v hr
    subst hw
    have hv := Prog.Spec.reach (wp_lockAndRecover (K := Kernel.steady) (g := {}) hparent) hr
    cases r with
    | error e => exact absurd hrecoverable (hv.2 (calm_steady _) horderly)
    | ok _ =>
        obtain ⟨-, -, -, hroot, hgone, -, -, -, hrec⟩ := hv
        exact ⟨rfl, (hrec.tree hroot).2 hkept, hgone⟩

/-- **The next run.** It gets through `lock_and_recover ()` exactly if it finds everything in order, the
tree at the root or put aside, and no transaction directory or one whose marker is complete and that is
within the bounds of `remove_tree ()`. Where child processes change nothing and `rollback ()` can look at
the root, the first two hold after every history: then the marker and the bounds decide. -/
theorem next_run_recovers_iff (K : Kernel Part) (tx : Tx) (w : World Part)
    (old : Path → Option Node) (pub : Option (Path → Option Node))
    (h : History K tx (w, some (old, pub))) :
    (w.fs.IsDir tx.parent → (GetsThrough tx w.fs (pub.getD old) ↔
      Orderly tx w.fs ∧ Kept tx w.fs (pub.getD old) ∧ Recoverable tx w.fs)) ∧
    (ChildIdle K → LstatHolds K →
      w.fs.IsDir tx.parent ∧ Orderly tx w.fs ∧ Kept tx w.fs (pub.getD old)) := by
  refine ⟨fun hparent => getsThrough_iff hparent, fun hK hl => ?_⟩
  have hc := h.coherent hK hl
  exact ⟨hc.parent, hc.orderly (by simp), hc.kept⟩

/-- Short paths are no obstacle to `remove_tree ()`. -/
theorem sweepable_of_short (h : ∀ p ∈ fs.paths, p.length ≤ limitDepth ∧ hostLen p < pathMax) :
    Sweepable tx fs := by
  refine ⟨fun q hq _ => ?_, fun q n hq _ => ?_⟩
  · have := (h _ (fs.complete _ hq.ne_none)).1
    simp only [List.length_append] at this
    omega
  · have hlen := (h _ (fs.complete _ hq)).2
    have hne : tx.dir ++ q ≠ [] := by simp [Tx.dir]
    unfold hostLen at hlen ⊢
    rw [← List.append_assoc, strlen_concat hne] at hlen
    omega

/-- With the marker written, the run may be killed between the renames. -/
theorem next_run_recovers_between_renames :
    History Kernel.steady emptyRootTx (stoppedAfter 92) ∧
      (stoppedAfter 92).1.fs.get emptyRootTx.root = none ∧
      GetsThrough emptyRootTx (stoppedAfter 92).1.fs
        (treeAt (stoppedAfter 22).1.fs emptyRootTx.root) := by
  have hmark : Marked emptyRootTx (stoppedAfter 92).1.fs := ⟨0o600, rfl⟩
  have hshort : ∀ p ∈ (stoppedAfter 92).1.fs.paths, p.length ≤ limitDepth ∧ hostLen p < pathMax := by
    decide +kernel
  refine ⟨history_stoppedAfter 92, rfl, ?_⟩
  obtain ⟨hiff, hkept⟩ := next_run_recovers_iff Kernel.steady emptyRootTx (stoppedAfter 92).1
    (treeAt (stoppedAfter 22).1.fs emptyRootTx.root) none (history_stoppedAfter 92)
  obtain ⟨hparent, horderly, hkept⟩ := hkept (fun _ _ h => h) (fun _ _ _ => id)
  exact (hiff hparent).2 ⟨horderly, hkept, .inr ⟨hmark, sweepable_of_short hshort⟩⟩

/-- Without the marker the next run gives up. -/
theorem not_getsThrough_of_error {tree : Path → Option Node} {msg : String}
    (h : (Prog.exec Op.answer (lockAndRecover tx {}) w).1.1 = .error msg) :
    ¬ GetsThrough tx w.fs tree := by
  intro hget
  have hr := Prog.reach_exec (sem_answer (K := Kernel.steady)) (lockAndRecover tx {}) w
  obtain ⟨hok, -⟩ := hget w rfl _ _ _ hr
  exact absurd (h.symm.trans hok) (by simp)

/-- A run that is killed while it removes the transaction directory, the marker
being the first to go, leaves a transaction that no run recovers; so does one that
is killed as soon as it has made the directory. -/
theorem unmarked_transaction_not_recovered :
    (History Kernel.steady emptyRootTx (stoppedAfter 102) ∧
      (stoppedAfter 102).2 = some (treeAt (stoppedAfter 22).1.fs emptyRootTx.root,
        some (treeAt (stoppedAfter 94).1.fs emptyRootTx.stage)) ∧
      ¬ GetsThrough emptyRootTx (stoppedAfter 102).1.fs
        (treeAt (stoppedAfter 94).1.fs emptyRootTx.stage)) ∧
    (History Kernel.steady emptyRootTx (stoppedAfter 23) ∧
      (stoppedAfter 23).2 = some (treeAt (stoppedAfter 22).1.fs emptyRootTx.root, none) ∧
      ¬ GetsThrough emptyRootTx (stoppedAfter 23).1.fs
        (treeAt (stoppedAfter 22).1.fs emptyRootTx.root)) := by
  have herr : ∀ n, n = 23 ∨ n = 102 →
      (Prog.exec Op.answer (lockAndRecover emptyRootTx {}) (stoppedAfter n).1).1.1 =
        .error "cannot read regular file /r.mdpkg-transaction/target" := by
    rintro n (rfl | rfl) <;> rfl
  exact ⟨⟨history_stoppedAfter 102, rfl, not_getsThrough_of_error (herr 102 (.inr rfl))⟩,
    history_stoppedAfter 23, rfl, not_getsThrough_of_error (herr 23 (.inl rfl))⟩

end MiniDarwin.Installer
