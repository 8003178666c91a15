import MiniDarwin.Installer.Fill

/-!
What `lock_and_recover ()` does.

A transaction that was interrupted has left the old root where it was or
moved it aside, or has put the new root in its place. Which of these it
was is read off the names that exist. `Recovers` bounds the calls; the
transaction directory is only removed when the root is there or nothing
was moved aside. When no call fails, recovery fails exactly if the marker
is not complete or the directory cannot be removed.
-/

namespace MiniDarwin.Installer

open Posix Effects Effects.Proc

variable {K : Kernel Part} {tx : Tx} {g g' : Globals} {w w' : World Part} {p q : Path}

/-- The calls of `lock_and_recover ()`. -/
def Recovers (tx : Tx) : Op Part → World Part → Prop
  | .lock p, _ => p = tx.lock
  | .rename a b, v => a = tx.original ∧ b = tx.root ∧ v.fs.get tx.root = none
  | .unlink p, v => Removes tx.dir (.unlink p) v ∧
      (v.fs.get tx.root ≠ none ∨ v.fs.get tx.original = none)
  | .rmdir p, v => Removes tx.dir (.rmdir p) v ∧
      (v.fs.get tx.root ≠ none ∨ v.fs.get tx.original = none)
  | .chmod p m, v => Removes tx.dir (.chmod p m) v ∧
      (v.fs.get tx.root ≠ none ∨ v.fs.get tx.original = none)
  | o, _ => o.quiet = true

theorem Recovers.of_quiet {o : Op Part} (h : o.quiet = true) : Recovers tx o w := by
  cases o <;> first | exact h | simp [Op.quiet] at h

theorem Recovers.of_removes {o : Op Part} (h : Removes tx.dir o w)
    (hr : w.fs.get tx.root ≠ none ∨ w.fs.get tx.original = none) : Recovers tx o w := by
  cases o with
  | unlink | rmdir | chmod => exact ⟨h, hr⟩
  | lock | rename => simp [Removes, Op.quiet] at h
  | _ => exact h

namespace Tx

variable (tx : Tx)

theorem root_apart (q : Path) : ¬ tx.root <+: tx.dir ++ q := by
  unfold dir root
  rw [List.append_assoc, List.prefix_append_right_inj]
  simp only [List.singleton_append, List.cons_prefix_cons, not_and]
  exact fun h => absurd h.symm (suffixed_ne _ _ _ (by decide))

theorem original_ne_nil : tx.original ≠ [] := by simp [original]

theorem not_dir_root : ¬ tx.dir <+: tx.root := by simpa using tx.dir_apart []

theorem suffixed_inj {n : Name} {s t : Str} {hs : '/' ∉ s} {ht : '/' ∉ t}
    (h : Name.suffixed n s hs = Name.suffixed n t ht) : s = t :=
  List.append_cancel_left (congrArg Subtype.val h)

/-- The lock file is neither in the root nor in the transaction directory. -/
theorem lock_apart : ¬ tx.dir <+: tx.lock ∧ ¬ tx.root <+: tx.lock := by
  unfold dir root lock
  rw [List.prefix_append_right_inj, List.prefix_append_right_inj]
  simp only [List.cons_prefix_cons, List.prefix_rfl, and_true]
  refine ⟨fun h => absurd (suffixed_inj h) (by decide), fun h => ?_⟩
  exact absurd h.symm (suffixed_ne _ _ _ (by decide))

end Tx

/-! ### Names beside the root -/

/-- The parent of the root is there, so that the root is where it says. -/
theorem locate_root {fs : Fs} (h : fs.IsDir tx.parent) : locate fs tx.root = .ok tx.root :=
  locate_of_isDir (b := tx.parent) (at_self h) (by simp) (by simpa using h)

theorem isDir_parent_of_dir {fs : Fs} (h : fs.IsDir tx.dir) : fs.IsDir tx.parent :=
  Fs.isDir_of_append h.ne_none (by simp)

theorem wp_pathExists_dir {E : Op Part → World Part → Prop} {d : Path} {n : Name}
    {Q : Bool → Globals → World Part → Prop} {D : String → Globals → World Part → Prop}
    (hd : w.fs.IsDir d) (hE : ∀ o, o.quiet = true → E o w)
    (hyes : w.fs.get (d ++ [n]) ≠ none → Q true g w)
    (hno : w.fs.get (d ++ [n]) = none → Q false g w)
    (hD : K.flaky (.lstat (d ++ [n])) w → ∀ msg, D msg g w) :
    wp (sem K) E (pathExists (d ++ [n])) Q D g w :=
  wp_pathExists (at_self hd) (by simp) (clear_of_isDir (by simp) (by simpa using hd)) (hE _ rfl)
    hyes hno hD

/-! ### `recover ()` -/

/-- The directory a tree was moved to is still one. -/
theorem isDir_dropLast_of_moved {a b : Path} (h : Moved w a b w') (hb : b ≠ []) :
    w'.fs.IsDir b.dropLast := by
  obtain ⟨m, hm⟩ := h.inDir
  refine ⟨m, ?_⟩
  rw [h.get_elsewhere, if_neg h.apart, hm]
  intro hp
  have := hp.length_le
  have := List.length_pos_iff.2 hb
  simp only [List.length_dropLast] at *
  omega

/-- What the middle of `recover ()` leaves. -/
inductive Restored (tx : Tx) (w w' : World Part) : Prop where
  | stay (h : w' = w) (hr : w.fs.get tx.root ≠ none ∨ w.fs.get tx.original = none)
  | back (hroot : w.fs.get tx.root = none) (horig : w.fs.get tx.original ≠ none)
      (hm : Moved w tx.original tx.root w')

theorem run_rename_back (hparent : w.fs.IsDir tx.parent) (hroot : w.fs.get tx.root = none)
    (horig : w.fs.get tx.original ≠ none) :
    ∃ w', (Op.rename (τ := Part) tx.original tx.root).run w = .ok ((), w') := by
  obtain ⟨v, hv⟩ := Option.ne_none_iff_exists'.1 horig
  have hlo : locate w.fs tx.original = .ok tx.original :=
    locate_self horig tx.original_ne_nil
  have hmove : ∃ w', w.move tx.original tx.root = .ok w' := by
    refine ⟨_, dif_pos ⟨tx.root_ne_nil, by simpa [Tx.root] using hparent, ?_⟩⟩
    intro h
    have hlen : tx.original.length = tx.parent.length + 2 := by simp [Tx.original, Tx.dir]
    have hlen' : tx.root.dropLast.length = tx.parent.length := by simp [Tx.root]
    have := h.length_le
    omega
  obtain ⟨w', hw'⟩ := hmove
  exact ⟨w', by simp only [Op.run, hlo, locate_root hparent, Except.bind, hv, hroot, hw', Except.map]⟩

theorem wp_recoverRoot (hd : w.fs.IsDir tx.dir) :
    wp (sem K) (Recovers tx) (recoverRoot tx)
      (fun _ g' w' => g' = g ∧ SameRun w w' ∧ Restored tx w w')
      (fun _ _ w' => SameRun w w' ∧
        (Calm K w → w.fs.get tx.root = none ∨ w.fs.IsDir tx.root → False)) g w := by
  have hparent := isDir_parent_of_dir hd
  have hcalm : ∀ {p}, K.flaky (.lstat p) w → Calm K w →
      w.fs.get tx.root = none ∨ w.fs.IsDir tx.root → False :=
    fun hf hc _ => hc _ _ (SameRun.refl w) hf
  unfold recoverRoot
  refine wp_bind.2 (wp_pathExists_dir hd (fun _ => Recovers.of_quiet) (fun horig => ?_)
    (fun horig => ?_) fun hf _ => ⟨SameRun.refl w, hcalm hf⟩)
  · refine wp_bind.2 (wp_pathExists_dir hparent (fun _ => Recovers.of_quiet) (fun hroot => ?_)
      (fun hroot => ?_) fun hf _ => ⟨SameRun.refl w, hcalm hf⟩)
    · -- a new root is there
      obtain ⟨v, hv⟩ := Option.ne_none_iff_exists'.1 hroot
      refine wp_bind.2 (wp_call.2 (wp_lstat_self hv tx.root_ne_nil (Recovers.of_quiet rfl) ?_
        fun hf => ⟨SameRun.refl w, hcalm hf⟩))
      by_cases hdir : v.isDir = true
      · have hk : v.stat.kind = .dir := by cases v <;> simp_all [Node.stat, Node.isDir]
        simp only [hk, ne_eq, not_true_eq_false, if_false]
        exact ⟨rfl, SameRun.refl w, .stay rfl (.inl hroot)⟩
      · have hk : v.stat.kind ≠ .dir := by cases v <;> simp_all [Node.stat, Node.isDir]
        simp only [hk, ne_eq, not_false_eq_true, if_true]
        refine ⟨SameRun.refl w, fun _ h => ?_⟩
        rcases h with h | ⟨m, hm⟩
        · exact hroot h
        · have hvm : some v = some (.dir m) := hv.symm.trans hm
          cases hvm
          simp [Node.isDir] at hdir
    · -- the old root goes back
      refine wp_call.2 (wp_ask.2 ⟨⟨rfl, rfl, hroot⟩, fun r w' hs => ?_⟩)
      cases r with
      | error e =>
          obtain rfl := sem_error hs
          refine ⟨SameRun.refl _, fun hc _ => ?_⟩
          obtain ⟨_, hrun⟩ := run_rename_back hparent hroot horig
          have := hrun.symm.trans (hc.run_error (by simp) hs)
          cases this
      | ok x =>
          obtain ⟨a, ha, -, hm⟩ := sem_rename hs (locate_root hparent) hroot
          rw [show locate w.fs tx.original = _ from locate_self horig tx.original_ne_nil] at ha
          cases ha
          exact ⟨rfl, hm.toSameRun, .back hroot horig hm⟩
  · exact ⟨rfl, SameRun.refl w, .stay rfl (.inr horig)⟩

/-- The marker is complete. -/
def Marked (tx : Tx) (fs : Fs) : Prop :=
  ∃ m, fs.get (tx.dir ++ [Tx.targetName]) = some (.file m tx.rootBytes)

/-- The path lies in the old root, and that will go back to its place. -/
def GoesBack (tx : Tx) (fs : Fs) (q : Path) : Prop :=
  fs.get tx.root = none ∧ [Tx.originalName] <+: q

/-- What `recover ()` has to remove is within the bounds of `remove_tree ()`. -/
structure Sweepable (tx : Tx) (fs : Fs) : Prop where
  depth : ∀ q, fs.IsDir (tx.dir ++ q) → ¬ GoesBack tx fs q → q.length ≤ limitDepth
  fits : ∀ q n, fs.get (tx.dir ++ (q ++ [n])) ≠ none → ¬ GoesBack tx fs (q ++ [n]) →
    hostLen (tx.dir ++ q) + 1 + n.1.length < pathMax

/-- What else `lock_and_recover ()` wants to find. -/
structure Orderly (tx : Tx) (fs : Fs) : Prop where
  lock : fs.get tx.lock = none ∨ ∃ m data, fs.get tx.lock = some (.file m data)
  fits : ∀ n ∈ [Tx.stageName, Tx.originalName, Tx.targetName], Fits tx.dir [n]
  mode : fs.get tx.dir = none ∨ ∃ m, fs.get tx.dir = some (.dir m) ∧ m &&& 0o777 = 0o700
  root : fs.IsDir tx.root ∨ fs.get tx.root = none ∧ fs.IsDir tx.original

/-- What `recover ()` leaves: the root, or the old one in its place, and no
transaction directory. -/
structure Swept (tx : Tx) (fs fs' : Fs) : Prop where
  gone : fs'.get tx.dir = none
  outside : ∀ p, ¬ tx.dir <+: p → ¬ tx.root <+: p → fs'.get p = fs.get p
  root : (fs.get tx.root ≠ none ∨ fs.get tx.original = none) ∧
      (∀ q, fs'.get (tx.root ++ q) = fs.get (tx.root ++ q)) ∨
    fs.get tx.root = none ∧ fs.get tx.original ≠ none ∧
      ∀ q, fs'.get (tx.root ++ q) = fs.get (tx.original ++ q)

theorem Restored.get_dir (h : Restored tx w w') (q : Path) :
    (GoesBack tx w.fs q → w'.fs.get (tx.dir ++ q) = none) ∧
      (¬ GoesBack tx w.fs q → w'.fs.get (tx.dir ++ q) = w.fs.get (tx.dir ++ q)) := by
  cases h with
  | stay h hr =>
      subst h
      refine ⟨fun ⟨hn, s, hs⟩ => ?_, fun _ => rfl⟩
      have horig := hr.resolve_left fun h => h hn
      rw [← hs, ← List.append_assoc]
      exact Fs.get_append_eq_none horig
  | back hroot horig hm =>
      have hget := hm.get_elsewhere (tx.root_apart q)
      have hiff : tx.original <+: tx.dir ++ q ↔ [Tx.originalName] <+: q := by
        rw [Tx.original, List.prefix_append_right_inj]
      refine ⟨fun h => ?_, fun h => ?_⟩
      · rw [hget, if_pos (hiff.2 h.2)]
      · rw [hget, if_neg fun hp => h ⟨hroot, hiff.1 hp⟩]

theorem Restored.removable (h : Restored tx w w') :
    Removable w'.fs (limitDepth + 1) tx.dir tx.dir ↔ Sweepable tx w.fs := by
  have hget := h.get_dir
  constructor
  · rintro ⟨hd, hf⟩
    refine ⟨fun q hq hb => ?_, fun q n hq hb => ?_⟩
    · obtain ⟨m, hm⟩ := hq
      exact Nat.le_of_lt_succ (hd q ⟨m, ((hget q).2 hb).trans hm⟩)
    · exact hf q n (by rwa [(hget _).2 hb])
  · rintro ⟨hd, hf⟩
    refine ⟨fun q hq => ?_, fun q n hq => ?_⟩
    · have hb : ¬ GoesBack tx w.fs q := fun hb => hq.ne_none ((hget q).1 hb)
      obtain ⟨m, hm⟩ := hq
      exact Nat.lt_succ_of_le (hd q ⟨m, ((hget q).2 hb).symm.trans hm⟩ hb)
    · have hb : ¬ GoesBack tx w.fs (q ++ [n]) := fun hb => hq ((hget _).1 hb)
      exact hf q n (by rwa [← (hget _).2 hb]) hb

theorem Restored.root_or (h : Restored tx w w') :
    w'.fs.get tx.root ≠ none ∨ w'.fs.get tx.original = none := by
  cases h with
  | stay h hr => exact h ▸ hr
  | back hroot horig hm =>
      left
      have := hm.get_target []
      rw [List.append_nil, List.append_nil] at this
      rwa [this]

theorem Restored.swept {w2 : World Part} (h : Restored tx w w') (hs : Shrunk tx.dir g w' g' w2)
    (hgone : w2.fs.get tx.dir = none) : Swept tx w.fs w2.fs := by
  have hroot : ∀ q, w2.fs.get (tx.root ++ q) = w'.fs.get (tx.root ++ q) :=
    fun q => hs.outside _ (tx.dir_apart q)
  cases h with
  | stay h hr =>
      subst h
      exact ⟨hgone, fun p hp _ => hs.outside p hp, .inl ⟨hr, hroot⟩⟩
  | back hn horig hm =>
      refine ⟨hgone, fun p hp hp' => ?_, .inr ⟨hn, horig, fun q => ?_⟩⟩
      · have ho : ¬ tx.original <+: p := fun h => hp ((List.prefix_append _ _).trans h)
        rw [hs.outside p hp, hm.get_elsewhere hp', if_neg ho]
      · rw [hroot, hm.get_target]

theorem fits_target (h : Fits tx.dir [Tx.originalName]) : Fits tx.dir [Tx.targetName] := by
  have hle := h.resolve_left (by simp)
  have h1 : strlen [Tx.originalName] = 8 := by decide
  have h2 : strlen [Tx.targetName] = 6 := by decide
  exact .inr (by omega)

/-- `remove_tree ()` of the transaction directory. -/
theorem sure_removeDir (hparent : w.fs.IsDir tx.parent)
    (hr : w.fs.get tx.root ≠ none ∨ w.fs.get tx.original = none) :
    Sure (sem K) (Recovers tx) (Shrunk tx.dir) (removeTree (limitDepth + 1) tx.dir)
      (Removed K (limitDepth + 1) tx.dir tx.dir w) g w := by
  have hrem := removeSpec (K := K) (limitDepth + 1) tx.parent tx.parent
    (Name.suffixed tx.name ".mdpkg-transaction".toList) g w (fixed_self hparent)
  have hinv := wp.invariant (I := fun v => Shrunk tx.dir g w g v) hrem
    (fun o v r v' ho hv hs => hv.trans (ho.step hs)) Shrunk.refl
  refine wp.mono hinv ?_ (fun _ _ _ h => h.1) (fun _ _ _ h => h.1)
  rintro o v ⟨ho, hv⟩
  refine Recovers.of_removes ho ?_
  have hroot : v.fs.get tx.root = w.fs.get tx.root := hv.outside _ tx.not_dir_root
  rw [hroot]
  refine hr.imp id fun h => ?_
  rcases hv.node tx.original with hn | hn | ⟨hn, -⟩
  · exact hn
  · rw [hn, h]
  · exact absurd h hn.ne_none

theorem strlen_concat {d : Path} {n : Name} (h : d ≠ []) :
    strlen (d ++ [n]) = strlen d + 1 + n.1.length := by
  unfold strlen
  induction d with
  | nil => exact absurd rfl h
  | cons k d ih =>
      cases d with
      | nil => simp [render]; omega
      | cons l d =>
          have := ih (by simp)
          simp only [List.cons_append, render, List.length_append, List.length_cons] at this ⊢
          omega

theorem strlen_concat_le {d : Path} {n m : Name} (h : n.1.length ≤ m.1.length) :
    strlen (d ++ [n]) ≤ strlen (d ++ [m]) := by
  by_cases hd : d = []
  · simpa [hd, strlen, render] using h
  · rw [strlen_concat hd, strlen_concat hd]
    omega

theorem rootBytes_short (h : Fits tx.dir [Tx.targetName]) : tx.rootBytes.length ≤ pathMax := by
  have hlen : tx.rootBytes.length = hostLen tx.root := by simp [Tx.rootBytes, hostLen, strlen]
  have hle : hostLen tx.root ≤ hostLen tx.dir :=
    Nat.succ_le_succ (strlen_concat_le (by simp [Name.suffixed]))
  have := h.resolve_left (by simp)
  omega

/-- A calm call of a kind that cannot fail does not. -/
theorem Calm.no_error {o : Op Part} {e : Errno} {x : o.Val × World Part} (h : Calm K w)
    (ho : ∀ a b, o ≠ .clonefile a b) (hrun : o.run w = .ok x) (hs : sem K o w (.error e) w') :
    False := by
  have := hrun.symm.trans (h.run_error ho hs)
  cases this

/-- The end of `recover ()`. -/
theorem wp_sweep {w1 : World Part} (hparent : w.fs.IsDir tx.parent) (hres : Restored tx w w1)
    (hrun : SameRun w w1) (hmark : Marked tx w.fs) :
    wp (sem K) (Recovers tx)
      (do
        removeOrDie tx.dir
        syncDir tx.parent)
      (fun _ g' w' => g' = g ∧ SameRun w w' ∧ Swept tx w.fs w'.fs ∧ Marked tx w.fs ∧
        (Calm K w → Sweepable tx w.fs))
      (fun _ _ w' => SameRun w w' ∧
        (Calm K w → Orderly tx w.fs → Marked tx w.fs → ¬ Sweepable tx w.fs)) g w1 := by
  have hparent1 : w1.fs.IsDir tx.parent := by
    cases hres with
    | stay h => exact h ▸ hparent
    | back hroot horig hm => simpa [Tx.root] using isDir_dropLast_of_moved hm tx.root_ne_nil
  unfold removeOrDie
  refine wp_bind.2 (wp_bind.2 (wp.post (sure_removeDir hparent1 hres.root_or) ?_
    (fun _ _ _ h => h.elim)))
  rintro r g2 w2 ⟨hsh, hgone, hiff⟩
  have hrun2 := hrun.trans hsh.run
  have hiff' : Calm K w → (r = true ↔ Sweepable tx w.fs) :=
    fun hc => (hiff (hc.same hrun)).trans hres.removable
  cases r with
  | false => exact ⟨hrun2, fun hc _ _ hs => by simpa using (hiff' hc).2 hs⟩
  | true =>
      have hswept := hres.swept hsh (hgone rfl)
      refine wp_pure.2 (wp_call.2 (wp_quiet rfl (Recovers.of_quiet rfl) fun r hs => ?_))
      cases r with
      | error e =>
          refine ⟨hrun2, fun hc _ _ _ => ?_⟩
          obtain ⟨mode, hmode⟩ := hparent1
          have hp2 : w2.fs.get tx.parent = some (.dir mode) := by
            rw [hsh.outside _ not_prefix_self, hmode]
          have hloc : locate w2.fs tx.parent = .ok tx.parent := by
            by_cases hnil : tx.parent = []
            · simp [hnil, locate]
            · exact locate_self (by simp [hp2]) hnil
          exact ((hc.same hrun2).no_error (x := ((), w2)) (by simp)
            (by simp only [Op.run, hloc, Except.bind, hp2]) hs)
      | ok x => exact ⟨hsh.globals, hrun2, hswept, hmark, fun hc => (hiff' hc).1 rfl⟩

theorem wp_recover (hparent : w.fs.IsDir tx.parent) (hdir : w.fs.get tx.dir ≠ none) :
    wp (sem K) (Recovers tx) (recover tx)
      (fun _ g' w' => (∃ m, w.fs.get tx.dir = some (.dir m) ∧ m &&& 0o777 = 0o700) ∧ g' = g ∧ SameRun w w' ∧
        Swept tx w.fs w'.fs ∧ Marked tx w.fs ∧ (Calm K w → Sweepable tx w.fs))
      (fun _ _ w' => SameRun w w' ∧
        (Calm K w → Orderly tx w.fs → Marked tx w.fs → ¬ Sweepable tx w.fs)) g w := by
  obtain ⟨v, hv⟩ := Option.ne_none_iff_exists'.1 hdir
  unfold recover
  refine wp_bind.2 (wp_call.2 (wp_lstat_self hv (by simp [Tx.dir]) (Recovers.of_quiet rfl) ?_
    fun hf => ⟨SameRun.refl w, fun hc => absurd hf (hc _ _ (SameRun.refl w))⟩))
  simp only
  split
  · -- not the directory of a transaction
    next hbad =>
      refine ⟨SameRun.refl w, fun _ ho => ?_⟩
      obtain ⟨m, hm, h700⟩ := ho.mode.resolve_left hdir
      rw [hv] at hm
      cases hm
      rcases hbad with hbad | hbad
      · exact absurd rfl hbad
      · exact absurd h700 hbad
  · next hok =>
      have hmode : ∃ m, w.fs.get tx.dir = some (.dir m) ∧ m &&& 0o777 = 0o700 := by
        cases v with
        | dir m => exact ⟨m, hv, by simpa [Node.stat] using hok⟩
        | _ => simp [Node.stat] at hok
      have hd : w.fs.IsDir tx.dir := hmode.imp fun _ h => h.1
      refine wp_bind.2 (wp_hostJoin (fun hfits => ?_) fun hn msg =>
        ⟨SameRun.refl w, fun _ ho => absurd (ho.fits _ (by simp)) hn⟩)
      -- the marker
      refine wp_bind.2 (wp_bind.2 (wp_call.2 (wp_quiet rfl (Recovers.of_quiet rfl) fun r hs => ?_)))
      have hloc : locate w.fs (tx.dir ++ [Tx.targetName]) = .ok (tx.dir ++ [Tx.targetName]) :=
        locate_of_isDir (at_self hd) (by simp) (by simpa using hd)
      cases r with
      | error e =>
          refine ⟨SameRun.refl w, fun hc _ hmark => ?_⟩
          obtain ⟨m, hm⟩ := hmark
          exact (hc.no_error (x := (tx.rootBytes, w)) (by simp)
            (by simp only [Op.run, hloc, Except.bind, hm]) hs).elim
      | ok data =>
          have hread : ∃ m, w.fs.get (tx.dir ++ [Tx.targetName]) = some (.file m data) := by
            have hrun : (Op.read (τ := Part) (tx.dir ++ [Tx.targetName])).run w = .ok (data, w) := hs
            simp only [Op.run, hloc, Except.bind] at hrun
            split at hrun
            · next m data' hm =>
                cases hrun
                exact ⟨m, hm⟩
            · cases hrun
            · cases hrun
          obtain ⟨m, hm⟩ := hread
          have other : data ≠ tx.rootBytes → Marked tx w.fs → False := by
            rintro hne ⟨m', hm'⟩
            rw [hm] at hm'
            cases hm'
            exact hne rfl
          simp only
          split
          · next hlong =>
              refine ⟨SameRun.refl w, fun _ ho hk => (other ?_ hk).elim⟩
              rintro rfl
              have := rootBytes_short (ho.fits Tx.targetName (by simp))
              omega
          · refine wp_pure.2 ?_
            split
            · next hne => exact ⟨SameRun.refl w, fun _ _ hk => (other hne hk).elim⟩
            · next heq =>
                have heq' : data = tx.rootBytes := by simpa using heq
                subst heq'
                refine wp_bind.2 ((wp_recoverRoot (g := g) hd).post ?_ ?_)
                · rintro _ g1 w1 ⟨rfl, hrun, hres⟩
                  exact wp.post (wp_sweep hparent hres hrun ⟨m, hm⟩) (fun _ _ _ h => ⟨hmode, h⟩)
                    (fun _ _ _ => id)
                · rintro _ g1 w1 ⟨hrun, hcalm⟩
                  refine ⟨hrun, fun hc ho => (hcalm hc ?_).elim⟩
                  exact ho.root.elim .inr fun h => .inl h.1

/-! ### `lock_and_recover ()` -/

/-- A calm `lock_and_recover ()` gets by. -/
def Recoverable (tx : Tx) (fs : Fs) : Prop :=
  fs.get tx.dir = none ∨ Marked tx fs ∧ Sweepable tx fs

theorem Swept.isDir_parent {fs fs' : Fs} (h : Swept tx fs fs') (hp : fs.IsDir tx.parent) :
    fs'.IsDir tx.parent := by
  obtain ⟨m, hm⟩ := hp
  exact ⟨m, by rw [h.outside _ not_prefix_self not_prefix_self, hm]⟩

theorem wp_recoverIfAny (hparent : w.fs.IsDir tx.parent) :
    wp (sem K) (Recovers tx) (recoverIfAny tx)
      (fun _ g' w' => g' = g ∧ SameRun w w' ∧ Swept tx w.fs w'.fs ∧
        (w.fs.get tx.dir = none ∨ ∃ m, w.fs.get tx.dir = some (.dir m) ∧ m &&& 0o777 = 0o700) ∧
        (Calm K w → Recoverable tx w.fs))
      (fun _ _ w' => SameRun w w' ∧ (Calm K w → Orderly tx w.fs → ¬ Recoverable tx w.fs)) g w := by
  unfold recoverIfAny
  refine wp_bind.2 (wp_pathExists_dir hparent (fun _ => Recovers.of_quiet) (fun hyes => ?_)
    (fun hno => ?_) fun hf _ =>
      ⟨SameRun.refl w, fun hc => absurd hf (hc _ _ (SameRun.refl w))⟩)
  · refine (wp_recover (g := g) hparent hyes).post ?_ ?_
    · rintro _ g1 w1 ⟨hmode, hg, hrun, hs, hm, hcalm⟩
      exact ⟨hg, hrun, hs, .inr hmode, fun hc => .inr ⟨hm, hcalm hc⟩⟩
    · rintro _ g1 w1 ⟨hrun, hcalm⟩
      refine ⟨hrun, fun hc ho hr => ?_⟩
      rcases hr with hr | ⟨hm, hs⟩
      · exact hyes hr
      · exact hcalm hc ho hm hs
  · refine ⟨rfl, SameRun.refl w, ⟨hno, fun _ _ _ => rfl, .inl ⟨.inr ?_, fun _ => rfl⟩⟩, .inl hno,
      fun _ => .inl hno⟩
    exact Fs.get_append_eq_none hno

/-- Which calls cannot fail when nothing goes wrong. -/
theorem run_access (hv : w.fs.IsDir p) : (Op.access (τ := Part) p).run w = .ok ((), w) := by
  have hreal : realPath w.fs p = .ok p := @realPath_append [] [] p w.fs (at_self Fs.isDir_nil) hv
  simp only [Op.run, hreal, Except.map]

theorem run_lock (hparent : w.fs.IsDir tx.parent)
    (h : w.fs.get tx.lock = none ∨ ∃ m data, w.fs.get tx.lock = some (.file m data)) :
    ∃ w', (Op.lock (τ := Part) tx.lock).run w = .ok ((), w') := by
  have hloc : locate w.fs tx.lock = .ok tx.lock :=
    locate_of_isDir (b := tx.parent) (at_self hparent) (by simp) (by simpa using hparent)
  rcases h with hn | ⟨m, data, hf⟩
  · obtain ⟨y, hy⟩ : ∃ y, w.add tx.lock (.file 0o600 []) = .ok y := by
      simp only [World.add, hloc]
      exact ⟨_, dif_pos ⟨by simp [Tx.lock], by simpa [Tx.lock] using hparent, hn⟩⟩
    exact ⟨y.2, by simp only [Op.run, hloc, Except.bind, hn, hy, Except.map]⟩
  · exact ⟨w, by simp only [Op.run, hloc, Except.bind, hf]⟩

theorem wp_checkRoot (hparent : w.fs.IsDir tx.parent) :
    wp (sem K) (Recovers tx) (checkRoot tx)
      (fun _ g' w' => g' = g ∧ w' = w ∧ w.fs.IsDir tx.root)
      (fun _ g' w' => g' = g ∧ w' = w ∧ (Calm K w → ¬ w.fs.IsDir tx.root)) g w := by
  have access : ∀ {p e}, w.fs.IsDir p → sem K (.access p) w (.error e) w → Calm K w → False :=
    fun hd hs hc => hc.no_error (by simp) (run_access hd) hs
  have hclear : Clear w.fs tx.parent [tx.name] := clear_of_isDir (by simp) (by simpa using hparent)
  unfold checkRoot
  refine wp_bind.2 (wp_call.2 (wp_lstat (at_self hparent) (by simp) hclear (Recovers.of_quiet rfl)
    (fun v hv => ?_) (fun hn => ?_) fun hf => ?_))
  · by_cases hd : v.isDir = true
    · have hk : v.stat.kind = .dir := by cases v <;> simp_all [Node.stat, Node.isDir]
      have hroot : w.fs.IsDir tx.root := by
        cases v with
        | dir m => exact ⟨m, hv⟩
        | _ => simp [Node.isDir] at hd
      simp only [hk, ne_eq, not_true_eq_false, if_false]
      refine wp_bind.2 (wp_call.2 (wp_quiet rfl (Recovers.of_quiet rfl) fun r hs => ?_))
      cases r with
      | error e => exact ⟨rfl, rfl, fun hc => (access hroot hs hc).elim⟩
      | ok x =>
          refine wp_call.2 (wp_quiet rfl (Recovers.of_quiet rfl) fun r hs => ?_)
          cases r with
          | error e => exact ⟨rfl, rfl, fun hc => (access hparent hs hc).elim⟩
          | ok y => exact ⟨rfl, rfl, hroot⟩
    · have hk : v.stat.kind ≠ .dir := by cases v <;> simp_all [Node.stat, Node.isDir]
      simp only [hk, ne_eq, not_false_eq_true, if_true]
      refine ⟨rfl, rfl, fun _ hroot => ?_⟩
      obtain ⟨m, hm⟩ := hroot
      have hvm : some v = some (.dir m) := hv.symm.trans hm
      cases hvm
      simp [Node.isDir] at hd
  · exact ⟨rfl, rfl, fun _ hd => hd.ne_none hn⟩
  · exact ⟨rfl, rfl, fun hc => absurd hf (hc _ _ (SameRun.refl w))⟩

/-- The lock file is there; nothing else has changed. -/
theorem lock_made (hparent : w.fs.IsDir tx.parent) {r : Unit}
    (hs : sem K (.lock tx.lock) w (.ok r) w') :
    SameRun w w' ∧ (∃ m data, w'.fs.get tx.lock = some (.file m data)) ∧
      (∀ p, p ≠ tx.lock → w'.fs.get p = w.fs.get p) ∧
      ((∃ m data, w.fs.get tx.lock = some (.file m data)) → w' = w) := by
  have hloc : locate w.fs tx.lock = .ok tx.lock :=
    locate_of_isDir (b := tx.parent) (at_self hparent) (by simp) (by simpa using hparent)
  have hrun : (Op.lock (τ := Part) tx.lock).run w = .ok (r, w') := hs
  simp only [Op.run, hloc, Except.bind] at hrun
  split at hrun
  · next hnone =>
      simp only [Except.map] at hrun
      split at hrun
      · cases hrun
      · next x hx =>
          obtain ⟨hl, hm⟩ := World.add_ok hx
          rw [hloc] at hl
          obtain rfl := congrArg Prod.snd (Except.ok.inj hrun)
          rw [← Except.ok.inj hl] at hm
          refine ⟨hm.toSameRun, ⟨_, _, by rw [hm.get, if_pos rfl]⟩, fun p hp => ?_, ?_⟩
          · rw [hm.get, if_neg hp]
          · rintro ⟨m, data, h⟩
            rw [hnone] at h
            cases h
  · next m data hf =>
      obtain rfl := congrArg Prod.snd (Except.ok.inj hrun)
      exact ⟨SameRun.refl _, ⟨m, data, hf⟩, fun _ _ => rfl, fun _ => rfl⟩
  · cases hrun
  · cases hrun

/-- There was no lock file before, or a regular one. -/
theorem lock_found (hparent : w.fs.IsDir tx.parent) {r : Unit} (hs : sem K (.lock tx.lock) w (.ok r) w') :
    w.fs.get tx.lock = none ∨ ∃ m data, w.fs.get tx.lock = some (.file m data) := by
  have hloc : locate w.fs tx.lock = .ok tx.lock :=
    locate_of_isDir (b := tx.parent) (at_self hparent) (by simp) (by simpa using hparent)
  have hrun : (Op.lock (τ := Part) tx.lock).run w = .ok (r, w') := hs
  simp only [Op.run, hloc, Except.bind] at hrun
  split at hrun
  · next hnone => exact .inl hnone
  · next m data hf => exact .inr ⟨m, data, hf⟩
  · cases hrun
  · cases hrun

/-- The lock file makes no difference to recovery. -/
theorem Recoverable.congr {fs fs' : Fs} (h : Recoverable tx fs) (hsame : ∀ p, p ≠ tx.lock → fs'.get p = fs.get p) :
    Recoverable tx fs' := by
  have hdir : ∀ q, fs'.get (tx.dir ++ q) = fs.get (tx.dir ++ q) :=
    fun q => hsame _ fun heq => tx.lock_apart.1 (heq ▸ List.prefix_append _ _)
  have hroot : fs'.get tx.root = fs.get tx.root :=
    hsame _ fun heq => tx.lock_apart.2 (heq ▸ List.prefix_refl _)
  have hback : ∀ {q}, GoesBack tx fs q → GoesBack tx fs' q := fun h => ⟨hroot.trans h.1, h.2⟩
  refine h.imp (fun hn => by simpa using (hdir []).trans (by simpa using hn)) ?_
  rintro ⟨⟨m, hm⟩, hs⟩
  refine ⟨⟨m, (hdir _).trans hm⟩, fun q hq hb => ?_, fun q n hq hb => ?_⟩
  · obtain ⟨m', hm'⟩ := hq
    exact hs.depth q ⟨m', (hdir q).symm.trans hm'⟩ fun h => hb (hback h)
  · exact hs.fits q n (hdir _ ▸ hq) fun h => hb (hback h)

/-- What `lock_and_recover ()` makes of what it finds. -/
structure Recovered (K : Kernel Part) (tx : Tx) (w w' : World Part) : Prop where
  orderly : Orderly tx w.fs
  root : (∀ q, w'.fs.get (tx.root ++ q) = w.fs.get (tx.root ++ q)) ∨
    w.fs.get tx.root = none ∧ ∀ q, w'.fs.get (tx.root ++ q) = w.fs.get (tx.original ++ q)
  recoverable : Calm K w → Recoverable tx w.fs

theorem Swept.isDir_root {fs fs' : Fs} (h : Swept tx fs fs') (ho : Orderly tx fs) :
    fs'.IsDir tx.root := by
  have hroot := h.root
  rcases ho.root with ⟨m, hm⟩ | ⟨hn, m, hm⟩
  · rcases hroot with ⟨-, hsame⟩ | ⟨hn, -⟩
    · have := hsame []
      rw [List.append_nil, hm] at this
      exact ⟨m, this⟩
    · rw [hm] at hn
      cases hn
  · rcases hroot with ⟨hor, -⟩ | ⟨-, -, hback⟩
    · have := hor.resolve_left fun h => h hn
      rw [hm] at this
      cases this
    · have := hback []
      rw [List.append_nil, List.append_nil, hm] at this
      exact ⟨m, this⟩

theorem wp_lockAndRecover (hparent : w.fs.IsDir tx.parent) :
    wp (sem K) (Recovers tx) (lockAndRecover tx)
      (fun _ g' w' => g' = g ∧ SameRun w w' ∧ w'.fs.IsDir tx.parent ∧ w'.fs.IsDir tx.root ∧
        w'.fs.get tx.dir = none ∧ (∃ m data, w'.fs.get tx.lock = some (.file m data)) ∧
        Fits tx.dir [Tx.stageName] ∧ Fits tx.dir [Tx.originalName] ∧ Recovered K tx w w')
      (fun _ _ w' => SameRun w w' ∧ (Calm K w → Orderly tx w.fs → ¬ Recoverable tx w.fs)) g w := by
  unfold lockAndRecover
  refine wp_bind.2 (wp_call.2 (wp_ask.2 ⟨rfl, fun r w1 hs => ?_⟩))
  cases r with
  | error e =>
      obtain rfl := sem_error hs
      refine ⟨SameRun.refl _, fun hc ho => ?_⟩
      obtain ⟨w2, hrun⟩ := run_lock hparent ho.lock
      exact (hc.no_error (by simp) hrun hs).elim
  | ok x =>
      obtain ⟨hrun1, hlock1, hsame, -⟩ := lock_made hparent hs
      have hsame' : ∀ p, p ≠ tx.lock → w.fs.get p = w1.fs.get p := fun p hp => (hsame p hp).symm
      have hdir : ∀ q, w1.fs.get (tx.dir ++ q) = w.fs.get (tx.dir ++ q) :=
        fun q => hsame _ fun heq => tx.lock_apart.1 (heq ▸ List.prefix_append _ _)
      have hdir0 : w1.fs.get tx.dir = w.fs.get tx.dir := by simpa using hdir []
      have hroot1 : ∀ q, w1.fs.get (tx.root ++ q) = w.fs.get (tx.root ++ q) :=
        fun q => hsame _ fun heq => tx.lock_apart.2 (heq ▸ List.prefix_append _ _)
      have hroot0 : w1.fs.get tx.root = w.fs.get tx.root := by simpa using hroot1 []
      have horig : ∀ q, w1.fs.get (tx.original ++ q) = w.fs.get (tx.original ++ q) := by
        intro q
        rw [Tx.original, List.append_assoc]
        exact hdir _
      have horderly : Orderly tx w.fs → Orderly tx w1.fs := by
        intro ho
        refine ⟨.inr hlock1, ho.fits, by rw [hdir0]; exact ho.mode, ?_⟩
        rcases ho.root with ⟨m, hm⟩ | ⟨hn, m, hm⟩
        · exact .inl ⟨m, hroot0.trans hm⟩
        · have := horig []
          rw [List.append_nil, hm] at this
          exact .inr ⟨hroot0.trans hn, m, this⟩
      have hparent1 : w1.fs.IsDir tx.parent := by
        obtain ⟨m, hm⟩ := hparent
        exact ⟨m, by rw [hsame _ (by simp [Tx.lock]), hm]⟩
      refine wp_bind.2 (wp_hostJoin (fun hf1 => ?_) fun hn _ =>
        ⟨hrun1, fun _ ho => absurd (ho.fits _ (by simp)) hn⟩)
      refine wp_bind.2 (wp_hostJoin (fun hf2 => ?_) fun hn _ =>
        ⟨hrun1, fun _ ho => absurd (ho.fits _ (by simp)) hn⟩)
      refine wp_bind.2 ((wp_recoverIfAny (g := g) hparent1).post ?_ ?_)
      · rintro _ g2 w2 ⟨rfl, hrun2, hswept, hmode, hcalm2⟩
        have hrun := hrun1.trans hrun2
        have hparent2 := hswept.isDir_parent hparent1
        refine (wp_checkRoot (g := g2) hparent2).post ?_ ?_
        · rintro _ g3 w3 ⟨rfl, rfl, hroot⟩
          refine ⟨rfl, hrun, hparent2, hroot, hswept.gone, ?_, hf1, hf2, ?_⟩
          · obtain ⟨m, data, hl⟩ := hlock1
            exact ⟨m, data, by rw [hswept.outside _ tx.lock_apart.1 tx.lock_apart.2, hl]⟩
          · have hcame : (∀ q, w3.fs.get (tx.root ++ q) = w.fs.get (tx.root ++ q)) ∨
                w.fs.get tx.root = none ∧ ∀ q, w3.fs.get (tx.root ++ q) = w.fs.get (tx.original ++ q) :=
              hswept.root.imp (fun h q => (h.2 q).trans (hroot1 q))
                fun h => ⟨hroot0.symm.trans h.1, fun q => (h.2.2 q).trans (horig q)⟩
            refine ⟨⟨lock_found hparent hs, ?_, hdir0 ▸ hmode, ?_⟩, hcame,
              fun hc => (hcalm2 (hc.same hrun1)).congr hsame'⟩
            · intro n hn
              simp only [List.mem_cons, List.not_mem_nil, or_false] at hn
              rcases hn with rfl | rfl | rfl
              · exact hf1
              · exact hf2
              · exact fits_target hf2
            · obtain ⟨m, hm⟩ := hroot
              refine hcame.imp (fun h => ⟨m, ?_⟩) fun h => ⟨h.1, m, ?_⟩
              · have := h []
                rwa [List.append_nil, hm, eq_comm] at this
              · have := h.2 []
                rwa [List.append_nil, List.append_nil, hm, eq_comm] at this
        · rintro _ g3 w3 ⟨rfl, rfl, hcalm3⟩
          exact ⟨hrun, fun hc ho => absurd (hswept.isDir_root (horderly ho)) (hcalm3 (hc.same hrun))⟩
      · rintro _ g2 w2 ⟨hrun2, hcalm2⟩
        exact ⟨hrun1.trans hrun2, fun hc ho hr => hcalm2 (hc.same hrun1) (horderly ho) (hr.congr hsame)⟩

end MiniDarwin.Installer
