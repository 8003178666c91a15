import MiniDarwin.Installer.Publish

/-!
Offline installs that are interrupted.

A run may be stopped between any two calls, and the next run knows only
what it finds in the file system. To say what a transaction has to
preserve, an observer watches the calls and notes two trees: the one the
root held when the transaction directory was made, and the one that was
staged when the stage was renamed to the root. `Coherent` is what the
file system has in common with these notes at every moment of every run.
-/

namespace MiniDarwin.Installer

open Posix Effects Effects.Proc

variable {K : Kernel Part} {tx : Tx} {g g' : Globals} {w w' : World Part} {p q : Path} {env : Env}
  {fs fs' : Fs}

/-! ### The observer -/

/-- What is at a path and beneath it. -/
def treeAt (fs : Fs) (p : Path) : Path → Option Node := fun q => fs.get (p ++ q)

/-- The notes: nothing before the first transaction; then the tree at the root
when the last transaction began and the tree it published, if it did. -/
abbrev Notes := Option ((Path → Option Node) × Option (Path → Option Node))

def note (tx : Tx) : (o : Op Part) → World Part → Except Errno o.Val → Notes → Notes
  | .mkdir p _, w, .ok _, s => if p = tx.dir then some (treeAt w.fs tx.root, none) else s
  | .rename a b, w, .ok _, s =>
      if a = tx.stage ∧ b = tx.root then s.map fun x => (x.1, some (treeAt w.fs tx.stage)) else s
  | _, _, _, s => s

/-- The calls of a run that is watched. -/
def watched (K : Kernel Part) (tx : Tx) : Sem (calls Part) (World Part × Notes) :=
  Prog.observed (sem K) (note tx)

/-- What is true between any two calls. -/
structure Coherent (tx : Tx) (fs : Fs) (s : Notes) : Prop where
  parent : fs.IsDir tx.parent
  before : s = none → fs.get tx.dir = none
  mode : fs.get tx.dir = none ∨ fs.get tx.dir = some (.dir 0o700)
  lock : s ≠ none → ∃ m data, fs.get tx.lock = some (.file m data)
  fits : s ≠ none → ∀ n ∈ [Tx.stageName, Tx.originalName, Tx.targetName], Fits tx.dir [n]
  /-- until it is replaced, the old tree is at the root or, with no root, put aside -/
  old : ∀ old, s = some (old, none) →
    (∃ m, old [] = some (.dir m)) ∧
      (treeAt fs tx.root = old ∨ fs.get tx.root = none ∧ treeAt fs tx.original = old)
  /-- then the new tree is at the root -/
  new : ∀ old new, s = some (old, some new) →
    (∃ m, new [] = some (.dir m)) ∧ treeAt fs tx.root = new

theorem treeAt_nil : treeAt fs p [] = fs.get p := by simp [treeAt]

theorem Coherent.orderly {s : Notes} (h : Coherent tx fs s) (hs : s ≠ none) : Orderly tx fs := by
  refine ⟨.inr (h.lock hs), h.fits hs, h.mode.imp_right fun hm => ⟨_, hm, by decide⟩, ?_⟩
  obtain ⟨⟨old, pub⟩, rfl⟩ := Option.ne_none_iff_exists'.1 hs
  cases pub with
  | none =>
      obtain ⟨⟨m, hm⟩, hroot | ⟨hn, horig⟩⟩ := h.old old rfl
      · exact .inl ⟨m, by rw [← treeAt_nil, hroot, hm]⟩
      · exact .inr ⟨hn, m, by rw [← treeAt_nil, horig, hm]⟩
  | some new =>
      obtain ⟨⟨m, hm⟩, hroot⟩ := h.new old new rfl
      exact .inl ⟨m, by rw [← treeAt_nil, hroot, hm]⟩

/-- A change that spares the root, and what is put aside while there is no root. -/
theorem Coherent.spared {s : Notes} (h : Coherent tx fs s)
    (hparent : fs'.IsDir tx.parent) (hlock : fs'.get tx.lock = fs.get tx.lock)
    (hdir : fs'.get tx.dir = none ∨ fs'.get tx.dir = fs.get tx.dir)
    (hroot : ∀ q, fs'.get (tx.root ++ q) = fs.get (tx.root ++ q))
    (horig : s ≠ none → fs.get tx.root = none →
      ∀ q, fs'.get (tx.original ++ q) = fs.get (tx.original ++ q)) : Coherent tx fs' s := by
  have hroot' : treeAt fs' tx.root = treeAt fs tx.root := funext hroot
  refine ⟨hparent, fun hs => ?_, ?_, fun hs => ?_, h.fits, fun old hs => ?_, fun old new hs => ?_⟩
  · rcases hdir with hd | hd
    · exact hd
    · rw [hd, h.before hs]
  · rcases hdir with hd | hd
    · exact .inl hd
    · rw [hd]
      exact h.mode
  · rw [hlock]
    exact h.lock hs
  · obtain ⟨hd, hroot1 | ⟨hn, ho⟩⟩ := h.old old hs
    · exact ⟨hd, .inl (hroot'.trans hroot1)⟩
    · refine ⟨hd, .inr ⟨?_, (funext (horig (by simp [hs]) hn)).trans ho⟩⟩
      have := hroot []
      rw [List.append_nil] at this
      rw [this, hn]
  · obtain ⟨hd, hroot1⟩ := h.new old new hs
    exact ⟨hd, hroot'.trans hroot1⟩

/-! ### Calls that keep the notes true -/

theorem note_error {o : Op Part} {e : Errno} {s : Notes} : note tx o w (.error e) s = s := by
  cases o <;> rfl

/-- Removing part of the transaction directory, but not the old root while there is
no other. -/
theorem Coherent.removes {s : Notes} {o : Op Part} {r : Except Errno o.Val}
    (h : Coherent tx w.fs s) (ho : Removes tx.dir o w)
    (hr : w.fs.get tx.root ≠ none ∨ w.fs.get tx.original = none) (hs : sem K o w r w') :
    Coherent tx w'.fs s := by
  have hsh : Shrunk tx.dir {} w {} w' := ho.step hs
  refine h.spared ?_ (hsh.outside _ tx.lock_apart.1) ?_ (fun q => hsh.outside _ (tx.dir_apart q)) ?_
  · obtain ⟨m, hm⟩ := h.parent
    exact ⟨m, by rw [hsh.outside _ not_prefix_self, hm]⟩
  · -- the directory itself is gone, or its mode is what it was
    by_cases hdir : w'.fs.get tx.dir = none
    · exact .inl hdir
    right
    cases r with
    | error e =>
        obtain rfl := sem_error hs
        rfl
    | ok x =>
        cases o with
        | unlink p =>
            obtain ⟨c, v, -, -, -, hg⟩ := sem_unlink hs
            rw [hg.get] at hdir ⊢
            split at hdir
            · exact absurd rfl hdir
            · next hne => rw [if_neg hne]
        | rmdir p =>
            obtain ⟨c, -, -, hg⟩ := sem_rmdir hs
            rw [hg.get] at hdir ⊢
            split at hdir
            · exact absurd rfl hdir
            · next hne => rw [if_neg hne]
        | chmod p m =>
            obtain ⟨c, m0, hc, -, hm0, rfl⟩ := ho
            obtain ⟨c', u, hc', hu, ha⟩ := sem_chmod hs
            rw [hc] at hc'
            cases hc'
            rw [hm0] at hu
            cases hu
            rw [ha.get]
            split
            · next heq =>
                subst heq
                have hmode := h.mode.resolve_left (by simp [hm0])
                rw [hm0] at hmode
                cases hmode
                rw [hm0]
                rfl
            · rfl
        | _ =>
            obtain rfl := sem_quiet ho hs
            rfl
  · intro hne hn
    have horig := hr.resolve_left fun h => h hn
    have hroot := (h.orderly hne).root
    rcases hroot with hd | ⟨-, hd⟩
    · exact absurd hn hd.ne_none
    · exact absurd horig hd.ne_none

theorem Tx.original_eq (tx : Tx) : tx.original =
    tx.parent ++ ([Name.suffixed tx.name ".mdpkg-transaction".toList] ++ [Tx.originalName]) := by
  rw [← List.append_assoc]
  rfl

theorem Tx.not_original_dir (tx : Tx) : ¬ tx.original <+: tx.dir := not_prefix_self

theorem Coherent.locate_original {s : Notes} {c : Path} (h : Coherent tx fs s)
    (hc : locate fs tx.original = .ok c) : c = tx.original := by
  have hclear : Clear fs tx.parent
      ([Name.suffixed tx.name ".mdpkg-transaction".toList] ++ [Tx.originalName]) := by
    intro r hr hne
    rcases List.prefix_concat_iff.1 hr with rfl | hr
    · exact absurd rfl hne
    · cases r with
      | nil => exact .inr (by simpa using h.parent)
      | cons n r =>
          obtain ⟨rfl, hr'⟩ := List.cons_prefix_cons.1 hr
          obtain rfl := List.prefix_nil.1 hr'
          exact h.mode.imp id fun hm => ⟨_, hm⟩
  rw [tx.original_eq] at hc ⊢
  rcases locate_clear (at_self h.parent) (by simp) hclear with hl | ⟨hl, -⟩
  · exact Except.ok.inj (hc.symm.trans hl)
  · rw [hl] at hc
    cases hc

/-- The old root goes back to its place. -/
theorem Coherent.back {s : Notes} {x : Unit} (h : Coherent tx w.fs s)
    (hroot : w.fs.get tx.root = none)
    (hs : sem K (.rename tx.original tx.root) w (.ok x) w') : Coherent tx w'.fs s := by
  obtain ⟨c, hc, hne, hm⟩ := sem_rename hs (locate_root h.parent) hroot
  obtain rfl := h.locate_original hc
  have hdir : w'.fs.get tx.dir = w.fs.get tx.dir := by
    rw [hm.get_elsewhere (by simpa using tx.root_apart []), if_neg tx.not_original_dir]
  have hlock : w'.fs.get tx.lock = w.fs.get tx.lock := by
    rw [hm.get_elsewhere tx.lock_apart.2, if_neg]
    exact fun h => tx.lock_apart.1 ((List.prefix_append _ _).trans h)
  refine ⟨?_, fun hs => ?_, ?_, fun hs => ?_, h.fits, fun old hs => ?_, fun old new hs => ?_⟩
  · simpa [Tx.root] using isDir_dropLast_of_moved hm tx.root_ne_nil
  · rw [hdir, h.before hs]
  · rw [hdir]
    exact h.mode
  · rw [hlock]
    exact h.lock hs
  · obtain ⟨⟨m, hd⟩, hold | ⟨-, ho⟩⟩ := h.old old hs
    · rw [← hold, treeAt_nil, hroot] at hd
      cases hd
    · exact ⟨⟨m, hd⟩, .inl ((funext hm.get_target).trans ho)⟩
  · obtain ⟨⟨m, hd⟩, hnew⟩ := h.new old new hs
    rw [← hnew, treeAt_nil, hroot] at hd
    cases hd

theorem Coherent.recovers {s : Notes} {o : Op Part} {r : Except Errno o.Val}
    (h : Coherent tx w.fs s) (ho : Recovers tx o w) (hs : sem K o w r w') :
    Coherent tx w'.fs (note tx o w r s) := by
  cases r with
  | error e =>
      obtain rfl := sem_error hs
      rw [note_error]
      exact h
  | ok x =>
      cases o with
      | lock p =>
          obtain rfl : p = tx.lock := ho
          obtain ⟨-, -, hsame, hold⟩ := lock_made h.parent hs
          have hne : ∀ q, tx.root ++ q ≠ tx.lock :=
            fun q heq => tx.lock_apart.2 ⟨q, heq⟩
          have hne' : ∀ q, tx.dir ++ q ≠ tx.lock :=
            fun q heq => tx.lock_apart.1 ⟨q, heq⟩
          by_cases hnone : s = none
          · subst hnone
            show Coherent tx w'.fs none
            refine ⟨?_, fun _ => ?_, .inl ?_, by simp, by simp, by simp, by simp⟩
            · obtain ⟨m, hm⟩ := h.parent
              exact ⟨m, by rw [hsame _ (by simp [Tx.lock]), hm]⟩
            · rw [hsame _ (by simpa using hne' []), h.before rfl]
            · rw [hsame _ (by simpa using hne' []), h.before rfl]
          · obtain rfl := hold (h.lock hnone)
            exact h
      | rename a b =>
          obtain ⟨rfl, rfl, hroot⟩ := ho
          have hnote : note tx (.rename tx.original tx.root) w (.ok x) s = s :=
            if_neg fun hc => by
              have := List.append_cancel_left hc.1
              exact absurd this (by decide)
          rw [hnote]
          exact h.back hroot hs
      | unlink p => exact h.removes ho.1 ho.2 hs
      | rmdir p => exact h.removes ho.1 ho.2 hs
      | chmod p m => exact h.removes ho.1 ho.2 hs
      | mkdir => simp [Recovers, Op.quiet] at ho
      | _ =>
          obtain rfl := sem_quiet ho hs
          exact h

/-! ### `rollback ()` -/

/-- While an install is being undone, `lstat ()` tells whether a name exists. -/
def LstatHolds (K : Kernel Part) : Prop := ∀ p v, v.tag = .dying → ¬ K.flaky (.lstat p) v

theorem wp_lstat_dying {d : Path} {n : Name} {Q : Except Errno Stat → Globals → World Part → Prop}
    {D : String → Globals → World Part → Prop} (hK : LstatHolds K) (htag : w.tag = .dying)
    (hd : w.fs.IsDir d) (hyes : ∀ st, w.fs.get (d ++ [n]) ≠ none → Q (.ok st) g w)
    (hno : ∀ e, w.fs.get (d ++ [n]) = none → Q (.error e) g w) :
    wp (sem K) (Recovers tx) (ask (.lstat (d ++ [n]))) Q D g w := by
  refine wp_lstat (at_self hd) (by simp) (clear_of_isDir (by simp) (by simpa using hd))
    (Recovers.of_quiet rfl) (fun v hv => hyes _ (by simp [hv])) (fun hn => hno _ hn) fun hf => ?_
  exact absurd hf (hK _ _ htag)

theorem wp_restoreOriginal (hK : LstatHolds K) (htag : w.tag = .dying) (hd : w.fs.IsDir tx.dir)
    (hpub : g.published = true → w.fs.get tx.root ≠ none) :
    wp (sem K) (Recovers tx) (restoreOriginal tx)
      (fun r _ w' => w'.fs.IsDir tx.parent ∧
        (r = true → w'.fs.get tx.root ≠ none ∨ w'.fs.get tx.original = none))
      (fun _ _ _ => True) g w := by
  have hparent := isDir_parent_of_dir hd
  unfold restoreOriginal
  refine wp_bind.2 (wp_get.2 ?_)
  split
  · next hp => exact ⟨hparent, fun _ => .inl (hpub hp)⟩
  · refine wp_bind.2 (wp_lstat_dying hK htag hd (fun _ horig => ?_)
      fun _ horig => ⟨hparent, fun _ => .inr horig⟩)
    refine wp_bind.2 (wp_lstat_dying hK htag hparent
      (fun _ hroot => ⟨hparent, fun _ => .inl hroot⟩) fun _ hroot => ?_)
    refine wp_bind.2 (wp_ask.2 ⟨⟨rfl, rfl, hroot⟩, fun r w' hs => ?_⟩)
    cases r with
    | error e =>
        obtain rfl := sem_error hs
        exact ⟨hparent, by simp⟩
    | ok x =>
        obtain ⟨c, hc, -, hm⟩ := sem_rename hs (locate_root hparent) hroot
        rw [show locate w.fs tx.original = _ from locate_self horig tx.original_ne_nil] at hc
        cases hc
        refine ⟨by simpa [Tx.root] using isDir_dropLast_of_moved hm tx.root_ne_nil,
          fun _ => .inl ?_⟩
        have := hm.get_target []
        rw [List.append_nil, List.append_nil] at this
        rwa [this]

theorem wp_rollback (hK : LstatHolds K) (htag : w.tag = .dying) (hd : w.fs.IsDir tx.dir)
    (hpub : g.published = true → w.fs.get tx.root ≠ none) :
    wp (sem K) (Recovers tx) (rollback tx) (fun _ _ _ => True) (fun _ _ _ => True) g w := by
  unfold rollback
  refine wp_bind.2 ((wp_restoreOriginal hK htag hd hpub).post ?_ (fun _ _ _ => id))
  rintro r g1 w1 ⟨hparent, hor⟩
  cases r with
  | false => trivial
  | true =>
      exact wp_bind.2 (wp.post (sure_removeDir hparent (hor rfl)) (fun _ _ _ _ => trivial)
        (fun _ _ _ _ => trivial))

/-! ### The stage -/

/-- Whatever comes of the call, only the stage and the marker have changed, and
there is nothing to note. -/
def Spares (K : Kernel Part) (tx : Tx) (o : Op Part) (v : World Part) : Prop :=
  ∀ r v', sem K o v r v' →
    (∀ p, ¬ tx.stage <+: p → p ≠ tx.marker → v'.fs.get p = v.fs.get p) ∧
      ∀ s, note tx o v r s = s

theorem Spares.of_quiet {o : Op Part} (h : o.quiet = true) : Spares K tx o w := by
  intro r v' hs
  obtain rfl := sem_quiet h hs
  refine ⟨fun _ _ _ => rfl, fun s => ?_⟩
  cases o with
  | mkdir | rename => simp [Op.quiet] at h
  | _ => rfl

theorem Grows.spares {fs0 : Fs} {b B : Path} {Ok : Path → Prop} {o : Op Part}
    (h : Grows fs0 b B Ok o w) (hb : tx.dir <+: b)
    (hok : ∀ q, Ok q → tx.stage <+: B ++ q ∨ B ++ q = tx.marker) : Spares K tx o w := by
  intro r v' hs
  refine ⟨fun p hp hm => h.elsewhere hs fun q hq heq => ?_, fun s => ?_⟩
  · rcases hok q hq with h1 | h1
    · exact hp (heq ▸ h1)
    · exact hm (heq.trans h1)
  · cases o with
    | mkdir p m =>
        cases r with
        | error e => rfl
        | ok x =>
            obtain ⟨q, hq⟩ := h
            refine if_neg fun heq => ?_
            -- the transaction directory is not beneath itself
            have hle := hb.length_le
            have hlen := congrArg List.length (hq.eq.symm.trans heq)
            have := List.length_pos_iff.2 hq.ne_nil
            simp only [List.length_append] at hlen
            omega
    | rename => simp [Grows, Op.quiet] at h
    | _ => rfl

theorem Removes.spares {o : Op Part} (h : Removes tx.scripts o w) : Spares K tx o w := by
  intro r v' hs
  have hsh : Shrunk tx.scripts {} w {} v' := h.step hs
  refine ⟨fun p hp _ => hsh.outside p fun hq => hp ((List.prefix_append _ _).trans hq), fun s => ?_⟩
  cases o with
  | mkdir | rename => simp [Removes, Op.quiet] at h
  | _ => rfl

theorem Chmods.spares {o : Op Part} (h : Chmods tx.stage o w) : Spares K tx o w := by
  intro r v' hs
  refine ⟨fun p hp _ => ?_, fun s => ?_⟩
  · cases r with
    | error e =>
        obtain rfl := sem_error hs
        rfl
    | ok x =>
        cases o with
        | chmod q m =>
            obtain ⟨c, rfl, hd⟩ := h
            obtain ⟨d, u, hd', -, ha⟩ := sem_chmod hs
            have hreal := @realPath_append [] [] (tx.stage ++ c) w.fs (at_self Fs.isDir_nil) hd
            rw [show realPath w.fs (tx.stage ++ c) = .ok (tx.stage ++ c) from hreal] at hd'
            cases hd'
            rw [ha.get, if_neg]
            rintro rfl
            exact hp (List.prefix_append _ _)
        | _ =>
            obtain rfl := sem_quiet h hs
            rfl
  · cases o with
    | mkdir | rename => simp [Chmods, Op.quiet] at h
    | _ => rfl

/-- A child process changes nothing. It would not do to leave alone what is outside the stage: a child
that puts a link in the place of the directory of the scripts has the next component's scripts written
where the link leads. -/
def ChildIdle (K : Kernel Part) : Prop := ∀ fs fs', K.child fs fs' → fs' = fs

theorem Op.mild.spares {o : Op Part} (h : Op.mild o) (hK : ChildIdle K) : Spares K tx o w := by
  rcases h with h | ⟨argv, rfl⟩
  · exact .of_quiet h
  · intro r v' hs
    refine ⟨fun p _ _ => ?_, fun s => rfl⟩
    cases r with
    | error e =>
        obtain rfl := sem_error hs
        rfl
    | ok x =>
        obtain ⟨fs, hfs, rfl⟩ := hs
        obtain rfl := hK _ _ hfs
        rfl

theorem StageCalls.spares {cs : List Component} {fs0 : Fs} {o : Op Part}
    (h : StageCalls tx cs fs0 o w) (hK : ChildIdle K) : Spares K tx o w := by
  have hstage : tx.dir <+: tx.stage := List.prefix_append _ _
  have hscripts : tx.stage <+: tx.scripts := List.prefix_append _ _
  have beneath : ∀ {B q : Path}, tx.stage <+: B → tx.stage <+: B ++ q ∨ B ++ q = tx.marker :=
    fun h => .inl (h.trans (List.prefix_append _ _))
  rcases h with ⟨c, -, ⟨t, rfl⟩ | h⟩ | ⟨-, h | h | h⟩
  · intro r v' hs
    refine ⟨fun p _ _ => ?_, fun s => rfl⟩
    cases r with
    | error e =>
        obtain rfl := sem_error hs
        rfl
    | ok x =>
        obtain rfl := congrArg Prod.snd (Except.ok.inj hs)
        rfl
  · split at h
    · exact h.1.spares (hstage.trans hscripts) fun q _ => beneath hscripts
    · exact h.1.spares hstage fun q _ => beneath (List.prefix_refl _)
    · exact h.1.spares hstage fun q _ => beneath (List.prefix_refl _)
    · exact h.spares hK
    · exact h.elim
  · refine h.spares (List.prefix_refl _) fun q hq => .inl ?_
    rwa [Tx.stage, List.prefix_append_right_inj]
  · exact h.spares
  · exact h.spares

theorem PrepareCalls.spares {cs : List Component} {o : Op Part} (h : PrepareCalls tx cs o w)
    (hK : ChildIdle K) : Spares K tx o w := by
  obtain ⟨fs0, h | ⟨-, h⟩⟩ := h
  · exact h.spares hK
  · refine h.spares (List.prefix_refl _) ?_
    rintro q rfl
    exact .inr rfl

/-- While the stage is being filled. -/
structure Preparatory (tx : Tx) (fs : Fs) (s : Notes) : Prop extends Coherent tx fs s where
  root : fs.get tx.root ≠ none
  begun : ∃ old, s = some (old, none)

theorem Preparatory.spares {s : Notes} {o : Op Part} {r : Except Errno o.Val}
    (h : Preparatory tx w.fs s) (ho : Spares K tx o w) (hs : sem K o w r w') :
    Preparatory tx w'.fs (note tx o w r s) := by
  obtain ⟨hsame, hnote⟩ := ho r w' hs
  have elsewhere : ∀ {p}, ¬ tx.dir <+: p → w'.fs.get p = w.fs.get p := by
    intro p hp
    refine hsame p (fun hq => hp ((List.prefix_append _ _).trans hq)) ?_
    rintro rfl
    exact hp (List.prefix_append _ _)
  have hroot : ∀ q, w'.fs.get (tx.root ++ q) = w.fs.get (tx.root ++ q) :=
    fun q => elsewhere (tx.dir_apart q)
  have hroot' : w'.fs.get tx.root = w.fs.get tx.root := by simpa using hroot []
  rw [hnote]
  refine ⟨h.toCoherent.spared ?_ (elsewhere tx.lock_apart.1) (.inr ?_) hroot ?_, ?_, h.begun⟩
  · obtain ⟨m, hm⟩ := h.parent
    exact ⟨m, by rw [elsewhere not_prefix_self, hm]⟩
  · refine hsame _ tx.not_stage_dir fun heq => ?_
    have := congrArg List.length heq
    simp [Tx.marker] at this
  · exact fun _ hn => absurd hn h.root
  · rw [hroot']
    exact h.root

/-! ### `publish ()` -/

/-- While the root is being replaced. -/
structure Replacing (tx : Tx) (fs : Fs) (s : Notes) : Prop extends Coherent tx fs s where
  staged : fs.get tx.stage ≠ none → ∃ old, s = some (old, none)

theorem Recovers.note {s : Notes} {o : Op Part} {r : Except Errno o.Val} (h : Recovers tx o w) :
    note tx o w r s = s := by
  cases r with
  | error e => exact note_error
  | ok x =>
      cases o with
      | mkdir => simp [Recovers, Op.quiet] at h
      | rename a b =>
          obtain ⟨rfl, rfl, -⟩ := h
          refine if_neg fun hc => ?_
          exact absurd (List.append_cancel_left hc.1) (by decide)
      | _ => rfl

/-- A stage does not come into being. -/
theorem Recovers.stage {o : Op Part} {r : Except Errno o.Val} (h : Recovers tx o w)
    (hparent : w.fs.IsDir tx.parent) (hs : sem K o w r w') (hn : w.fs.get tx.stage = none) :
    w'.fs.get tx.stage = none := by
  have removed : Removes tx.dir o w → w'.fs.get tx.stage = none := by
    intro ho
    have hsh : Shrunk tx.dir {} w {} w' := ho.step hs
    rcases hsh.node tx.stage with h1 | h1 | ⟨h1, -⟩
    · exact h1
    · rw [h1, hn]
    · exact absurd hn h1.ne_none
  cases r with
  | error e =>
      obtain rfl := sem_error hs
      exact hn
  | ok x =>
      cases o with
      | lock p =>
          obtain rfl : p = tx.lock := h
          obtain ⟨-, -, hsame, -⟩ := lock_made hparent hs
          have hne : tx.stage ≠ tx.lock := fun heq => tx.lock_apart.1 (heq ▸ List.prefix_append _ _)
          rw [hsame _ hne, hn]
      | rename a b =>
          obtain ⟨rfl, rfl, hroot⟩ := h
          obtain ⟨c, -, -, hm⟩ := sem_rename hs (locate_root hparent) hroot
          rw [hm.get_elsewhere tx.not_root_stage]
          split
          · rfl
          · exact hn
      | unlink p => exact removed h.1
      | rmdir p => exact removed h.1
      | chmod p m => exact removed h.1
      | mkdir => simp [Recovers, Op.quiet] at h
      | _ =>
          obtain rfl := sem_quiet h hs
          exact hn

/-- The first rename. -/
theorem Coherent.aside {old : Path → Option Node} (h : Coherent tx w.fs (some (old, none)))
    (hroot : w.fs.get tx.root ≠ none) (hm : Moved w tx.root tx.original w') :
    Coherent tx w'.fs (some (old, none)) := by
  have hdir : w'.fs.get tx.dir = w.fs.get tx.dir := by
    rw [hm.get_elsewhere tx.not_original_dir, if_neg tx.not_root_dir]
  refine ⟨?_, by simp, ?_, fun hs => ?_, h.fits, ?_, by simp⟩
  · have := isDir_dropLast_of_moved hm tx.original_ne_nil
    exact isDir_parent_of_dir (by simpa [Tx.original] using this)
  · rw [hdir]
    exact h.mode
  · rw [hm.get_elsewhere, if_neg tx.lock_apart.2]
    · exact h.lock hs
    · exact fun hp => tx.lock_apart.1 ((List.prefix_append _ _).trans hp)
  · intro old' heq
    obtain rfl : old = old' := congrArg Prod.fst (Option.some.inj heq)
    obtain ⟨hd, hold⟩ := h.old old rfl
    have hat : treeAt w.fs tx.root = old := hold.resolve_right fun hn => hroot hn.1
    refine ⟨hd, .inr ⟨?_, (funext hm.get_target).trans hat⟩⟩
    rw [hm.get_elsewhere, if_pos (List.prefix_refl _)]
    exact fun hp => tx.not_dir_root ((List.prefix_append _ _).trans hp)

/-- The second rename. -/
theorem Coherent.published {old : Path → Option Node} (h : Coherent tx w.fs (some (old, none)))
    (hstage : w.fs.IsDir tx.stage) (hm : Moved w tx.stage tx.root w') :
    Coherent tx w'.fs (some (old, some (treeAt w.fs tx.stage))) := by
  have hdir : w'.fs.get tx.dir = w.fs.get tx.dir := by
    rw [hm.get_elsewhere tx.not_root_dir, if_neg tx.not_stage_dir]
  refine ⟨?_, by simp, ?_, fun hs => ?_, fun _ => h.fits (by simp), by simp, ?_⟩
  · simpa [Tx.root] using isDir_dropLast_of_moved hm tx.root_ne_nil
  · rw [hdir]
    exact h.mode
  · rw [hm.get_elsewhere tx.lock_apart.2, if_neg]
    · exact h.lock (by simp)
    · exact fun hp => tx.lock_apart.1 ((List.prefix_append _ _).trans hp)
  · intro old' new heq
    obtain rfl : treeAt w.fs tx.stage = new := by
      have := congrArg Prod.snd (Option.some.inj heq)
      exact Option.some.inj this
    obtain ⟨m, hd⟩ := hstage
    exact ⟨⟨m, treeAt_nil.trans hd⟩, funext hm.get_target⟩

theorem Replacing.publishes {s : Notes} {o : Op Part} {r : Except Errno o.Val}
    (h : Replacing tx w.fs s) (ho : Publishes tx o w) (hs : sem K o w r w') :
    Replacing tx w'.fs (note tx o w r s) := by
  rcases ho with ho | ⟨rfl, hdir, hroot, hstage, horig⟩ | ⟨rfl, hdir, hstage, hroot⟩
  · refine ⟨h.toCoherent.recovers ho hs, fun hst => ?_⟩
    rw [ho.note]
    exact h.staged fun hn => hst (ho.stage h.parent hs hn)
  · cases r with
    | error e =>
        obtain rfl := sem_error hs
        rw [note_error]
        exact h
    | ok x =>
        obtain ⟨old, rfl⟩ := h.staged hstage.ne_none
        have hm := moved_aside hdir hroot horig hs
        have hne : tx.root ≠ tx.stage := fun heq => tx.not_root_stage (heq ▸ List.prefix_refl _)
        have hnote : note tx (.rename tx.root tx.original) w (.ok x) (some (old, none)) =
            some (old, none) := if_neg fun hc => hne hc.1
        rw [hnote]
        exact ⟨h.toCoherent.aside hroot.ne_none hm, fun _ => ⟨old, rfl⟩⟩
  · cases r with
    | error e =>
        obtain rfl := sem_error hs
        rw [note_error]
        exact h
    | ok x =>
        obtain ⟨old, rfl⟩ := h.staged hstage.ne_none
        have hm := moved_in hdir hstage hroot hs
        have hnote : note tx (.rename tx.stage tx.root) w (.ok x) (some (old, none)) =
            some (old, some (treeAt w.fs tx.stage)) := if_pos ⟨rfl, rfl⟩
        rw [hnote]
        refine ⟨h.toCoherent.published hstage hm, fun hst => absurd ?_ hst⟩
        rw [hm.get_elsewhere tx.not_root_stage, if_pos (List.prefix_refl _)]

end MiniDarwin.Installer
