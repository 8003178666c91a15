import MiniDarwin.Installer.Recover

/-!
From the marker to the published root.

`prepare` leaves the root alone and fills the stage; `publish ()` puts the
stage in the place of the root.
-/

namespace MiniDarwin.Installer

open Posix Effects Effects.Proc

variable {K : Kernel Part} {tx : Tx} {pkg : Package} {g g' g'' : Globals} {w w' w'' : World Part}
  {p q : Path} {env : Env} {fs fs' : Fs}

/-! ### The stage -/

/-- The marker file. -/
def Tx.marker (tx : Tx) : Path := tx.dir ++ [Tx.targetName]

/-- The calls from the marker on until the stage is filled. -/
def PrepareCalls (tx : Tx) (cs : List Component) (o : Op Part) (v : World Part) : Prop :=
  ∃ fs0, StageCalls tx cs fs0 o v ∨ v.tag = .main ∧ Grows fs0 tx.dir tx.dir (· = [Tx.targetName]) o v

/-- Only the stage and the marker have changed. -/
structure Preparing (tx : Tx) (g : Globals) (w : World Part) (g' : Globals) (w' : World Part) :
    Prop where
  spared : ∀ p, ¬ tx.stage <+: p → p ≠ tx.marker → w'.fs.get p = w.fs.get p
  published : g'.published = g.published

theorem Preparing.refl : Preparing tx g w g w := ⟨fun _ _ _ => rfl, rfl⟩

theorem Preparing.trans (h : Preparing tx g w g' w') (h' : Preparing tx g' w' g'' w'') :
    Preparing tx g w g'' w'' :=
  ⟨fun p h1 h2 => (h'.spared p h1 h2).trans (h.spared p h1 h2), h'.published.trans h.published⟩

theorem Staging.preparing (h : Staging tx g w g' w') : Preparing tx g w g' w' :=
  ⟨fun p hp _ => h.outside p hp, h.published⟩

theorem Grew.preparing (h : Grew tx.dir tx.dir (· = [Tx.targetName]) g w g' w') :
    Preparing tx g w g' w' := by
  obtain ⟨qs, hok, hb, -, rfl⟩ := h
  refine ⟨fun p _ hp => ?_, rfl⟩
  by_cases hn : w.fs.get p = none
  · by_contra hne
    rw [hn] at hne
    obtain ⟨q, hq, rfl⟩ := List.mem_map.1 ((hb.made p hn).1 hne)
    exact hp (by rw [hok q hq]; rfl)
  · exact hb.kept p hn

theorem Preparing.root (h : Preparing tx g w g' w') (q : Path) :
    w'.fs.get (tx.root ++ q) = w.fs.get (tx.root ++ q) := by
  refine h.spared _ (fun hp => tx.dir_apart q ?_) fun heq => tx.dir_apart q ?_
  · exact (List.prefix_append _ _).trans hp
  · rw [heq]
    exact List.prefix_append _ _

theorem Preparing.dir (h : Preparing tx g w g' w') : w'.fs.get tx.dir = w.fs.get tx.dir := by
  refine h.spared _ not_prefix_self fun heq => ?_
  have := congrArg List.length heq
  simp [Tx.marker] at this

theorem Preparing.original (h : Preparing tx g w g' w') :
    w'.fs.get tx.original = w.fs.get tx.original := by
  refine h.spared _ (fun hp => ?_) fun heq => ?_
  · rw [Tx.stage, Tx.original, List.prefix_append_right_inj] at hp
    exact absurd hp (by decide)
  · exact absurd (List.append_cancel_left heq) (by decide)

/-- What is filled depends only on the tree at the root. -/
theorem Filled.congr {R S : Path} {cs : List Component} {fs2 : Fs} (h : Filled env fs R cs fs2 S)
    (hR : ∀ q, fs'.get (R ++ q) = fs.get (R ++ q)) : Filled env fs' R cs fs2 S := by
  have hl : linkAt fs' R = linkAt fs R := by
    funext p
    simp only [linkAt, hR]
  refine ⟨⟨h.inPlace, h.recorded, ?_, ?_⟩, ?_, ?_, h.noScripts⟩
  · rw [hl]
    exact h.hasLinks
  · rw [hl]
    exact h.checked
  · intro q hq
    rw [hR] at hq ⊢
    exact h.old q hq
  · intro q hq
    rw [hR]
    exact h.only q hq

theorem Filled.isDir {R S : Path} {cs : List Component} (h : Filled env fs R cs fs' S)
    (hR : fs.IsDir R) : fs'.IsDir S := by
  obtain ⟨m, hm⟩ := hR
  have := h.old [] (by simp [hm])
  rw [List.append_nil, List.append_nil, hm] at this
  exact ⟨m, this⟩

theorem stays_prepare (env : Env) (pkg : Package) (hcs : ∀ c ∈ pkg.components, Harmless K c)
    (hfree : ∀ c ∈ pkg.components, ∀ e ∈ c.payload, isReserved e.path = false)
    (hdir : w.fs.IsDir tx.dir) (hroot : w.fs.IsDir tx.root) (hg : g.createHook = false)
    (hlive : g.live = false) (hbd : g.baseDirectories = []) (htag : w.tag = .main) :
    Stays (sem K) (PrepareCalls tx pkg.components) (Preparing tx) (prepare env tx pkg)
      (fun _ _ w' => w'.tag = .main ∧ Filled env w.fs tx.root pkg.components w'.fs tx.stage) g w := by
  unfold prepare
  refine stays_hostJoin Preparing.refl fun _ => ?_
  -- the marker
  have hbe : Beneath w tx.dir tx.dir (· = [Tx.targetName]) (tx.dir ++ [Tx.targetName])
      [Tx.targetName] := ⟨rfl, by simp, at_self hdir, by simpa using hdir, rfl⟩
  have hmark := stays_fileWrite (K := K) (g := g) tx.rootBytes 0o600
    ⟨at_self hdir, Fs.Kept.refl _⟩ hbe
  refine wp_bind.2 (wp.mono (wp_sameRun hmark fun _ _ h => h.not_enter) ?_ ?_ ?_)
  · exact fun o v h => ⟨w.fs, .inr ⟨h.2.tag.trans htag, h.1⟩⟩
  · rintro _ g1 w1 ⟨⟨hg1, -⟩, hrun⟩
    have hp := hg1.preparing
    refine Stays.after Preparing.trans hp ?_
    refine stays_call rfl Preparing.refl ⟨w.fs, .inr ⟨hrun.tag.trans htag, Grows.of_quiet rfl⟩⟩
      fun _ _ => ?_
    have hroot1 : w1.fs.IsDir tx.root := hg1.kept.isDir hroot
    have hfill := stays_fillStage (K := K) env (w := w1) (g := g1) hcs hfree
      (hg1.kept.isDir hdir) hroot1 (by obtain ⟨_, _, _, _, rfl⟩ := hg1; exact hg)
      (by obtain ⟨_, _, _, _, rfl⟩ := hg1; exact hlive)
      (by obtain ⟨_, _, _, _, rfl⟩ := hg1; exact hbd) (hrun.tag.trans htag)
    refine hfill.mono (fun o v h => ⟨w1.fs, .inl h⟩) (fun _ _ h => h.preparing) ?_
    rintro _ g2 w2 - ⟨htag2, hfilled⟩
    exact ⟨htag2, hfilled.congr fun q => (hp.root q).symm⟩
  · rintro _ g1 w1 ⟨hg1, -⟩
    exact hg1.preparing

/-! ### `publish ()` -/

/-- The two renames, each with what it relies on, and what `lock_and_recover ()`
may do as well. -/
def Publishes (tx : Tx) (o : Op Part) (v : World Part) : Prop :=
  Recovers tx o v ∨
    o = .rename tx.root tx.original ∧ v.fs.IsDir tx.dir ∧ v.fs.IsDir tx.root ∧
      v.fs.IsDir tx.stage ∧ v.fs.get tx.original = none ∨
    o = .rename tx.stage tx.root ∧ v.fs.IsDir tx.dir ∧ v.fs.IsDir tx.stage ∧
      v.fs.get tx.root = none

theorem Publishes.of_quiet {o : Op Part} (h : o.quiet = true) : Publishes tx o w :=
  .inl (Recovers.of_quiet h)

theorem Publishes.not_enter {o : Op Part} (h : Publishes tx o w) (t : Part) : o ≠ .enter t := by
  rintro rfl
  rcases h with h | ⟨h, -⟩ | ⟨h, -⟩
  · simp [Recovers, Op.quiet] at h
  · cases h
  · cases h

/-- The transaction directory is there, and if the new root has been published, it
is there too. -/
def Undoable (tx : Tx) (g : Globals) (w : World Part) : Prop :=
  w.fs.IsDir tx.dir ∧ (g.published = true → w.fs.get tx.root ≠ none)

namespace Tx

variable (tx : Tx)

theorem not_root_stage : ¬ tx.root <+: tx.stage := tx.root_apart [stageName]

theorem not_root_dir : ¬ tx.root <+: tx.dir := by simpa using tx.root_apart []

theorem not_stage_dir : ¬ tx.stage <+: tx.dir := not_prefix_self

theorem not_original_stage (q : Path) : ¬ tx.original <+: tx.stage ++ q := by
  rw [original, stage, List.append_assoc, List.prefix_append_right_inj]
  simp only [List.singleton_append, List.cons_prefix_cons, not_and]
  exact fun h => absurd h (by decide)

theorem not_stage_original (q : Path) : ¬ tx.stage <+: tx.original ++ q := by
  rw [original, stage, List.append_assoc, List.prefix_append_right_inj]
  simp only [List.singleton_append, List.cons_prefix_cons, not_and]
  exact fun h => absurd h (by decide)

end Tx

/-- The old root is put aside. -/
theorem moved_aside {x : Unit} (hdir : w.fs.IsDir tx.dir) (hroot : w.fs.IsDir tx.root)
    (horig : w.fs.get tx.original = none)
    (hs : sem K (.rename tx.root tx.original) w (.ok x) w') :
    Moved w tx.root tx.original w' := by
  have hq : locate w.fs tx.original = .ok tx.original :=
    locate_of_isDir (b := tx.dir) (at_self hdir) (by simp) (by simpa using hdir)
  obtain ⟨c, hc, -, hm⟩ := sem_rename hs hq horig
  rw [locate_self hroot.ne_none tx.root_ne_nil] at hc
  cases hc
  exact hm

/-- The new root is put in its place. -/
theorem moved_in {x : Unit} (hdir : w.fs.IsDir tx.dir) (hstage : w.fs.IsDir tx.stage)
    (hroot : w.fs.get tx.root = none) (hs : sem K (.rename tx.stage tx.root) w (.ok x) w') :
    Moved w tx.stage tx.root w' := by
  obtain ⟨c, hc, -, hm⟩ := sem_rename hs (locate_root (isDir_parent_of_dir hdir)) hroot
  rw [locate_self hstage.ne_none tx.stage_ne_nil] at hc
  cases hc
  exact hm

/-- What the first rename leaves. -/
theorem aside_of_moved (hm : Moved w tx.root tx.original w') :
    w'.fs.IsDir tx.dir ∧ (∀ q, w'.fs.get (tx.stage ++ q) = w.fs.get (tx.stage ++ q)) ∧
      w'.fs.get tx.root = none := by
  refine ⟨by simpa [Tx.original] using isDir_dropLast_of_moved hm tx.original_ne_nil, fun q => ?_, ?_⟩
  · have hr : ¬ tx.root <+: tx.stage ++ q := by
      rw [Tx.stage, List.append_assoc]
      exact tx.root_apart _
    rw [hm.get_elsewhere (tx.not_original_stage q), if_neg hr]
  · have ho : ¬ tx.original <+: tx.root := fun h => tx.not_dir_root ((List.prefix_append _ _).trans h)
    rw [hm.get_elsewhere ho, if_pos (List.prefix_refl _)]

/-- What the second leaves. -/
theorem published_of_moved (hm : Moved w tx.stage tx.root w') (hdir : w.fs.IsDir tx.dir)
    (hstage : w.fs.IsDir tx.stage) : w'.fs.IsDir tx.dir ∧ w'.fs.get tx.root ≠ none := by
  constructor
  · obtain ⟨m, hm'⟩ := hdir
    exact ⟨m, by rw [hm.get_elsewhere tx.not_root_dir, if_neg tx.not_stage_dir, hm']⟩
  · have htarget := hm.get_target []
    rw [List.append_nil, List.append_nil] at htarget
    rw [htarget]
    exact hstage.ne_none

theorem wp_syncDir {Q : Unit → Globals → World Part → Prop}
    {D : String → Globals → World Part → Prop} (hD : ∀ msg, D msg g w) (hQ : Q () g w) :
    wp (sem K) (Publishes tx) (syncDir p) Q D g w := by
  refine wp_call.2 (wp_quiet rfl (Publishes.of_quiet rfl) fun r _ => ?_)
  cases r with
  | error e => exact hD _
  | ok _ => exact hQ

/-- The end of `publish ()`, when the new root is in place. -/
theorem wp_published (hdir : w.fs.IsDir tx.dir) (hroot : w.fs.get tx.root ≠ none) :
    wp (sem K) (Publishes tx)
      (do
        syncDir tx.parent
        syncDir tx.dir
        let _ ← removeTree (limitDepth + 1) tx.dir
        pure ())
      (fun _ _ w' => ∀ q, w'.fs.get (tx.root ++ q) = w.fs.get (tx.root ++ q))
      (fun _ g' w' => Undoable tx g' w') g w := by
  have hund : Undoable tx g w := ⟨hdir, fun _ => hroot⟩
  refine wp_bind.2 (wp_syncDir (fun _ => hund) ?_)
  refine wp_bind.2 (wp_syncDir (fun _ => hund) ?_)
  refine wp_bind.2 (wp.mono (sure_removeDir (isDir_parent_of_dir hdir) (.inl hroot))
    (fun _ _ h => .inl h) ?_ (fun _ _ _ h => h.elim))
  rintro _ g1 w1 ⟨hsh, -⟩
  exact fun q => hsh.outside _ (tx.dir_apart q)

theorem wp_publish (hdir : w.fs.IsDir tx.dir) (hroot : w.fs.IsDir tx.root)
    (hstage : w.fs.IsDir tx.stage) (horig : w.fs.get tx.original = none)
    (hpub : g.published = false) :
    wp (sem K) (Publishes tx) (publish tx)
      (fun _ _ w' => ∀ q, w'.fs.get (tx.root ++ q) = w.fs.get (tx.stage ++ q))
      (fun _ g' w' => Undoable tx g' w') g w := by
  have undoable : ∀ {v : World Part}, v.fs.IsDir tx.dir → Undoable tx g v :=
    fun h => ⟨h, fun hp => by simp [hpub] at hp⟩
  unfold publish
  refine wp_bind.2 (wp_syncDir (fun _ => undoable hdir) ?_)
  refine wp_bind.2 (wp_syncDir (fun _ => undoable hdir) ?_)
  refine wp_bind.2 (wp_call_sem (.inr (.inl ⟨rfl, hdir, hroot, hstage, horig⟩))
    (fun _ => undoable hdir) fun _ w1 hs => ?_)
  have hm := moved_aside hdir hroot horig hs
  have hdir1 : w1.fs.IsDir tx.dir := by
    simpa [Tx.original] using isDir_dropLast_of_moved hm tx.original_ne_nil
  have hstage1 : ∀ q, w1.fs.get (tx.stage ++ q) = w.fs.get (tx.stage ++ q) := by
    intro q
    have hr : ¬ tx.root <+: tx.stage ++ q := by
      rw [Tx.stage, List.append_assoc]
      exact tx.root_apart _
    rw [hm.get_elsewhere (tx.not_original_stage q), if_neg hr]
  have hroot1 : w1.fs.get tx.root = none := by
    have ho : ¬ tx.original <+: tx.root :=
      fun h => tx.not_dir_root ((List.prefix_append _ _).trans h)
    rw [hm.get_elsewhere ho, if_pos (List.prefix_refl _)]
  have hsd1 : w1.fs.IsDir tx.stage := by
    obtain ⟨m, hm⟩ := hstage
    exact ⟨m, by simpa [hm] using hstage1 []⟩
  refine wp_bind.2 (wp_syncDir (fun _ => undoable hdir1) ?_)
  refine wp_bind.2 (wp_syncDir (fun _ => undoable hdir1) ?_)
  refine wp_bind.2 (wp_call_sem (.inr (.inr ⟨rfl, hdir1, hsd1, hroot1⟩))
    (fun _ => undoable hdir1) fun _ w2 hs => ?_)
  have hm2 := moved_in hdir1 hsd1 hroot1 hs
  have hdir2 : w2.fs.IsDir tx.dir := by
    obtain ⟨m, hm⟩ := hdir1
    exact ⟨m, by rw [hm2.get_elsewhere tx.not_root_dir, if_neg tx.not_stage_dir, hm]⟩
  have hroot2 : w2.fs.get tx.root ≠ none := by
    have := hm2.get_target []
    rw [List.append_nil, List.append_nil] at this
    rw [this]
    exact hsd1.ne_none
  refine wp_bind.2 (wp_modify.2 ((wp_published hdir2 hroot2).post ?_ (fun _ _ _ => id)))
  intro _ g3 w3 h q
  rw [h q, hm2.get_target, hstage1]

end MiniDarwin.Installer
