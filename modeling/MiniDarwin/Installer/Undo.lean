import MiniDarwin.Installer.Published

/-!
The rollback of a live install.

When the component loop fails, the tree has been added to, and what was
added is known in the order it was made, with the name each path has in
the journal (`Ran`). Undoing the journal from its end meets every
directory after everything in it, so what is left are the work
directories, which are not in the journal, in a work area that
`remove_tree ()` takes away.
-/

namespace MiniDarwin.Installer

open Posix Effects Effects.Proc

variable {K : Kernel Part} {fs0 fs1 fs : Fs} {b B t T d D p q : Path}
  {Ok : Path → Prop} {Id : Name → Prop} {g g' : Globals} {w w' : World Part} {n : Name} {env : Env}
  {xs ys zs : List (Path × Option Path)}

/-- The calls of the rollback: of what changes the tree, only the removal of
paths that are not in `fs0`, and of directories with nothing in them. -/
def RollsBack (fs0 : Fs) : Op Part → World Part → Prop
  | .unlink p, v => ∃ c, locate v.fs p = .ok c ∧ fs0.get c = none
  | .rmdir p, v => ∃ c, locate v.fs p = .ok c ∧ fs0.get c = none ∧ ∀ n, v.fs.get (c ++ [n]) = none
  | .chmod p _, v => ∃ c, realPath v.fs p = .ok c ∧ fs0.get c = none
  | .enter _, _ => True
  | o, _ => o.quiet = true

theorem RollsBack.of_quiet {o : Op Part} (h : o.quiet = true) : RollsBack fs0 o w := by
  cases o <;> first | exact h | trivial

theorem RollsBack.of_removes {o : Op Part} (hP : fs0.get T = none) (h : Removes T o w) :
    RollsBack fs0 o w := by
  have hnone : ∀ {c}, T <+: c → fs0.get c = none := by
    rintro _ ⟨s, rfl⟩
    exact Fs.get_append_eq_none hP
  cases o with
  | unlink =>
      obtain ⟨c, hc, hp⟩ := h
      exact ⟨c, hc, hnone hp⟩
  | rmdir =>
      obtain ⟨c, hc, hp, hb⟩ := h
      exact ⟨c, hc, hnone hp, hb⟩
  | chmod =>
      obtain ⟨c, m, hc, hp, -⟩ := h
      exact ⟨c, hc, hnone hp⟩
  | enter => trivial
  | _ => exact h

/-! ### `journal_undo ()` -/

/-- What the loop has made of the tree `fs0`. -/
structure Journalled (fs0 fs1 : Fs) (b B t T : Path) (Ok : Path → Prop) (Id : Name → Prop)
    (xs : List (Path × Option Path)) : Prop where
  noted : ∀ x ∈ xs, Noted b B t T Ok Id x
  built : fs0.Built (xs.map Prod.fst) fs1
  root : At fs0 b B
  work : At fs0 t T
  ne_nil : ∀ q, Ok q → q ≠ []

/-- The part `zs` of the journal has been undone. -/
def Undone (zs : List (Path × Option Path)) (fs1 fs : Fs) : Prop :=
  ∀ p, (∃ n, (p, some n) ∈ zs) ∧ fs.get p = none ∨ (∀ n, (p, some n) ∉ zs) ∧ fs.get p = fs1.get p

theorem undone_nil : Undone [] fs1 fs1 := fun _ => .inr ⟨by simp, rfl⟩

theorem Undone.of_none (h : Undone zs fs1 fs) : Undone ((p, none) :: zs) fs1 fs := by
  intro q
  simpa using h q

theorem Undone.kept (h : Undone zs fs1 fs) (hj : Journalled fs0 fs1 b B t T Ok Id xs)
    (hsub : ∀ x ∈ zs, x ∈ xs) : fs0.Kept fs := by
  intro p hp
  rcases h p with ⟨⟨n, hn⟩, -⟩ | ⟨-, heq⟩
  · exact absurd (hj.built.fresh p (List.mem_map.2 ⟨_, hsub _ hn, rfl⟩)) hp
  · rw [heq, hj.built.kept p hp]

theorem Journalled.fresh (h : Journalled fs0 fs1 b B t T Ok Id xs) {x : Path × Option Path}
    (hx : x ∈ xs) : fs0.get x.1 = none := h.built.fresh _ (List.mem_map.2 ⟨x, hx, rfl⟩)

/-- In any tree between the two, a name in the journal leads to its path. -/
theorem Journalled.name (h : Journalled fs0 fs1 b B t T Ok Id xs) {c m : Path}
    (hx : (c, some m) ∈ xs) (hk : fs0.Kept fs) (hc : fs.get c ≠ none) :
    ∃ a A q, m = a ++ q ∧ c = A ++ q ∧ q ≠ [] ∧ At fs a A ∧ Clear fs A q := by
  cases h.noted _ hx with
  | root hq => exact ⟨b, B, _, rfl, rfl, h.ne_nil _ hq, h.root.kept hk, .of_ne_none hc⟩
  | work hid hq => exact ⟨t, T, _, rfl, rfl, by simp, h.work.kept hk, .of_ne_none hc⟩

/-- The last path of the journal that has not been undone is there, and nothing
is left beneath it. -/
theorem Journalled.last {c m : Path} (h : Journalled fs0 fs1 b B t T Ok Id (ys ++ (c, some m) :: zs))
    (hu : Undone zs fs1 fs) :
    fs.get c = fs1.get c ∧ fs.get c ≠ none ∧ ∀ k, fs.get (c ++ [k]) = none := by
  have hmem : (c, some m) ∈ ys ++ (c, some m) :: zs := by simp
  have horder := h.built.order
  simp only [List.map_append, List.map_cons, List.pairwise_append, List.pairwise_cons] at horder
  obtain ⟨-, ⟨hafter, -⟩, hbefore⟩ := horder
  have hfresh := h.fresh hmem
  have hthere : fs1.get c ≠ none :=
    (h.built.made c hfresh).2 (List.mem_map.2 ⟨_, hmem, rfl⟩)
  have hself : ∀ k, (c, some k) ∉ zs := fun k hk =>
    hafter c (List.mem_map.2 ⟨_, hk, rfl⟩) (List.prefix_refl c)
  have heq : fs.get c = fs1.get c := by
    rcases hu c with ⟨⟨k, hk⟩, -⟩ | ⟨-, heq⟩
    · exact absurd hk (hself k)
    · exact heq
  refine ⟨heq, by rwa [heq], fun k => ?_⟩
  by_contra hne
  -- a child that is still there was made later than its parent and is not in the journal
  rcases hu (c ++ [k]) with ⟨-, hnone⟩ | ⟨hnot, heq'⟩
  · exact hne hnone
  · have hck : fs0.get (c ++ [k]) = none := Fs.get_append_eq_none hfresh
    have hin := (h.built.made _ hck).1 (by rwa [← heq'])
    obtain ⟨x, hx, hx1⟩ := List.mem_map.1 hin
    rcases List.mem_append.1 hx with hx | hx
    · refine hbefore x.1 (List.mem_map.2 ⟨x, hx, rfl⟩) c (by simp) ?_
      rw [hx1]
      exact List.prefix_append _ _
    · rcases List.mem_cons.1 hx with rfl | hx
      · simp at hx1
      · have hnote := h.noted x (by simp [hx])
        cases hnote with
        | root hq => exact hnot _ (by rw [← hx1]; exact hx)
        | work hid hq => exact hnot _ (by rw [← hx1]; exact hx)
        | workdir hid hf =>
            obtain ⟨rfl, -⟩ := List.append_inj' hx1 rfl
            exact h.work.isDir.ne_none hfresh

theorem wp_undoOne {c m : Path} (h : Journalled fs0 fs1 b B t T Ok Id (ys ++ (c, some m) :: zs))
    (hu : Undone zs fs1 w.fs) (hcalm : Calm K w) :
    wp (sem K) (RollsBack fs0) (undoOne m)
      (fun _ g' w' => g' = g ∧ SameRun w w' ∧ Undone ((c, some m) :: zs) fs1 w'.fs)
      (fun _ _ _ => False) g w := by
  obtain ⟨heq, hne, hbare⟩ := h.last hu
  have hmem : (c, some m) ∈ ys ++ (c, some m) :: zs := by simp
  have hk : fs0.Kept w.fs := hu.kept h (by simp +contextual)
  have hfresh := h.fresh hmem
  obtain ⟨a, A, q, rfl, rfl, hq, hat, hclear⟩ := h.name hmem hk hne
  have hloc : locate w.fs (a ++ q) = .ok (A ++ q) :=
    (locate_clear hat hq hclear).resolve_right fun hn => hne hn.2
  -- whichever way it is removed
  have gone : ∀ w', Gone w (A ++ q) w' → Undone ((A ++ q, some (a ++ q)) :: zs) fs1 w'.fs := by
    intro w' hg p
    rw [hg.get]
    by_cases hp : p = A ++ q
    · subst hp
      exact .inl ⟨⟨a ++ q, by simp⟩, by simp⟩
    · rw [if_neg hp]
      rcases hu p with ⟨⟨k, hk⟩, hn⟩ | ⟨hnot, heq⟩
      · exact .inl ⟨⟨k, by simp [hk]⟩, hn⟩
      · exact .inr ⟨fun k => by simp [hp, hnot k], heq⟩
  have hAq : A ++ q ≠ [] := by simp [hq]
  unfold undoOne
  refine wp_bind.2 (wp_lstat hat hq hclear (RollsBack.of_quiet rfl) ?_ ?_ ?_)
  · intro v hv
    by_cases hd : v.isDir = true
    · have hkind : v.stat.kind = .dir := by cases v <;> simp_all [Node.stat, Node.isDir]
      simp only [hkind, if_true]
      have hdir : w.fs.IsDir (A ++ q) := by
        cases v with
        | dir m => exact ⟨m, hv⟩
        | _ => simp [Node.isDir] at hd
      refine wp_bind.2 (wp_ask.2 ⟨⟨_, hloc, hfresh, hbare⟩, fun r w' hs => ?_⟩)
      cases r with
      | error e =>
          obtain ⟨_, hrun⟩ := run_rmdir hloc hAq hdir hbare
          have := hrun.symm.trans (hcalm.run_error (by simp) hs)
          cases this
      | ok x =>
          obtain ⟨c, hc, -, hg⟩ := sem_rmdir hs
          rw [hloc] at hc
          cases hc
          exact ⟨rfl, hg.toSameRun, gone w' hg⟩
    · have hkind : v.stat.kind ≠ .dir := by cases v <;> simp_all [Node.stat, Node.isDir]
      simp only [hkind, if_false]
      refine wp_bind.2 (wp_ask.2 ⟨⟨_, hloc, hfresh⟩, fun r w' hs => ?_⟩)
      cases r with
      | error e =>
          obtain ⟨_, hrun⟩ := run_unlink hloc hAq hv (by simpa using hd)
          have := hrun.symm.trans (hcalm.run_error (by simp) hs)
          cases this
      | ok x =>
          obtain ⟨c, v', hc, -, -, hg⟩ := sem_unlink hs
          rw [hloc] at hc
          cases hc
          exact ⟨rfl, hg.toSameRun, gone w' hg⟩
  · exact fun hn => absurd hn hne
  · exact fun hf => absurd hf (hcalm _ _ (SameRun.refl w))

theorem wp_undo (h : Journalled fs0 fs1 b B t T Ok Id (ys ++ zs)) (hu : Undone zs fs1 w.fs)
    (hcalm : Calm K w) :
    wp (sem K) (RollsBack fs0) (each undoOne (ys.filterMap Prod.snd).reverse)
      (fun _ g' w' => g' = g ∧ SameRun w w' ∧ Undone (ys ++ zs) fs1 w'.fs)
      (fun _ _ _ => False) g w := by
  induction ys using List.reverseRecOn generalizing zs g w with
  | nil => exact ⟨rfl, SameRun.refl w, hu⟩
  | append_singleton ys y ih =>
      obtain ⟨c, name⟩ := y
      rw [List.append_assoc, List.singleton_append] at h ⊢
      cases name with
      | none =>
          rw [List.filterMap_append, List.filterMap_cons_none rfl, List.filterMap_nil,
            List.append_nil]
          exact ih h hu.of_none hcalm
      | some m =>
          have hrev : ((ys ++ [(c, some m)]).filterMap Prod.snd).reverse =
              m :: (ys.filterMap Prod.snd).reverse := by simp
          rw [hrev]
          refine wp_bind.2 ((wp_undoOne (g := g) h hu hcalm).post ?_ (fun _ _ _ => id))
          rintro _ g1 w1 ⟨rfl, hrun, hu1⟩
          refine (ih h hu1 (hcalm.same hrun)).post ?_ (fun _ _ _ => id)
          rintro _ g2 w2 ⟨rfl, hrun2, hu2⟩
          exact ⟨rfl, SameRun.trans hrun hrun2, hu2⟩

/-! ### `rollback_live ()` -/

/-- The work area: a new directory, reached from outside. -/
structure WorkArea (fs fs0 : Fs) (t T : Path) : Prop where
  name : ∃ d D n, t = d ++ [n] ∧ T = D ++ [n] ∧ At fs d D
  made : ∃ v, ∀ p, fs0.get p = if p = T then some v else fs.get p
  fresh : fs.get T = none

theorem WorkArea.kept (h : WorkArea fs fs0 t T) : fs.Kept fs0 := by
  obtain ⟨v, hv⟩ := h.made
  intro p hp
  have : p ≠ T := by rintro rfl; exact hp h.fresh
  rw [hv, if_neg this]

/-- When the journal has been undone, only work directories are left in the work
area. -/
theorem Undone.work {fs' : Fs} (hw : WorkArea fs fs0 t T) (hj : Journalled fs0 fs1 b B t T Ok Id xs)
    (hu : Undone xs fs1 fs') {r : Path} (hr : r ≠ []) (h : fs'.get (T ++ r) ≠ none) :
    ∃ id, r = [id] ∧ Fits t [id] := by
  obtain ⟨v, hv⟩ := hw.made
  have h0 : fs0.get (T ++ r) = none := by
    rw [hv, if_neg (by simpa using hr)]
    exact Fs.get_append_eq_none hw.fresh
  rcases hu (T ++ r) with ⟨-, hn⟩ | ⟨hnot, heq⟩
  · exact absurd hn h
  · obtain ⟨x, hx, hx1⟩ := List.mem_map.1 ((hj.built.made _ h0).1 (by rwa [← heq]))
    have hnote := hj.noted x hx
    cases hnote with
    | root hq => exact absurd hx (by rw [show B ++ _ = T ++ r from hx1]; exact hnot _)
    | work hid hq => exact absurd hx (by rw [show T ++ _ = T ++ r from hx1]; exact hnot _)
    | @workdir id hid hf => exact ⟨id, (List.append_cancel_left hx1).symm, hf⟩

/-- Elsewhere the tree is as it was. -/
theorem Undone.outside_work {fs' : Fs} (hw : WorkArea fs fs0 t T)
    (hj : Journalled fs0 fs1 b B t T Ok Id xs) (hu : Undone xs fs1 fs') (hp : ¬ T <+: p) :
    fs'.get p = fs.get p := by
  have hpT : p ≠ T := by rintro rfl; exact hp (List.prefix_refl _)
  obtain ⟨v, hv⟩ := hw.made
  have h0 : fs0.get p = fs.get p := by rw [hv, if_neg hpT]
  by_cases hf : fs.get p = none
  · rw [hf]
    rw [hf] at h0
    by_contra hne
    rcases hu p with ⟨-, hn⟩ | ⟨hnot, heq⟩
    · exact hne hn
    · obtain ⟨x, hx, hx1⟩ := List.mem_map.1 ((hj.built.made p h0).1 (by rwa [← heq]))
      have hnote := hj.noted x hx
      cases hnote with
      | root hq => exact hnot _ (by rw [← hx1]; exact hx)
      | work hid hq => exact hnot _ (by rw [← hx1]; exact hx)
      | workdir hid hf => exact hp (hx1 ▸ List.prefix_append _ _)
  · rw [hu.kept hj (fun _ => id) p (by rwa [h0]), h0]

theorem strlen_single (id : Name) : strlen [id] = id.1.length := rfl

theorem Undone.removable {fs' : Fs} (hw : WorkArea fs fs0 t T)
    (hj : Journalled fs0 fs1 b B t T Ok Id xs) (hu : Undone xs fs1 fs') :
    Removable fs' (limitDepth + 1) t T := by
  refine ⟨fun q hq => ?_, fun q n hq => ?_⟩
  · by_cases hnil : q = []
    · simp [hnil]
    · obtain ⟨id, rfl, -⟩ := hu.work hw hj hnil hq.ne_none
      simp [limitDepth]
  · obtain ⟨id, hid, hf⟩ := hu.work hw hj (by simp) hq
    obtain ⟨rfl, rfl⟩ : q = [] ∧ n = id := by
      cases q with
      | nil => simpa using hid
      | cons => simp at hid
    have hf' := hf.resolve_left (by simp)
    rw [strlen_single] at hf'
    simp only [List.append_nil]
    omega

/-- Whatever happens in the work area, it is found from where it was made. -/
theorem WorkArea.fixed (hw : WorkArea fs fs0 t T) (hk : fs0.Kept fs1) (hat : At fs d D) :
    Fixed fs1 T d D := by
  intro fs' ho
  refine hat.kept fun p hp => ?_
  have hnot : ¬ T <+: p := by
    rintro ⟨s, rfl⟩
    exact hp (Fs.get_append_eq_none hw.fresh)
  rw [ho p hnot, hk p (hw.kept.ne_none hp), hw.kept p hp]

theorem wp_rollbackLive (hw : WorkArea fs fs0 t T) (hj : Journalled fs0 fs1 b B t T Ok Id xs)
    (h1 : w.fs = fs1) (hjournal : g.journal = xs.filterMap Prod.snd) (hcalm : Calm K w) :
    wp (sem K) (RollsBack fs) (rollbackLive t) (fun _ _ w' => ∀ p, w'.fs.get p = fs.get p)
      (fun _ _ _ => False) g w := by
  unfold rollbackLive journalUndo
  have hstart : Undone [] fs1 w.fs := h1 ▸ undone_nil
  have hundo := wp_undo (g := g) (by simpa using hj) hstart hcalm
  rw [← hjournal] at hundo
  have hE : ∀ o v, RollsBack fs0 o v → RollsBack fs o v := by
    have hnone : ∀ {c}, fs0.get c = none → fs.get c = none := fun {c} hc => by
      by_contra hne
      exact hw.kept.ne_none hne hc
    intro o v ho
    cases o with
    | unlink =>
        obtain ⟨c, hc, hn⟩ := ho
        exact ⟨c, hc, hnone hn⟩
    | rmdir =>
        obtain ⟨c, hc, hn, hb⟩ := ho
        exact ⟨c, hc, hnone hn, hb⟩
    | chmod =>
        obtain ⟨c, hc, hn⟩ := ho
        exact ⟨c, hc, hnone hn⟩
    | _ => exact ho
  refine wp_bind.2 (wp_bind.2 (wp_get.2 (hundo.mono hE ?_ (fun _ _ _ => id))))
  rintro _ g1 w1 ⟨rfl, hrun, hu⟩
  rw [List.append_nil] at hu
  -- the tree that is left contains all of the old one
  have hk1 : fs0.Kept w1.fs := hu.kept hj fun _ => id
  obtain ⟨d, D, n, rfl, rfl, hat⟩ := hw.name
  have hfix : Fixed w1.fs (D ++ [n]) d D := hw.fixed hk1 hat
  refine wp_bind.2 (wp.mono (removeSpec (limitDepth + 1) d D n g1 w1 hfix)
    (fun _ _ => RollsBack.of_removes hw.fresh) ?_ (fun _ _ _ => id))
  rintro r g2 w2 ⟨hs, hgone, hiff⟩ p
  have hr : r = true := (hiff (hcalm.same hrun)).2 (hu.removable hw hj)
  by_cases hp : D ++ [n] <+: p
  · obtain ⟨s, rfl⟩ := hp
    rw [Fs.get_append_eq_none (hgone hr), Fs.get_append_eq_none hw.fresh]
  · rw [hs.outside p hp, hu.outside_work hw hj hp]

/-! ### `install_live ()` -/

theorem wp_makeLiveTmp {E : Op Part → World Part → Prop} (hE : ∀ o, o.quiet = true → E o w)
    (hmk : ∀ d n, E (.mkdtemp d n) w) {dirs : List Path} :
    wp (sem K) E (makeLiveTmp dirs)
      (fun t g' w' => g' = g ∧ SameRun w w' ∧ ∃ T, WorkArea w.fs w'.fs t T ∧ w'.fs.IsDir T)
      (fun _ g' w' => g' = g ∧ w' = w) g w := by
  induction dirs with
  | nil => exact ⟨rfl, rfl⟩
  | cons d dirs ih =>
      unfold makeLiveTmp
      refine wp_bind.2 (wp_quiet rfl (hE _ rfl) fun r _ => ?_)
      cases r with
      | error e => exact ih
      | ok st =>
          simp only
          split
          · exact ih
          · refine wp_bind.2 (wp_hostJoin (fun _ => ?_) fun _ _ => ⟨rfl, rfl⟩)
            refine wp_bind.2 (wp_ask.2 ⟨hmk _ _, fun r w' hs => ?_⟩)
            cases r with
            | error e =>
                obtain rfl := sem_error hs
                exact ih
            | ok tmp =>
                obtain ⟨n, q, rfl, hq, hm⟩ := sem_mkdtemp hs
                rw [locate_concat] at hq
                split at hq
                · simp at hq
                · next D hD =>
                    obtain rfl := Except.ok.inj hq
                    exact ⟨rfl, hm.toSameRun, _, ⟨⟨d, D, n, rfl, rfl, hD⟩, ⟨_, hm.get⟩, hm.free⟩,
                      0o700, by simp [hm.get]⟩

theorem WorkArea.at (h : WorkArea fs fs0 t T) (hd : fs0.IsDir T) : At fs0 t T := by
  have hk := h.kept
  obtain ⟨d, D, n, rfl, rfl, hat⟩ := h.name
  exact (hat.kept hk).append hd

/-- The components leave a journal that undoes them. -/
theorem Ran.journalled (h : Ran b B t T Ok Id g w g' w') (hb : At w.fs b B) (ht : At w.fs t T)
    (hok : ∀ q, Ok q → q ≠ []) (hhook : g.createHook = true) (hj : g.journal = []) :
    ∃ xs, Journalled w.fs w'.fs b B t T Ok Id xs ∧ g'.journal = xs.filterMap Prod.snd := by
  obtain ⟨xs, hx, hbuilt, rfl⟩ := h
  exact ⟨xs, ⟨hx, hbuilt, hb, ht, hok⟩, by simp [hhook, hj]⟩

/-- Calls may fail, but not while an install is being undone. -/
def CalmDeath (K : Kernel Part) : Prop := ∀ o v, v.tag = .dying → ¬ K.flaky o v

theorem CalmDeath.calm (h : CalmDeath K) (hw : w.tag = .dying) : Calm K w :=
  fun o v hv => h o v (hv.tag.trans hw)

/-- The calls of a live install: while it is being undone, those of the rollback. -/
def LiveCalls (fs : Fs) (o : Op Part) (v : World Part) : Prop := v.tag = .dying → RollsBack fs o v

theorem LiveCalls.of_component {c : Component} {o : Op Part} (h : ComponentCalls b B t T c o w) :
    LiveCalls fs o w := by
  intro hd
  rcases h with ⟨x, rfl⟩ | h
  · trivial
  · rw [hd] at h
    exact h.elim

theorem RootPath.ne_nil {c : Component} (h : RootPath c q) : q ≠ [] := by
  rcases h with h | h
  · exact h.1
  · exact h.1

/-- The component loop with its rollback. -/
theorem wp_liveLoop {pkg : Package} (hK : CalmDeath K)
    (hcs : ∀ c ∈ pkg.components, Harmless K c) (hw : WorkArea fs w.fs t T) (hT : w.fs.IsDir T)
    (hb : At w.fs b B) (hlive : g.live = true) (hj : g.journal = []) :
    wp (sem K) (LiveCalls fs) (liveLoop env b pkg t)
      (fun _ _ w' => w.fs.Kept w'.fs) (fun _ _ w' => ∀ p, w'.fs.get p = fs.get p) g w := by
  unfold liveLoop
  have ht := hw.at hT
  refine wp_bind.2 (wp_modify.2 (wp_bind.2 (wp_onFail.2 ?_)))
  refine wp.mono (stays_components env pkg.components (fun _ _ => True)
    (g := { g with createHook := true }) (by simp [Hooked, hlive]) hcs hb ht
    (fun _ _ _ _ _ _ _ _ _ _ _ => trivial) trivial) ?_ ?_ ?_
  · rintro o v ⟨c, -, hc⟩
    exact .of_component hc
  · exact fun _ _ _ h => h.1.kept
  · -- the rollback
    intro _ g1 w1 hran
    obtain ⟨xs, hjour, hjl⟩ := hran.journalled hb ht
      (fun q hq => hq.elim fun _ hq' => hq'.2.ne_nil) rfl hj
    refine wp_bind.2 (wp_enter (fun _ => trivial) ?_)
    refine wp.mono (wp_rollbackLive (w := { w1 with tag := .dying, since := w1.fs }) hw hjour rfl hjl
      (hK.calm rfl)) (fun _ _ h _ => h) (fun _ _ _ h => h) (fun _ _ _ h => h.elim)

theorem wp_liveInstall {pkg : Package} (hK : CalmDeath K)
    (hcs : ∀ c ∈ pkg.components, Harmless K c) (hb : At w.fs b B) (hlive : g.live = true)
    (hj : g.journal = []) (htag : w.tag ≠ .dying) :
    wp (sem K) (LiveCalls w.fs) (liveInstall env b pkg)
      (fun _ _ _ => True) (fun _ _ w' => ∀ p, w'.fs.get p = w.fs.get p) g w := by
  unfold liveInstall
  refine wp_bind.2 ((wp_makeLiveTmp (g := g) (fun _ _ h => absurd h htag)
    (fun _ _ h => absurd h htag)).post ?_ ?_)
  · rintro t g1 w1 ⟨rfl, hrun, T, hw, hT⟩
    refine wp_bind.2 ((wp_liveLoop hK hcs hw hT (hb.kept hw.kept) hlive hj).post ?_ (fun _ _ _ => id))
    intro _ g2 w2 hk
    obtain ⟨d, D, n, rfl, rfl, hat⟩ := hw.name
    have hfix : Fixed w2.fs (D ++ [n]) d D := hw.fixed hk hat
    exact wp_bind.2 (wp.mono (removeSpec (limitDepth + 1) d D n g2 w2 hfix)
      (fun _ _ h _ => RollsBack.of_removes hw.fresh h) (fun _ _ _ _ => trivial)
      (fun _ _ _ h => h.elim))
  · rintro _ g1 w1 ⟨rfl, rfl⟩ p
    rfl

/-! ### Up to `preflight ()` -/

/-- A running root is where its name leads. -/
theorem wp_resolvedRoot {E : Op Part → World Part → Prop}
    {D : String → Globals → World Part → Prop} (hE : ∀ s, E (.realpath s) w) (hb : At w.fs b B) :
    wp (sem K) E (resolvedRoot b) (fun r g' w' => g' = g ∧ w' = w ∧ At w.fs r B) D g w := by
  unfold resolvedRoot
  refine wp_bind.2 (wp_quiet rfl (hE _) fun r hs => ?_)
  cases r with
  | error e => exact ⟨rfl, rfl, hb⟩
  | ok r =>
      refine ⟨rfl, rfl, ?_⟩
      have hsteps : steps ('/' :: render b) = b.map .down := by
        have := steps_append_slash [] (render b)
        simpa using this
      have hrun : (Op.realpath (τ := Part) ('/' :: render b)).run w = .ok (r, w) := hs
      have hd := hb
      unfold At realDir at hd
      simp only [Op.run, hsteps] at hrun
      split at hd
      · simp at hd
      · next x hops hx =>
          rw [hx] at hrun
          simp only [Except.map, Except.ok.injEq, Prod.mk.injEq, and_true] at hrun
          subst hrun
          split at hd
          · next hdir =>
              obtain rfl := Except.ok.inj hd
              exact at_self hdir
          · simp at hd

theorem wp_liveLock {E : Op Part → World Part → Prop} (hE : ∀ o v, E o v) (hb : At w.fs b B)
    (hhook : g.createHook = false) :
    wp (sem K) E (liveLock b)
      (fun _ g' w' => g' = g ∧ SameRun w w' ∧ w.fs.Kept w'.fs) (fun _ _ _ => True) g w := by
  unfold liveLock
  refine wp_bind.2 (wp_relJoin ?_ fun _ => trivial)
  refine wp_bind.2 (wp.mono (stays_pathParents ⟨hb, Fs.Kept.refl _⟩ fun _ _ _ _ => trivial) (fun o v _ => hE o v) ?_
    (fun _ _ _ _ => trivial))
  rintro _ g1 w1 ⟨hg, -⟩
  have hg1 : g1 = g := by
    obtain ⟨_, _, _, _, rfl⟩ := hg
    obtain ⟨live, pub, hook, jr, bd⟩ := g
    simp_all
  refine wp_bind.2 (wp_hostJoin (fun _ => ?_) fun _ _ => trivial)
  refine wp_call_sem (hE _ _) (fun _ => trivial) fun _ w2 hs => ?_
  rcases sem_lock hs with rfl | ⟨q, -, hm⟩
  · exact ⟨hg1, hg.run, hg.kept⟩
  · refine ⟨hg1, SameRun.trans hg.run hm.toSameRun, hg.kept.trans fun p hp => ?_⟩
    have : p ≠ q := by rintro rfl; exact hp hm.free
    rw [hm.get, if_neg this]

theorem wp_liveStart {E : Op Part → World Part → Prop} (hE : ∀ o v, E o v)
    {pkg : Except String Package} (hb : At w.fs b B) :
    wp (sem K) E (liveStart env b pkg)
      (fun x g' w' => At w'.fs x.1 B ∧ g'.live = true ∧ g'.journal = [] ∧ w'.tag = w.tag ∧
        ∃ p, pkg = .ok p ∧ p.PlacedAs env x.2)
      (fun _ _ _ => True) {} w := by
  unfold liveStart
  refine wp_bind.2 (wp_modify.2 (wp_bind.2 ((wp_resolvedRoot (fun _ => hE _ _) hb).post ?_
    fun _ _ _ => id)))
  rintro root _ _ ⟨rfl, rfl, hroot⟩
  split
  · trivial
  · cases pkg with
    | error msg => trivial
    | ok pkg =>
        refine wp_bind.2 ((wp_liveLock hE hroot rfl).post ?_ fun _ _ _ => id)
        rintro _ g1 w1 ⟨rfl, hrun, hk⟩
        refine wp_bind.2 (wp.mono (finds_preflight K _ w1)
          (fun o v _ => hE o v) ?_ (fun _ _ _ _ => trivial))
        rintro pkg' _ _ ⟨⟨rfl, rfl⟩, hp⟩
        exact ⟨hroot.kept hk, rfl, rfl, hrun.tag, pkg, rfl, hp⟩

/-- **Live rollback.** Let a live install that runs no scripts have passed
`preflight ()` and left the tree of `v`. However the rest of it goes, and
whichever of its calls fail before it gives up: if it gives up, the tree is
again exactly that of `v`; and on the way back nothing is removed that was
in the tree of `v`, and a directory only when nothing is in it. -/
theorem liveInstall_undone (K : Kernel Part) (env : Env) (requested B root : Path)
    (pkg pkg' : Package) (w v : World Part) (g : Globals) (hreq : At w.fs requested B)
    (htag : w.tag ≠ .dying) (hscripts : Scriptless env pkg)
    (hcalm : ∀ o v, v.tag = .dying → ¬ K.flaky o v)
    (hstart : Prog.Reach (sem K) (liveStart env requested (.ok pkg) {}) w
      (.ret (.ok (root, pkg'), g)) v) :
    (∀ msg g' v', Prog.Reach (sem K) (liveInstall env root pkg' g) v
        (.ret (.error msg, g')) v' → ∀ p, v'.fs.get p = v.fs.get p) ∧
    (∀ o k u, Prog.Reach (sem K) (liveInstall env root pkg' g) v (.call o k) u →
      u.tag = .dying →
        (∀ p, o = .unlink p → ∃ c, locate u.fs p = .ok c ∧ v.fs.get c = none) ∧
        (∀ p, o = .rmdir p → ∃ c, locate u.fs p = .ok c ∧ v.fs.get c = none ∧
          ∀ n, u.fs.get (c ++ [n]) = none)) := by
  have hspec := @wp_liveStart K requested B w env (fun _ _ => True) (fun _ _ => trivial)
    (.ok pkg) hreq
  obtain ⟨hroot, hlive, hj, htag', p, hp, hplaced⟩ := (Prog.spec_iff.1 hspec).2 _ _ hstart
  obtain rfl := Except.ok.inj hp
  have hcs : ∀ c ∈ pkg'.components, Harmless K c :=
    fun c hc => .inl (hplaced.no_hooks hscripts hc)
  obtain ⟨hcalls, hret⟩ := Prog.spec_iff.1
    (wp_liveInstall hcalm hcs hroot hlive hj (by rwa [htag']))
  refine ⟨fun msg g' v' hr => hret _ _ hr, fun o k u hr hd => ⟨?_, ?_⟩⟩
  · rintro p rfl
    exact hcalls _ _ _ hr hd
  · rintro p rfl
    exact hcalls _ _ _ hr hd

/-- A running root with `/tmp` and nothing else. -/
def runningRoot : World Part :=
  let fs := Fs.bare.create [tmpName] (.dir 0o777) (by decide) (by decide) (by decide)
  ⟨fs, .main, fs, []⟩

/-- `/p/f`, a file. -/
def fileComponent : Component where
  identifier := nm "c".toList
  location := []
  bom := []
  payload := [{ path := [packageName, nm "f".toList], mode := 0o644, content := .file [1] }]
  scripts := []
  hooks _ := none

/-- A machine on which no file can be created, until an install is being undone. -/
def Kernel.fullDisk : Kernel Part where
  flaky o w := (∃ p, o = .create p) ∧ w.tag ≠ .dying
  child fs fs' := fs' = fs
  idle _ := rfl

def fullDiskAnswer (o : Op Part) (w : World Part) : Except Errno o.Val × World Part :=
  match o with
  | .create p => if w.tag = .dying then (Op.create p).answer w else (.error .EDEVERR, w)
  | o => o.answer w

theorem sem_fullDiskAnswer (o : Op Part) (w : World Part) :
    sem Kernel.fullDisk o w (fullDiskAnswer o w).1 (fullDiskAnswer o w).2 := by
  unfold fullDiskAnswer
  split
  · split
    · exact sem_answer _ w
    · next p h => exact ⟨rfl, .inr ⟨rfl, ⟨p, rfl⟩, h⟩⟩
  · exact sem_answer _ w

/-- The running root when `preflight ()` has returned. -/
def startedRoot : World Part :=
  ((liveStart default [] (.ok ⟨[fileComponent]⟩) {}).exec fullDiskAnswer runningRoot).2

theorem reach_startedRoot :
    Prog.Reach (sem Kernel.fullDisk) (liveStart default [] (.ok ⟨[fileComponent]⟩) {}) runningRoot
      (.ret (.ok ([], ⟨[fileComponent]⟩), { live := true })) startedRoot := by
  have h := Prog.reach_exec sem_fullDiskAnswer (liveStart default [] (.ok ⟨[fileComponent]⟩) {})
    runningRoot
  have hx : ((liveStart default [] (.ok ⟨[fileComponent]⟩) {}).exec fullDiskAnswer runningRoot).1 =
      (.ok ([], ⟨[fileComponent]⟩), { live := true }) := by rfl
  rw [hx] at h
  exact h

/-- The directory `/p` is made, the file in it cannot be, and `/p` is removed. -/
@[irreducible] def failedRun : (Except String Unit × Globals) × World Part :=
  (liveInstall default [] ⟨[fileComponent]⟩ { live := true }).exec fullDiskAnswer startedRoot

theorem reach_failedRun :
    Prog.Reach (sem Kernel.fullDisk) (liveInstall default [] ⟨[fileComponent]⟩ { live := true })
      startedRoot (.ret failedRun.1) failedRun.2 := by
  unfold failedRun
  exact Prog.reach_exec sem_fullDiskAnswer _ _

theorem liveInstall_undone_fullDisk :
    failedRun.1.1 = .error "create /p/f: Device error" ∧
      ∀ p, failedRun.2.fs.get p = startedRoot.fs.get p := by
  have herr : failedRun.1.1 = .error "create /p/f: Device error" := by decide +kernel
  have hreach := reach_failedRun
  rw [show failedRun.1 = (failedRun.1.1, failedRun.1.2) from rfl, herr] at hreach
  have hscripts : Scriptless default ⟨[fileComponent]⟩ := .inr (by simp [fileComponent])
  have h := liveInstall_undone Kernel.fullDisk default [] [] [] ⟨[fileComponent]⟩ ⟨[fileComponent]⟩
    runningRoot startedRoot { live := true } (at_self Fs.isDir_nil) (by decide) hscripts
    (fun o v hv hf => hf.2 hv) reach_startedRoot
  exact ⟨herr, h.1 _ _ _ hreach⟩

end MiniDarwin.Installer
