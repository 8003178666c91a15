import MiniDarwin.Installer.Component

/-!
What `remove_tree ()` does.

Whatever fails on the way, nothing outside the tree to be removed changes,
a directory is only removed when nothing is left in it, and a status of 0
means that all of it is gone. When no call fails, the status is 0 exactly
if the tree is neither too deep nor reaches names too long for the buffer
the function builds them in.
-/

namespace MiniDarwin.Installer

open Posix Effects Effects.Proc

variable {K : Kernel Part} {g g' g'' : Globals} {w w' w'' : World Part}
  {d D p P q : Path} {n : Name} {left : Nat}

/-- The two trees differ at most beneath `P`. -/
def Outside (P : Path) (fs fs' : Fs) : Prop := ∀ q, ¬ P <+: q → fs'.get q = fs.get q

theorem Outside.refl {fs : Fs} : Outside P fs fs := fun _ _ => rfl

theorem Outside.trans {a b c : Fs} (h : Outside P a b) (h' : Outside P b c) : Outside P a c :=
  fun q hq => (h' q hq).trans (h q hq)

theorem Outside.mono {a b : Fs} (hp : P <+: q) (h : Outside q a b) : Outside P a b :=
  fun r hr => h r fun hq => hr (hp.trans hq)

/-- Beneath `P` nodes have gone and directories have changed their modes. -/
structure Shrunk (P : Path) (g : Globals) (w : World Part) (g' : Globals) (w' : World Part) :
    Prop where
  globals : g' = g
  run : SameRun w w'
  outside : Outside P w.fs w'.fs
  node : ∀ q, w'.fs.get q = none ∨ w'.fs.get q = w.fs.get q ∨ w.fs.IsDir q ∧ w'.fs.IsDir q

theorem Shrunk.refl : Shrunk P g w g w :=
  ⟨rfl, SameRun.refl w, .refl, fun _ => .inr (.inl rfl)⟩

theorem Shrunk.trans (h : Shrunk P g w g' w') (h' : Shrunk P g' w' g'' w'') :
    Shrunk P g w g'' w'' := by
  refine ⟨h'.globals.trans h.globals, SameRun.trans h.run h'.run, h.outside.trans h'.outside, ?_⟩
  intro q
  rcases h'.node q with h2 | h2 | ⟨h1, h2⟩
  · exact .inl h2
  · rw [h2]
    rcases h.node q with h3 | h3 | ⟨h3, h4⟩
    · exact .inl h3
    · exact .inr (.inl h3)
    · exact .inr (.inr ⟨h3, by obtain ⟨m, hm⟩ := h4; exact ⟨m, h2.trans hm⟩⟩)
  · rcases h.node q with h3 | h3 | ⟨h3, _⟩
    · exact absurd h3 h1.ne_none
    · exact .inr (.inr ⟨by obtain ⟨m, hm⟩ := h1; exact ⟨m, h3.symm.trans hm⟩, h2⟩)
    · exact .inr (.inr ⟨h3, h2⟩)

theorem Shrunk.mono (hp : P <+: q) (h : Shrunk q g w g' w') : Shrunk P g w g' w' :=
  { h with outside := h.outside.mono hp }

theorem Shrunk.of_gone (h : Gone w P w') : Shrunk P g w g w' := by
  refine ⟨rfl, h.toSameRun, ?_, fun q => ?_⟩
  · intro q hq
    have : q ≠ P := by rintro rfl; exact hq (List.prefix_refl _)
    rw [h.get, if_neg this]
  · rw [h.get]
    split
    · exact .inl rfl
    · exact .inr (.inl rfl)

theorem Shrunk.of_chmod {m m' : Mode} (hd : w.fs.get P = some (.dir m))
    (h : Altered w P (.dir m') w') : Shrunk P g w g w' := by
  refine ⟨rfl, h.toSameRun, ?_, fun q => ?_⟩
  · intro q hq
    have : q ≠ P := by rintro rfl; exact hq (List.prefix_refl _)
    rw [h.get, if_neg this]
  · by_cases hq : q = P
    · subst hq
      exact .inr (.inr ⟨⟨m, hd⟩, m', by rw [h.get, if_pos rfl]⟩)
    · exact .inr (.inl (by rw [h.get, if_neg hq]))

/-- The calls of `remove_tree ()`: of what changes the tree, only removals and
`chmod` beneath `P`, and of a directory only when nothing is left in it. -/
def Removes (P : Path) : Op Part → World Part → Prop
  | .unlink p, v => ∃ c, locate v.fs p = .ok c ∧ P <+: c
  | .rmdir p, v => ∃ c, locate v.fs p = .ok c ∧ P <+: c ∧ ∀ n, v.fs.get (c ++ [n]) = none
  | .chmod p m, v => ∃ c m0, realPath v.fs p = .ok c ∧ P <+: c ∧ v.fs.get c = some (.dir m0) ∧
      m = m0 ||| 0o700
  | o, _ => o.quiet = true

theorem Removes.of_quiet {o : Op Part} (h : o.quiet = true) : Removes P o w := by
  cases o <;> first | exact h | simp [Op.quiet] at h

theorem Removes.mono {o : Op Part} (hp : P <+: q) (h : Removes q o w) : Removes P o w := by
  cases o with
  | unlink =>
      obtain ⟨c, h1, h2⟩ := h
      exact ⟨c, h1, hp.trans h2⟩
  | rmdir =>
      obtain ⟨c, h1, h2, h3⟩ := h
      exact ⟨c, h1, hp.trans h2, h3⟩
  | chmod =>
      obtain ⟨c, m, h1, h2, h3⟩ := h
      exact ⟨c, m, h1, hp.trans h2, h3⟩
  | _ => exact h

/-- A call of `remove_tree ()` changes nothing outside. -/
theorem Removes.step {o : Op Part} {r : Except Errno o.Val} (h : Removes P o w)
    (hs : sem K o w r w') : Shrunk P g w g w' := by
  cases r with
  | error e =>
      obtain rfl := sem_error hs
      exact Shrunk.refl
  | ok x =>
      cases o with
      | unlink p =>
          obtain ⟨c, hc, hP⟩ := h
          obtain ⟨c', v, hc', -, -, hg⟩ := sem_unlink hs
          rw [hc] at hc'
          cases hc'
          exact (Shrunk.of_gone hg).mono hP
      | rmdir p =>
          obtain ⟨c, hc, hP, -⟩ := h
          obtain ⟨c', hc', -, hg⟩ := sem_rmdir hs
          rw [hc] at hc'
          cases hc'
          exact (Shrunk.of_gone hg).mono hP
      | chmod p m =>
          obtain ⟨c, m0, hc, hP, hd, -⟩ := h
          obtain ⟨c', u, hc', hu, ha⟩ := sem_chmod hs
          rw [hc] at hc'
          cases hc'
          rw [hd] at hu
          cases hu
          exact (Shrunk.of_chmod hd ha).mono hP
      | _ =>
          obtain rfl := sem_quiet h hs
          exact Shrunk.refl

/-! ### Calls that do not fail by themselves -/

/-- No call fails for reasons of its own. -/
def Calm (K : Kernel Part) (w : World Part) : Prop :=
  ∀ o v, SameRun w v → ¬ K.flaky o v

theorem calm_steady (w : World Part) : Calm Kernel.steady w := fun _ _ _ => id

theorem Calm.same (h : Calm K w) (hr : SameRun w w') : Calm K w' :=
  fun o v hv => h o v (SameRun.trans hr hv)

theorem Calm.run_error {o : Op Part} {e : Errno} (h : Calm K w)
    (ho : ∀ a b, o ≠ .clonefile a b) (hs : sem K o w (.error e) w') : o.run w = .error e := by
  obtain ⟨-, hrun | href⟩ := hs
  · exact hrun
  · have hf := h o w (SameRun.refl w)
    cases o with
    | enter => exact href.elim
    | clonefile a b => exact absurd rfl (ho a b)
    | _ => exact absurd href.2 hf

theorem delete_bare (hne : P ≠ []) (hbare : ∀ n, w.fs.get (P ++ [n]) = none) :
    ∃ w', w.delete P = .ok w' := ⟨_, dif_pos ⟨hne, Fs.children_eq_nil.2 hbare⟩⟩

theorem run_unlink {v : Node} (hl : locate w.fs p = .ok P) (hne : P ≠ [])
    (hv : w.fs.get P = some v) (hd : v.isDir = false) :
    ∃ w', (Op.unlink (τ := Part) p).run w = .ok ((), w') := by
  have hbare : ∀ n, w.fs.get (P ++ [n]) = none := by
    intro n
    by_contra hn
    obtain ⟨m, hm⟩ := w.fs.parent P n hn
    rw [hv] at hm
    cases hm
    simp [Node.isDir] at hd
  obtain ⟨w', hw'⟩ := delete_bare hne hbare
  refine ⟨w', ?_⟩
  cases v with
  | dir m => simp [Node.isDir] at hd
  | _ => simp only [Op.run, hl, Except.bind, hv, hw', Except.map]

theorem run_rmdir (hl : locate w.fs p = .ok P) (hne : P ≠ []) (hd : w.fs.IsDir P)
    (hbare : ∀ n, w.fs.get (P ++ [n]) = none) :
    ∃ w', (Op.rmdir (τ := Part) p).run w = .ok ((), w') := by
  obtain ⟨m, hm⟩ := hd
  obtain ⟨w', hw'⟩ := delete_bare hne hbare
  exact ⟨w', by simp only [Op.run, hl, Except.bind, hm, hw', Except.map]⟩

theorem run_chmod {m m' : Mode} (hl : realPath w.fs p = .ok P) (hd : w.fs.get P = some (.dir m)) :
    ∃ w', (Op.chmod (τ := Part) p m').run w = .ok ((), w') := by
  have halter : ∃ w', w.alter P (.dir m') = .ok w' := ⟨_, dif_pos (by simp [hd, Node.isDir])⟩
  obtain ⟨w', hw'⟩ := halter
  exact ⟨w', by simp only [Op.run, hl, Except.bind, hd, Node.chmod, hw', Except.map]⟩

/-! ### `remove_tree ()` -/

/-- What a calm `remove_tree ()` can remove: directories to the depth it allows,
names that fit. -/
structure Removable (fs : Fs) (left : Nat) (p P : Path) : Prop where
  depth : ∀ q, fs.IsDir (P ++ q) → q.length < left
  fits : ∀ q n, fs.get (P ++ (q ++ [n])) ≠ none → hostLen (p ++ q) + 1 + n.1.length < pathMax

/-- Whatever happens beneath `P`, the directory `D` is found under the name `d`. -/
def Fixed (fs : Fs) (P d D : Path) : Prop := ∀ fs', Outside P fs fs' → At fs' d D

theorem Fixed.at {fs : Fs} (h : Fixed fs P d D) : At fs d D := h fs .refl

theorem Fixed.outside {fs fs' : Fs} (h : Fixed fs P d D) (ho : Outside P fs fs') :
    Fixed fs' P d D := fun _ h' => h _ (ho.trans h')

theorem Fixed.mono {fs : Fs} (hp : P <+: q) (h : Fixed fs P d D) : Fixed fs q d D :=
  fun _ h' => h _ (h'.mono hp)

theorem Fixed.child {fs : Fs} {m : Name} (h : Fixed fs (D ++ [n]) d D) (hd : fs.IsDir (D ++ [n])) :
    Fixed fs (D ++ [n] ++ [m]) (d ++ [n]) (D ++ [n]) := by
  intro fs' ho
  refine (h fs' (ho.mono (List.prefix_append _ _))).append ?_
  obtain ⟨m', hm'⟩ := hd
  refine ⟨m', (ho _ fun hp => ?_).trans hm'⟩
  have := hp.length_le
  simp only [List.length_append, List.length_singleton] at this
  omega

theorem Fixed.locate {fs : Fs} (h : Fixed fs P d D) : locate fs (d ++ [n]) = .ok (D ++ [n]) := by
  rw [locate_concat, h.at]

/-- The outcome of removing `D ++ [n]`. -/
def Removed (K : Kernel Part) (left : Nat) (p P : Path) (w : World Part)
    (r : Bool) (_ : Globals) (w' : World Part) : Prop :=
  (r = true → w'.fs.get P = none) ∧ (Calm K w → (r = true ↔ Removable w.fs left p P))

theorem removable_of_none {fs : Fs} (h : fs.get P = none) : Removable fs left p P :=
  ⟨fun _ hq => absurd (Fs.get_append_eq_none h) hq.ne_none,
    fun _ _ hq => absurd (Fs.get_append_eq_none h) hq⟩

theorem removable_of_not_dir {fs : Fs} (h : ¬ fs.IsDir P) : Removable fs left p P := by
  refine ⟨fun q hq => ?_, fun q n hq => ?_⟩
  · by_cases hnil : q = []
    · exact absurd (by simpa [hnil] using hq) h
    · exact absurd (Fs.isDir_of_append hq.ne_none hnil) h
  · exact absurd (Fs.isDir_of_append hq (by simp)) h

theorem sure_removeNode {removeDir : Path → Stat → M Bool} (hfix : Fixed w.fs (D ++ [n]) d D)
    (hdir : ∀ m, w.fs.get (D ++ [n]) = some (.dir m) →
      Sure (sem K) (Removes (D ++ [n])) (Shrunk (D ++ [n]))
        (removeDir (d ++ [n]) (Node.dir m).stat)
        (Removed K left (d ++ [n]) (D ++ [n]) w) g w) :
    Sure (sem K) (Removes (D ++ [n])) (Shrunk (D ++ [n])) (removeNode removeDir (d ++ [n]))
      (Removed K left (d ++ [n]) (D ++ [n]) w) g w := by
  unfold removeNode
  have hDdir : w.fs.IsDir (D ++ []) := by simpa using hfix.at.isDir
  refine wp_bind.2 (wp_lstat hfix.at (by simp) (.of_isDir hDdir) (Removes.of_quiet rfl) ?_ ?_ ?_)
  · intro v hv
    by_cases hd : v.isDir = true
    · cases v with
      | dir m => exact hdir m hv
      | _ => simp [Node.isDir] at hd
    · -- anything but a directory is unlinked
      have hk : v.stat.kind ≠ .dir := by cases v <;> simp_all [Node.stat, Node.isDir]
      simp only [hk, ne_eq, not_false_eq_true, if_true]
      have hnd : ¬ w.fs.IsDir (D ++ [n]) := by
        rintro ⟨m, hm⟩
        rw [hv] at hm
        cases hm
        simp [Node.isDir] at hd
      refine wp_bind.2 (wp_ask.2 ⟨⟨_, hfix.locate, List.prefix_refl _⟩, fun r w' hs => ?_⟩)
      have hE : Removes (D ++ [n]) (.unlink (d ++ [n])) w :=
        ⟨_, hfix.locate, List.prefix_refl _⟩
      cases r with
      | ok x =>
          obtain ⟨c, u, hc, -, -, hg⟩ := sem_unlink hs
          rw [hfix.locate] at hc
          cases hc
          refine ⟨hE.step hs, fun _ => ?_, fun _ => ?_⟩
          · rw [hg.get, if_pos rfl]
          · exact ⟨fun _ => removable_of_not_dir hnd, fun _ => rfl⟩
      | error e =>
          refine ⟨hE.step hs, by simp, fun hcalm => ?_⟩
          obtain ⟨_, hrun⟩ := run_unlink hfix.locate (by simp) hv (by simpa using hd)
          have := hcalm.run_error (by simp) hs
          rw [hrun] at this
          cases this
  · intro hnone
    refine ⟨Shrunk.refl, fun _ => hnone, fun _ => ?_⟩
    exact ⟨fun _ => removable_of_none hnone, fun _ => by simp⟩
  · intro hf
    exact ⟨Shrunk.refl, by simp, fun hcalm => absurd hf (hcalm _ _ (SameRun.refl w))⟩

/-- Which children of the directory can be removed. -/
def ChildrenRemovable (fs : Fs) (left : Nat) (p P : Path) (names : List Name) : Prop :=
  ∀ m ∈ names, hostLen p + 1 + m.1.length < pathMax ∧
    Removable fs left (p ++ [m]) (P ++ [m])

theorem Removable.congr {fs fs' : Fs} (h : Removable fs left p P)
    (heq : ∀ q, fs'.get (P ++ q) = fs.get (P ++ q)) : Removable fs' left p P := by
  refine ⟨fun q hq => h.depth q ?_, fun q n hq => h.fits q n ?_⟩
  · obtain ⟨m, hm⟩ := hq
    exact ⟨m, by rw [← heq, hm]⟩
  · rwa [← heq]

/-- A directory can be removed if there is a level for it and its children can. -/
theorem removable_dir_iff {fs : Fs} {names : List Name}
    (hnames : ∀ m, m ∈ names ↔ fs.get (P ++ [m]) ≠ none) :
    Removable fs (left + 1) p P ↔ ChildrenRemovable fs left p P names := by
  constructor
  · intro h m hm
    refine ⟨?_, ?_, ?_⟩
    · have := h.fits [] m (by simpa using (hnames m).1 hm)
      simpa using this
    · intro q hq
      have := h.depth (m :: q) (by simpa using hq)
      simpa using this
    · intro q n hq
      have := h.fits (m :: q) n (by simpa using hq)
      simpa using this
  · intro h
    refine ⟨fun q hq => ?_, fun q n hq => ?_⟩
    · cases q with
      | nil => simp
      | cons m q =>
          have hne : fs.get (P ++ [m]) ≠ none := by
            refine Fs.ne_none_of_append (q := q) ?_
            simpa using hq.ne_none
          have := (h m ((hnames m).2 hne)).2.depth q (by simpa using hq)
          simpa using this
    · cases q with
      | nil =>
          have := (h n ((hnames n).2 (by simpa using hq))).1
          simpa using this
      | cons m q =>
          have hne : fs.get (P ++ [m]) ≠ none := by
            refine Fs.ne_none_of_append (q := q ++ [n]) ?_
            simpa using hq
          have := (h m ((hnames m).2 hne)).2.fits q n (by simpa using hq)
          simpa using this

/-- The specification of `remove_tree ()` with `left` levels. -/
def RemoveSpec (K : Kernel Part) (left : Nat) : Prop :=
  ∀ (d D : Path) (n : Name) (g : Globals) (w : World Part), Fixed w.fs (D ++ [n]) d D →
    Sure (sem K) (Removes (D ++ [n])) (Shrunk (D ++ [n])) (removeTree left (d ++ [n]))
      (Removed K left (d ++ [n]) (D ++ [n]) w) g w

/-- Removing one child leaves its siblings alone. -/
theorem Shrunk.sibling {m k : Name} (h : Shrunk (P ++ [m]) g w g' w') (hne : k ≠ m) (q : Path) :
    w'.fs.get (P ++ [k] ++ q) = w.fs.get (P ++ [k] ++ q) := by
  refine h.outside _ fun hp => ?_
  rw [List.append_assoc, List.prefix_append_right_inj] at hp
  simp only [List.singleton_append, List.cons_prefix_cons] at hp
  exact hne hp.1.symm

theorem Shrunk.self {m : Name} (h : Shrunk (P ++ [m]) g w g' w') : w'.fs.get P = w.fs.get P := by
  refine h.outside _ fun hp => ?_
  have := hp.length_le
  simp only [List.length_append, List.length_singleton] at this
  omega

theorem sure_removeEach (ih : RemoveSpec K left) {names : List Name} (hnd : names.Nodup)
    (hfix : Fixed w.fs (D ++ [n]) d D) (hd : w.fs.IsDir (D ++ [n])) :
    Sure (sem K) (Removes (D ++ [n])) (Shrunk (D ++ [n]))
      (removeEach (removeTree left) (d ++ [n]) names)
      (fun r _ w' => w'.fs.get (D ++ [n]) = w.fs.get (D ++ [n]) ∧
        (∀ k, k ∉ names → w'.fs.get (D ++ [n] ++ [k]) = w.fs.get (D ++ [n] ++ [k])) ∧
        (r = true → ∀ k ∈ names, w'.fs.get (D ++ [n] ++ [k]) = none) ∧
        (Calm K w → (r = true ↔ ChildrenRemovable w.fs left (d ++ [n]) (D ++ [n]) names)))
      g w := by
  induction names generalizing g w with
  | nil => exact ⟨Shrunk.refl, rfl, by simp, by simp, fun _ => by simp [ChildrenRemovable]⟩
  | cons m names ih' =>
      obtain ⟨hm, hnd'⟩ := List.nodup_cons.1 hnd
      unfold removeEach
      -- one child
      have child : Sure (sem K) (Removes (D ++ [n])) (Shrunk (D ++ [n]))
          (removeChild (removeTree left) (d ++ [n]) m)
          (fun r g' w' => Shrunk (D ++ [n] ++ [m]) g w g' w' ∧
            (r = true → w'.fs.get (D ++ [n] ++ [m]) = none) ∧
            (Calm K w → (r = true ↔ hostLen (d ++ [n]) + 1 + m.1.length < pathMax ∧
              Removable w.fs left (d ++ [n] ++ [m]) (D ++ [n] ++ [m])))) g w := by
        unfold removeChild
        split
        · next hlen =>
            refine ⟨Shrunk.refl, Shrunk.refl, by simp, fun _ => ?_⟩
            simp only [Bool.false_eq_true, false_iff, not_and]
            intro h
            omega
        · next hlen =>
            have hp : D ++ [n] <+: D ++ [n] ++ [m] := List.prefix_append _ _
            refine wp.mono (ih _ _ m g w (hfix.child hd)) (fun _ _ => Removes.mono hp) ?_ ?_
            · rintro r g' w' ⟨hs, hgone, hcalm⟩
              refine ⟨hs.mono hp, hs, hgone, fun hc => (hcalm hc).trans ?_⟩
              constructor
              · exact fun h => ⟨by omega, h⟩
              · exact fun h => h.2
            · exact fun _ _ _ => id
      refine child.bind Shrunk.trans fun r g1 w1 hs ⟨hs1, hgone1, hcalm1⟩ => ?_
      have hd1 : w1.fs.IsDir (D ++ [n]) := by
        obtain ⟨mm, hmm⟩ := hd
        exact ⟨mm, hs1.self.trans hmm⟩
      refine (ih' (g := g1) hnd' (hfix.outside hs.outside) hd1).bind Shrunk.trans
        fun r' g2 w2 _ ⟨hself, hother, hgone2, hcalm2⟩ => ?_
      refine ⟨Shrunk.refl, hself.trans hs1.self, ?_, ?_, ?_⟩
      · intro k hk
        simp only [List.mem_cons, not_or] at hk
        rw [hother k hk.2]
        simpa using hs1.sibling hk.1 []
      · intro hr k hk
        rw [Bool.and_eq_true] at hr
        rcases List.mem_cons.1 hk with rfl | hk
        · rw [hother k hm, hgone1 hr.1]
        · exact hgone2 hr.2 k hk
      · intro hc
        rw [Bool.and_eq_true, hcalm1 hc, hcalm2 (hc.same hs.run)]
        -- the other children are as they were before the first was removed
        have hsame : ∀ k ∈ names, ∀ q,
            w1.fs.get (D ++ [n] ++ [k] ++ q) = w.fs.get (D ++ [n] ++ [k] ++ q) := by
          intro k hk q
          exact hs1.sibling (by rintro rfl; exact hm hk) q
        simp only [ChildrenRemovable, List.mem_cons, forall_eq_or_imp]
        refine and_congr Iff.rfl (forall₂_congr fun k hk => and_congr Iff.rfl ⟨?_, ?_⟩)
        · exact fun h => h.congr fun q => (hsame k hk q).symm
        · exact fun h => h.congr (hsame k hk)

theorem removeSpec (left : Nat) : RemoveSpec K left := by
  induction left with
  | zero =>
      intro d D n g w hfix
      refine sure_removeNode hfix fun m hm => ?_
      refine ⟨Shrunk.refl, by simp, fun _ => ?_⟩
      simp only [Bool.false_eq_true, false_iff]
      intro h
      have := h.depth [] ⟨m, by simpa using hm⟩
      simp at this
  | succ left ih =>
      intro d D n g w hfix
      refine sure_removeNode hfix fun m hm => ?_
      have hreal : realPath w.fs (d ++ [n]) = .ok (D ++ [n]) := realPath_append hfix.at ⟨m, hm⟩
      refine wp_bind.2 (wp_ask.2 ⟨⟨_, m, hreal, List.prefix_refl _, hm, rfl⟩, fun r w1 hs => ?_⟩)
      have hE : Removes (D ++ [n]) (.chmod (d ++ [n]) (m ||| 0o700)) w :=
        ⟨_, m, hreal, List.prefix_refl _, hm, rfl⟩
      have hsh : Shrunk (D ++ [n]) g w g w1 := hE.step hs
      cases r with
      | error e =>
          refine ⟨hsh, by simp, fun hcalm => ?_⟩
          obtain ⟨_, hrun⟩ := run_chmod hreal hm
          have := hrun.symm.trans (hcalm.run_error (by simp) hs)
          cases this
      | ok x =>
          obtain ⟨c, u, hc, hu, ha⟩ := sem_chmod hs
          rw [hreal] at hc
          cases hc
          rw [hm] at hu
          cases hu
          have hd1 : w1.fs.IsDir (D ++ [n]) := ⟨_, by rw [ha.get, if_pos rfl]; rfl⟩
          have hfix1 := hfix.outside hsh.outside
          have hkids : ∀ q, q ≠ [] → w1.fs.get (D ++ [n] ++ q) = w.fs.get (D ++ [n] ++ q) := by
            intro q hq
            rw [ha.get, if_neg (by simpa using hq)]
          refine wp_bind.2 (wp_quiet rfl (Removes.of_quiet rfl) fun r hs2 => ?_)
          cases r with
          | error e =>
              refine ⟨hsh, by simp, fun hcalm => ?_⟩
              have := (hcalm.same hsh.run).run_error (by simp) hs2
              simp [Op.run, realDir_append hfix1.at hd1, Except.map] at this
          | ok names =>
              obtain ⟨l, hl, hperm⟩ := hs2
              simp only [Op.run, realDir_append hfix1.at hd1, Except.map, Except.ok.injEq,
                Prod.mk.injEq, and_true] at hl
              subst hl
              have hmem : ∀ k, k ∈ names ↔ w.fs.get (D ++ [n] ++ [k]) ≠ none := by
                intro k
                rw [hperm.mem_iff, Fs.mem_children, hkids [k] (by simp)]
              refine wp_bind.2 (wp.post (sure_removeEach ih
                (hperm.nodup_iff.2 Fs.nodup_children) hfix1 hd1) ?_ (fun _ _ _ => id))
              rintro r g2 w2 ⟨hsh2, hself, hother, hgone, hcalm2⟩
              have hsh' := hsh.trans hsh2
              have hiff : Calm K w → (r = true ↔
                  Removable w.fs (left + 1) (d ++ [n]) (D ++ [n])) := by
                intro hc
                rw [hcalm2 (hc.same hsh.run), removable_dir_iff hmem]
                refine forall₂_congr fun k _ => and_congr Iff.rfl ⟨?_, ?_⟩
                · exact fun h => h.congr fun q => by
                    have := hkids ([k] ++ q) (by simp)
                    simpa using this.symm
                · exact fun h => h.congr fun q => by
                    have := hkids ([k] ++ q) (by simp)
                    simpa using this
              cases r with
              | false => exact ⟨hsh', by simp, fun hc => hiff hc⟩
              | true =>
                  have hfix2 := hfix1.outside hsh2.outside
                  have hd2 : w2.fs.IsDir (D ++ [n]) := by
                    obtain ⟨mm, hmm⟩ := hd1
                    exact ⟨mm, hself.trans hmm⟩
                  have hbare : ∀ k, w2.fs.get (D ++ [n] ++ [k]) = none := by
                    intro k
                    by_cases hk : k ∈ names
                    · exact hgone rfl k hk
                    · rw [hother k hk, hkids [k] (by simp)]
                      by_contra hne
                      exact hk ((hmem k).2 hne)
                  have hE2 : Removes (D ++ [n]) (.rmdir (d ++ [n])) w2 :=
                    ⟨_, hfix2.locate, List.prefix_refl _, hbare⟩
                  refine wp_bind.2 (wp_ask.2 ⟨hE2, fun r w3 hs3 => ?_⟩)
                  have hsh3 := hsh'.trans (hE2.step hs3)
                  cases r with
                  | error e =>
                      refine ⟨hsh3, by simp, fun hc => ?_⟩
                      obtain ⟨_, hrun⟩ := run_rmdir hfix2.locate (by simp) hd2 hbare
                      have := (hc.same hsh'.run).run_error (by simp) hs3
                      rw [hrun] at this
                      cases this
                  | ok y =>
                      obtain ⟨c, hc, -, hg⟩ := sem_rmdir hs3
                      rw [hfix2.locate] at hc
                      cases hc
                      exact ⟨hsh3, fun _ => by rw [hg.get, if_pos rfl], fun hc => hiff hc⟩

end MiniDarwin.Installer
