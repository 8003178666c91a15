import MiniDarwin.Installer.Removal

/-!
How the stage is filled: the root is copied, the components are installed
in the copy, their work area is removed, and the directories of the root
get back the modes they had.
-/

namespace MiniDarwin.Installer

open Posix Effects Effects.Proc

variable {K : Kernel Part} {E : Op Part → World Part → Prop} {fs0 : Fs}
  {D R S p q : Path} {Ok : Path → Prop} {g g' g'' : Globals} {w w' w'' : World Part} {env : Env}
  {mode : Mode}

/-! ### Copying -/

/-- A node as `stage_copy ()` copies it: a directory is writable until the end,
and a link target is read into a buffer. -/
def Node.staged : Node → Node
  | .dir m => .dir (m ||| 0o700)
  | .file m data => .file m data
  | .link t => .link (t.take (pathMax - 1))
  | .other => .other

/-- The tree at `S` is a copy of the one at `R`. -/
def Copied (fs : Fs) (R : Path) (fs' : Fs) (S : Path) : Prop :=
  ∀ q, fs'.get (S ++ q) = (fs.get (R ++ q)).map Node.staged

/-- The directories at `rel` and beneath it in the tree at `R`, with their modes. -/
def Bases (fs : Fs) (R rel : Path) (l : List (Path × Mode × Int)) : Prop :=
  ∀ p m, (∃ t, (p, m, t) ∈ l) ↔ rel <+: p ∧ fs.get (R ++ p) = some (.dir m)

/-- Those that lie in one of the children `names` of `rel`. -/
def ChildBases (fs : Fs) (R rel : Path) (names : List Name) (l : List (Path × Mode × Int)) : Prop :=
  ∀ p m, (∃ t, (p, m, t) ∈ l) ↔ (∃ n ∈ names, rel ++ [n] <+: p) ∧ fs.get (R ++ p) = some (.dir m)

/-- `Grew` for a function that also notes base directories. -/
def GrewBase (b B : Path) (Ok : Path → Prop) (g : Globals) (w : World Part) (g' : Globals)
    (w' : World Part) : Prop :=
  ∃ bd, Grew b B Ok { g with baseDirectories := bd } w g' w'

theorem Grew.base (h : Grew D D Ok g w g' w') : GrewBase D D Ok g w g' w' :=
  ⟨g.baseDirectories, h⟩

theorem GrewBase.refl : GrewBase D D Ok g w g w := Grew.refl.base

theorem GrewBase.trans (h : GrewBase D D Ok g w g' w') (h' : GrewBase D D Ok g' w' g'' w'') :
    GrewBase D D Ok g w g'' w'' := by
  obtain ⟨bd, qs, h1, h2, h3, rfl⟩ := h
  obtain ⟨bd', qs', h1', h2', h3', rfl⟩ := h'
  have hw : Grew D D Ok { g with baseDirectories := bd' } w
      { g with baseDirectories := bd',
               journal := g.journal ++ if g.createHook then qs.map (D ++ ·) else [] } w' :=
    ⟨qs, h1, h2, h3, rfl⟩
  exact ⟨bd', hw.trans ⟨qs', h1', h2', h3', rfl⟩⟩

theorem GrewBase.of_made {v : Node} (hok : Ok q) (hh : g.createHook = false)
    (hm : Made w (D ++ q) v w') : GrewBase D D Ok g w g w' := by
  have h := Grew.of_made (b := D) (g := g) hok hm
  rw [Globals.hooked, hh] at h
  exact h.base

theorem GrewBase.kept (h : GrewBase D D Ok g w g' w') : w.fs.Kept w'.fs := by
  obtain ⟨_, h⟩ := h
  exact h.kept

theorem GrewBase.run (h : GrewBase D D Ok g w g' w') : SameRun w w' := by
  obtain ⟨_, h⟩ := h
  exact h.run

theorem GrewBase.hooked (h : GrewBase D D Ok g w g' w') (hh : Hooked g) : Hooked g' := by
  obtain ⟨_, h⟩ := h
  exact h.hooked hh

theorem GrewBase.rework {S : Path → Prop} (h : GrewBase D D Ok g w g' w')
    (hS : ∀ p, S p → w.fs.get p = none) (h' : Reworked S g' w' g'' w'') :
    GrewBase D D Ok g w g'' w'' := by
  obtain ⟨bd, h⟩ := h
  exact ⟨bd, h.rework hS h'⟩

theorem GrewBase.made (h : GrewBase D D Ok g w g' w') (hw : w.fs.get (D ++ p) = none)
    (hw' : w'.fs.get (D ++ p) ≠ none) : Ok p := by
  obtain ⟨_, h⟩ := h
  exact h.made hw hw'

/-- Elsewhere than beneath `D` nothing has changed. -/
theorem GrewBase.outside (h : GrewBase D D Ok g w g' w') : Outside D w.fs w'.fs := by
  obtain ⟨_, qs, -, hb, -, -⟩ := h
  intro p hp
  by_cases hn : w.fs.get p = none
  · by_contra hne
    rw [hn] at hne
    obtain ⟨q, -, rfl⟩ := List.mem_map.1 ((hb.made p hn).1 hne)
    exact hp (List.prefix_append _ _)
  · exact hb.kept p hn

/-- `file_copy ()` of a file that is not in the way. -/
theorem stays_fileCopy {src : Path} {m : Mode} {data : Bytes} (hr : Ready fs0 D D w)
    (h : Beneath w D D Ok (D ++ q) q) (hsrc : w.fs.get src = some (.file m data))
    (hloc : ∀ fs', w.fs.Kept fs' → locate fs' src = .ok src) :
    Stays (sem K) (Grows fs0 D D Ok) (Grew D D Ok) (fileCopy src (D ++ q) mode)
      (fun _ _ w' => w'.fs.get (D ++ q) = some (.file mode data)) g w := by
  unfold fileCopy fileCreate
  refine stays_call rfl Grew.refl (Grows.of_quiet rfl) fun _ _ => ?_
  refine wp_bind.2 (wp.post (stays_make (o := .create (D ++ q)) rfl h
    fun _ _ _ => wp_createHook) ?_ (fun _ _ _ => id))
  rintro _ g1 w1 ⟨hg, hm⟩
  have hn : w.fs.get (D ++ q) = none := hm.free
  have hr1 := hr.grew hg
  have hfill : Filling w.fs w1 D D Ok q 0o600 [] :=
    ⟨⟨rfl, h.ne_nil, hr1.base, hg.kept.isDir h.inDir, h.ok⟩, hn, by simp [hm.get]⟩
  have hE : ∀ o v, Grows w.fs D D Ok o v → Grows fs0 D D Ok o v :=
    fun _ _ => Grows.mono hr.kept fun _ => id
  refine wp.mono ?_ hE (fun _ _ _ => id) (fun _ _ _ => id)
  refine wp_bind.2 (wp_call.2 (wp_quiet rfl (Grows.of_quiet rfl) fun r hs => ?_))
  cases r with
  | error e => exact hg
  | ok bytes =>
      -- what is read is what was there when the copy began
      have hread : (Op.read (τ := Part) src).run w1 = .ok (bytes, w1) := hs
      have hkeep : w1.fs.get src = some (.file m data) := by
        rw [hg.kept src (by simp [hsrc]), hsrc]
      simp only [Op.run, hloc w1.fs hg.kept, Except.bind, hkeep, Except.ok.injEq, Prod.mk.injEq,
        and_true] at hread
      subst hread
      refine wp_bind.2 ((hg.fill hn (stays_writeRounds hr.base hg.kept hfill le_rfl)).post ?_
        (fun _ _ _ => id))
      rintro _ g2 w2 ⟨hg2, hk2, hfill2⟩
      refine (hg2.fill hn (stays_fileFinish hr.base hk2 hfill2)).post ?_ (fun _ _ _ => id)
      rintro _ g3 w3 ⟨hg3, hfill3⟩
      exact ⟨hg3, by simpa using hfill3.here⟩

theorem stays_cloneOrCopy {src : Path} {data : Bytes} {t : Timespec} (hr : Ready fs0 D D w)
    (h : Beneath w D D Ok (D ++ q) q) (hsrc : w.fs.get src = some (.file mode data))
    (hloc : ∀ fs', w.fs.Kept fs' → locate fs' src = .ok src) (hh : g.createHook = false) :
    Stays (sem K) (Grows fs0 D D Ok) (Grew D D Ok) (cloneOrCopy src (D ++ q) mode t)
      (fun _ _ w' => w'.fs.get (D ++ q) = some (.file mode data)) g w := by
  unfold cloneOrCopy
  refine wp_bind.2 (wp_ask.2 ⟨⟨q, h⟩, fun r w1 hs => ?_⟩)
  cases r with
  | ok x =>
      obtain ⟨p', q', m', data', hp', hf, hq', hm⟩ := sem_clonefile hs
      rw [hloc _ (Fs.Kept.refl _)] at hp'
      cases hp'
      rw [hsrc] at hf
      cases hf
      rw [h.locate] at hq'
      cases hq'
      have hg := Grew.of_made (b := D) (g := g) h.ok hm
      rw [Globals.hooked, hh] at hg
      exact ⟨hg, by simp [hm.get]⟩
  | error e =>
      obtain rfl := sem_error hs
      simp only
      split
      · exact Grew.refl
      · refine (stays_fileCopy hr h hsrc hloc).bind Grew.trans fun _ g2 w2 _ hf => ?_
        exact stays_setTimes Grew.refl (Grows.of_quiet rfl) hf

/-- What `stage_copy ()` owes, from the tree at `R` to the one beneath `D`. -/
def CopySpec (K : Kernel Part) (env : Env) (R D : Path) (left : Nat) : Prop :=
  ∀ (fs0 : Fs) (d rel : Path) (g : Globals) (w : World Part), d ≠ [] → Ready fs0 D D w →
    w.fs.IsDir (D ++ d.dropLast) → w.fs.get (R ++ rel) ≠ none → g.createHook = false →
    Stays (sem K) (Grows fs0 D D (d <+: ·)) (GrewBase D D (d <+: ·))
      (stageCopy env left (R ++ rel) (D ++ d) rel)
      (fun _ g' w' => Copied w.fs (R ++ rel) w'.fs (D ++ d) ∧
        ∃ l, g'.baseDirectories = g.baseDirectories ++ l ∧ Bases w.fs R rel l) g w

theorem GrewBase.createHook (h : GrewBase D D Ok g w g' w') (hh : g.createHook = false) :
    g'.createHook = false := by
  obtain ⟨_, _, _, _, _, rfl⟩ := h
  exact hh

theorem GrewBase.mono {Ok' : Path → Prop} (hok : ∀ q, Ok q → Ok' q)
    (h : GrewBase D D Ok g w g' w') : GrewBase D D Ok' g w g' w' := by
  obtain ⟨bd, h⟩ := h
  exact ⟨bd, h.mono hok⟩

/-- Where nothing may be made, nothing has changed. -/
theorem GrewBase.same (h : GrewBase D D Ok g w g' w') (hp : ¬ Ok p) :
    w'.fs.get (D ++ p) = w.fs.get (D ++ p) := by
  by_cases hn : w.fs.get (D ++ p) = none
  · by_contra hne
    rw [hn] at hne
    exact hp (h.made hn hne)
  · exact h.kept _ hn

theorem ready_grewBase (h : Ready fs0 D D w) (hg : GrewBase D D Ok g w g' w') :
    Ready fs0 D D w' := by
  obtain ⟨bd, hg⟩ := hg
  exact h.grew hg

theorem not_prefix_child {d : Path} {m n : Name} (h : m ≠ n) (q : Path) :
    ¬ d ++ [n] <+: d ++ [m] ++ q := by
  rw [List.append_assoc, List.prefix_append_right_inj]
  simp only [List.singleton_append, List.cons_prefix_cons, not_and]
  exact fun h' => absurd h'.symm h

theorem not_prefix_self {d : Path} {n : Name} : ¬ d ++ [n] <+: d := by
  intro h
  have := h.length_le
  simp only [List.length_append, List.length_singleton] at this
  omega

theorem stays_copyEach {left : Nat} {d rel : Path} (ih : CopySpec K env R D left)
    (hapart : ∀ q, ¬ D <+: R ++ q) {names : List Name} (hnd : names.Nodup) (hr : Ready fs0 D D w)
    (hd : w.fs.IsDir (D ++ d)) (hnames : ∀ n ∈ names, w.fs.get (R ++ rel ++ [n]) ≠ none)
    (hh : g.createHook = false) :
    Stays (sem K) (Grows fs0 D D (d <+: ·)) (GrewBase D D (d <+: ·))
      (copyEach (stageCopy env left) (R ++ rel) (D ++ d) rel names)
      (fun _ g' w' => w'.fs.get (D ++ d) = w.fs.get (D ++ d) ∧
        (∀ n ∉ names, ∀ q, w'.fs.get (D ++ d ++ [n] ++ q) = w.fs.get (D ++ d ++ [n] ++ q)) ∧
        (∀ n ∈ names, Copied w.fs (R ++ rel ++ [n]) w'.fs (D ++ d ++ [n])) ∧
        ∃ l, g'.baseDirectories = g.baseDirectories ++ l ∧ ChildBases w.fs R rel names l) g w := by
  induction names generalizing g w with
  | nil => exact ⟨GrewBase.refl, rfl, by simp, by simp, [], by simp, fun p m => by simp⟩
  | cons n names ih' =>
      obtain ⟨hn, hnd'⟩ := List.nodup_cons.1 hnd
      unfold copyEach
      refine stays_hostJoin GrewBase.refl fun _ => stays_hostJoin GrewBase.refl fun _ => ?_
      refine wp_bind.2 (wp_relJoin ?_ fun _ => GrewBase.refl)
      have hchild := ih fs0 (d ++ [n]) (rel ++ [n]) g w (by simp) hr (by simpa using hd)
        (by simpa using hnames n (by simp)) hh
      have hmono : ∀ q, d ++ [n] <+: q → d <+: q := fun q => (List.prefix_append _ _).trans
      rw [List.append_assoc, List.append_assoc]
      refine wp_bind.2 (wp.mono hchild (fun _ _ => Grows.mono (Fs.Kept.refl _) hmono) ?_
        (fun _ _ _ h => h.mono hmono))
      rintro _ g1 w1 ⟨hg1, hcopied, l1, hl1, hb1⟩
      -- the rest of the source and of the copy is as it was
      have hsrc : ∀ q, w1.fs.get (R ++ q) = w.fs.get (R ++ q) :=
        fun q => hg1.outside _ (hapart q)
      have hself : w1.fs.get (D ++ d) = w.fs.get (D ++ d) := hg1.same not_prefix_self
      have hother : ∀ k, k ≠ n → ∀ q,
          w1.fs.get (D ++ d ++ [k] ++ q) = w.fs.get (D ++ d ++ [k] ++ q) := by
        intro k hk q
        have := hg1.same (not_prefix_child hk q)
        simpa using this
      have hd1 : w1.fs.IsDir (D ++ d) := by
        obtain ⟨m, hm⟩ := hd
        exact ⟨m, hself.trans hm⟩
      refine wp.post (ih' hnd' (ready_grewBase hr hg1) hd1 ?_ (hg1.createHook hh)) ?_ ?_
      · intro k hk
        rw [List.append_assoc, hsrc, ← List.append_assoc]
        exact hnames k (by simp [hk])
      · rintro _ g2 w2 ⟨hg2, hself2, hother2, hcopied2, l2, hl2, hb2⟩
        refine ⟨(hg1.mono hmono).trans hg2, hself2.trans hself, ?_, ?_, l1 ++ l2, ?_, ?_⟩
        · intro k hk q
          simp only [List.mem_cons, not_or] at hk
          rw [hother2 k hk.2, hother k hk.1]
        · intro k hk q
          rcases List.mem_cons.1 hk with rfl | hk
          · rw [hother2 k hn]
            have := hcopied q
            simpa using this
          · have := hcopied2 k hk q
            rw [this]
            have := hsrc (rel ++ [k] ++ q)
            simp only [List.append_assoc] at this ⊢
            rw [this]
        · rw [hl2, hl1, List.append_assoc]
        · intro p m
          simp only [List.mem_append, exists_or, hb1 p m, hb2 p m, hsrc, List.mem_cons, exists_eq_or_imp]
          exact or_and_right.symm
      · exact fun _ _ _ h => (hg1.mono hmono).trans h

/-- A path under which something is found is where it says. -/
theorem locate_self {fs : Fs} (h : fs.get p ≠ none) (hp : p ≠ []) : locate fs p = .ok p :=
  (locate_clear (q := p) (at_self Fs.isDir_nil) hp (.of_ne_none (by simpa using h))).resolve_right
    fun hn => h hn.2

theorem wp_lstat_self {Q : Except Errno Stat → Globals → World Part → Prop} {v : Node}
    {C : String → Globals → World Part → Prop} (hv : w.fs.get p = some v) (hp : p ≠ [])
    (hE : E (.lstat p) w) (hok : Q (.ok v.stat) g w)
    (hio : K.flaky (.lstat p) w → Q (.error .EDEVERR) g w) :
    wp (sem K) E (ask (.lstat p)) Q C g w := by
  have hv' : w.fs.get ([] ++ p) = some v := hv
  refine wp_lstat (b := []) (at_self Fs.isDir_nil) hp (.of_ne_none (by simp [hv])) hE ?_ ?_ hio
  · intro u hu
    rw [hv'] at hu
    cases hu
    exact hok
  · intro hn
    rw [hv'] at hn
    cases hn

/-- Nothing lies beneath what is not a directory. -/
theorem copied_leaf {fs fs' : Fs} {v : Node} (hv : fs.get R = some v) (hd : v.isDir = false)
    (hS : fs'.get S = some (Node.staged v)) : Copied fs R fs' S := by
  have leaf : ∀ {t : Fs} {a : Path} {u : Node} {q : Path}, t.get a = some u → u.isDir = false →
      q ≠ [] → t.get (a ++ q) = none := by
    intro t a u q hu hud hq
    by_contra hne
    obtain ⟨m, hm⟩ := Fs.isDir_of_append hne hq
    rw [hu] at hm
    cases hm
    simp [Node.isDir] at hud
  intro q
  by_cases hq : q = []
  · simp [hq, hv, hS]
  · rw [leaf hv hd hq, leaf hS (by cases v <;> simp_all [Node.staged, Node.isDir]) hq]
    rfl

theorem bases_leaf {fs : Fs} {rel : Path} {v : Node} (hv : fs.get (R ++ rel) = some v)
    (hd : v.isDir = false) : Bases fs R rel [] := by
  intro p m
  simp only [List.not_mem_nil, exists_const, false_iff, not_and]
  rintro ⟨q, rfl⟩ hm
  rw [← List.append_assoc] at hm
  by_cases hq : q = []
  · rw [hq, List.append_nil, hv] at hm
    cases hm
    simp [Node.isDir] at hd
  · have hne : fs.get (R ++ rel ++ q) ≠ none := by
      rw [hm]
      simp
    obtain ⟨m', hm'⟩ := Fs.isDir_of_append hne hq
    rw [hv] at hm'
    cases hm'
    simp [Node.isDir] at hd

theorem bases_dir {fs : Fs} {rel : Path} {names : List Name} {m : Mode} {t : Int} {l : List (Path × Mode × Int)}
    (hm : fs.get (R ++ rel) = some (.dir m))
    (hnames : ∀ n, n ∈ names ↔ fs.get (R ++ rel ++ [n]) ≠ none)
    (h : ChildBases fs R rel names l) : Bases fs R rel ((rel, m, t) :: l) := by
  intro p m'
  simp only [List.mem_cons, Prod.mk.injEq, exists_or, h p m', exists_and_left, exists_eq, and_true]
  constructor
  · rintro (⟨rfl, rfl⟩ | ⟨⟨n, _, hp⟩, hd⟩)
    · exact ⟨List.prefix_refl _, hm⟩
    · exact ⟨(List.prefix_append _ _).trans hp, hd⟩
  · rintro ⟨⟨q, rfl⟩, hd⟩
    cases q with
    | nil =>
        rw [List.append_nil] at hd ⊢
        rw [hm] at hd
        cases hd
        exact .inl ⟨rfl, rfl⟩
    | cons n q =>
        refine .inr ⟨⟨n, (hnames n).2 ?_, ⟨q, by simp⟩⟩, hd⟩
        refine Fs.ne_none_of_append (q := q) ?_
        simpa using (show fs.get (R ++ (rel ++ n :: q)) ≠ none by simp [hd])

theorem stays_stageLink {d rel : Path} {t : Str} {mtime : Timespec} (hR : R ≠ [])
    (hbe : Beneath w D D (d <+: ·) (D ++ d) d) (hv : w.fs.get (R ++ rel) = some (.link t))
    (hh : g.createHook = false) :
    Stays (sem K) (Grows fs0 D D (d <+: ·)) (GrewBase D D (d <+: ·))
      (do
        let target ← readlink (R ++ rel)
        let _ ← call (.symlink target (D ++ d)) fun e =>
          s!"symlink {hostStr (D ++ d)}: {strerror e}"
        applyOwnership env (D ++ d)
        setTimes (D ++ d) mtime)
      (fun _ g' w' => Copied w.fs (R ++ rel) w'.fs (D ++ d) ∧
        ∃ l, g'.baseDirectories = g.baseDirectories ++ l ∧ Bases w.fs R rel l) g w := by
  have hread := @wp_readlink_host K g w [] t (Grows fs0 D D (d <+: ·)) [] (R ++ rel)
  refine wp_bind.2 (hread (at_self Fs.isDir_nil) (by simp [hR]) hv (Grows.of_quiet rfl) ?_
    fun _ _ => GrewBase.refl)
  refine wp_bind.2 (wp_call_sem (Grows.of_makes rfl hbe) (fun _ => GrewBase.refl) ?_)
  intro _ w1 hs
  obtain ⟨c, hc, hm⟩ := sem_makes (v := .link (t.take (pathMax - 1))) rfl hs
  rw [hbe.locate] at hc
  cases hc
  refine Stays.after GrewBase.trans (.of_made hbe.ok hh hm) ?_
  refine looks_applyOwnership.bind_stays (fun _ => Grows.of_quiet) GrewBase.refl fun _ => ?_
  refine looks_setTimes.stays (fun _ => Grows.of_quiet) GrewBase.refl fun _ => ⟨?_, [], ?_⟩
  · exact copied_leaf hv rfl (by simp [hm.get, Node.staged])
  · exact ⟨by simp, bases_leaf hv rfl⟩

theorem stays_stageFile {d rel : Path} {m : Mode} {data : Bytes} {mtime : Timespec} (hr : Ready fs0 D D w)
    (hbe : Beneath w D D (d <+: ·) (D ++ d) d) (hR : R ≠ [])
    (hv : w.fs.get (R ++ rel) = some (.file m data)) (hh : g.createHook = false) :
    Stays (sem K) (Grows fs0 D D (d <+: ·)) (GrewBase D D (d <+: ·))
      (do
        cloneOrCopy (R ++ rel) (D ++ d) m mtime
        applyOwnership env (D ++ d))
      (fun _ g' w' => Copied w.fs (R ++ rel) w'.fs (D ++ d) ∧
        ∃ l, g'.baseDirectories = g.baseDirectories ++ l ∧ Bases w.fs R rel l) g w := by
  have hloc : ∀ fs', w.fs.Kept fs' → locate fs' (R ++ rel) = .ok (R ++ rel) := by
    intro fs' hk
    exact locate_self (hk.ne_none (by simp [hv])) (by simp [hR])
  refine wp_bind.2 (wp.post (stays_cloneOrCopy hr hbe hv hloc hh) ?_ (fun _ _ _ h => h.base))
  rintro _ g1 w1 ⟨hg, hf⟩
  refine Stays.after GrewBase.trans hg.base ?_
  refine looks_applyOwnership.stays (fun _ => Grows.of_quiet) GrewBase.refl fun _ => ⟨?_, [], ?_⟩
  · exact copied_leaf hv rfl hf
  · refine ⟨?_, bases_leaf hv rfl⟩
    obtain ⟨_, _, _, _, rfl⟩ := hg
    simp

/-- A directory whose children have been copied. -/
theorem copied_dir {fs fs' : Fs} {names : List Name} {m : Mode} (hv : fs.get R = some (.dir m))
    (hS : fs'.get S = some (.dir (m ||| 0o700)))
    (hin : ∀ n ∈ names, Copied fs (R ++ [n]) fs' (S ++ [n]))
    (hout : ∀ n ∉ names, ∀ q, fs'.get (S ++ [n] ++ q) = none)
    (hnames : ∀ n, n ∈ names ↔ fs.get (R ++ [n]) ≠ none) : Copied fs R fs' S := by
  intro q
  cases q with
  | nil => simp [hv, hS, Node.staged]
  | cons n q =>
      by_cases hn : n ∈ names
      · have := hin n hn q
        simpa using this
      · have h1 := hout n hn q
        have h2 : fs.get (R ++ [n]) = none := by
          by_contra hne
          exact hn ((hnames n).2 hne)
        have h3 := Fs.get_append_eq_none (q := q) h2
        simp only [List.append_assoc, List.singleton_append] at h1 h3
        rw [h1, h3]
        rfl

theorem stays_stageDir {left : Nat} {d rel : Path} {m : Mode} {t : Int} (ih : CopySpec K env R D left)
    (hapart : ∀ q, ¬ D <+: R ++ q) (hr : Ready fs0 D D w)
    (hbe : Beneath w D D (d <+: ·) (D ++ d) d) (hv : w.fs.get (R ++ rel) = some (.dir m))
    (hh : g.createHook = false) :
    Stays (sem K) (Grows fs0 D D (d <+: ·)) (GrewBase D D (d <+: ·))
      (do
        let _ ← call (.mkdir (D ++ d) 0o700) fun e => s!"mkdir {hostStr (D ++ d)}: {strerror e}"
        let g ← get
        let bases ← entriesAppend g.baseDirectories (rel, m, t)
        modify fun g => { g with baseDirectories := bases }
        let names : List Name ←
          call (.listdir (R ++ rel)) fun e => s!"opendir {hostStr (R ++ rel)}: {strerror e}"
        copyEach (stageCopy env left) (R ++ rel) (D ++ d) rel names
        applyOwnership env (D ++ d)
        call (.chmod (D ++ d) (m ||| 0o700)) fun e => s!"chmod {hostStr (D ++ d)}: {strerror e}")
      (fun _ g' w' => Copied w.fs (R ++ rel) w'.fs (D ++ d) ∧
        ∃ l, g'.baseDirectories = g.baseDirectories ++ l ∧ Bases w.fs R rel l) g w := by
  refine wp_bind.2 (wp_call_sem (Grows.of_makes rfl hbe) (fun _ => GrewBase.refl) ?_)
  intro _ w1 hs
  obtain ⟨c, hc, hm⟩ := sem_makes (v := .dir 0o700) rfl hs
  rw [hbe.locate] at hc
  cases hc
  have hg1 : GrewBase D D (d <+: ·) g w g w1 := .of_made hbe.ok hh hm
  refine wp_bind.2 (wp_get.2 (wp_bind.2 ?_))
  unfold entriesAppend
  split
  · exact hg1
  refine wp_pure.2 (wp_bind.2 (wp_modify.2 ?_))
  -- the entry for this directory
  have hg2 : GrewBase D D (d <+: ·) g w
      { g with baseDirectories := g.baseDirectories ++ [(rel, m, t)] } w1 := by
    obtain ⟨bd, qs, h1, h2, h3, h4⟩ := hg1
    refine ⟨g.baseDirectories ++ [(rel, m, t)], qs, h1, h2, h3, ?_⟩
    simp [hh]
  have hsrc : ∀ q, w1.fs.get (R ++ q) = w.fs.get (R ++ q) := fun q => hg1.outside _ (hapart q)
  have hdir1 : w1.fs.IsDir (R ++ rel) := ⟨m, (hsrc rel).trans hv⟩
  have hd1 : w1.fs.IsDir (D ++ d) := ⟨0o700, by simp [hm.get]⟩
  have hr1 := ready_grewBase hr hg1
  refine wp_bind.2 (wp_call.2 (wp_quiet rfl (Grows.of_quiet rfl) fun r hs => ?_))
  cases r with
  | error e => exact hg2
  | ok names =>
      obtain ⟨l, hl, hperm⟩ := hs
      have hreal : realDir w1.fs (R ++ rel) = .ok (R ++ rel) := at_self hdir1
      simp only [Op.run, hreal, Except.map, Except.ok.injEq, Prod.mk.injEq, and_true] at hl
      subst hl
      have hnames : ∀ n, n ∈ names ↔ w1.fs.get (R ++ rel ++ [n]) ≠ none := by
        intro n
        rw [hperm.mem_iff, Fs.mem_children]
      refine wp_bind.2 (wp.post (stays_copyEach (g := { g with baseDirectories := _ }) ih hapart
        (hperm.nodup_iff.2 Fs.nodup_children) hr1 hd1 (fun n hn => (hnames n).1 hn) hh) ?_
        (fun _ _ _ h => hg2.trans h))
      rintro _ g3 w3 ⟨hg3, hself, hout, hin, l, hl, hb⟩
      have hg3' := hg2.trans hg3
      have hd3 : w3.fs.IsDir (D ++ d) := by
        obtain ⟨mm, hmm⟩ := hd1
        exact ⟨mm, hself.trans hmm⟩
      have hr3 := ready_grewBase hr1 hg3
      refine looks_applyOwnership.bind_wp (fun _ => Grows.of_quiet) (fun _ => hg3') fun _ => ?_
      have hbe3 : Beneath w3 D D (d <+: ·) (D ++ d) d :=
        ⟨rfl, hbe.ne_nil, hr3.base, hg3'.kept.isDir hbe.inDir, hbe.ok⟩
      have hfresh : fs0.get (D ++ d) = none := by
        by_contra hne
        exact hr.kept.ne_none hne hm.free
      refine wp_call_sem ⟨d, hbe3, hd3, hfresh⟩ (fun _ => hg3') fun _ w4 hs => ?_
      obtain ⟨c, u, hc, hu, ha⟩ := sem_chmod hs
      rw [realPath_append hr3.base hd3] at hc
      cases hc
      have hmode : w3.fs.get (D ++ d) = some (.dir 0o700) := by
        rw [hself, hm.get, if_pos rfl]
      rw [hmode] at hu
      cases hu
      have hrw : Reworked (· = D ++ d) g3 w3 g3 w4 := reworked_of_altered rfl ha
      have hnames0 : ∀ n, n ∈ names ↔ w.fs.get (R ++ rel ++ [n]) ≠ none := by
        intro n
        rw [hnames n, List.append_assoc, hsrc]
      refine ⟨hg3'.rework (by rintro _ rfl; exact hm.free) hrw, ?_, (rel, m, t) :: l, ?_, ?_⟩
      · -- the modes of the children are not touched again
        have hbelow : ∀ n q, w4.fs.get (D ++ d ++ [n] ++ q) = w3.fs.get (D ++ d ++ [n] ++ q) :=
          fun n q => hrw.same _ (by simp)
        refine copied_dir hv (by rw [ha.get, if_pos rfl]; rfl) (fun n hn q => ?_)
          (fun n hn q => ?_) hnames0
        · have hsame := hsrc (rel ++ [n] ++ q)
          simp only [← List.append_assoc] at hsame
          rw [hbelow, hin n hn q, hsame]
        · rw [hbelow, hout n hn q, hm.get, if_neg (by simp), List.append_assoc]
          exact Fs.get_append_eq_none hm.free
      · rw [hl]
        simp
      · exact bases_dir hv hnames0 fun p m' => by rw [hb p m', hsrc]

theorem copySpec (env : Env) (hR : R ≠ []) (hapart : ∀ q, ¬ D <+: R ++ q) (left : Nat) :
    CopySpec K env R D left := by
  induction left with
  | zero => exact fun _ _ _ _ _ _ _ _ _ _ => GrewBase.refl
  | succ left ih =>
      intro fs0 d rel g w hdne hr hd hsrc hh
      have hbe : Beneath w D D (d <+: ·) (D ++ d) d := ⟨rfl, hdne, hr.base, hd, List.prefix_refl _⟩
      obtain ⟨v, hv⟩ := Option.ne_none_iff_exists'.1 hsrc
      unfold stageCopy
      refine wp_bind.2 (wp_call.2 (wp_lstat_self hv (by simp [hR]) (Grows.of_quiet rfl) ?_
        fun _ => GrewBase.refl))
      refine stays_call rfl GrewBase.refl (Grows.of_quiet rfl) fun mtime _ => ?_
      cases v with
      | other => exact GrewBase.refl
      | link t => exact stays_stageLink hR hbe hv hh
      | file m data => exact stays_stageFile hr hbe hR hv hh
      | dir m => exact stays_stageDir ih hapart hr hbe hv hh

end MiniDarwin.Installer
