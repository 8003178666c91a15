import MiniDarwin.Installer.Removal

/-!
What the JavaScript of a Distribution may read (`read_path ()` of
`installer-js.c`).

A path that leads into the target is to be resolved inside the target. The
function notices that it does in two ways: a part of the path, from its
beginning on, is an alias of the target's root, or the whole path leads to
something beneath the root. A link of the host to a directory inside the
target escapes both if the path leaves the target again.
-/

namespace MiniDarwin.Installer

open Posix Effects Effects.Proc

def nameMax : Nat := 255

/-- The loop of `path_normalize ()`, with the names that were kept. -/
def normalizeFrom (path : Str) : Path → List (Token × Str) → Except String Path
  | out, [] => .ok out
  | out, (name, _) :: more =>
      if h1 : name.1 = [] ∨ name.1 = ['.'] then normalizeFrom path out more
      else if h2 : name.1 = ['.', '.'] then .error s!"unsafe path: {String.ofList path}"
      else if name.1.length > nameMax then .error s!"unsafe path: {String.ofList path}"
      else if out.length + 1 > limitDepth then .error "path nesting limit"
      else if name.1.any fun c => c.toNat < 32 || c == '\\' then
        .error s!"unsupported character in path: {String.ofList path}"
      else normalizeFrom path (out ++ [name.name h1 h2]) more

/-- `path_normalize ()` of an absolute path. -/
def normalize (path : Str) : Except String Path :=
  if path.head? ≠ some '/' then .error s!"install location must be absolute: {String.ofList path}"
  else
    match normalizeFrom path [] (tokens (path.dropWhile (· = '/'))) with
    | .error msg => .error msg
    | .ok out => if strlen out ≥ pathMax - nameMax then .error "path too long" else .ok out

def pathNormalize (path : Str) : M Path :=
  match normalize path with
  | .error msg => die msg
  | .ok out => pure out

/-- `realpath (absolute, resolved) && !strcmp (resolved, js->root)` -/
def isTarget (root absolute : Path) : M Bool := do
  match ← ask (.realpath ('/' :: render absolute)) with
  | .ok resolved => pure (resolved = root)
  | .error _ => pure false

/-- The loop of `read_path ()`: what comes after the first part of the path that is the
target's root. -/
def targetSuffix (root : Path) : Path → Path → M (Option Path)
  | done, [] => do
      if ← isTarget root done then pure (some []) else pure none
  | done, n :: rest => do
      if ← isTarget root done then pure (some (n :: rest)) else targetSuffix root (done ++ [n]) rest

/-- The path beneath the root, resolved there. -/
def confine (root : Path) (live : Bool) (suffix : Str) : M Path := do
  let confined ← resolveTargetPath root suffix true live
  hostJoin root confined

/-- A host alias into the target must not bypass its confinement. -/
def readResolved (root : Option Path) (live : Bool) (resolved : Path) : M Path :=
  match root.filter fun root => pathHasPrefix resolved root with
  | some root => confine root live ('/' :: render (resolved.drop root.length))
  | none => pure resolved

/-- The end of `read_path ()`, for a path that is no alias of the root at any point. -/
def readElsewhere (root : Option Path) (live : Bool) (absolute : Path) : M Path :=
  match root.filter fun root => root = [] ∨ pathHasPrefix absolute root with
  | some root => confine root live (render (absolute.drop root.length))
  | none => do
      match ← ask (.realpath ('/' :: render absolute)) with
      | .error _ => pure absolute
      | .ok resolved => readResolved root live resolved

/-- `read_path ()` with a target, which is not `/`. -/
def readTarget (target : Path) (live : Bool) (absolute : Path) : M Path := do
  match ← targetSuffix target (absolute.take 1) (absolute.drop 1) with
  | some suffix => confine target live (render suffix)
  | none => readElsewhere (some target) live absolute

/-- `read_path ()`; `root` is `js->root`. -/
def readPath (root : Option Path) (live : Bool) (requested : Str) : M Path := do
  let absolute ← pathNormalize requested
  match root.filter (· ≠ []) with
  | none => readElsewhere root live absolute
  | some target => readTarget target live absolute

/-! ### The target -/

/-- The kernel comes to a directory at or beneath `root` on its way. -/
inductive Enters (fs : Fs) (root : Path) : Nat → Path → List Step → Prop where
  | here {hops : Nat} {cur : Path} {l : List Step} (h : root <+: cur) : Enters fs root hops cur l
  | up {hops : Nat} {cur : Path} {l : List Step} (h : Enters fs root hops cur.dropLast l) :
      Enters fs root hops cur (.up :: l)
  | down {hops : Nat} {cur : Path} {n : Name} {l : List Step} (hd : fs.IsDir (cur ++ [n]))
      (h : Enters fs root hops (cur ++ [n]) l) : Enters fs root hops cur (.down n :: l)
  | link {hops : Nat} {cur : Path} {n : Name} {l : List Step} {t : Str}
      (ht : fs.get (cur ++ [n]) = some (.link t)) (hne : t ≠ [])
      (h : Enters fs root hops (if t.head? = some '/' then [] else cur) (steps t ++ l)) :
      Enters fs root (hops + 1) cur (.down n :: l)

/-- A path beneath the root with no link in it. -/
def Within (fs : Fs) (root p : Path) : Prop :=
  root <+: p ∧ ∀ r, r <+: p → ∀ t, fs.get r ≠ some (.link t)

/-- The path goes through the root or an alias of it, or ends beneath the root. -/
def Recognized (fs : Fs) (root absolute : Path) : Prop :=
  (∃ top, top <+: absolute ∧ realPath fs top = .ok root) ∨
    ∃ resolved, realPath fs absolute = .ok resolved ∧ root <+: resolved

variable {K : Kernel Part} {g : Globals} {w : World Part} {root absolute done rest : Path} {suffix : Str}

theorem run_realpath (p : Path) :
    (Op.realpath (τ := Part) ('/' :: render p)).run w = (realPath w.fs p).map fun q => (q, w) := by
  have hsteps : steps ('/' :: render p) = p.map .down := by
    rw [show '/' :: render p = [] ++ '/' :: render p from rfl, steps_append_slash, steps_nil, List.nil_append,
      steps_render]
  show (walk w.fs maxSymlinks [] (steps ('/' :: render p))).map (fun x => (x.1, w)) = _
  rw [hsteps, realPath]
  cases walk w.fs maxSymlinks [] (p.map .down) <;> rfl

theorem wp_realpath {p : Path} {Q : Except Errno Path → Globals → World Part → Prop}
    {D : String → Globals → World Part → Prop} (hcalm : Calm K w) (hQ : Q (realPath w.fs p) g w) :
    wp (sem K) (fun _ _ => True) (ask (.realpath ('/' :: render p))) Q D g w := by
  refine wp_quiet rfl trivial fun r hr => ?_
  have hrun := run_realpath (w := w) p
  cases r with
  | error e =>
      rw [hcalm.run_error (by simp) hr] at hrun
      cases hp : realPath w.fs p with
      | error e' =>
          rw [hp] at hrun hQ
          cases hrun
          exact hQ
      | ok q =>
          rw [hp] at hrun
          cases hrun
  | ok v =>
      have hv : (Op.realpath (τ := Part) ('/' :: render p)).run w = .ok (v, w) := hr
      rw [hv] at hrun
      cases hp : realPath w.fs p with
      | error e' =>
          rw [hp] at hrun
          cases hrun
      | ok q =>
          rw [hp] at hrun hQ
          cases hrun
          exact hQ

theorem wp_isTarget {Q : Bool → Globals → World Part → Prop} {D : String → Globals → World Part → Prop}
    (hcalm : Calm K w) (hyes : realPath w.fs absolute = .ok root → Q true g w)
    (hno : realPath w.fs absolute ≠ .ok root → Q false g w) :
    wp (sem K) (fun _ _ => True) (isTarget root absolute) Q D g w := by
  refine wp_bind.2 (wp_realpath hcalm ?_)
  cases hp : realPath w.fs absolute with
  | error e => exact hno (by simp [hp])
  | ok q =>
      by_cases hq : q = root
      · show Q (decide (q = root)) g w
        rw [decide_eq_true hq]
        exact hyes (by rw [hp, hq])
      · show Q (decide (q = root)) g w
        rw [decide_eq_false hq]
        refine hno fun heq => hq ?_
        rw [hp] at heq
        exact Except.ok.inj heq

/-- The parts of the path from `done` on are tried one after the other. -/
theorem wp_targetSuffix {Q : Option Path → Globals → World Part → Prop}
    {D : String → Globals → World Part → Prop} (hcalm : Calm K w)
    (hsome : ∀ suffix top, top <+: done ++ rest → realPath w.fs top = .ok root → Q (some suffix) g w)
    (hnone : (∀ top, done <+: top → top <+: done ++ rest → realPath w.fs top ≠ .ok root) → Q none g w) :
    wp (sem K) (fun _ _ => True) (targetSuffix root done rest) Q D g w := by
  induction rest generalizing done with
  | nil =>
      refine wp_bind.2 (wp_isTarget hcalm ?_ ?_)
      · intro hyes
        exact hsome [] done (List.prefix_append _ _) hyes
      · intro hno
        refine hnone fun top hdone htop => ?_
        rw [List.append_nil] at htop
        rwa [← hdone.eq_of_length_le htop.length_le]
  | cons n rest ih =>
      refine wp_bind.2 (wp_isTarget hcalm ?_ ?_)
      · intro hyes
        exact hsome _ done (List.prefix_append _ _) hyes
      · intro hno
        refine ih ?_ ?_
        · intro suffix top htop hreal
          exact hsome suffix top (by simpa using htop) hreal
        · intro hrest
          refine hnone fun top hdone htop => ?_
          by_cases heq : top = done
          · rwa [heq]
          · refine hrest top ?_ (by simpa using htop)
            obtain ⟨s, rfl⟩ := hdone
            obtain ⟨s', hs'⟩ := htop
            cases s with
            | nil => exact absurd (List.append_nil _) heq
            | cons m s =>
                rw [List.append_assoc] at hs'
                obtain ⟨rfl, -⟩ := List.cons.inj (List.append_cancel_left hs')
                exact ⟨s, by simp⟩

/-- What is resolved beneath the root has no link in it. -/
theorem wp_confine {D : String → Globals → World Part → Prop} (hroot : w.fs.IsDir root) (hD : ∀ msg g' w', D msg g' w') :
    wp (sem K) (fun _ _ => True) (confine root false suffix) (fun p _ _ => Within w.fs root p) D g w := by
  refine wp_bind.2 (wp.mono (wp_resolveTargetPath (at_self hroot)) (fun _ _ _ => trivial) ?_ (fun _ _ _ _ => hD _ _ _))
  rintro q g' v ⟨rfl, -, hclear, hlast⟩
  refine wp_hostJoin (fun _ => ⟨List.prefix_append _ _, ?_⟩) (fun _ _ => hD _ _ _)
  intro r hr t
  have hdir : ∀ {p : Path}, v.fs.IsDir p → v.fs.get p ≠ some (.link t) := by
    rintro p ⟨m, hm⟩ heq
    rw [hm] at heq
    cases heq
  rcases List.prefix_or_prefix_of_prefix hr (List.prefix_append root q) with hr' | ⟨s, rfl⟩
  · by_cases heq : r = root
    · rw [heq]
      exact hdir hroot
    · obtain ⟨s, rfl⟩ := hr'
      exact hdir (Fs.isDir_of_append hroot.ne_none fun hs => heq (by simp [hs]))
  · have hs : s <+: q := (List.prefix_append_right_inj root).1 hr
    by_cases heq : s = q
    · rw [heq]
      exact hlast rfl t
    · obtain hnone | hd := hclear s hs heq
      · rw [hnone]
        simp
      · exact hdir hd

theorem realPath_of_isDir (hroot : w.fs.IsDir root) : realPath w.fs root = .ok root := by
  rw [realPath, walk_dirs (by simpa using hroot)]
  rfl

theorem wp_pathNormalize {requested : Str} {Q : Path → Globals → World Part → Prop}
    {D : String → Globals → World Part → Prop} (hok : ∀ absolute, normalize requested = .ok absolute → Q absolute g w)
    (hD : ∀ msg, normalize requested = .error msg → D msg g w) :
    wp (sem K) (fun _ _ => True) (pathNormalize requested) Q D g w := by
  unfold pathNormalize
  cases hn : normalize requested with
  | error msg => exact hD msg hn
  | ok out => exact hok out hn

/-- The shortest part that is tried is a part of every alias. -/
theorem take_one_isPrefix {top : Path} (hne : root ≠ []) (htop : top <+: absolute)
    (hreal : realPath w.fs top = .ok root) : absolute.take 1 <+: top := by
  obtain ⟨s, rfl⟩ := htop
  cases top with
  | nil => exact absurd (Except.ok.inj hreal).symm hne
  | cons n top => exact ⟨top, rfl⟩

theorem readPath_eq (hne : root ≠ []) (requested : Str) :
    readPath (some root) false requested = pathNormalize requested >>= readTarget root false := by
  unfold readPath
  rw [Option.filter_some_pos (by simpa using hne)]

/-- A path that is recognized is resolved in the target. -/
theorem wp_readPath_within {requested : Str} (hcalm : Calm K w) (hroot : w.fs.IsDir root) (hne : root ≠ [])
    (hrec : ∀ absolute, normalize requested = .ok absolute → Recognized w.fs root absolute) :
    wp (sem K) (fun _ _ => True) (readPath (some root) false requested) (fun p _ _ => Within w.fs root p)
      (fun _ _ _ => True) g w := by
  rw [readPath_eq hne]
  refine wp_bind.2 (wp_pathNormalize (fun absolute hn => ?_) (fun _ _ => trivial))
  refine wp_bind.2 (wp_targetSuffix hcalm (fun _ _ _ _ => ?_) (fun hnone => ?_))
  · exact wp_confine hroot fun _ _ _ => trivial
  · rw [List.take_append_drop] at hnone
    show wp (sem K) _ (readElsewhere (some root) false absolute) _ _ g w
    unfold readElsewhere
    by_cases hp : pathHasPrefix absolute root = true
    · rw [Option.filter_some_pos (by simp [hp])]
      exact wp_confine hroot fun _ _ _ => trivial
    · rw [Option.filter_some_neg (by simp [hp, hne])]
      have hlast : ∃ resolved, realPath w.fs absolute = .ok resolved ∧ root <+: resolved := by
        obtain ⟨top, htop, hreal⟩ | hlast := hrec absolute hn
        · exact absurd hreal (hnone top (take_one_isPrefix hne htop hreal) htop)
        · exact hlast
      obtain ⟨resolved, hreal, hbeneath⟩ := hlast
      refine wp_bind.2 (wp_realpath hcalm ?_)
      rw [hreal]
      show wp (sem K) _ (readResolved (some root) false resolved) _ _ g w
      unfold readResolved
      rw [Option.filter_some_pos (by simpa [pathHasPrefix] using hbeneath)]
      exact wp_confine hroot fun _ _ _ => trivial

/-- Any other path is left to the host. -/
theorem wp_readPath_host {requested : Str} (hcalm : Calm K w) (hroot : w.fs.IsDir root) (hne : root ≠ [])
    (hn : normalize requested = .ok absolute) (hrec : ¬ Recognized w.fs root absolute) :
    wp (sem K) (fun _ _ => True) (readPath (some root) false requested) (fun p _ _ => ¬ root <+: p)
      (fun _ _ _ => False) g w := by
  have hbefore : ¬ root <+: absolute := fun hp => hrec (.inl ⟨root, hp, realPath_of_isDir hroot⟩)
  rw [readPath_eq hne]
  refine wp_bind.2 (wp_pathNormalize (fun absolute' hn' => ?_) (fun msg hmsg => ?_))
  · obtain rfl := Except.ok.inj (hn.symm.trans hn')
    refine wp_bind.2 (wp_targetSuffix hcalm (fun _ top htop hreal => ?_) (fun _ => ?_))
    · rw [List.take_append_drop] at htop
      exact absurd (.inl ⟨top, htop, hreal⟩) hrec
    · show wp (sem K) _ (readElsewhere (some root) false absolute) _ _ g w
      unfold readElsewhere
      rw [Option.filter_some_neg (by simp [pathHasPrefix, hbefore, hne])]
      refine wp_bind.2 (wp_realpath hcalm ?_)
      cases hreal : realPath w.fs absolute with
      | error e => exact hbefore
      | ok resolved =>
          have hout : ¬ root <+: resolved := fun hb => hrec (.inr ⟨resolved, hreal, hb⟩)
          show wp (sem K) _ (readResolved (some root) false resolved) _ _ g w
          unfold readResolved
          rw [Option.filter_some_neg (by simp [pathHasPrefix, hout])]
          exact hout
  · rw [hn] at hmsg
    cases hmsg

/-- **What a script reads through the target stays in the target**, for every path that leads
into it, exactly when such a path goes through the root or an alias of it, or ends beneath the
root. -/
theorem readPath_confined_iff (K : Kernel Part) (w : World Part) (g : Globals) (root : Path) (requested : Str)
    (hcalm : Calm K w) (hroot : w.fs.IsDir root) (hne : root ≠ []) :
    (Enters w.fs root maxSymlinks [] (steps requested) →
      ∀ p g' v, Prog.Reach (sem K) (readPath (some root) false requested g) w (.ret (.ok p, g')) v →
        Within w.fs root p) ↔
      (Enters w.fs root maxSymlinks [] (steps requested) →
        ∀ absolute, normalize requested = .ok absolute → Recognized w.fs root absolute) := by
  refine forall_congr' fun _ => ⟨fun h absolute hn => ?_, fun h p g' v hr => ?_⟩
  · by_contra hrec
    have hrun := Prog.reach_exec (sem_answer (K := K)) (readPath (some root) false requested g) w
    generalize (readPath (some root) false requested g).exec Op.answer w = x at hrun
    obtain ⟨⟨r, g'⟩, v⟩ := x
    have hout := Prog.Spec.reach (wp_readPath_host (g := g) hcalm hroot hne hn hrec) hrun
    cases r with
    | error msg => exact hout
    | ok p => exact hout (h p g' v hrun).1
  · exact Prog.Spec.reach (wp_readPath_within (g := g) hcalm hroot hne h) hr

/-! ### Two hosts -/

def targetName : Name := nm "t".toList

def aliasName : Name := nm "a".toList

def insideName : Name := nm "d".toList

def secretName : Name := nm "e".toList

/-- A host with the target `/t`, in which `/t/d/l` is a link to `/e`, and with the link `/a`. -/
def aliasedHost (aliased : Str) : World Part :=
  let fs := Fs.bare.create [targetName] (.dir 0o755) (by decide) (by decide) (by decide)
  let fs := fs.create [targetName, insideName] (.dir 0o755) (by decide) (by decide) (by decide)
  let fs := fs.create [targetName, insideName, linkName] (.link "/e".toList) (by decide) (by decide) (by decide)
  let fs := fs.create [secretName] (.dir 0o755) (by decide) (by decide) (by decide)
  let fs := fs.create [aliasName] (.link aliased) (by decide) (by decide) (by decide)
  ⟨fs, .main, fs, []⟩

/-- Through an alias of the root the target is read as it is. -/
theorem readPath_confined_iff_alias :
    ∃ v, Prog.Reach (sem Kernel.steady) (readPath (some [targetName]) false "/a/d".toList {})
        (aliasedHost "/t".toList) (.ret (.ok [targetName, insideName], {})) v ∧
      Within (aliasedHost "/t".toList).fs [targetName] [targetName, insideName] := by
  have hr := Prog.reach_exec (sem_answer (K := Kernel.steady))
    (readPath (some [targetName]) false "/a/d".toList {}) (aliasedHost "/t".toList)
  have hx : ((readPath (some [targetName]) false "/a/d".toList {}).exec Op.answer (aliasedHost "/t".toList)).1 =
      (.ok [targetName, insideName], {}) := by decide +kernel
  rw [hx] at hr
  refine ⟨_, hr, (readPath_confined_iff Kernel.steady (aliasedHost "/t".toList) {} [targetName] "/a/d".toList
    (calm_steady _) ⟨0o755, by decide +kernel⟩ (by simp)).2 ?_ ?_ _ _ _ hr⟩
  · intro _ absolute hn
    have hn' : normalize "/a/d".toList = .ok [aliasName, insideName] := by decide +kernel
    obtain rfl := Except.ok.inj (hn'.symm.trans hn)
    exact .inl ⟨[aliasName], ⟨[insideName], rfl⟩, by decide +kernel⟩
  · rw [show steps "/a/d".toList = [.down aliasName, .down insideName] by decide +kernel]
    refine .link (t := "/t".toList) (by decide +kernel) (by decide) ?_
    rw [show steps "/t".toList = [.down targetName] by decide +kernel]
    exact .down ⟨0o755, by decide +kernel⟩ (.here (List.prefix_refl _))

/-- Through a link to a directory inside the target a link of the target leads out of it. -/
theorem inner_alias_escapes :
    Calm Kernel.steady (aliasedHost "/t/d".toList) ∧ (aliasedHost "/t/d".toList).fs.IsDir [targetName] ∧
      Enters (aliasedHost "/t/d".toList).fs [targetName] maxSymlinks [] (steps "/a/l".toList) ∧
      ∃ v, Prog.Reach (sem Kernel.steady) (readPath (some [targetName]) false "/a/l".toList {})
        (aliasedHost "/t/d".toList) (.ret (.ok [secretName], {})) v ∧
      ¬ Within (aliasedHost "/t/d".toList).fs [targetName] [secretName] := by
  refine ⟨calm_steady _, ⟨0o755, by decide +kernel⟩, ?_, ?_⟩
  · rw [show steps "/a/l".toList = [.down aliasName, .down linkName] by decide +kernel]
    refine .link (t := "/t/d".toList) (by decide +kernel) (by decide) ?_
    rw [show steps "/t/d".toList = [.down targetName, .down insideName] by decide +kernel]
    exact .down ⟨0o755, by decide +kernel⟩ (.here (List.prefix_refl _))
  · have hr := Prog.reach_exec (sem_answer (K := Kernel.steady))
      (readPath (some [targetName]) false "/a/l".toList {}) (aliasedHost "/t/d".toList)
    have hx : ((readPath (some [targetName]) false "/a/l".toList {}).exec Op.answer
        (aliasedHost "/t/d".toList)).1 = (.ok [secretName], {}) := by decide +kernel
    rw [hx] at hr
    refine ⟨_, hr, fun h => ?_⟩
    exact absurd h.1 (by decide)

end MiniDarwin.Installer
