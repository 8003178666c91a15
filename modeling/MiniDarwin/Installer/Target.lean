import MiniDarwin.Installer.Confinement
import MiniDarwin.Installer.Collision

/-!
`install_package ()`: the running root is changed in place, any other
one by way of a stage next to it.

Which of the two it is turns on the identity of a directory, and the parent
of a root that does not run is canonical: `realpath ()` has found it, and it
is no link. Where it is no directory either, the lock cannot be taken.
-/

namespace MiniDarwin.Installer

open Posix Effects Effects.Proc

variable {K : Kernel Part} {tx : Tx} {pkg : Package} {g : Globals} {w w' : World Part} {b B p q : Path} {env : Env}
  {fs : Fs}

/-! ### Names that lead somewhere -/

/-- There is something at the path, and it is not a link. -/
def Found (fs : Fs) (p : Path) : Prop := fs.get p ≠ none ∧ ∀ t, fs.get p ≠ some (.link t)

theorem Found.of_isDir (h : fs.IsDir p) : Found fs p := by
  obtain ⟨m, hm⟩ := h
  exact ⟨by simp [hm], by simp [hm]⟩

theorem walkWith_found {onLink : Path → List Step → Except Errno (Path × Nat)} {hops hops' : Nat} {cur d : Path}
    {l : List Step} (hlink : ∀ c k x, fs.IsDir c → onLink c k = .ok x → Found fs x.1) (hcur : fs.IsDir cur)
    (h : walkWith fs onLink hops cur l = .ok (d, hops')) : Found fs d := by
  induction l generalizing cur with
  | nil =>
      obtain ⟨rfl, -⟩ := Prod.mk.inj (Except.ok.inj h)
      exact .of_isDir hcur
  | cons step l ih =>
      cases step with
      | up =>
          refine ih ?_ h
          obtain rfl | ⟨init, n, rfl⟩ := List.eq_nil_or_concat cur
          · exact hcur
          · rw [List.concat_eq_append] at hcur ⊢
            rw [List.dropLast_concat]
            exact fs.parent init n hcur.ne_none
      | down n =>
          unfold walkWith at h
          split at h
          · cases h
          · next m hm => exact ih ⟨m, hm⟩ h
          · next t ht =>
              split at h
              · cases h
              · refine hlink _ _ _ ?_ h
                split
                · exact Fs.isDir_nil
                · exact hcur
          · next v hdir hnotlink hv =>
              split at h
              · obtain ⟨rfl, -⟩ := Prod.mk.inj (Except.ok.inj h)
                exact ⟨by simp [hv], fun t ht => hnotlink t (Option.some.inj (hv.symm.trans ht))⟩
              · cases h

theorem walk_found {hops hops' : Nat} {cur d : Path} {l : List Step} (hcur : fs.IsDir cur)
    (h : walk fs hops cur l = .ok (d, hops')) : Found fs d := by
  induction hops generalizing cur l d hops' with
  | zero => exact walkWith_found (fun _ _ _ _ hk => by cases hk) hcur h
  | succ hops ih => exact walkWith_found (fun _ _ _ hc hk => ih hc hk) hcur h

/-- A name in what a walk leads to is only found if that is a directory. -/
theorem Found.isDir {d c : Path} {n : Name} (h : Found fs d) (hc : locate fs (d ++ [n]) = .ok c) : fs.IsDir d := by
  obtain ⟨hsome, hnotlink⟩ := h
  by_contra hnotdir
  obtain rfl | ⟨init, m, hd⟩ := List.eq_nil_or_concat d
  · exact hnotdir Fs.isDir_nil
  obtain rfl : d = init ++ [m] := hd.trans List.concat_eq_append
  have hinit : fs.IsDir init := fs.parent init m hsome
  have hwalk : walk fs maxSymlinks [] ((init ++ [m]).map .down) = .ok (init ++ [m], maxSymlinks) := by
    have hdirs : walk fs maxSymlinks [] (init.map .down) = .ok (init, maxSymlinks) := by
      have hinit' : fs.IsDir ([] ++ init) := hinit
      simpa using walk_dirs hinit'
    rw [List.map_append, walk_append hdirs hinit]
    cases hv : fs.get (init ++ [m]) with
    | none => exact absurd hv hsome
    | some v =>
        cases v with
        | dir k => exact absurd ⟨k, hv⟩ hnotdir
        | link t => exact absurd hv (hnotlink t)
        | file k data => simp [walk, maxSymlinks, walkWith, hv]
        | other => simp [walk, maxSymlinks, walkWith, hv]
  have hfound : realDir fs (init ++ [m]) = .error .ENOTDIR := by
    unfold realDir
    rw [hwalk]
    exact if_neg hnotdir
  rw [locate_concat, hfound] at hc
  cases hc

/-- Where a name is found that is not a link, it leads. -/
theorem at_of_locate (h : locate fs p = .ok q) (hq : fs.IsDir q) : At fs p q := by
  obtain rfl | ⟨init, n, rfl⟩ := List.eq_nil_or_concat p
  · obtain rfl := Except.ok.inj h
    exact at_self hq
  · rw [List.concat_eq_append] at h ⊢
    rw [locate_concat] at h
    split at h
    · cases h
    · next d hd =>
        obtain rfl := Except.ok.inj h
        exact At.append hd hq

/-! ### Which root is meant -/

/-- A root that runs is where its name leads. -/
theorem wp_isRunningRoot {D : String → Globals → World Part → Prop} {E : Op Part → World Part → Prop}
    (hE : ∀ p q, E (.sameDir p q) w) :
    wp (sem K) E (isRunningRoot env p) (fun live g' w' => g' = g ∧ w' = w ∧ (live = true → ∃ B, At w.fs p B))
      D g w := by
  have hsame : ∀ q, sem K (.sameDir p q) w (.ok true) w → ∃ B, At w.fs p B := by
    intro q hs
    have hrun : (Op.sameDir (τ := Part) p q).run w = .ok (true, w) := hs
    simp only [Op.run, Except.ok.injEq, Prod.mk.injEq, and_true] at hrun
    split at hrun
    · next p' q' hp' hq' => exact ⟨p', at_of_locate hp' (of_decide_eq_true hrun).1⟩
    · cases hrun
  unfold isRunningRoot
  refine wp_bind.2 (wp_quiet rfl (hE _ _) fun r hs => ?_)
  split
  · exact ⟨rfl, rfl, fun _ => hsame _ hs⟩
  · split
    · exact ⟨rfl, rfl, fun h => by cases h⟩
    · next test _ =>
        refine wp_bind.2 (wp_quiet rfl (hE _ _) fun r hs => ?_)
        cases r with
        | error e => exact ⟨rfl, rfl, fun h => by cases h⟩
        | ok same =>
            refine ⟨rfl, rfl, ?_⟩
            rintro rfl
            exact hsame _ hs

/-- The root that is asked for, canonical but for its own name. -/
theorem wp_requestedRoot {E : Op Part → World Part → Prop} (hE : ∀ s, E (.realpath s) w) (s : Str) :
    wp (sem K) E (requestedRoot env s) (fun tx g' w' => g' = g ∧ w' = w ∧ Found w.fs tx.parent) (fun _ _ _ => True)
      g w := by
  have habsolute : wp (sem K) E (absolutePath env s) (fun _ g' w' => g' = g ∧ w' = w) (fun _ _ _ => True) g w := by
    unfold absolutePath
    split
    · exact ⟨rfl, rfl⟩
    · exact wp_strJoin (fun _ _ => ⟨rfl, rfl⟩) fun _ => trivial
  unfold requestedRoot
  refine wp_bind.2 (habsolute.post ?_ fun _ _ _ => id)
  rintro absolute g' w' ⟨rfl, rfl⟩
  dsimp only
  split
  · next h =>
      refine wp_bind.2 (wp_call.2 (wp_quiet rfl (hE _) fun r hs => ?_))
      cases r with
      | error e => trivial
      | ok parent =>
          refine wp_bind.2 (wp_hostJoin (fun _ => ?_) fun _ _ => trivial)
          have hfound : Found w'.fs parent := by
            have hrun : (Op.realpath (τ := Part) _).run w' = .ok (parent, w') := hs
            simp only [Op.run, Except.map] at hrun
            split at hrun
            · cases hrun
            · next x hx =>
                obtain ⟨rfl, -⟩ := Prod.mk.inj (Except.ok.inj hrun)
                exact walk_found Fs.isDir_nil hx
          split
          · trivial
          · exact ⟨rfl, rfl, hfound⟩
  · trivial

/-! ### What comes before the payloads -/

theorem onePart_createHook : OnePart (createHook p) := by
  unfold createHook
  exact OnePart.get.bind fun g => .ite .modify (.pure _)

theorem onePart_pathParent {create : Bool} : OnePart (pathParent create p) := by
  refine (OnePart.ask (by simp)).bind fun r => ?_
  cases r with
  | ok st => exact .ite .die (.pure _)
  | error e =>
      refine .ite .die (.ite ?_ (.pure _))
      exact (OnePart.call (by simp)).bind fun _ => onePart_createHook

theorem onePart_pathParentsFrom {create : Bool} {done rest : Path} : OnePart (pathParentsFrom b create done rest) := by
  induction rest generalizing done with
  | nil => exact .pure _
  | cons n rest ih =>
      cases rest with
      | nil => exact .pure _
      | cons m rest => exact looks_hostJoin.onePart.bind fun host => onePart_pathParent.bind fun _ => ih

theorem onePart_recoverRoot : OnePart (recoverRoot tx) := by
  refine looks_pathExists.onePart.bind fun moved => .ite ?_ (.pure _)
  refine looks_pathExists.onePart.bind fun published => .ite ?_ (.call (by simp))
  exact (OnePart.call (by simp)).bind fun st => .ite .die (.pure _)

theorem onePart_recover : OnePart (recover tx) := by
  refine (OnePart.call (by simp)).bind fun st => .ite .die ?_
  refine looks_hostJoin.onePart.bind fun marker => OnePart.bind ?_ fun target => .ite .die ?_
  · exact (OnePart.call (by simp)).bind fun data => .ite .die (.pure _)
  · exact onePart_recoverRoot.bind fun _ => onePart_removeOrDie.bind fun _ => .call (by simp)

theorem onePart_lockAndRecover : OnePart (lockAndRecover tx) := by
  refine (OnePart.call (by simp)).bind fun _ => looks_hostJoin.onePart.bind fun _ => ?_
  refine looks_hostJoin.onePart.bind fun _ => ?_
  refine OnePart.bind (looks_pathExists.onePart.bind fun _ => .ite onePart_recover (.pure _)) fun _ => ?_
  refine (OnePart.call (by simp)).bind fun st => .ite .die ?_
  exact (OnePart.call (by simp)).bind fun _ => .call (by simp)

theorem onePart_preflight : OnePart (preflight env b pkg) := by
  intro K g w
  refine wp.mono (finds_preflight K g w) ?_ (fun _ _ _ _ => trivial) (fun _ _ _ _ => trivial)
  rintro o v ⟨ho, -⟩ t rfl
  cases ho

theorem onePart_liveStart {pkg : Except String Package} : OnePart (liveStart env p pkg) := by
  refine OnePart.modify.bind fun _ => OnePart.bind ?_ fun root => .ite .die ?_
  · refine (OnePart.ask (by simp)).bind fun r => ?_
    cases r with
    | ok resolved => exact .pure _
    | error e => exact .pure _
  · cases pkg with
    | error msg => exact .die
    | ok pkg =>
        refine OnePart.bind ?_ fun _ => onePart_preflight.bind fun _ => .pure _
        refine looks_relJoin.onePart.bind fun rel => onePart_pathParentsFrom.bind fun _ => ?_
        exact looks_hostJoin.onePart.bind fun lock => .call (by simp)

/-- A lock is only taken in a directory. -/
theorem isDir_of_lock {n : Name} {r : Unit} (hfound : Found w.fs p) (hs : sem K (.lock (p ++ [n])) w (.ok r) w') :
    w.fs.IsDir p := by
  cases hc : locate w.fs (p ++ [n]) with
  | ok c => exact hfound.isDir hc
  | error e =>
      simp only [sem, Op.Answers, Op.run, hc, Except.bind] at hs
      cases hs

/-! ### Both installs -/

/-- The install of a root that does not run. -/
theorem wp_offline (hscripts : Scriptless env pkg) (hfound : Found w.fs tx.parent) (htag : w.tag = .main) :
    wp (sem K) (fun o v => w.fs.IsDir tx.parent ∧ Confined tx.stage tx.stage o v ∨ v.tag = .main)
      (installOffline env tx (.ok pkg)) (fun _ _ _ => True) (fun _ _ _ => True) {} w := by
  have hpart : OnePart (lockAndRecover tx) := onePart_lockAndRecover
  have hmain := hpart.wp (K := K) (g := {}) (w := w)
    (E := fun o v => w.fs.IsDir tx.parent ∧ Confined tx.stage tx.stage o v ∨ v.tag = .main)
    fun o v hv => .inr (hv.trans htag)
  unfold installOffline
  by_cases hparent : w.fs.IsDir tx.parent
  · refine wp_bind.2 (wp.mono (hmain.and (wp_lockAndRecover hparent)) (fun _ _ h => h.1) ?_ (fun _ _ _ _ => trivial))
    rintro _ g1 w1 ⟨-, rfl, hrun, hparent1, hroot, hgone, -⟩
    exact wp.mono (wp_installLocked hscripts hparent1 hroot hgone (hrun.tag.trans htag))
      (fun _ _ h => .inl ⟨hparent, h⟩) (fun _ _ _ _ => trivial) (fun _ _ _ _ => trivial)
  · refine wp_bind.2 ?_
    unfold lockAndRecover
    refine wp_bind.2 (wp_call_sem (.inr htag) (fun _ => trivial) fun r w' hs => ?_)
    exact absurd (isDir_of_lock hfound hs) hparent

/-- The install of a root that runs. -/
theorem wp_live (hscripts : Scriptless env pkg) (hb : At w.fs b B) (htag : w.tag = .main) :
    wp (sem K) (fun o v => (∃ r, Confined r B o v) ∨ v.tag = .main) (installLive env b (.ok pkg))
      (fun _ _ _ => True) (fun _ _ _ => True) {} w := by
  have hpart : OnePart (liveStart env b (.ok pkg)) := onePart_liveStart
  have hmain := hpart.wp (K := K) (g := {}) (w := w) (E := fun o v => (∃ r, Confined r B o v) ∨ v.tag = .main)
    fun o v hv => .inr (hv.trans htag)
  have hspec : wp (sem K) (fun _ _ => True) (liveStart env b (.ok pkg)) _ _ {} w := wp_liveStart (fun _ _ => trivial) hb
  unfold installLive
  refine wp_bind.2 (wp.mono (hmain.and hspec) (fun _ _ h => h.1) ?_ (fun _ _ _ _ => trivial))
  rintro ⟨root, placed⟩ g1 w1 ⟨-, hroot, hlive, -, htag1, pkg', hpkg, hplaced⟩
  obtain rfl := Except.ok.inj hpkg
  refine wp_bind.2 (wp.mono (wp_liveInstall_confined (fun c hc => .inl (hplaced.no_hooks hscripts hc))
    (fun c hc => hplaced.free hc) hroot hlive (htag1.trans htag)) (fun _ _ h => .inl ⟨root, h⟩) ?_ ?_)
  · exact fun _ _ _ _ => trivial
  · exact fun _ _ _ _ => trivial

/-- Where an install of a root unpacks: where the name of the root leads, or in the stage next to a root. -/
def Target (fs : Fs) (requested b B : Path) : Prop :=
  At fs requested B ∨ ∃ tx : Tx, fs.IsDir tx.parent ∧ b = tx.stage ∧ B = tx.stage

theorem wp_installPackage (hscripts : Scriptless env pkg) (htag : w.tag = .main) :
    wp (sem K) (fun o v => (∃ r R, Target w.fs b r R ∧ Confined r R o v) ∨ v.tag = .main)
      (installPackage env b (.ok pkg)) (fun _ _ _ => True) (fun _ _ _ => True) {} w := by
  unfold installPackage
  refine wp_bind.2 ((wp_isRunningRoot (D := fun _ _ _ => True) fun _ _ => .inr htag).post ?_ fun _ _ _ => id)
  rintro live g1 w1 ⟨rfl, rfl, hlive⟩
  cases live with
  | true =>
      obtain ⟨B, hb⟩ := hlive rfl
      refine (wp_live hscripts hb htag).mono (fun o v h => ?_) (fun _ _ _ _ => trivial) (fun _ _ _ _ => trivial)
      exact h.imp_left fun ⟨r, hr⟩ => ⟨r, B, .inl hb, hr⟩
  | false =>
      refine wp_bind.2 ((wp_requestedRoot (fun _ => .inr htag) _).post ?_ fun _ _ _ => id)
      rintro tx g2 w2 ⟨rfl, rfl, hfound⟩
      refine (wp_offline hscripts hfound htag).mono (fun o v h => ?_) (fun _ _ _ _ => trivial) (fun _ _ _ _ => trivial)
      exact h.imp_left fun ⟨hparent, hconf⟩ => ⟨_, _, .inr ⟨tx, hparent, rfl, rfl⟩, hconf⟩

/-- **Where `install_package ()` writes**, whichever root it is given: if it runs no scripts, what may be changed while
the payload of a component is unpacked lies in the target, at a path that is not reserved, and while the receipts are
written at one of theirs. -/
theorem installPackage_confined (K : Kernel Part) (env : Env) (requested p : Path) (pkg : Package) (w v : World Part)
    {o : Op Part} {k : Except Errno o.Val → Prog (calls Part) (Except String Package × Globals)}
    (hscripts : Scriptless env pkg) (htag : w.tag = .main)
    (h : Prog.Reach (sem K) (installPackage env requested (.ok pkg) {}) w (.call o k) v) (hp : Op.changes o = some p) :
    (v.tag = .payload → ∃ b B, Target w.fs requested b B ∧ Direct K b B (isReserved · = false) o v p) ∧
      (v.tag = .receipts → ∃ b B, Target w.fs requested b B ∧ Direct K b B (fun q => ∃ c, RecordPath c q) o v p) := by
  obtain ⟨b, B, htarget, hconf⟩ | hmain := (Prog.Spec.reach (wp_installPackage hscripts htag) h).1
  · exact ⟨fun ht => ⟨b, B, htarget, hconf.payload ht hp⟩, fun ht => ⟨b, B, htarget, hconf.receipts ht hp⟩⟩
  · constructor
    · intro ht
      cases hmain.symm.trans ht
    · intro ht
      cases hmain.symm.trans ht

end MiniDarwin.Installer
