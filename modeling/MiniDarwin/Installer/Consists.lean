import MiniDarwin.Installer.Nesting
import MiniDarwin.Rootfs.Artifact
import MiniDarwin.Rootfs.View

/-!
What the published root consists of.

It is the root that was copied, with the payload, the records and the
directories above them; a manifest that the root verifies against with
names allowed that are extra, it verifies against still.
-/

namespace MiniDarwin.Installer

open Posix Effects Effects.Proc

variable {tx : Tx} {pkg pkg' : Package} {g g' : Globals} {w v : World Part} {q : Path} {env : Env} {fs fs' : Fs} {R : Path}
  {cs : List Component}

/-- Every link of the directory is as long as `symlink ()` makes one. -/
def LinksFit (fs : Fs) (R : Path) : Prop := ∀ q t, fs.get (R ++ q) = some (.link t) → t.length < pathMax

/-- The path is one of a payload, or of a record. -/
def Delivered (cs : List Component) (q : Path) : Prop :=
  ∃ c ∈ cs, (∃ e ∈ c.payload, e.path = q) ∨ ∃ r : Record, r.path c.identifier = q

/-- The directory `R` is what it was, with the components in it and nothing else. -/
structure Consists (env : Env) (fs : Fs) (R : Path) (cs : List Component) (fs' : Fs) : Prop where
  old : ∀ q, fs.get (R ++ q) ≠ none → fs'.get (R ++ q) = fs.get (R ++ q)
  inPlace : ∀ c ∈ cs, ∀ e ∈ c.payload, InPlace fs' R e
  recorded : ∀ c ∈ cs, Recorded env fs' R c
  only : ∀ q, fs'.get (R ++ q) ≠ none → fs.get (R ++ q) ≠ none ∨ Delivered cs q ∨
    fs'.IsDir (R ++ q) ∧ ∃ s, Delivered cs (q ++ s)
  noScripts : fs'.get (R ++ scriptsDir) = none

/-- What a component writes is one of its paths, or above one. -/
theorem RootPath.delivered {c : Component} (hc : c ∈ cs) (h : RootPath c q) : ∃ s, Delivered cs (q ++ s) := by
  obtain ⟨-, e, he, s, hs⟩ | ⟨-, r, s, hs⟩ := h
  · exact ⟨s, c, hc, .inl ⟨e, he, hs.symm⟩⟩
  · exact ⟨s, c, hc, .inr ⟨r, hs.symm⟩⟩

theorem Filled.exists_delivered (h : Filled env fs R cs fs' R) (hq : Delivered cs q) : q = [] ∨ fs'.get (R ++ q) ≠ none := by
  obtain ⟨c, hc, ⟨e, he, rfl⟩ | ⟨r, rfl⟩⟩ := hq
  · refine (h.inPlace c hc e he).imp_right ?_
    rintro ⟨v, hv, -⟩
    simp [hv]
  · obtain ⟨hplist, hbom, installed, changes, hinventory⟩ := h.recorded c hc
    right
    cases r with
    | plist => simp [hplist]
    | bom => simp [hbom]
    | inventory => simp [hinventory]

theorem Filled.consists (h : Filled env fs R cs fs' R) (hlinks : LinksFit fs R) : Consists env fs R cs fs' where
  old := by
    intro q hq
    obtain ⟨v, hv⟩ := Option.ne_none_iff_exists'.1 hq
    rw [h.old q hq, hv, Option.map_some]
    refine congrArg some ?_
    cases v with
    | link t => exact congrArg Node.link (take_short (hlinks q t hv))
    | _ => rfl
  inPlace := h.inPlace
  recorded := h.recorded
  only := by
    intro q hq
    refine (h.only q hq).imp_right ?_
    rintro ⟨c, hc, hroot⟩
    obtain ⟨s, hs⟩ := hroot.delivered hc
    obtain rfl | hne := eq_or_ne s []
    · exact .inl (List.append_nil q ▸ hs)
    · -- something is beneath it, so it is a directory
      have hsome : fs'.get (R ++ q ++ s) ≠ none := by
        rw [List.append_assoc]
        exact (h.exists_delivered hs).resolve_left (by simp [hne])
      exact .inr ⟨Fs.isDir_of_append hsome hne, s, hs⟩
  noScripts := h.noScripts

/-- What was there to see is there to see. -/
theorem Consists.shown {sha256 : Rootfs.Text → Rootfs.Digest} {beyond beyond' : Rootfs.Text → Option (Rootfs.Leaf ⊕ Nat)}
    (h : Consists env fs R cs fs') :
    ∀ i ∈ (Rootfs.diskAt sha256 fs R beyond).tree.items [], i ∈ (Rootfs.diskAt sha256 fs' R beyond').tree.items [] := by
  intro i hi
  obtain ⟨q, v, hne, hv, hp, hx⟩ := Rootfs.mem_diskAt.1 hi
  exact Rootfs.mem_diskAt.2 ⟨q, v, hne, (h.old q (by simp [hv])).trans hv, hp, hx⟩

/-- **What an offline install publishes** is the root as it was, the payload and the records, and the directories above
them. So a manifest that the root verifies against, with extra names allowed, it verifies against still. The root as it
was is what there is once it is locked; where there was one before, that is the same. -/
theorem published_consists (K : Kernel Part) (env : Env) (tx : Tx) (pkg pkg' : Package) (g g' : Globals)
    (w w0 v : World Part) (hparent : w.fs.IsDir tx.parent) (htag : w.tag = .main)
    (hlock : Prog.Reach (sem K) (lockAndRecover tx {}) w (.ret (.ok (), g)) w0)
    (hinst : Prog.Reach (sem K) (installLocked env tx (.ok pkg) g) w0 (.ret (.ok pkg', g')) v)
    (hscripts : Scriptless env pkg) (hlinks : LinksFit w0.fs tx.root) :
    ((w.fs.IsDir tx.root → ∀ q, w0.fs.get (tx.root ++ q) = w.fs.get (tx.root ++ q)) ∧ pkg.PlacedAs env pkg' ∧
        Consists env w0.fs tx.root pkg'.components v.fs) ∧
      ∀ sha256 raw what m, Rootfs.loadManifest sha256 raw what = .ok m → ∀ beyond beyond' calls,
        Rootfs.compareTree (Rootfs.diskAt sha256 w0.fs tx.root beyond) m.entries true = some ([], calls) →
        ∃ calls', Rootfs.compareTree (Rootfs.diskAt sha256 v.fs tx.root beyond') m.entries true = some ([], calls') := by
  obtain ⟨hg, hrun, hparent0, hroot, hgone, -⟩ := Prog.Spec.reach (wp_lockAndRecover hparent) hlock
  subst hg
  obtain ⟨-, hplaced, hfilled⟩ := Prog.Spec.reach
    (wp_installLocked hscripts hparent0 hroot hgone (hrun.tag.trans htag)) hinst
  have hconsists := hfilled.consists hlinks
  refine ⟨⟨fun hroot => lockAndRecover_same hparent hroot hlock, hplaced, hconsists⟩, ?_⟩
  intro sha256 raw what m hm beyond beyond' calls h
  exact Rootfs.compareTree_mono hm Rootfs.diskAt_onDisk Rootfs.diskAt_onDisk hconsists.shown h

/-- The root `/r` with `/r/d/f`, which the manifest `few_load` is about lists. -/
def listedRoot : World Part :=
  let fs := emptyRoot.fs.create [emptyRootTx.name, nm ['d']] (.dir 0o755) (by decide) (by decide) (by decide)
  let fs := fs.create [emptyRootTx.name, nm ['d'], nm ['f']] (.file 0o644 [97, 98]) (by decide) (by decide)
    (by decide)
  ⟨fs, .main, fs, []⟩

def listedLocked : World Part := ((lockAndRecover emptyRootTx {}).exec Op.answer listedRoot).2

@[irreducible] def listedRun : (Except String Package × Globals) × World Part :=
  (installLocked default emptyRootTx (.ok ⟨[addingComponent]⟩) {}).exec Op.answer listedLocked

theorem reach_listedRun :
    Prog.Reach (sem K) (installLocked default emptyRootTx (.ok ⟨[addingComponent]⟩) {}) listedLocked
      (.ret listedRun.1) listedRun.2 := by
  unfold listedRun
  exact Prog.reach_exec sem_answer _ _

/-- A component installed in a root that verifies against a manifest. -/
theorem published_consists_listed :
    ∃ raw m pkg' g' v, Rootfs.loadManifest Rootfs.tally raw (Rootfs.lit "m") = .ok m ∧
      m.entries = Rootfs.fewListed ∧
      Prog.Reach (sem Kernel.steady) (installLocked default emptyRootTx (.ok ⟨[addingComponent]⟩) {})
        listedLocked (.ret (.ok pkg', g')) v ∧
      Consists default listedLocked.fs emptyRootTx.root pkg'.components v.fs ∧
      ∃ calls, Rootfs.compareTree (Rootfs.diskAt Rootfs.tally v.fs emptyRootTx.root fun _ => none) m.entries true =
        some ([], calls) := by
  obtain ⟨raw, m, hm, hentries⟩ := Rootfs.few_load
  have hlock : Prog.Reach (sem Kernel.steady) (lockAndRecover emptyRootTx {}) listedRoot (.ret (.ok (), {}))
      listedLocked := Prog.reach_exec sem_answer (lockAndRecover emptyRootTx {}) listedRoot
  have hreach := reach_listedRun (K := Kernel.steady)
  have hok : listedRun.1.1.toOption.isSome = true := by decide +kernel
  generalize listedRun = x at hreach hok
  obtain ⟨⟨r, g'⟩, v⟩ := x
  cases r with
  | error msg => cases hok
  | ok pkg' =>
      have hlinks : LinksFit listedLocked.fs emptyRootTx.root := by
        intro q t hq
        have hnone : ∀ p ∈ listedLocked.fs.paths, linkAt listedLocked.fs [] p = none := by decide +kernel
        have := hnone _ (listedLocked.fs.complete (emptyRootTx.root ++ q) (by simp [hq]))
        simp [linkAt, hq] at this
      have hclean : ∃ calls, Rootfs.compareTree
          (Rootfs.diskAt Rootfs.tally listedLocked.fs emptyRootTx.root fun _ => none) Rootfs.fewListed true =
            some ([], calls) := ⟨_, rfl⟩
      obtain ⟨calls, hclean⟩ := hclean
      obtain ⟨⟨-, -, hconsists⟩, hverifies⟩ := published_consists Kernel.steady default emptyRootTx
        ⟨[addingComponent]⟩ pkg' {} g' listedRoot listedLocked v ⟨0o755, rfl⟩ rfl hlock hreach
        (.inr (by simp [addingComponent])) hlinks
      exact ⟨raw, m, pkg', g', v, hm, hentries, hreach, hconsists,
        hverifies _ raw _ m hm (fun _ => none) (fun _ => none) calls (hentries ▸ hclean)⟩

end MiniDarwin.Installer
