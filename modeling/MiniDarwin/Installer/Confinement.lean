import MiniDarwin.Installer.Undo

/-!
Where an install writes.

Placement is decided before anything is installed, while the components
are unpacked one after the other into a tree that changes. That nothing
is ever written through a link rests on what holds when a call is made:
the directory it writes to is reached by names that are directories.
-/

namespace MiniDarwin.Installer

open Posix Effects Effects.Proc

variable {K : Kernel Part} {tx : Tx} {pkg : Package} {g g' : Globals} {w w' : World Part}
  {b B p q : Path} {env : Env} {fs fs' : Fs} {Ok : Path → Prop}

/-- The path a call is given that may change the tree, of two the one it removes
something from. -/
def Op.changes : Op Part → Option Path
  | .mkdir p _ | .symlink _ p | .create p | .write p _ | .fchmod p _ | .clonefile _ p
  | .mkdtemp p _ | .lock p | .chmod p _ | .unlink p | .rmdir p | .rename p _ => some p
  | _ => none

/-- The path `p` lies beneath `b`, which is `B`. Above it there are directories
only, so that what the call changes is just there, and not a link; and nothing is
changed that was there when this part of the run began. -/
structure Direct (K : Kernel Part) (b B : Path) (Ok : Path → Prop) (o : Op Part) (v : World Part)
    (p : Path) : Prop where
  beneath : ∃ q, p = b ++ q ∧ q ≠ [] ∧ Ok q ∧ (∀ r, r <+: q → r ≠ q → v.fs.IsDir (B ++ r)) ∧
    (∀ r v', sem K o v r v' → ∀ x, x ≠ B ++ q → v'.fs.get x = v.fs.get x) ∧
    ∀ x v', sem K o v (.ok x) v' → ∀ t, v.fs.get (B ++ q) ≠ some (.link t)
  kept : ∀ r v', sem K o v r v' → v.since.Kept v'.fs

/-- Where something is made there was nothing; what is changed is no link. -/
theorem Grows.not_link {o : Op Part} {x : o.Val} {t : Str} (h : Grows fs b B Ok o w)
    (hs : sem K o w (.ok x) w') (hp : Op.changes o = some (b ++ q)) (hq : q ≠ []) :
    w.fs.get (B ++ q) ≠ some (.link t) := by
  intro hlink
  have eq : ∀ {p c}, Beneath w b B Ok p c → p = b ++ q → c = q := by
    intro p c hb heq
    exact List.append_cancel_left (hb.eq.symm.trans heq)
  have free : ∀ {p c d v}, Beneath w b B Ok p c → p = b ++ q → locate w.fs p = .ok d →
      Made w d v w' → False := by
    intro p c d v hb heq hd hm
    obtain rfl := eq hb heq
    rw [hb.locate] at hd
    cases hd
    have := hm.free
    rw [hlink] at this
    cases this
  cases o with
  | mkdir p m =>
      obtain ⟨c, hb⟩ := h
      obtain ⟨d, hd, hm⟩ := sem_makes (v := .dir m) rfl hs
      exact free hb (Option.some.inj hp) hd hm
  | symlink s p =>
      obtain ⟨c, hb⟩ := h
      obtain ⟨d, hd, hm⟩ := sem_makes (v := .link s) rfl hs
      exact free hb (Option.some.inj hp) hd hm
  | create p =>
      obtain ⟨c, hb⟩ := h
      obtain ⟨d, hd, hm⟩ := sem_makes (v := .file 0o600 []) rfl hs
      exact free hb (Option.some.inj hp) hd hm
  | clonefile a p =>
      obtain ⟨c, hb⟩ := h
      obtain ⟨_, d, _, _, _, _, hd, hm⟩ := sem_clonefile hs
      exact free hb (Option.some.inj hp) hd hm
  | write p data =>
      obtain ⟨c, hb, -⟩ := h
      obtain rfl := eq hb (Option.some.inj hp)
      obtain ⟨-, -, d, _, _, hd, hold, -⟩ := sem_write hs
      rw [hb.locate] at hd
      cases hd
      rw [hlink] at hold
      cases hold
  | fchmod p m =>
      obtain ⟨c, hb, -⟩ := h
      obtain rfl := eq hb (Option.some.inj hp)
      obtain ⟨d, _, _, hd, hold, -⟩ := sem_fchmod hs
      rw [hb.locate] at hd
      cases hd
      rw [hlink] at hold
      cases hold
  | chmod p m =>
      obtain ⟨c, hb, ⟨m', hd⟩, -⟩ := h
      obtain rfl := eq hb (Option.some.inj hp)
      rw [hlink] at hd
      cases hd
  | mkdtemp | lock | unlink | rmdir | rename => simp [Grows, Op.quiet] at h
  | _ => simp [Op.changes] at hp

theorem GrowsSince.direct {o : Op Part} (h : GrowsSince b B Ok o w) (hp : Op.changes o = some p) :
    Direct K b B Ok o w p := by
  refine ⟨?_, fun r v' hs => (h.1.step h.2 hs).2⟩
  -- the call is one of those that write beneath `b`
  have hbe : ∃ q, Beneath w b B Ok p q := by
    have hg := h.1
    cases o with
    | mkdir | symlink | create | clonefile =>
        obtain ⟨q, hb⟩ := hg
        exact ⟨q, Option.some.inj hp ▸ hb⟩
    | write | fchmod =>
        obtain ⟨q, hb, -⟩ := hg
        exact ⟨q, Option.some.inj hp ▸ hb⟩
    | chmod =>
        obtain ⟨q, hb, -⟩ := hg
        exact ⟨q, Option.some.inj hp ▸ hb⟩
    | mkdtemp | lock | unlink | rmdir | rename => simp [Grows, Op.quiet] at hg
    | _ => simp [Op.changes] at hp
  obtain ⟨q, hb⟩ := hbe
  refine ⟨q, hb.eq, hb.ne_nil, hb.ok, fun r hr hne => ?_, fun r v' hs x hx => ?_,
    fun x v' hs t => h.1.not_link hs (hb.eq ▸ hp) hb.ne_nil⟩
  · -- a proper part of the path leads to the directory it is in, or above it
    have hr' : r <+: q.dropLast := by
      have hq := List.dropLast_append_getLast hb.ne_nil
      rw [← hq] at hr
      exact (List.prefix_concat_iff.1 hr).resolve_left fun heq => hne (heq.trans hq)
    obtain ⟨s, hs⟩ := hr'
    have hd := hb.inDir
    rw [← hs, ← List.append_assoc] at hd
    by_cases hnil : s = []
    · simpa [hnil] using hd
    · exact Fs.isDir_of_append hd.ne_none hnil
  · -- only the call's own path changes
    have hg : Grows w.since b B (· = q) o w := by
      have hg := h.1
      have own : ∀ {p' c}, Beneath w b B Ok p' c → Op.changes o = some p' →
          Beneath w b B (· = q) p' c := by
        intro p' c hc hp'
        have heq : p' = p := Option.some.inj (hp'.symm.trans hp)
        refine { hc with ok := ?_ }
        exact List.append_cancel_left (hc.eq.symm.trans (heq.trans hb.eq))
      cases o with
      | mkdir | symlink | create | clonefile =>
          obtain ⟨c, hc⟩ := hg
          exact ⟨c, own hc rfl⟩
      | write | fchmod =>
          obtain ⟨c, hc, hn⟩ := hg
          exact ⟨c, own hc rfl, hn⟩
      | chmod =>
          obtain ⟨c, hc, hn⟩ := hg
          exact ⟨c, own hc rfl, hn⟩
      | _ => exact hg
    exact hg.elsewhere hs fun c hc => hc ▸ hx

theorem Confined.payload {o : Op Part} (h : Confined b B o w) (ht : w.tag = .payload)
    (hp : Op.changes o = some p) : Direct K b B (isReserved · = false) o w p := by
  rcases h.1 ht with ⟨t, rfl⟩ | h
  · cases hp
  · exact h.direct hp

theorem Confined.receipts {o : Op Part} (h : Confined b B o w) (ht : w.tag = .receipts)
    (hp : Op.changes o = some p) : Direct K b B (fun q => ∃ c, RecordPath c q) o w p := by
  rcases h.2 ht with ⟨t, rfl⟩ | h
  · cases hp
  · exact h.direct hp

/-! ### Live installs -/

theorem onePart_rollbackLive {t : Path} : OnePart (rollbackLive t) := by
  refine OnePart.bind (OnePart.get.bind fun _ => .each (fun x => ?_) _) fun _ =>
    onePart_removeTree.bind fun _ => .pure _
  refine (OnePart.ask (by simp)).bind fun r => ?_
  split
  · exact .pure _
  · exact .ite ((OnePart.ask (by simp)).bind fun _ => .pure _)
      ((OnePart.ask (by simp)).bind fun _ => .pure _)

theorem wp_liveInstall_confined (hcs : ∀ c ∈ pkg.components, Harmless K c)
    (hfree : ∀ c ∈ pkg.components, ∀ e ∈ c.payload, isReserved e.path = false)
    (hb : At w.fs b B) (hlive : g.live = true) (htag : w.tag = .main) :
    wp (sem K) (Confined b B) (liveInstall env b pkg) (fun _ _ _ => True) (fun _ _ _ => True) g w := by
  have hent : ∀ x v, Confined b B (.enter x) v := fun x v => ⟨fun _ => .inl ⟨x, rfl⟩, fun _ => .inl ⟨x, rfl⟩⟩
  unfold liveInstall liveLoop
  refine wp_bind.2 ((wp_makeLiveTmp (g := g) (fun _ _ => .of_main htag)
    (fun _ _ => .of_main htag)).post ?_ (fun _ _ _ _ => trivial))
  rintro t g1 w1 ⟨rfl, hrun, T, hw, hT⟩
  refine wp_bind.2 (wp_bind.2 (wp_modify.2 (wp_bind.2 (wp_onFail.2 ?_))))
  refine wp.mono (stays_components env pkg.components (fun _ _ => True)
    (g := { g1 with createHook := true }) (by simp [Hooked, hlive]) hcs (hb.kept hw.kept) (hw.at hT)
    (fun _ _ _ _ _ _ _ _ _ _ _ => trivial) trivial) ?_ ?_ ?_
  · rintro o v ⟨c, hc, h⟩
    exact h.confined (hfree c hc)
  · rintro _ g2 w2 ⟨-, htag2, -⟩
    have htag2' := htag2 (hrun.tag.trans htag)
    exact wp_modify.2 ((onePart_removeTree.bind fun _ => .pure ()).wp
      fun o v hv => .of_main (hv.trans htag2'))
  · intro _ g2 w2 _
    exact wp_bind.2 (wp_enter (hent _ _) (onePart_rollbackLive.wp fun o v hv => .of_dying hv))

/-! ### Both -/

/-- **Writes are confined.** In an install that runs no scripts, offline or live,
whatever a call may change while the payload of a component is unpacked lies
beneath the root at a path that is not reserved, and while its receipts are written
at one of their paths; the names above it are directories, what is changed is not a
link, and nothing is changed that was there before. -/
theorem writes_confined (K : Kernel Part) (env : Env) (pkg : Package)
    (hscripts : Scriptless env pkg) :
    (∀ tx w w0 g o k v p, w.fs.IsDir tx.parent → w.tag = .main →
      Prog.Reach (sem K) (lockAndRecover tx {}) w (.ret (.ok (), g)) w0 →
      Prog.Reach (sem K) (installLocked env tx (.ok pkg) g) w0 (.call o k) v →
      Op.changes o = some p →
      (v.tag = .payload → Direct K tx.stage tx.stage (isReserved · = false) o v p) ∧
        (v.tag = .receipts →
          Direct K tx.stage tx.stage (fun q => ∃ c, RecordPath c q) o v p)) ∧
    (∀ requested B root pkg' w w0 g o k v p, At w.fs requested B → w.tag = .main →
      Prog.Reach (sem K) (liveStart env requested (.ok pkg) {}) w (.ret (.ok (root, pkg'), g)) w0 →
      Prog.Reach (sem K) (liveInstall env root pkg' g) w0 (.call o k) v →
      Op.changes o = some p →
      (v.tag = .payload → Direct K root B (isReserved · = false) o v p) ∧
        (v.tag = .receipts → Direct K root B (fun q => ∃ c, RecordPath c q) o v p)) := by
  constructor
  · intro tx w w0 g o k v p hparent htag hlock hinst hp
    obtain ⟨hg, hrun, hparent0, hroot, hgone, -⟩ :=
      Prog.Spec.reach (wp_lockAndRecover (g := {}) hparent) hlock
    subst hg
    have hconf : Confined tx.stage tx.stage o v := (Prog.Spec.reach
      (wp_installLocked hscripts hparent0 hroot hgone (hrun.tag.trans htag)) hinst).1
    exact ⟨fun ht => hconf.payload ht hp, fun ht => hconf.receipts ht hp⟩
  · intro requested B root pkg' w w0 g o k v p hreq htag hstart hinst hp
    have hspec := @wp_liveStart K requested B w env (fun _ _ => True) (fun _ _ => trivial)
      (.ok pkg) hreq
    obtain ⟨hroot, hlive, -, htag', pkg0, hpkg, hplaced⟩ := Prog.Spec.reach hspec hstart
    obtain rfl := Except.ok.inj hpkg
    have hconf : Confined root B o v := (Prog.Spec.reach
      (wp_liveInstall_confined (fun c hc => .inl (hplaced.no_hooks hscripts hc))
        (fun c hc => hplaced.free hc) hroot hlive (htag'.trans htag)) hinst).1
    exact ⟨fun ht => hconf.payload ht hp, fun ht => hconf.receipts ht hp⟩

/-- The part of the run and the path of a change that is about to be made. -/
def pendingChange {α : Type} : Prog (calls Part) α × World Part → Option (Part × Path)
  | (.call o _, v) => (Op.changes o).map (v.tag, ·)
  | (.ret _, _) => none

theorem pendingChange_eq_some {α : Type} {x : Prog (calls Part) α × World Part} {t : Part}
    (h : pendingChange x = some (t, p)) :
    ∃ o k, x.1 = .call o k ∧ x.2.tag = t ∧ Op.changes o = some p := by
  obtain ⟨_ | ⟨o, k⟩, v⟩ := x
  · cases h
  · obtain ⟨p', hp, heq⟩ := Option.map_eq_some_iff.1 h
    obtain ⟨ht, rfl⟩ := Prod.mk.inj heq
    exact ⟨o, k, rfl, ht, hp⟩

/-- The install of a link in the empty root, stopped when it makes the link. -/
@[irreducible] def linkRun :
    Prog (calls Part) (Except String Package × Globals) × World Part :=
  Prog.execFor Op.answer 39 (installLocked default emptyRootTx (.ok ⟨[danglingComponent]⟩) {})
    lockedRoot

theorem reach_linkRun :
    Prog.Reach (sem Kernel.steady) (installLocked default emptyRootTx (.ok ⟨[danglingComponent]⟩) {})
      lockedRoot linkRun.1 linkRun.2 := by
  unfold linkRun
  exact Prog.reach_execFor sem_answer 39 _ _

theorem writes_confined_link :
    ∃ o k, linkRun.1 = .call o k ∧ linkRun.2.tag = .payload ∧
      Direct Kernel.steady emptyRootTx.stage emptyRootTx.stage (isReserved · = false) o linkRun.2
        (emptyRootTx.stage ++ [packageName, linkName]) := by
  have hx : pendingChange linkRun =
      some (.payload, emptyRootTx.stage ++ [packageName, linkName]) := by decide +kernel
  obtain ⟨o, k, ho, ht, hp⟩ := pendingChange_eq_some hx
  have hreach := reach_linkRun
  rw [ho] at hreach
  have h := writes_confined Kernel.steady default ⟨[danglingComponent]⟩
    (.inr (by simp [danglingComponent, linkComponent]))
  exact ⟨o, k, ho, ht, (h.1 emptyRootTx emptyRoot lockedRoot {} o k linkRun.2 _ ⟨0o755, rfl⟩ rfl
    reach_lockedRoot hreach hp).1 ht⟩

end MiniDarwin.Installer
