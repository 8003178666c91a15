import MiniDarwin.Installer.History

/-!
Offline installs that run to the end.

The published root is the tree `lock_and_recover ()` left at the root,
copied, with the components in it (`wp_installLocked`). On the way, the
payload and the receipts are written beneath the stage only.
-/

namespace MiniDarwin.Installer

open Posix Effects Effects.Proc

variable {K : Kernel Part} {tx : Tx} {pkg : Package} {g g' : Globals} {w w' : World Part}
  {p q : Path} {env : Env} {fs fs' : Fs} {α β : Type}

/-! ### Functions that belong to one part of a run -/

/-- No call begins another part of the run. -/
def OnePart (m : M α) : Prop :=
  ∀ K g w, wp (sem K) (fun o _ => ∀ t, o ≠ .enter t) m (fun _ _ _ => True) (fun _ _ _ => True) g w

namespace OnePart

theorem pure (a : α) : OnePart (Pure.pure a) := fun _ _ _ => trivial

theorem get : OnePart (Proc.get : M Globals) := fun _ _ _ => trivial

theorem bind {m : M α} {f : α → M β} (h : OnePart m) (hf : ∀ a, OnePart (f a)) :
    OnePart (m >>= f) := fun K g w =>
  wp_bind.2 (wp.post (h K g w) (fun a _ _ _ => hf a K _ _) (fun _ _ _ => id))

theorem ask {o : Op Part} (ho : ∀ t, o ≠ .enter t) : OnePart (Posix.ask o) :=
  fun _ _ _ => wp_ask.2 ⟨ho, fun _ _ _ => trivial⟩

theorem ite {p : Prop} [Decidable p] {m n : M α} (hm : OnePart m) (hn : OnePart n) :
    OnePart (if p then m else n) := by
  split
  · exact hm
  · exact hn

theorem each {γ : Type} {f : γ → M Unit} (hf : ∀ x, OnePart (f x)) (l : List γ) :
    OnePart (Proc.each f l) := by
  induction l with
  | nil => exact .pure _
  | cons x l ih => exact (hf x).bind fun _ => ih

/-- A part of the run that has been entered is not left. -/
theorem wp {m : M α} (h : OnePart m) {E : Op Part → World Part → Prop}
    (hE : ∀ o v, v.tag = w.tag → E o v) :
    Proc.wp (sem K) E m (fun _ _ _ => True) (fun _ _ _ => True) g w :=
  (wp_sameRun (h K g w) fun _ _ => id).mono (fun o v hx => hE o v hx.2.tag) (fun _ _ _ _ => trivial)
    (fun _ _ _ _ => trivial)

end OnePart

theorem onePart_removeNode {removeDir : Path → Stat → M Bool} (h : ∀ p st, OnePart (removeDir p st)) :
    OnePart (removeNode removeDir p) := by
  refine (OnePart.ask (by simp)).bind fun r => ?_
  split
  · exact .pure _
  · refine .ite ((OnePart.ask (by simp)).bind fun r => ?_) (h _ _)
    split <;> exact .pure _

theorem onePart_removeTree {left : Nat} : OnePart (removeTree left p) := by
  induction left generalizing p with
  | zero => exact onePart_removeNode fun _ _ => .pure _
  | succ left ih =>
      have each : ∀ (p : Path) (names : List Name), OnePart (removeEach (removeTree left) p names) := by
        intro p names
        induction names with
        | nil => exact .pure _
        | cons n names ih' =>
            exact (OnePart.ite (.pure _) ih).bind fun _ => ih'.bind fun _ => .pure _
      refine onePart_removeNode fun p st => (OnePart.ask (by simp)).bind fun r => ?_
      split
      · exact .pure _
      · refine (OnePart.ask (by simp)).bind fun r => ?_
        split
        · exact .pure _
        · refine (each _ _).bind fun _ => .ite ((OnePart.ask (by simp)).bind fun r => ?_) (.pure _)
          split <;> exact .pure _

theorem onePart_rollback : OnePart (rollback tx) := by
  refine OnePart.bind ?_ fun _ => .ite (onePart_removeTree.bind fun _ => .pure _) (.pure _)
  refine OnePart.get.bind fun _ => .ite (.pure _) ((OnePart.ask (by simp)).bind fun r => ?_)
  split
  · exact .pure _
  · refine (OnePart.ask (by simp)).bind fun r => ?_
    split
    · exact .pure _
    · refine (OnePart.ask (by simp)).bind fun r => ?_
      split <;> exact .pure _

/-! ### What is written where -/

/-- The payload and the receipts are written beneath the directory `b`, which is
`B`; nothing is said about the other parts of a run. -/
def Confined (b B : Path) (o : Op Part) (v : World Part) : Prop :=
  (v.tag = .payload → (∃ t, o = .enter t) ∨ GrowsSince b B (isReserved · = false) o v) ∧
    (v.tag = .receipts → (∃ t, o = .enter t) ∨ GrowsSince b B (fun q => ∃ c, RecordPath c q) o v)

theorem Confined.of_main {b B : Path} {o : Op Part} (h : w.tag = .main) : Confined b B o w := by
  constructor <;> intro ht <;> simp [h] at ht

theorem Confined.of_dying {b B : Path} {o : Op Part} (h : w.tag = .dying) : Confined b B o w := by
  constructor <;> intro ht <;> simp [h] at ht

/-- Above a path that is not reserved there is none. -/
theorem isReserved_of_isPrefix (h : isReserved q = false) (hp : p <+: q) : isReserved p = false := by
  unfold isReserved pathHasPrefix at *
  simp only [Bool.or_eq_false_iff, decide_eq_false_iff_not] at *
  exact ⟨⟨fun h1 => h.1.1 (h1.trans hp), fun h1 => h.1.2 (h1.trans hp)⟩,
    fun h1 => h.2 (h1.trans hp)⟩

theorem ComponentCalls.confined {b B t T : Path} {c : Component} {o : Op Part}
    (h : ComponentCalls b B t T c o w) (hfree : ∀ e ∈ c.payload, isReserved e.path = false) :
    Confined b B o w := by
  rcases h with ⟨x, rfl⟩ | h
  · exact ⟨fun _ => .inl ⟨x, rfl⟩, fun _ => .inl ⟨x, rfl⟩⟩
  · constructor <;> intro ht <;> rw [ht] at h
    · refine .inr ⟨h.1.mono (Fs.Kept.refl _) ?_, h.2⟩
      rintro q ⟨-, e, he, hq⟩
      exact isReserved_of_isPrefix (hfree e he) hq
    · exact .inr ⟨h.1.mono (Fs.Kept.refl _) fun q hq => ⟨c, hq⟩, h.2⟩

theorem PrepareCalls.confined {cs : List Component} {o : Op Part} (h : PrepareCalls tx cs o w)
    (hfree : ∀ c ∈ cs, ∀ e ∈ c.payload, isReserved e.path = false) :
    Confined tx.stage tx.stage o w := by
  obtain ⟨fs0, (⟨c, hc, h⟩ | ⟨ht, -⟩) | ⟨ht, -⟩⟩ := h
  · exact h.confined (hfree c hc)
  · exact .of_main ht
  · exact .of_main ht

/-! ### `install_package ()`, to the end -/

/-- What is filled may be moved. -/
theorem Filled.moved {R S T : Path} {cs : List Component} {fs1 fs2 : Fs}
    (h : Filled env fs R cs fs1 S) (hT : ∀ q, fs2.get (T ++ q) = fs1.get (S ++ q)) :
    Filled env fs R cs fs2 T := by
  refine ⟨⟨?_, ?_, ?_, h.checked⟩, ?_, ?_, ?_⟩
  · intro c hc e he
    have := h.inPlace c hc e he
    unfold InPlace at this ⊢
    rwa [hT]
  · intro c hc
    have := h.recorded c hc
    unfold Recorded at this ⊢
    simpa only [hT] using this
  · intro p hp t
    rw [hT]
    exact h.hasLinks p hp t
  · intro q hq
    rw [hT]
    exact h.old q hq
  · intro q hq
    rw [hT] at hq
    exact h.only q hq
  · rw [hT]
    exact h.noScripts

theorem wp_transact (hcs : ∀ c ∈ pkg.components, Harmless K c)
    (hfree : ∀ c ∈ pkg.components, ∀ e ∈ c.payload, isReserved e.path = false)
    (hdir : w.fs.IsDir tx.dir) (hroot : w.fs.IsDir tx.root) (horig : w.fs.get tx.original = none)
    (htag : w.tag = .main) :
    wp (sem K) (Confined tx.stage tx.stage) (transact env tx pkg)
      (fun _ _ w' => Filled env w.fs tx.root pkg.components w'.fs tx.root) (fun _ _ _ => True)
      {} w := by
  have hprep := stays_prepare (K := K) env pkg (g := {}) hcs hfree hdir hroot rfl
    rfl rfl htag
  refine wp_bind.2 (wp.mono hprep (fun o v h => h.confined hfree) ?_ (fun _ _ _ _ => trivial))
  rintro _ g1 w1 ⟨hprep, htag1, hfilled⟩
  have hroot1 : w1.fs.IsDir tx.root := by
    obtain ⟨m, hm⟩ := hroot
    exact ⟨m, by simpa [hm] using hprep.root []⟩
  have hdir1 : w1.fs.IsDir tx.dir := by
    obtain ⟨m, hm⟩ := hdir
    exact ⟨m, hprep.dir.trans hm⟩
  have hpub := wp_publish (K := K) (g := g1) hdir1 hroot1 (hfilled.isDir hroot)
    (hprep.original.trans horig) hprep.published
  refine wp.mono (wp_sameRun hpub fun _ _ h => h.not_enter) (fun o v h => ?_) ?_
    (fun _ _ _ _ => trivial)
  · exact .of_main (h.2.tag.trans htag1)
  · exact fun _ _ _ h => hfilled.moved h.1

/-- `preflight ()` places `pkg` as `pkg'` in the tree `fs`. -/
def Places (env : Env) (tx : Tx) (fs : Fs) (pkg pkg' : Package) : Prop :=
  ∃ (K : Kernel Part) (w : World Part) (g : Globals) (v : World Part), w.fs = fs ∧
    Prog.Reach (sem K) (preflight env tx.root pkg {}) w (.ret (.ok pkg', g)) v

theorem wp_installLocked (hscripts : Scriptless env pkg) (hparent : w.fs.IsDir tx.parent)
    (hroot : w.fs.IsDir tx.root) (hgone : w.fs.get tx.dir = none) (htag : w.tag = .main) :
    wp (sem K) (Confined tx.stage tx.stage) (installLocked env tx (.ok pkg))
      (fun pkg' _ w' => Places env tx w.fs pkg pkg' ∧ pkg.PlacedAs env pkg' ∧
        Filled env w.fs tx.root pkg'.components w'.fs tx.root)
      (fun _ _ _ => True) {} w := by
  unfold installLocked
  refine wp_bind.2 (wp.mono (wp.and (finds_preflight K {} w) wp_reach) ?_ ?_
    (fun _ _ _ _ => trivial))
  · rintro o v ⟨⟨-, rfl⟩, -⟩
    exact .of_main htag
  rintro pkg' g1 w1 ⟨⟨⟨rfl, rfl⟩, hplaced⟩, hreach⟩
  refine wp_bind.2 (wp_call_sem (.of_main htag) (fun _ => trivial) fun _ w2 hs => ?_)
  obtain ⟨c, hc, hm⟩ := sem_makes (v := .dir 0o700) rfl hs
  have hloc : locate w1.fs tx.dir = .ok tx.dir :=
    locate_of_isDir (b := tx.parent) (at_self hparent) (by simp) (by simpa using hparent)
  obtain rfl : tx.dir = c := Except.ok.inj (hloc.symm.trans hc)
  have hroot2 : ∀ q, w2.fs.get (tx.root ++ q) = w1.fs.get (tx.root ++ q) := by
    intro q
    have hne : tx.root ++ q ≠ tx.dir := fun heq => tx.dir_apart q (heq ▸ List.prefix_refl _)
    rw [hm.get, if_neg hne]
  have hdir2 : w2.fs.IsDir tx.dir := ⟨_, by rw [hm.get, if_pos rfl]⟩
  have hisroot2 : w2.fs.IsDir tx.root := by
    obtain ⟨m, hm'⟩ := hroot
    exact ⟨m, by simpa [hm'] using hroot2 []⟩
  have horig2 : w2.fs.get tx.original = none := by
    rw [hm.get, if_neg (by simp [Tx.original])]
    exact Fs.get_append_eq_none hgone
  refine wp_bind.2 (wp_onFail.2 (wp.post (wp_transact
    (fun c hc => .inl fun k => hplaced.no_hooks hscripts hc k) (fun c hc => hplaced.free hc)
    hdir2 hisroot2 horig2 (hm.tag.trans htag)) ?_ ?_))
  · intro _ g3 w3 hfilled
    exact ⟨⟨K, w1, _, w1, rfl, hreach⟩, hplaced, hfilled.congr fun q => (hroot2 q).symm⟩
  · intro _ g3 w3 _
    have hent : Confined tx.stage tx.stage (.enter .dying) w3 :=
      ⟨fun _ => .inl ⟨_, rfl⟩, fun _ => .inl ⟨_, rfl⟩⟩
    exact wp_bind.2 (wp_enter hent (onePart_rollback.wp fun o v hv => .of_dying hv))

/-! ### Links of the published root -/

/-- No component has a link at a path that was looked up when the links of a
component before it were checked. -/
def Independent (L : Path → Option Str) (cs : List Component) : Prop :=
  ∀ l c l', cs = l ++ c :: l' → ∀ e ∈ c.payload, e.link ≠ none →
    ∀ c' ∈ l', ∀ e' ∈ c'.payload, e'.link ≠ none →
      ¬ Visits (links L (l ++ [c])) scriptsDir [] (e.path.map .down) e'.path

theorem links_of_independent {L : Path → Option Str} {l l' : List Component} {c : Component}
    (h : ∀ c' ∈ l', ∀ e' ∈ c'.payload, e'.link ≠ none → e'.path ≠ p) :
    links L (l ++ c :: l') p = links L (l ++ [c]) p := by
  have hnone : l'.findSome? (fun c' => c'.linkAt p) = none := by
    rw [List.findSome?_eq_none_iff]
    intro c' hc'
    by_contra hne
    obtain ⟨t, ht⟩ := Option.ne_none_iff_exists'.1 hne
    obtain ⟨-, e', he', heq, s, hs, -⟩ := c'.linkAt_eq_some ht
    exact h c' hc' e' he' (by simp [hs]) heq
  rw [show l ++ c :: l' = l ++ [c] ++ l' by simp]
  unfold links
  rw [List.findSome?_append, hnone, Option.or_none]

theorem Filled.not_escapes {R S : Path} {cs : List Component} (h : Filled env fs R cs fs' S)
    (hind : Independent (linkAt fs R) cs) {c : Component} (hc : c ∈ cs) {e : Entry}
    (he : e ∈ c.payload) (hl : e.link ≠ none) : ¬ Escapes fs' S [] (e.path.map .down) := by
  by_cases hne : e.path = []
  · rw [hne]
    nofun
  obtain ⟨l, l', hcs⟩ := List.append_of_mem hc
  obtain ⟨L, hchecked, hL⟩ := h.checked l c l' hcs e he hne hl
  refine hchecked.not_escapes h.noScripts fun p hv => ?_
  obtain ⟨hv', hp⟩ := hv.congr (by simp [scriptsDir]) hL
  by_cases hs : scriptsDir <+: p
  · -- the walk ends at the work area, which is gone
    left
    obtain ⟨s, rfl⟩ := hs
    rw [← List.append_assoc]
    exact Fs.get_append_eq_none h.noScripts
  · right
    intro t
    rw [h.hasLinks p hs t, hL p hp, hcs, links_of_independent]
    rintro c' hc' e' he' hl' rfl
    exact hind l c l' hcs e he hl c' hc' e' he' hl' hv'

theorem Places.placedAs {pkg' : Package} (h : Places env tx fs pkg pkg') : pkg.PlacedAs env pkg' := by
  obtain ⟨K, w, g, v, -, hr⟩ := h
  exact (Prog.Spec.reach (finds_preflight K {} w) hr).2

/-- A package of one component is checked with all its links in place. -/
theorem independent_single {L : Path → Option Str} (c : Component) : Independent L [c] := by
  intro l d l' heq e _ _ c' hc'
  have hlen := congrArg List.length heq
  simp only [List.length_append, List.length_cons, List.length_nil] at hlen
  obtain rfl := List.length_eq_zero_iff.1 (by omega : l'.length = 0)
  cases hc'

def packageName : Name := nm "p".toList

/-- A component whose payload is one link. -/
def linkComponent (identifier : Name) (path : Path) (target : LinkTarget) : Component where
  identifier
  location := []
  bom := []
  payload := [{ path, mode := 0o755, content := .symlink target }]
  scripts := []
  hooks _ := none

/-- `/p/l`, a link to a name that may be missing. -/
def danglingComponent : Component :=
  linkComponent linkName [packageName, linkName]
    ⟨"m/../../x".toList, by decide, by decide, by decide⟩

/-- `/p/m`, a link to the directory above. -/
def upwardComponent : Component :=
  linkComponent (nm "b".toList) [packageName, nm "m".toList]
    ⟨"..".toList, by decide, by decide, by decide⟩

/-- The empty root when it has been locked. -/
def lockedRoot : World Part := ((lockAndRecover emptyRootTx {}).exec Op.answer emptyRoot).2

theorem reach_lockedRoot :
    Prog.Reach (sem K) (lockAndRecover emptyRootTx {}) emptyRoot (.ret (.ok (), {})) lockedRoot :=
  Prog.reach_exec sem_answer (lockAndRecover emptyRootTx {}) emptyRoot

/-- The install of a package in the empty root. -/
@[irreducible] def installRun (pkg : Package) : (Except String Package × Globals) × World Part :=
  (installLocked default emptyRootTx (.ok pkg) {}).exec Op.answer lockedRoot

theorem reach_installRun (pkg : Package) :
    Prog.Reach (sem K) (installLocked default emptyRootTx (.ok pkg) {}) lockedRoot
      (.ret (installRun pkg).1) (installRun pkg).2 := by
  unfold installRun
  exact Prog.reach_exec sem_answer _ _

/-- The links of a package that was installed. -/
def installedLinks : Except String Package → List (Path × Option Str)
  | .ok pkg => pkg.components.flatMap fun c => c.payload.map fun e => (e.path, e.link.map (·.1))
  | .error _ => []

/-- A run that has installed a link. -/
theorem reach_of_installedLinks {t : Str} (h : (p, some t) ∈ installedLinks (installRun pkg).1.1) :
    ∃ pkg' g',
      Prog.Reach (sem K) (installLocked default emptyRootTx (.ok pkg) {}) lockedRoot
        (.ret (.ok pkg', g')) (installRun pkg).2 ∧
      ∃ c ∈ pkg'.components, ∃ e ∈ c.payload, e.path = p ∧ e.link ≠ none := by
  have hreach := reach_installRun (K := K) pkg
  generalize installRun pkg = x at h hreach
  obtain ⟨⟨r, g'⟩, v⟩ := x
  cases r with
  | error _ => simp [installedLinks] at h
  | ok pkg' =>
      obtain ⟨c, hc, h⟩ := List.mem_flatMap.1 h
      obtain ⟨e, he, heq⟩ := List.mem_map.1 h
      obtain ⟨rfl, hl⟩ := Prod.mk.inj heq
      exact ⟨pkg', g', hreach, c, hc, e, he, rfl, by rintro hn; simp [hn] at hl⟩

end MiniDarwin.Installer
