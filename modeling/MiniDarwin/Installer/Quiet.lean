import MiniDarwin.Installer.Live

/-!
Functions that only look.

`Looks m` says that no call of `m` changes anything and that `m` leaves its
own variables alone, whatever tree it is run in. It holds of a function
because it holds of its parts; nothing has to be known of the paths that
are looked at.
-/

namespace MiniDarwin.Installer

open Posix Effects Effects.Proc

variable {α β γ : Type} {K : Kernel Part} {E : Op Part → World Part → Prop}
  {X : Globals → World Part → Globals → World Part → Prop} {g g' : Globals} {w w' : World Part}
  {P : α → Globals → World Part → Prop} {env : Env} {base rel workdir : Path} {c : Component}

/-- Nothing has changed. -/
def Same (g : Globals) (w : World Part) (g' : Globals) (w' : World Part) : Prop :=
  g' = g ∧ w' = w

theorem Same.refl : Same g w g w := ⟨rfl, rfl⟩

def Looks (m : M α) : Prop :=
  ∀ K g w, Stays (sem K) (fun o v => o.quiet = true ∧ v = w) Same m (fun _ _ _ => True) g w

namespace Looks

theorem pure (a : α) : Looks (Pure.pure a) := fun _ _ _ => ⟨Same.refl, trivial⟩

theorem die (msg : String) : Looks (Installer.die msg : M α) := fun _ _ _ => Same.refl

theorem get : Looks (Proc.get : M Globals) := fun _ _ _ => ⟨Same.refl, trivial⟩

theorem bind {m : M α} {f : α → M β} (h : Looks m) (hf : ∀ a, Looks (f a)) : Looks (m >>= f) := by
  intro K g w
  refine wp_bind.2 (wp.post (h K g w) ?_ (fun _ _ _ => id))
  rintro a _ _ ⟨⟨rfl, rfl⟩, -⟩
  exact hf a K _ _

theorem ask {o : Op Part} (ho : o.quiet = true) : Looks (Posix.ask o) :=
  fun _ _ _ => wp_quiet ho ⟨ho, rfl⟩ fun _ _ => ⟨Same.refl, trivial⟩

theorem call {o : Op Part} {msg : Errno → String} (ho : o.quiet = true) :
    Looks (Installer.call o msg) := by
  intro K g w
  refine wp_call.2 (wp_quiet ho ⟨ho, rfl⟩ fun r _ => ?_)
  cases r with
  | error e => exact Same.refl
  | ok r => exact ⟨Same.refl, trivial⟩

theorem ite {p : Prop} [Decidable p] {m n : M α} (hm : Looks m) (hn : Looks n) :
    Looks (if p then m else n) := by
  split
  · exact hm
  · exact hn

theorem each {f : γ → M Unit} {l : List γ} (hf : ∀ x, Looks (f x)) : Looks (Proc.each f l) := by
  induction l with
  | nil => exact Looks.pure ()
  | cons x l ih => exact (hf x).bind fun _ => ih

theorem foldlM {f : α → γ → M α} {l : List γ} {a : α} (hf : ∀ a x, Looks (f a x)) :
    Looks (l.foldlM f a) := by
  induction l generalizing a with
  | nil => exact Looks.pure a
  | cons x l ih =>
      rw [List.foldlM_cons]
      exact (hf a x).bind fun _ => ih

/-- What comes after a look starts where the look started. -/
theorem bind_wp {m : M α} {f : α → M β} {Q : β → Globals → World Part → Prop}
    {D : String → Globals → World Part → Prop} (h : Looks m) (hE : ∀ o, o.quiet = true → E o w)
    (hD : ∀ msg, D msg g w) (hf : ∀ a, wp (sem K) E (f a) Q D g w) :
    wp (sem K) E (m >>= f) Q D g w := by
  refine wp_bind.2 (wp.mono (h K g w) ?_ ?_ ?_)
  · rintro o _ ⟨ho, rfl⟩
    exact hE o ho
  · rintro a _ _ ⟨⟨rfl, rfl⟩, -⟩
    exact hf a
  · rintro msg _ _ ⟨rfl, rfl⟩
    exact hD msg

theorem bind_stays {m : M α} {f : α → M β} {P : β → Globals → World Part → Prop} (h : Looks m)
    (hE : ∀ o, o.quiet = true → E o w) (hr : X g w g w)
    (hf : ∀ a, Stays (sem K) E X (f a) P g w) : Stays (sem K) E X (m >>= f) P g w :=
  h.bind_wp hE (fun _ => hr) hf

theorem stays {m : M α} (h : Looks m) (hE : ∀ o, o.quiet = true → E o w) (hr : X g w g w)
    (hP : ∀ a, P a g w) : Stays (sem K) E X m P g w := by
  refine wp.mono (h K g w) ?_ ?_ ?_
  · rintro o _ ⟨ho, rfl⟩
    exact hE o ho
  · rintro a _ _ ⟨⟨rfl, rfl⟩, -⟩
    exact ⟨hr, hP a⟩
  · rintro _ _ _ ⟨rfl, rfl⟩
    exact hr

end Looks

/-- A look whose result is known to satisfy `R`. -/
def Finds (m : M α) (R : α → Prop) : Prop :=
  ∀ K g w, Stays (sem K) (fun o v => o.quiet = true ∧ v = w) Same m (fun a _ _ => R a) g w

theorem Looks.finds {m : M α} (h : Looks m) : Finds m fun _ => True := h

namespace Finds

variable {R : α → Prop}

theorem pure {a : α} (h : R a) : Finds (Pure.pure a) R := fun _ _ _ => ⟨Same.refl, h⟩

theorem die (msg : String) : Finds (Installer.die msg : M α) R := fun _ _ _ => Same.refl

theorem ite {p : Prop} [Decidable p] {m n : M α} (hm : Finds m R) (hn : Finds n R) :
    Finds (if p then m else n) R := by
  split
  · exact hm
  · exact hn

theorem imp {m : M α} {R' : α → Prop} (h : Finds m R') (hR : ∀ a, R' a → R a) : Finds m R :=
  fun K g w => wp.post (h K g w) (fun a _ _ ha => ⟨ha.1, hR a ha.2⟩) (fun _ _ _ => id)

theorem bind {m : M β} {f : β → M α} {R' : β → Prop} (h : Finds m R')
    (hf : ∀ a, R' a → Finds (f a) R) : Finds (m >>= f) R := by
  intro K g w
  refine wp_bind.2 (wp.post (h K g w) ?_ (fun _ _ _ => id))
  rintro a _ _ ⟨⟨rfl, rfl⟩, ha⟩
  exact hf a ha K _ _

end Finds

/-! ### `util.c` -/

theorem looks_strJoin {a b : Str} : Looks (strJoin a b) :=
  .ite (.pure _) (.ite (.pure _) (.ite (.die _) (.pure _)))

theorem looks_relJoin {a b : Path} : Looks (relJoin a b) :=
  .ite (.pure _) (.ite (.pure _) (.ite (.die _) (.pure _)))

theorem looks_hostJoin {a b : Path} : Looks (hostJoin a b) :=
  .ite (.pure _) (.ite (.die _) (.pure _))

theorem looks_pathExists {p : Path} : Looks (pathExists p) := by
  refine (Looks.ask rfl).bind fun r => ?_
  split
  · exact .pure _
  · exact .pure _
  · exact .die _

theorem looks_entriesAppend {l : List α} {e : α} : Looks (entriesAppend l e) :=
  .ite (.die _) (.pure _)

theorem looks_entriesCheckPaths {l : List Entry} {b : Bool} : Looks (entriesCheckPaths l b) := by
  unfold entriesCheckPaths
  simp only
  split
  · exact .die _
  · split
    · exact .die _
    · exact .pure _

theorem looks_pathParent {host : Path} : Looks (pathParent false host) := by
  refine (Looks.ask rfl).bind fun r => ?_
  cases r with
  | ok st => exact .ite (.die _) (.pure _)
  | error e => exact .ite (.die _) (.pure _)

theorem looks_pathParentsFrom {done rest : Path} :
    Looks (pathParentsFrom base false done rest) := by
  induction rest generalizing done with
  | nil => exact .pure _
  | cons n rest ih =>
      cases rest with
      | nil => exact .pure _
      | cons m rest =>
          exact looks_hostJoin.bind fun host => looks_pathParent.bind fun _ => ih

theorem looks_readlink {p : Path} : Looks (readlink p) :=
  (Looks.call rfl).bind fun _ => .pure _

theorem looks_applyOwnership {p : Path} : Looks (applyOwnership env p) := .ite (.call rfl) (.pure _)

theorem looks_setTimes {p : Path} {t : Timespec} : Looks (setTimes p t) := .call rfl

theorem looks_fileSha256 {p : Path} : Looks (fileSha256 env p) :=
  (Looks.call rfl).bind fun _ => .pure _

/-! ### `resolve_target_path ()` -/

theorem looks_resolveWith {rel : Str} {followLast : Bool}
    {onLink : Path → Path → Path → Str → M Path} (h : ∀ d n x t, Looks (onLink d n x t))
    {done : Path} {l : List (Token × Str)} : Looks (resolveWith base rel followLast onLink done l) := by
  induction l generalizing done with
  | nil => exact .pure _
  | cons x l ih =>
      unfold resolveWith
      split
      · exact ih
      · split
        · exact .ite (.die _) ih
        · refine looks_relJoin.bind fun next => looks_hostJoin.bind fun host =>
            (Looks.ask rfl).bind fun r => ?_
          cases r with
          | ok st => exact .ite (h _ _ _ _) (.ite (.die _) ih)
          | error e => exact .ite (.die _) ih

theorem looks_resolve {rel todo : Str} {followLast live : Bool} {hops : Nat} {done : Path} :
    Looks (resolve base rel followLast live hops done todo) := by
  induction hops generalizing done todo with
  | zero => exact looks_resolveWith fun _ _ _ _ => .die _
  | succ hops ih =>
      refine looks_resolveWith fun _ _ _ _ => looks_readlink.bind fun t => .ite (.ite ?_ (.die _)) ?_
      · exact looks_strJoin.bind fun _ => ih
      · exact looks_strJoin.bind fun _ => ih

theorem looks_resolveBeneath {rel : Str} {followLast : Bool} :
    Looks (resolveBeneath base rel followLast) := Looks.get.bind fun _ => looks_resolve

/-! ### `preflight ()` -/

theorem looks_placedPath {e : Entry} : Looks (placedPath base e) := by
  refine .ite looks_resolveBeneath (looks_resolveBeneath.bind fun r => ?_)
  split
  · exact .pure _
  · exact looks_relJoin

/-- Nothing leads away from the root itself. -/
theorem finds_placedPath {e : Entry} :
    Finds (placedPath base e) fun p => ∀ n, e.path = [n] → e.isDir = false → p = [n] := by
  by_cases htop : e.isDir = false ∧ ∃ n, e.path = [n]
  · obtain ⟨hdir, n, hn⟩ := htop
    have heq : placedPath base e = (do
        let _ ← get
        pure [n]) := by
      unfold placedPath
      rw [if_neg (by simp [hdir]), hn]
      rfl
    rw [heq]
    exact Looks.get.finds.bind fun _ _ => .pure fun m hm _ => hn.symm.trans hm
  · exact looks_placedPath.finds.imp fun p _ n hn hdir => absurd ⟨hdir, n, hn⟩ htop

/-- A payload entry and where it was placed. -/
structure Entry.PlacedAs (e e' : Entry) : Prop where
  mode : e'.mode = e.mode
  content : e'.content = e.content
  free : isReserved e'.path = false
  top : ∀ n, e.path = [n] → e.isDir = false → e'.path = [n]

/-- A component as it was packaged and as it is installed. -/
structure Component.PlacedAs (env : Env) (c c' : Component) : Prop where
  identifier : c'.identifier = c.identifier
  hooks : c'.hooks = (c.skip env).hooks
  payload : List.Forall₂ Entry.PlacedAs c.payload c'.payload

theorem finds_placeEntry {e : Entry} : Finds (placeEntry base e) e.PlacedAs := by
  have key : ∀ (e' : Entry) (msg : String), e'.mode = e.mode → e'.content = e.content →
      (∀ n, e.path = [n] → e.isDir = false → e'.path = [n]) →
      Finds (if isReserved e'.path then die msg else pure e') e.PlacedAs := by
    intro e' msg hm hc htop
    split
    · exact .die _
    · next h => exact .pure ⟨hm, hc, by simpa using h, htop⟩
  refine finds_placedPath.bind fun placed htop => ?_
  by_cases h : placed = e.path
  · simpa only [h, if_true] using key e _ rfl rfl fun _ hn _ => hn
  · simpa only [h, if_false] using key { e with packagePath := some e.path, path := placed } _ rfl rfl htop

theorem finds_placeEntries {all es : List Entry} :
    Finds (placeEntries base all es) fun x => List.Forall₂ Entry.PlacedAs es x.1 := by
  induction es generalizing all with
  | nil => exact .pure .nil
  | cons e es ih =>
      exact finds_placeEntry.bind fun _ he => looks_entriesAppend.finds.bind fun _ _ =>
        ih.bind fun _ hes => .pure (.cons he hes)

theorem finds_placeComponents {all : List Entry} {cs : List Component} :
    Finds (placeComponents base all cs) fun x =>
      List.Forall₂ (fun c c' => ∃ es, List.Forall₂ Entry.PlacedAs c.payload es ∧
        c' = { c with payload := es }) cs x.1 := by
  induction cs generalizing all with
  | nil => exact .pure .nil
  | cons c cs ih =>
      exact finds_placeEntries.bind fun _ he => ih.bind fun _ hcs => .pure (.cons ⟨_, he, rfl⟩ hcs)

theorem finds_placePayload {pkg : Package} :
    Finds (placePayload base pkg) fun x =>
      List.Forall₂ (fun c c' => ∃ es, List.Forall₂ Entry.PlacedAs c.payload es ∧
        c' = { c with payload := es }) pkg.components x.components :=
  finds_placeComponents.bind fun _ h => looks_entriesCheckPaths.finds.bind fun _ _ => .pure h

theorem looks_preflightEntry {e : Entry} : Looks (preflightEntry base e) := by
  refine .ite (.pure _) (looks_pathParentsFrom.bind fun _ => looks_hostJoin.bind fun _ =>
    (Looks.ask rfl).bind fun r => ?_)
  cases r with
  | ok st => exact .ite (.pure _) (.die _)
  | error e => exact .pure _

theorem looks_preflightRecord {r : Record} : Looks (preflightRecord base c r) :=
  looks_pathParentsFrom.bind fun _ => looks_hostJoin.bind fun _ =>
    looks_pathExists.bind fun _ => .ite (.die _) (.pure _)

theorem looks_preflightComponent : Looks (preflightComponent env base c) :=
  Looks.get.bind fun _ => (Looks.each fun _ => .ite (.die _) (.pure _)).bind fun _ =>
    (Looks.each fun _ => looks_preflightRecord).bind fun _ => .each fun _ => looks_preflightEntry

/-- A package as it passes `preflight ()`: the same components, their payload
placed outside of what is reserved. -/
def Package.PlacedAs (env : Env) (pkg pkg' : Package) : Prop :=
  List.Forall₂ (Component.PlacedAs env) pkg.components pkg'.components

theorem finds_preflight {pkg : Package} :
    Finds (preflight env base pkg) fun x => pkg.PlacedAs env x := by
  refine finds_placePayload.bind fun x hx => ?_
  refine (Looks.each fun _ => looks_preflightComponent).finds.bind fun _ _ => ?_
  refine looks_hostJoin.finds.bind fun _ _ => looks_pathExists.finds.bind fun _ _ => ?_
  refine .ite (.die _) (.pure ?_)
  simp only [Package.PlacedAs, List.forall₂_map_right_iff]
  refine hx.imp ?_
  rintro c _ ⟨es, hes, rfl⟩
  unfold Component.skip
  split
  · exact ⟨rfl, by simp [Component.skip, *], hes⟩
  · exact ⟨rfl, by simp [Component.skip, *], hes⟩

theorem Package.PlacedAs.exists_of_mem {pkg pkg' : Package} (h : pkg.PlacedAs env pkg')
    (hc : c ∈ pkg'.components) : ∃ c0 ∈ pkg.components, c0.PlacedAs env c := by
  have mem : ∀ {l l' : List Component}, List.Forall₂ (Component.PlacedAs env) l l' → c ∈ l' →
      ∃ c0 ∈ l, c0.PlacedAs env c := by
    intro l l' hl
    induction hl with
    | nil => simp
    | cons hx _ ih =>
        intro hc
        rcases List.mem_cons.1 hc with rfl | hc
        · exact ⟨_, by simp, hx⟩
        · obtain ⟨c0, h0, hp⟩ := ih hc
          exact ⟨c0, by simp [h0], hp⟩
  exact mem h hc

theorem Package.PlacedAs.free {pkg pkg' : Package} (h : pkg.PlacedAs env pkg')
    (hc : c ∈ pkg'.components) : ∀ e ∈ c.payload, isReserved e.path = false := by
  obtain ⟨c0, -, hp⟩ := h.exists_of_mem hc
  have free : ∀ {l l' : List Entry}, List.Forall₂ Entry.PlacedAs l l' →
      ∀ e ∈ l', isReserved e.path = false := by
    intro l l' hl
    induction hl with
    | nil => simp
    | cons hx _ ih =>
        intro e he
        rcases List.mem_cons.1 he with rfl | he
        · exact hx.free
        · exact ih e he
  exact free hp.payload

/-- No script of the package is run. -/
def Scriptless (env : Env) (pkg : Package) : Prop :=
  env.skipScripts = true ∨ ∀ c ∈ pkg.components, ∀ h, c.hooks h = none

theorem Package.PlacedAs.no_hooks {pkg pkg' : Package} (h : pkg.PlacedAs env pkg')
    (hs : Scriptless env pkg) (hc : c ∈ pkg'.components) (k : Hook) : c.hooks k = none := by
  obtain ⟨c0, h0, hp⟩ := h.exists_of_mem hc
  rw [hp.hooks, Component.skip]
  rcases hs with hs | hs
  · simp [hs]
  · split
    · rfl
    · exact hs c0 h0 k

/-! ### Within `install_component ()` -/

theorem looks_checkPayloadSymlinks : Looks (checkPayloadSymlinks base c) := by
  refine .each fun e => ?_
  unfold checkLink
  split
  · exact .pure _
  · exact looks_strJoin.bind fun _ => looks_resolveBeneath.bind fun _ => .pure _

theorem looks_snapshotEntry : Looks (snapshotEntry env base rel) := by
  refine looks_hostJoin.bind fun _ => (Looks.call rfl).bind fun st => ?_
  split
  · exact looks_fileSha256.bind fun _ => .pure _
  · exact looks_readlink.bind fun _ => .pure _
  · exact .pure _
  · exact .die _

theorem looks_snapshotWalk {left : Nat} {out : List Snapshot} :
    Looks (snapshotWalk env base left rel out) := by
  induction left generalizing rel out with
  | zero => exact .die _
  | succ left ih =>
      refine looks_snapshotEntry.bind fun _ => looks_entriesAppend.bind fun _ => .ite (.pure _) ?_
      refine looks_hostJoin.bind fun _ => (Looks.call rfl).bind fun _ => .foldlM fun _ _ => ?_
      exact looks_relJoin.bind fun _ => ih

theorem looks_scriptChanges {out : List (String × Snapshot)} {before after : List Snapshot} :
    Looks (scriptChanges out before after) := by
  refine Looks.bind (.foldlM fun _ _ => ?_) fun _ => .foldlM fun _ _ => ?_
  · split
    · exact looks_entriesAppend
    · exact .ite (.pure _) looks_entriesAppend
  · split
    · exact looks_entriesAppend
    · exact .pure _

/-- The scripts of a component make no difference to the tree: there are none, or
a child process can do nothing. -/
def Harmless (K : Kernel Part) (c : Component) : Prop :=
  (∀ h, c.hooks h = none) ∨ ∀ fs fs', K.child fs fs' → fs' = fs

/-- A call that looks, or runs a script. -/
def Op.mild (o : Op Part) : Prop := o.quiet = true ∨ ∃ argv, o = .spawn argv

theorem stays_runHook {hook : Hook} {f : Unit → M α} (hc : Harmless K c)
    (hE : ∀ o, Op.mild o → E o w) (hX : X g w g w) (hf : Stays (sem K) E X (f ()) P g w) :
    Stays (sem K) E X (runHook env base c hook workdir >>= f) P g w := by
  have hq : ∀ o : Op Part, o.quiet = true → E o w := fun o ho => hE o (.inl ho)
  unfold runHook
  cases hh : c.hooks hook with
  | none => exact wp_bind.2 hf
  | some name =>
      have hidle := hc.resolve_left fun h => by simp [h hook] at hh
      refine Stays.assoc_left (looks_hostJoin.bind_stays hq hX fun script => ?_)
      refine Stays.assoc_left (looks_hostJoin.bind_stays hq hX fun target => ?_)
      refine Stays.assoc_left ((Looks.ite (.call rfl) (.pure _)).bind_stays hq hX fun _ => ?_)
      refine Stays.assoc_left (wp_bind.2 (wp_call_sem (hE _ (.inr ⟨_, rfl⟩)) (fun _ => hX) ?_))
      rintro status w' ⟨fs, hfs, rfl⟩
      obtain rfl := hidle _ _ hfs
      cases status with
      | true => exact wp_bind.2 hf
      | false => exact wp_bind.2 hX

theorem stays_runHooks {first last : Hook} {changes : List (String × Snapshot)}
    {f : List (String × Snapshot) → M α} (hc : Harmless K c)
    (hE : ∀ o, Op.mild o → E o w) (hX : X g w g w)
    (hf : ∀ l, Stays (sem K) E X (f l) P g w) :
    Stays (sem K) E X (runHooks env base c first last workdir changes >>= f) P g w := by
  have hq : ∀ o : Op Part, o.quiet = true → E o w := fun o ho => hE o (.inl ho)
  have snapshot : ∀ live, Looks (snapshotUnlessLive env base live) :=
    fun _ => .ite (.pure _) looks_snapshotWalk
  unfold runHooks
  split
  · refine Stays.assoc_left (Looks.get.bind_stays hq hX fun _ => ?_)
    refine Stays.assoc_left ((snapshot _).bind_stays hq hX fun before => ?_)
    refine Stays.assoc_left (stays_runHook hc hE hX ?_)
    refine Stays.assoc_left (stays_runHook hc hE hX ?_)
    refine Stays.assoc_left ((snapshot _).bind_stays hq hX fun after => ?_)
    exact looks_scriptChanges.bind_stays hq hX hf
  · exact wp_bind.2 (hf changes)

theorem looks_installedEntries {es : List Entry} : Looks (installedEntries env base es) := by
  induction es with
  | nil => exact .pure _
  | cons e es ih =>
      exact looks_hostJoin.bind fun _ => (Looks.call rfl).bind fun _ =>
        looks_snapshotEntry.bind fun _ => ih.bind fun _ => .pure _

end MiniDarwin.Installer
