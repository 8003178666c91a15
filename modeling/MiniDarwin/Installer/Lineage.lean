import MiniDarwin.Installer.Consists
import MiniDarwin.Installer.History

/-!
What an offline root becomes by any number of installs.

Each run publishes one tree or none. What it publishes is the tree it found,
with its components in it, and no component in it had a receipt before. So the
tree at the root, or put aside while there is none, is at every moment the tree
there was in the beginning, with the components of the transactions that were
published and nothing else.
-/

namespace MiniDarwin.Installer

open Posix Effects Effects.Proc

variable {K : Kernel Part} {tx : Tx} {pkg pkg' : Package} {g g' : Globals} {w w' : World Part} {p q : Path} {env : Env}
  {fs fs' : Fs} {b B t T R S : Path} {c : Component} {cs : List Component}

/-! ### Receipts that were not there -/

theorem wp_const {α : Type} {m : M α} {P : Prop} (h : P) :
    wp (sem K) (fun _ _ => True) m (fun _ _ _ => P) (fun _ _ _ => True) g w :=
  wp_trivial.post (fun _ _ _ _ => h) fun _ _ _ => id

theorem free_of_kept (h : fs.Kept fs') (hp : fs'.get p = none) : fs.get p = none := by
  by_contra hne
  exact hne ((h p hne).symm.trans hp)

/-- The receipt is created, so it was not there. -/
theorem stays_receiptsWrite_free (changes : List (String × Snapshot)) (hr : Ready fs b B w) :
    Stays (sem K) (Grows fs b B (RecordPath c)) (Grew b B (RecordPath c)) (receiptsWrite env b c changes)
      (fun _ _ _ => w.fs.get (B ++ Record.plist.path c.identifier) = none) g w := by
  refine (wp.and (stays_receiptsWrite env c changes hr) (C := fun _ _ _ => True)
    (R := fun _ _ _ => w.fs.get (B ++ Record.plist.path c.identifier) = none) (F := fun _ _ => True) ?_).mono
    (fun _ _ h => h.1) (fun _ _ _ h => ⟨h.1.1, h.2⟩) (fun _ _ _ h => h.1)
  unfold receiptsWrite writePlist
  refine wp_bind.2 (wp_bind.2 (wp.mono (stays_pathParents hr (RecordPath.parents .plist)) (fun _ _ _ => trivial) ?_
    (fun _ _ _ _ => trivial)))
  rintro _ g1 w1 ⟨hg1, hd⟩
  have hr1 := hr.grew hg1
  refine wp_bind.2 (wp_hostJoin (fun _ => ?_) fun _ _ => trivial)
  refine wp.mono (stays_fileWrite _ _ hr1 ⟨rfl, Record.path_ne_nil .plist _, hr1.base, hd, RecordPath.self .plist⟩)
    (fun _ _ _ => trivial) ?_ (fun _ _ _ _ => trivial)
  rintro _ g2 w2 ⟨-, hfree, -⟩
  exact wp_const (free_of_kept hg1.kept hfree)

theorem stays_installComponent_free (env : Env) (hh : Hooked g) (hc : Harmless K c) (hb : At w.fs b B)
    (ht : At w.fs t T) :
    Stays (sem K) (fun _ _ => True) (Ran b B t T (RootPath c) (· = c.identifier)) (installComponent env b c t)
      (fun _ _ _ => w.fs.get (B ++ Record.plist.path c.identifier) = none) g w := by
  unfold installComponent
  refine stays_hostJoin Ran.refl fun hfits => ?_
  refine (stays_during (w := w) (I := fun _ => True) (stays_unpackScripts
      (w := { w with tag := .scripts, since := w.fs }) hh ht hfits) (fun _ _ _ _ => trivial) (fun _ _ => trivial)
    (fun _ _ h => h) (fun _ _ _ h => h)).bind Ran.trans fun _ g1 w1 hr1 _ => ?_
  refine stays_runHooks hc (fun _ _ => trivial) Ran.refl fun changes => ?_
  have hpay := stays_extract (K := K) env c.payload
    (w := { w1 with tag := .payload, since := w1.fs }) (hr1.hooked hh)
    ⟨hb.kept hr1.kept, Fs.Kept.refl _⟩ (covers_payload (c := c))
  refine (stays_during (w := w1) (I := fun fs => ∀ e ∈ c.payload, InPlace fs B e)
    (hpay.mono (Y := Ran b B t T (RootPath c) (· = c.identifier)) (fun _ _ => id)
      (fun _ _ h => h.ran fun _ => .inl) (fun _ _ _ _ => id)) (fun _ _ _ _ => trivial) (fun _ _ => trivial)
    (fun _ _ h => h) (fun _ _ _ h => h)).bind Ran.trans fun _ g2 w2 hr2 ⟨_, hin⟩ => ?_
  have hb2 : At w2.fs b B := (hb.kept hr1.kept).kept hr2.kept
  refine (stays_checkPayloadSymlinks hb2 (fun _ _ => trivial) Ran.refl hin).bind Ran.trans ?_
  rintro _ g2 w2 - ⟨⟨rfl, rfl⟩, -⟩
  refine stays_runHooks hc (fun _ _ => trivial) Ran.refl fun changes' => ?_
  have hrec : Stays (sem K) _ _ (receiptsWrite env b c changes') _ g2 _ :=
    stays_receiptsWrite_free (w := { w2 with tag := .receipts, since := w2.fs }) changes' ⟨hb2, Fs.Kept.refl _⟩
  refine (stays_during (w := w2) (I := fun _ => w2.fs.get (B ++ Record.plist.path c.identifier) = none)
    (hrec.mono (Y := Ran b B t T (RootPath c) (· = c.identifier)) (fun _ _ => id)
      (fun _ _ h => h.ran fun _ => .inr) (fun _ _ _ _ => id)) (fun _ _ _ _ => trivial) (fun _ _ => trivial)
    (fun _ _ h => h) (fun _ _ _ h => h)).post ?_
  rintro _ g3 w3 - ⟨-, hfree⟩
  exact free_of_kept hr1.kept (free_of_kept hr2.kept hfree)

/-- None of the components had a receipt, and no two are one. -/
structure Unrecorded (cs : List Component) (fs : Fs) (R : Path) : Prop where
  free : ∀ c ∈ cs, fs.get (R ++ Record.plist.path c.identifier) = none
  distinct : cs.Pairwise fun c c' => c.identifier ≠ c'.identifier

theorem Unrecorded.snoc (h : Unrecorded cs fs R) (hc : fs.get (R ++ Record.plist.path c.identifier) = none)
    (hne : ∀ c' ∈ cs, c'.identifier ≠ c.identifier) : Unrecorded (cs ++ [c]) fs R := by
  refine ⟨fun c' hc' => ?_, List.pairwise_append.2 ⟨h.distinct, List.pairwise_singleton _ _, ?_⟩⟩
  · rcases List.mem_append.1 hc' with hc' | hc'
    · exact h.free c' hc'
    · obtain rfl := List.mem_singleton.1 hc'
      exact hc
  · intro c' hc' d hd
    obtain rfl := List.mem_singleton.1 hd
    exact hne c' hc'

theorem wp_components_free (env : Env) (hh : Hooked g) (hcs : ∀ c ∈ cs, Harmless K c) (hb : At w.fs b B)
    (ht : At w.fs t T) :
    wp (sem K) (fun _ _ => True) (each (fun c => installComponent env b c t) cs)
      (fun _ _ _ => Unrecorded cs w.fs B) (fun _ _ _ => True) g w := by
  refine (wp_each (fun l g' w' => ∃ done, cs = done ++ l ∧ Hooked g' ∧ w.fs.Kept w'.fs ∧ Unrecorded done w.fs B ∧
    ∀ c ∈ done, w'.fs.get (B ++ Record.plist.path c.identifier) ≠ none) ?_
    ⟨[], rfl, hh, Fs.Kept.refl _, ⟨by simp, .nil⟩, by simp⟩).post ?_ fun _ _ _ => id
  · rintro c l g1 w1 ⟨done, heq, hh1, hk, hun, hrec⟩
    have hc : Harmless K c := hcs c (by simp [heq])
    refine wp.mono (wp.and (stays_installComponent (K := K) env c hh1 hc (hb.kept hk) (ht.kept hk))
      (stays_installComponent_free (K := K) env hh1 hc (hb.kept hk) (ht.kept hk))) (fun _ _ _ => trivial) ?_
      (fun _ _ _ _ => trivial)
    rintro _ g2 w2 ⟨⟨hran, -, hinst⟩, -, hfree⟩
    have hplist := hinst.recorded.1
    refine ⟨done ++ [c], by simp [heq], hran.hooked hh1, hk.trans hran.kept, ?_, ?_⟩
    · refine hun.snoc (free_of_kept hk hfree) fun c' hc' hid => hrec c' hc' ?_
      rw [hid, hfree]
    · intro c' hc'
      rcases List.mem_append.1 hc' with hc' | hc'
      · rw [hran.kept _ (hrec c' hc')]
        exact hrec c' hc'
      · obtain rfl := List.mem_singleton.1 hc'
        simp [hplist]
  · rintro _ g' w' ⟨done, rfl, -, -, hfree, -⟩
    rwa [List.append_nil]

theorem record_ne_scripts (r : Record) (id : Name) : r.path id ≠ scriptsDir := by
  have hlen : ∀ r : Record, 0 < r.dir.length := by
    intro r
    cases r <;> decide
  intro heq
  have h1 : scriptsDir.length = 1 := rfl
  have h2 := congrArg List.length heq
  have h3 := hlen r
  simp only [Record.path, List.length_append, List.length_singleton] at h2
  omega

theorem wp_fillStage_free (env : Env) (hcs : ∀ c ∈ pkg.components, Harmless K c) (hdir : w.fs.IsDir tx.dir)
    (hroot : w.fs.IsDir tx.root) (hg : g.createHook = false) (hlive : g.live = false) :
    wp (sem K) (fun _ _ => True) (fillStage env tx pkg) (fun _ _ _ => Unrecorded pkg.components w.fs tx.root)
      (fun _ _ _ => True) g w := by
  unfold fillStage
  refine wp_copyStage hdir hroot hg (fun _ _ _ _ => trivial) (fun _ _ _ _ _ => trivial) ?_
  rintro g1 w1 - - hg1 hlive1 - hcopied -
  have hS1 : w1.fs.IsDir tx.stage := by
    obtain ⟨m, hm⟩ := hroot
    have := hcopied []
    rw [List.append_nil, List.append_nil, hm, if_neg (by decide)] at this
    exact ⟨_, this⟩
  have hT1 : w1.fs.IsDir tx.scripts := ⟨_, (hcopied scriptsDir).trans (if_pos rfl)⟩
  refine wp_bind.2 ((wp_components_free (B := tx.stage) (T := tx.scripts) env (by rw [Hooked, hg1, hlive1, hlive]) hcs
    (at_self hS1) (at_self hT1)).post ?_ fun _ _ _ => id)
  intro _ g2 w2 hun
  refine wp_const ⟨fun c hc => ?_, hun.distinct⟩
  -- the stage is a copy of the root
  have hfree := hun.free c hc
  rw [hcopied, if_neg (record_ne_scripts _ _)] at hfree
  simpa using hfree

theorem wp_prepare_free (env : Env) (hcs : ∀ c ∈ pkg.components, Harmless K c) (hdir : w.fs.IsDir tx.dir)
    (hroot : w.fs.IsDir tx.root) (hg : g.createHook = false) (hlive : g.live = false) :
    wp (sem K) (fun _ _ => True) (prepare env tx pkg) (fun _ _ _ => Unrecorded pkg.components w.fs tx.root)
      (fun _ _ _ => True) g w := by
  unfold prepare
  refine wp_bind.2 (wp_hostJoin (fun _ => ?_) fun _ _ => trivial)
  have hbe : Beneath w tx.dir tx.dir (· = [Tx.targetName]) (tx.dir ++ [Tx.targetName])
      [Tx.targetName] := ⟨rfl, by simp, at_self hdir, by simpa using hdir, rfl⟩
  refine wp_bind.2 (wp.mono (stays_fileWrite (K := K) (g := g) tx.rootBytes 0o600
    ⟨at_self hdir, Fs.Kept.refl _⟩ hbe) (fun _ _ _ => trivial) ?_ (fun _ _ _ _ => trivial))
  rintro _ g1 w1 ⟨hg1, -⟩
  have hp := hg1.preparing
  obtain ⟨_, _, _, _, hgeq⟩ := hg1
  refine wp_bind.2 (wp_call.2 (wp_quiet rfl trivial fun r _ => ?_))
  cases r with
  | error e => trivial
  | ok _ =>
      have hdir1 : w1.fs.IsDir tx.dir := by
        obtain ⟨m, hm⟩ := hdir
        exact ⟨m, hp.dir.trans hm⟩
      have hroot1 : w1.fs.IsDir tx.root := by
        obtain ⟨m, hm⟩ := hroot
        exact ⟨m, by simpa [hm] using hp.root []⟩
      refine (wp_fillStage_free (K := K) (g := g1) env hcs hdir1 hroot1 (by rw [hgeq]; exact hg)
        (by rw [hgeq]; exact hlive)).post ?_ fun _ _ _ => id
      rintro _ _ _ ⟨hfree, hdistinct⟩
      exact ⟨fun c hc => (hp.root _).symm.trans (hfree c hc), hdistinct⟩

/-! ### What descends from the first tree -/

/-- What a run published: the components, as they were placed. -/
structure Publication where
  env : Env
  components : List Component

/-- The directory `R` holds the tree `first` with what was published since, and nothing else. A link target of the first
tree may have been cut to the size of a buffer. -/
structure Descends (first : Path → Option Node) (l : List Publication) (fs : Fs) (R : Path) : Prop where
  old : ∀ q v, first q = some v → fs.get (R ++ q) = some v ∨ fs.get (R ++ q) = some (Node.copied v)
  inPlace : ∀ x ∈ l, ∀ c ∈ x.components, ∀ e ∈ c.payload, InPlace fs R e
  recorded : ∀ x ∈ l, ∀ c ∈ x.components, Recorded x.env fs R c
  only : ∀ q, fs.get (R ++ q) ≠ none → first q ≠ none ∨ ∃ x ∈ l, ∃ s, Delivered x.components (q ++ s)
  noScripts : l ≠ [] → fs.get (R ++ scriptsDir) = none

/-- No component was published twice, and none had a receipt in the first tree. -/
structure Once (first : Path → Option Node) (l : List Publication) : Prop where
  free : ∀ x ∈ l, ∀ c ∈ x.components, first (Record.plist.path c.identifier) = none
  distinct : (l.flatMap Publication.components).Pairwise fun c c' => c.identifier ≠ c'.identifier

variable {first : Path → Option Node} {l : List Publication}

theorem descends_nil : Descends (treeAt fs R) [] fs R where
  old := fun _ _ h => .inl h
  only := fun _ h => .inl h
  inPlace := by simp
  recorded := by simp
  noScripts := by simp

theorem once_nil : Once first [] := ⟨by simp, .nil⟩

theorem Descends.congr (h : Descends first l fs R) (heq : treeAt fs' S = treeAt fs R) : Descends first l fs' S := by
  have hget : ∀ q, fs'.get (S ++ q) = fs.get (R ++ q) := congrFun heq
  refine ⟨fun q v hv => ?_, fun x hx c hc e he => ?_, fun x hx c hc => ?_, fun q hq => ?_, fun hl => ?_⟩
  · rw [hget]
    exact h.old q v hv
  · have := h.inPlace x hx c hc e he
    unfold InPlace at this ⊢
    rwa [hget]
  · have := h.recorded x hx c hc
    unfold Recorded at this ⊢
    simpa only [hget] using this
  · rw [hget] at hq
    exact h.only q hq
  · rw [hget]
    exact h.noScripts hl

@[simp] theorem Node.copied_copied (v : Node) : Node.copied (Node.copied v) = Node.copied v := by
  cases v with
  | link t => simp [Node.copied, List.take_take]
  | _ => rfl

/-- An entry that is in place is so in a copy: the target of its link is short. -/
theorem Entry.Matches.copied {e : Entry} {v : Node} (h : e.Matches v) : e.Matches (Node.copied v) := by
  unfold Entry.Matches at h ⊢
  cases hc : e.content with
  | directory =>
      rw [hc] at h
      cases v <;> exact h
  | file data =>
      rw [hc] at h
      exact congrArg Node.copied h
  | symlink t =>
      rw [hc] at h
      rw [show v = .link t.1 from h]
      exact congrArg Node.link (take_short t.2.2.2)

/-- One more transaction. -/
theorem Descends.filled (h : Descends first l fs R) (hf : Filled env fs R cs fs' S) :
    Descends first (l ++ [⟨env, cs⟩]) fs' S := by
  have copied : ∀ {q v}, fs.get (R ++ q) = some v → fs'.get (S ++ q) = some (Node.copied v) := by
    intro q v hv
    rw [hf.old q (by simp [hv]), hv, Option.map_some]
  refine ⟨fun q v hv => .inr ?_, ?_, ?_, fun q hq => ?_, fun _ => hf.noScripts⟩
  · rcases h.old q v hv with hq | hq
    · exact copied hq
    · rw [copied hq, Node.copied_copied]
  · intro x hx c hc e he
    rcases List.mem_append.1 hx with hx | hx
    · refine (h.inPlace x hx c hc e he).imp id ?_
      rintro ⟨v, hv, hm⟩
      exact ⟨Node.copied v, copied hv, hm.copied⟩
    · obtain rfl := List.mem_singleton.1 hx
      exact hf.inPlace c hc e he
  · intro x hx c hc
    rcases List.mem_append.1 hx with hx | hx
    · obtain ⟨h1, h2, i, ch, h3⟩ := h.recorded x hx c hc
      exact ⟨copied h1, copied h2, i, ch, copied h3⟩
    · obtain rfl := List.mem_singleton.1 hx
      exact hf.recorded c hc
  · rcases hf.only q hq with hq | ⟨c, hc, hroot⟩
    · refine (h.only q hq).imp id ?_
      rintro ⟨x, hx, hs⟩
      exact ⟨x, List.mem_append_left _ hx, hs⟩
    · exact .inr ⟨_, List.mem_append_right _ (List.mem_singleton_self _), hroot.delivered hc⟩

theorem Once.unrecorded (h : Once first l) (hd : Descends first l fs R) (hun : Unrecorded cs fs R) :
    Once first (l ++ [⟨env, cs⟩]) := by
  have free : ∀ {q}, fs.get (R ++ q) = none → first q = none := by
    intro q hq
    cases hv : first q with
    | none => rfl
    | some v => rcases hd.old q v hv with hold | hold <;> simp [hq] at hold
  refine ⟨?_, ?_⟩
  · intro x hx c hc
    rcases List.mem_append.1 hx with hx | hx
    · exact h.free x hx c hc
    · obtain rfl := List.mem_singleton.1 hx
      exact free (hun.free c hc)
  · rw [List.flatMap_append, List.flatMap_singleton]
    refine List.pairwise_append.2 ⟨h.distinct, hun.distinct, ?_⟩
    -- what was published before has its receipt
    intro c hc c' hc' hid
    obtain ⟨x, hx, hcx⟩ := List.mem_flatMap.1 hc
    have h1 := (hd.recorded x hx c hcx).1
    rw [hid, hun.free c' hc'] at h1
    cases h1

/-! ### The notes of one run -/

section

variable {E : Op Part → World Part × Notes → Prop} {x : World Part × Notes} {old new : Path → Option Node} {s : Notes}

theorem wp_watched_syncDir {Q : Unit → Globals → World Part × Notes → Prop}
    {D : String → Globals → World Part × Notes → Prop} (hE : ∀ o, E o x) (hD : ∀ msg, D msg g x) (hQ : Q () g x) :
    wp (watched K tx) E (syncDir p) Q D g x := by
  refine wp_call.2 (wp_ask.2 ⟨hE _, ?_⟩)
  rintro r ⟨w', s'⟩ ⟨hs, hn⟩
  obtain rfl := sem_quiet rfl hs
  have hx : (x.1, s') = x := Prod.ext rfl hn
  rw [hx]
  cases r with
  | error e => exact hD _
  | ok _ => exact hQ

/-- What recovers has nothing to note. -/
theorem wp_watched_recovers_same {α : Type} {m : M α} {Q : α → Globals → World Part → Prop}
    {D : String → Globals → World Part → Prop} (h : wp (sem K) (Recovers tx) m Q D g w) :
    wp (watched K tx) (fun _ x => x.2 = s) m (fun a g' x => Q a g' x.1 ∧ x.2 = s) (fun e g' x => D e g' x.1 ∧ x.2 = s) g
      (w, s) := by
  refine (wp.observed (I := fun x => x.2 = s) h ?_ rfl).mono (fun _ _ hx => hx.2) (fun _ _ _ => id) fun _ _ _ => id
  rintro o v r v' _ ho rfl -
  exact ho.note

/-- What only looks has nothing to note. -/
theorem wp_watched_finds_same {α : Type} {m : M α} {R : α → Prop} (h : Finds m R) :
    wp (watched K tx) (fun _ x => x = (w, s)) m (fun a g' x => R a ∧ g' = g ∧ x = (w, s)) (fun _ _ x => x = (w, s)) g
      (w, s) := by
  refine (wp.observed (I := fun x => x = (w, s)) (h K g w) ?_ rfl).mono (fun _ _ hx => hx.2) ?_ (fun _ _ _ hx => hx.2)
  · rintro o v r v' c ⟨ho, rfl⟩ hx hs
    obtain rfl := sem_quiet ho hs
    obtain rfl : c = s := congrArg Prod.snd hx
    have hspares : Spares K tx o v' := Spares.of_quiet ho
    rw [(hspares r _ hs).2]
  · rintro a g' x ⟨⟨hsame, hr⟩, rfl⟩
    exact ⟨hr, hsame.1, rfl⟩

/-- Nothing is published yet, or `new` is. -/
def Pending (old new : Path → Option Node) (s : Notes) : Prop := s = some (old, none) ∨ s = some (old, some new)

/-- The end of `publish ()` has nothing to note. -/
theorem wp_watched_published (hdir : w.fs.IsDir tx.dir) (hroot : w.fs.get tx.root ≠ none) :
    wp (watched K tx) (fun _ x => Pending old new x.2)
      (do
        syncDir tx.parent
        syncDir tx.dir
        let _ ← removeTree (limitDepth + 1) tx.dir
        pure ())
      (fun _ _ x => x.2 = some (old, some new)) (fun _ _ x => Pending old new x.2) g (w, some (old, some new)) := by
  have hafter : Pending old new (some (old, some new)) := .inr rfl
  refine wp_bind.2 (wp_watched_syncDir (fun _ => hafter) (fun _ => hafter) ?_)
  refine wp_bind.2 (wp_watched_syncDir (fun _ => hafter) (fun _ => hafter) ?_)
  have hrem := sure_removeDir (K := K) (g := g) (isDir_parent_of_dir hdir) (.inl hroot)
  refine wp_bind.2 ((wp_watched_recovers_same hrem).mono ?_ ?_ ?_)
  · rintro _ ⟨_, _⟩ rfl
    exact hafter
  · rintro _ _ ⟨_, _⟩ ⟨-, rfl⟩
    exact wp_pure.2 rfl
  · rintro _ _ ⟨_, _⟩ ⟨h, -⟩
    exact h.elim

theorem wp_watched_publish (hdir : w.fs.IsDir tx.dir) (hroot : w.fs.IsDir tx.root) (hstage : w.fs.IsDir tx.stage)
    (horig : w.fs.get tx.original = none) (hnew : treeAt w.fs tx.stage = new) :
    wp (watched K tx) (fun _ x => Pending old new x.2) (publish tx) (fun _ _ x => x.2 = some (old, some new))
      (fun _ _ x => Pending old new x.2) g (w, some (old, none)) := by
  have hbefore : Pending old new (some (old, none)) := .inl rfl
  unfold publish
  refine wp_bind.2 (wp_watched_syncDir (fun _ => hbefore) (fun _ => hbefore) ?_)
  refine wp_bind.2 (wp_watched_syncDir (fun _ => hbefore) (fun _ => hbefore) ?_)
  -- the old root is put aside
  refine wp_bind.2 (wp_call.2 (wp_ask.2 ⟨hbefore, ?_⟩))
  rintro r ⟨w1, s1⟩ ⟨hs, rfl⟩
  cases r with
  | error e =>
      rw [note_error]
      exact hbefore
  | ok _ =>
      have hne : tx.root ≠ tx.stage := fun heq => tx.not_root_stage (heq ▸ List.prefix_refl _)
      have hnote : note tx (.rename tx.root tx.original) w (.ok ()) (some (old, none)) = some (old, none) :=
        if_neg fun hc => hne hc.1
      simp only [hnote]
      obtain ⟨hdir1, hsame, hroot1⟩ := aside_of_moved (moved_aside hdir hroot horig hs)
      have hstage1 : treeAt w1.fs tx.stage = new := (funext hsame).trans hnew
      refine wp_bind.2 (wp_watched_syncDir (fun _ => hbefore) (fun _ => hbefore) ?_)
      refine wp_bind.2 (wp_watched_syncDir (fun _ => hbefore) (fun _ => hbefore) ?_)
      -- the stage takes its place
      refine wp_bind.2 (wp_call.2 (wp_ask.2 ⟨hbefore, ?_⟩))
      rintro r ⟨w2, s2⟩ ⟨hs, rfl⟩
      cases r with
      | error e =>
          rw [note_error]
          exact hbefore
      | ok _ =>
          have hnote2 : note tx (.rename tx.stage tx.root) w1 (.ok ()) (some (old, none)) = some (old, some new) := by
            rw [← hstage1]
            exact if_pos ⟨rfl, rfl⟩
          simp only [hnote2]
          have hsd1 : w1.fs.IsDir tx.stage := by
            obtain ⟨m, hm⟩ := hstage
            exact ⟨m, by simpa [hm] using hsame []⟩
          obtain ⟨hdir2, hroot2⟩ := published_of_moved (moved_in hdir1 hsd1 hroot1 hs) hdir1 hsd1
          exact wp_bind.2 (wp_modify.2 (wp_watched_published hdir2 hroot2))

/-- `pkg'` is `pkg` as it was placed, and `new` the tree `old` with the components of `pkg'` in it. -/
def Extended (env : Env) (pkg pkg' : Package) (old new : Path → Option Node) : Prop :=
  pkg.PlacedAs env pkg' ∧ ∃ fs R fs' S, treeAt fs R = old ∧ treeAt fs' S = new ∧
    Filled env fs R pkg'.components fs' S ∧ Unrecorded pkg'.components fs R

/-- Nothing is published yet, or the components are. -/
def Underway (env : Env) (pkg pkg' : Package) (old : Path → Option Node) (s : Notes) : Prop :=
  s = some (old, none) ∨ ∃ new, Extended env pkg pkg' old new ∧ s = some (old, some new)

theorem Pending.underway (h : Pending old new s) (hext : Extended env pkg pkg' old new) : Underway env pkg pkg' old s :=
  h.imp id fun h => ⟨new, hext, h⟩

/-- From the marker to the published root. -/
theorem wp_watched_transact_notes (hK : ChildIdle K) (hplaced : pkg.PlacedAs env pkg') (hdir : w.fs.IsDir tx.dir)
    (hroot : w.fs.IsDir tx.root) (horig : w.fs.get tx.original = none) (htag : w.tag = .main)
    (hold : treeAt w.fs tx.root = old) :
    wp (watched K tx) (fun _ x => Underway env pkg pkg' old x.2) (transact env tx pkg')
      (fun _ _ x => ∃ new, Extended env pkg pkg' old new ∧ x.2 = some (old, some new))
      (fun _ _ x => Underway env pkg pkg' old x.2) {} (w, some (old, none)) := by
  have hfree : ∀ c ∈ pkg'.components, ∀ e ∈ c.payload, isReserved e.path = false := fun c hc => hplaced.free hc
  have hprep := wp.and
    (stays_prepare (K := K) env pkg' (g := {}) (fun _ _ => .inr hK) hfree hdir hroot rfl rfl rfl htag)
    (wp_prepare_free (K := K) env (fun _ _ => .inr hK) hdir hroot rfl rfl)
  refine wp_bind.2 ((wp.observed (I := fun x => x.2 = some (old, none)) hprep ?_ rfl).mono
    (fun _ _ hx => .inl hx.2) ?_ (fun _ _ _ hx => .inl hx.2))
  · rintro o v r v' _ ho rfl hs
    exact (ho.1.spares hK r v' hs).2 _
  rintro _ g1 ⟨w1, s1⟩ ⟨⟨⟨hprep, htag1, hfilled⟩, hun⟩, rfl⟩
  have hroot1 : w1.fs.IsDir tx.root := by
    obtain ⟨m, hm⟩ := hroot
    exact ⟨m, by simpa [hm] using hprep.root []⟩
  have hdir1 : w1.fs.IsDir tx.dir := by
    obtain ⟨m, hm⟩ := hdir
    exact ⟨m, hprep.dir.trans hm⟩
  have hext : Extended env pkg pkg' old (treeAt w1.fs tx.stage) :=
    ⟨hplaced, w.fs, tx.root, w1.fs, tx.stage, hold, rfl, hfilled, hun⟩
  refine (wp_watched_publish hdir1 hroot1 (hfilled.isDir hroot) (hprep.original.trans horig) rfl).mono ?_ ?_ ?_
  · exact fun _ _ hx => hx.underway hext
  · exact fun _ _ _ hx => ⟨_, hext, hx⟩
  · exact fun _ _ _ hx => hx.underway hext

/-- The tree at the root, or put aside while there is none, is `t`, as the notes have it. -/
def Stands (tx : Tx) (t : Path → Option Node) (x : World Part × Notes) : Prop :=
  (x.2 = none → x.1.fs.get tx.root ≠ none ∧ treeAt x.1.fs tx.root = t) ∧
    ∀ old pub, x.2 = some (old, pub) → pub.getD old = t

/-- The tree stands that was found, or one with the components of the package in it. -/
def Continues (tx : Tx) (env : Env) (pkg : Except String Package) (t : Path → Option Node) (x : World Part × Notes) :
    Prop :=
  Stands tx t x ∨ ∃ p pkg' new, pkg = .ok p ∧ Extended env p pkg' t new ∧ Stands tx new x

theorem stands_some {pub : Option (Path → Option Node)} : Stands tx (pub.getD old) (w, some (old, pub)) := by
  refine ⟨by simp, ?_⟩
  rintro _ _ ⟨⟩
  rfl

theorem Underway.continues {p : Package} (h : Underway env p pkg' old x.2) :
    Continues tx env (.ok p) old x := by
  obtain ⟨w, s⟩ := x
  rcases h with rfl | ⟨new, hext, rfl⟩
  · exact .inl stands_some
  · exact .inr ⟨p, pkg', new, rfl, hext, stands_some⟩

/-- Where there is a root, the notes have its tree. -/
theorem Stands.root_eq {t : Path → Option Node} (h : Stands tx t (w, s)) (hc : Coherent tx w.fs s)
    (hroot : w.fs.IsDir tx.root) : treeAt w.fs tx.root = t := by
  cases s with
  | none => exact (h.1 rfl).2
  | some y => exact (hc.root_eq hroot).trans (h.2 y.1 y.2 rfl)

theorem Stands.recovers {t : Path → Option Node} {o : Op Part} {r : Except Errno o.Val} (h : Stands tx t (w, s))
    (hc : Coherent tx w.fs s) (ho : Recovers tx o w) (hs : sem K o w r w') : Stands tx t (w', note tx o w r s) := by
  rw [ho.note]
  refine ⟨fun hn => ?_, h.2⟩
  obtain ⟨hroot, htree⟩ := h.1 hn
  have hsame := (ho.rooted hs hc.parent hroot).2
  refine ⟨?_, (funext hsame).trans htree⟩
  have := hsame []
  rw [List.append_nil] at this
  rwa [this]

/-- The same with the `die` hook set, which notes nothing. -/
theorem wp_watched_guarded_notes (hK : ChildIdle K) (hl : LstatHolds K) (hplaced : pkg.PlacedAs env pkg')
    (hdir : w.fs.IsDir tx.dir) (hroot : w.fs.IsDir tx.root) (horig : w.fs.get tx.original = none)
    (htag : w.tag = .main) (hold : treeAt w.fs tx.root = old) (hp : Preparatory tx w.fs (some (old, none))) :
    wp (watched K tx) (fun _ x => Underway env pkg pkg' old x.2)
      (onFail (do let _ ← ask (.enter .dying); rollback tx) (transact env tx pkg'))
      (fun _ _ x => ∃ new, Extended env pkg pkg' old new ∧ Stands tx new x)
      (fun _ _ x => Underway env pkg pkg' old x.2) {} (w, some (old, none)) := by
  have htr := wp.and (wp_watched_transact hK (fun c hc => hplaced.free hc) hdir hroot horig rfl htag hp)
    (wp_watched_transact_notes hK hplaced hdir hroot horig htag hold)
  refine wp_onFail.2 (htr.mono (fun _ _ hx => hx.2) ?_ ?_)
  · rintro _ g1 ⟨w1, s1⟩ ⟨-, new, hext, rfl⟩
    exact ⟨new, hext, stands_some⟩
  · rintro _ g1 ⟨w1, s1⟩ ⟨⟨hc, hund⟩, hs⟩
    refine wp_bind.2 (wp_ask.2 ⟨hs, ?_⟩)
    rintro r ⟨w2, s2⟩ ⟨hr, rfl⟩
    have hw2 : w2 = { w1 with tag := .dying, since := w1.fs } := by
      cases r with
      | error e =>
          obtain ⟨-, hr | hr⟩ := hr
          · simp [Op.run] at hr
          · exact hr.elim
      | ok z => exact (congrArg Prod.snd (Except.ok.inj hr)).symm
    subst hw2
    have hrb := wp_rollback (K := K) (g := g1) (w := { w1 with tag := .dying, since := w1.fs }) hl rfl hund.1 hund.2
    refine (wp_watched_recovers_same hrb).mono ?_ ?_ ?_
    · rintro _ ⟨_, _⟩ rfl
      exact hs
    · rintro _ _ ⟨_, _⟩ ⟨-, rfl⟩
      exact hs
    · rintro _ _ ⟨_, _⟩ ⟨-, rfl⟩
      exact hs

theorem wp_watched_lineage {pkg : Except String Package} {t : Path → Option Node} (hK : ChildIdle K)
    (hl : LstatHolds K) (htag : w.tag = .main) (hc : Coherent tx w.fs s) (hst : Stands tx t (w, s)) :
    wp (watched K tx) (fun _ x => Continues tx env pkg t x) (installOffline env tx pkg)
      (fun pkg' _ x => ∃ p new, pkg = .ok p ∧ Extended env p pkg' t new ∧ Stands tx new x)
      (fun _ _ x => Continues tx env pkg t x) {} (w, s) := by
  unfold installOffline
  have hlock : wp (watched K tx) _ (lockAndRecover tx) _ _ _ _ :=
    wp.observed (I := fun x => Coherent tx x.1.fs x.2 ∧ Stands tx t x) (wp_lockAndRecover (K := K) (g := {}) hc.parent)
    (fun _ _ _ _ _ ho hi hs => ⟨hi.1.recovers ho hs, hi.2.recovers hi.1 ho hs⟩) ⟨hc, hst⟩
  refine wp_bind.2 (hlock.mono (fun _ _ hx => .inl hx.2.2) ?_ (fun _ _ _ hx => .inl hx.2.2))
  rintro _ g1 ⟨w1, s1⟩ ⟨⟨rfl, hrun, -, hroot, hgone, hlock, hf, hf', -⟩, hc1, hst1⟩
  have htree : treeAt w1.fs tx.root = t := hst1.root_eq hc1 hroot
  cases pkg with
  | error msg => exact .inl hst1
  | ok pkg =>
      refine wp_bind.2 ((wp_watched_finds_same finds_preflight).mono ?_ ?_ ?_)
      · rintro _ _ rfl
        exact .inl hst1
      · rintro pkg' g2 x ⟨hplaced, rfl, rfl⟩
        refine wp_bind.2 (wp_call.2 (wp_ask.2 ⟨.inl hst1, ?_⟩))
        rintro r ⟨w2, s2⟩ ⟨hs, rfl⟩
        cases r with
        | error e =>
            have hw2 : w2 = w1 := sem_error hs
            subst hw2
            rw [note_error]
            exact .inl hst1
        | ok y =>
            obtain ⟨q, hq, hm⟩ := sem_makes (v := .dir 0o700) rfl hs
            have hloc : locate w1.fs tx.dir = .ok tx.dir :=
              locate_of_isDir (b := tx.parent) (at_self hc1.parent) (by simp) (by simpa using hc1.parent)
            obtain rfl : tx.dir = q := Except.ok.inj (hloc.symm.trans hq)
            have hnote : note tx (.mkdir tx.dir 0o700) w1 (.ok y) s1 = some (t, none) := by
              rw [← htree]
              exact if_pos rfl
            have hroot2 : treeAt w2.fs tx.root = t := by
              rw [← htree]
              funext q
              have hne : tx.root ++ q ≠ tx.dir := fun heq => tx.dir_apart q (heq ▸ List.prefix_refl _)
              rw [treeAt, treeAt, hm.get, if_neg hne]
            have hisroot2 : w2.fs.IsDir tx.root := by
              obtain ⟨m, hm'⟩ := hroot
              have := congrFun (hroot2.trans htree.symm) []
              rw [treeAt_nil, treeAt_nil] at this
              exact ⟨m, this.trans hm'⟩
            have horig2 : w2.fs.get tx.original = none := by
              rw [hm.get, if_neg (by simp [Tx.original])]
              exact Fs.get_append_eq_none hgone
            have hbegin := hc1.begin hroot hlock hf hf' hm
            rw [htree] at hbegin
            simp only [hnote]
            have hdir2 : w2.fs.IsDir tx.dir := ⟨_, by rw [hm.get, if_pos rfl]⟩
            have htag2 : w2.tag = .main := hm.tag.trans (hrun.tag.trans htag)
            refine wp_bind.2 ((wp_watched_guarded_notes hK hl hplaced hdir2 hisroot2 horig2 htag2 hroot2 hbegin).mono
              (fun _ _ hx => hx.continues) ?_ (fun _ _ _ hx => hx.continues))
            rintro _ g3 x ⟨new, hext, hst⟩
            exact wp_pure.2 ⟨pkg, new, rfl, hext, hst⟩
      · rintro _ _ _ rfl
        exact .inl hst1

end

/-! ### Any number of runs -/

/-- A run: what it was asked for, and how it ended, unless it was stopped. -/
structure Run where
  env : Env
  pkg : Except String Package
  outcome : Option (Except String Package)

def outcome : Prog (calls Part) (Except String Package × Globals) → Option (Except String Package)
  | .ret x => some x.1
  | .call _ _ => none

/-- The runs on one root, each stopped anywhere, and the state they leave. -/
inductive Runs (K : Kernel Part) (tx : Tx) (w0 : World Part) : List Run → World Part × Notes → Prop where
  | start (hparent : w0.fs.IsDir tx.parent) (hroot : w0.fs.IsDir tx.root) (hdir : w0.fs.get tx.dir = none) :
      Runs K tx w0 [] (w0, none)
  | run {rs : List Run} {w : World Part} {s : Notes} {x : World Part × Notes} (h : Runs K tx w0 rs (w, s)) (env : Env)
      (pkg : Except String Package) {q : Prog (calls Part) (Except String Package × Globals)}
      (hr : Prog.Reach (watched K tx) (installOffline env tx pkg {}) ({ w with tag := .main }, s) q x) :
      Runs K tx w0 (rs ++ [⟨env, pkg, outcome q⟩]) x

/-- What the runs published: one that returned its package the components of that, any other those of its package as it
was placed, or nothing. -/
inductive Published : List Run → List Publication → Prop where
  | nil : Published [] []
  | package {rs : List Run} {l : List Publication} {r : Run} {pkg pkg' : Package} (h : Published rs l)
      (hpkg : r.pkg = .ok pkg) (hplaced : pkg.PlacedAs r.env pkg') (hout : ∀ p, r.outcome = some (.ok p) → p = pkg') :
      Published (rs ++ [r]) (l ++ [⟨r.env, pkg'.components⟩])
  | nothing {rs : List Run} {l : List Publication} {r : Run} (h : Published rs l)
      (hout : ∀ p, r.outcome ≠ some (.ok p)) : Published (rs ++ [r]) l

/-- The tree that stands has come from the first one by what was published. -/
structure Traced (tx : Tx) (first : Path → Option Node) (rs : List Run) (x : World Part × Notes)
    (l : List Publication) (t : Path → Option Node) : Prop where
  published : Published rs l
  stands : Stands tx t x
  once : Once first l
  descends : ∃ fs R, treeAt fs R = t ∧ Descends first l fs R

theorem Traced.package {x x' : World Part × Notes} {rs : List Run} {t new : Path → Option Node} {r : Run}
    (h : Traced tx first rs x l t) (hpkg : r.pkg = .ok pkg) (hext : Extended r.env pkg pkg' t new)
    (hst : Stands tx new x') (hout : ∀ p, r.outcome = some (.ok p) → p = pkg') :
    Traced tx first (rs ++ [r]) x' (l ++ [⟨r.env, pkg'.components⟩]) new := by
  obtain ⟨hplaced, fs, R, fs', S, hold, hnew, hfilled, hun⟩ := hext
  obtain ⟨fs0, R0, htree, hdesc⟩ := h.descends
  have hdesc' : Descends first l fs R := hdesc.congr (hold.trans htree.symm)
  exact ⟨h.published.package hpkg hplaced hout, hst, h.once.unrecorded hdesc' hun, fs', S, hnew, hdesc'.filled hfilled⟩

theorem Traced.nothing {x x' : World Part × Notes} {rs : List Run} {t : Path → Option Node} {r : Run}
    (h : Traced tx first rs x l t) (hst : Stands tx t x') (hout : ∀ p, r.outcome ≠ some (.ok p)) :
    Traced tx first (rs ++ [r]) x' l t :=
  ⟨h.published.nothing hout, hst, h.once, h.descends⟩

/-- What one run makes of it, stopped anywhere. -/
theorem Traced.run {w : World Part} {s : Notes} {x : World Part × Notes} {rs : List Run} {t : Path → Option Node}
    {pkg : Except String Package} {q : Prog (calls Part) (Except String Package × Globals)} (hK : ChildIdle K)
    (hl : LstatHolds K) (hc : Coherent tx w.fs s) (h : Traced tx first rs (w, s) l t)
    (hr : Prog.Reach (watched K tx) (installOffline env tx pkg {}) ({ w with tag := .main }, s) q x) :
    ∃ l' t', Traced tx first (rs ++ [⟨env, pkg, outcome q⟩]) x l' t' := by
  have hst : Stands tx t ({ w with tag := .main }, s) := h.stands
  have hspec := Prog.Spec.reach (wp_watched_lineage (w := { w with tag := .main }) hK hl rfl hc hst) hr
  have goes : ∀ {q'}, Continues tx env pkg t x → (∀ p, outcome q' ≠ some (.ok p)) →
      ∃ l' t', Traced tx first (rs ++ [⟨env, pkg, outcome q'⟩]) x l' t' := by
    rintro q' (hst | ⟨p, pkg', new, rfl, hext, hst⟩) hout
    · exact ⟨l, t, h.nothing hst hout⟩
    · exact ⟨_, new, h.package rfl hext hst fun p hp => absurd hp (hout p)⟩
  cases q with
  | call o k => exact goes hspec.1 (by simp [outcome])
  | ret y =>
      obtain ⟨r, g'⟩ := y
      cases r with
      | error e => exact goes hspec (by simp [outcome])
      | ok pkg' =>
          obtain ⟨p, new, rfl, hext, hst⟩ := hspec
          refine ⟨_, new, h.package rfl hext hst fun p hp => ?_⟩
          simpa [outcome] using hp.symm

theorem Runs.traced {w0 : World Part} {rs : List Run} {x : World Part × Notes} (h : Runs K tx w0 rs x)
    (hK : ChildIdle K) (hl : LstatHolds K) :
    Coherent tx x.1.fs x.2 ∧ ∃ l t, Traced tx (treeAt w0.fs tx.root) rs x l t := by
  induction h with
  | start hparent hroot hdir =>
      refine ⟨⟨hparent, fun _ => hdir, .inl hdir, by simp, by simp, by simp, by simp⟩, [], treeAt w0.fs tx.root, .nil, ?_,
        once_nil, w0.fs, tx.root, rfl, descends_nil⟩
      exact ⟨fun _ => ⟨hroot.ne_none, rfl⟩, by simp⟩
  | @run rs w s x _ env pkg q hr ih =>
      obtain ⟨hc, l, t, ht⟩ := ih
      exact ⟨reach_coherent (w := { w with tag := .main }) hK hl rfl hc hr, ht.run hK hl hc hr⟩

/-- The tree that stands is found at the root or, while there is no root, put aside. -/
theorem Descends.found {w : World Part} {s : Notes} {t : Path → Option Node} (hc : Coherent tx w.fs s)
    (hst : Stands tx t (w, s)) (h : ∃ fs R, treeAt fs R = t ∧ Descends first l fs R) :
    w.fs.get tx.root ≠ none ∧ Descends first l w.fs tx.root ∨
      w.fs.get tx.root = none ∧ Descends first l w.fs tx.original := by
  obtain ⟨fs, R, htree, hdesc⟩ := h
  cases s with
  | none =>
      obtain ⟨hroot, heq⟩ := hst.1 rfl
      exact .inl ⟨hroot, hdesc.congr (heq.trans htree.symm)⟩
  | some y =>
      obtain ⟨old, pub⟩ := y
      have hpub := hst.2 old pub rfl
      cases pub with
      | none =>
          obtain rfl : old = t := hpub
          obtain ⟨⟨m, hm⟩, heq | ⟨hnone, heq⟩⟩ := hc.old old rfl
          · refine .inl ⟨?_, hdesc.congr (heq.trans htree.symm)⟩
            rw [← treeAt_nil, heq, hm]
            simp
          · exact .inr ⟨hnone, hdesc.congr (heq.trans htree.symm)⟩
      | some new =>
          obtain rfl : new = t := hpub
          obtain ⟨⟨m, hm⟩, heq⟩ := hc.new old new rfl
          refine .inl ⟨?_, hdesc.congr (heq.trans htree.symm)⟩
          rw [← treeAt_nil, heq, hm]
          simp

/-- **The lineage of a root.** After any number of runs, each stopped anywhere, the tree at the root (or the one put
aside, while there is none) is the first tree with the components of the published transactions in it, and nothing
else: their payloads and receipts are in place, whatever ran later. A run that returned its package published it; a run
that failed or was stopped published its package or nothing. Child processes change nothing, and `lstat ()` tells what
there is while a run is being undone. -/
theorem lineage (K : Kernel Part) (tx : Tx) (w0 w : World Part) (s : Notes) (rs : List Run) (hK : ChildIdle K)
    (hl : LstatHolds K) (h : Runs K tx w0 rs (w, s)) :
    ∃ l, Published rs l ∧
      (w.fs.get tx.root ≠ none ∧ Descends (treeAt w0.fs tx.root) l w.fs tx.root ∨
        w.fs.get tx.root = none ∧ Descends (treeAt w0.fs tx.root) l w.fs tx.original) := by
  obtain ⟨hc, l, t, ht⟩ := h.traced hK hl
  exact ⟨l, ht.published, Descends.found hc ht.stands ht.descends⟩

/-- The install of a link in the empty root. -/
theorem runs_dangling : ∃ pkg x, Runs Kernel.steady emptyRootTx emptyRoot
    [⟨default, .ok ⟨[danglingComponent]⟩, some (.ok pkg)⟩] x := by
  have hmem : ([packageName, linkName], some "m/../../x".toList) ∈
      installedLinks (installRun ⟨[danglingComponent]⟩).1.1 := by decide +kernel
  obtain ⟨pkg, g, hreach, -⟩ := reach_of_installedLinks (K := Kernel.steady) hmem
  have hrun : Prog.Reach (sem Kernel.steady) (installOffline default emptyRootTx (.ok ⟨[danglingComponent]⟩) {}) emptyRoot
      (.ret (.ok pkg, g)) (installRun ⟨[danglingComponent]⟩).2 := reach_lockedRoot.bind.trans hreach
  obtain ⟨s, hwatched⟩ : ∃ s, Prog.Reach (watched Kernel.steady emptyRootTx) _ (emptyRoot, none) _ (_, s) :=
    hrun.observed none
  have hstart : Runs Kernel.steady emptyRootTx emptyRoot [] (emptyRoot, none) :=
    .start ⟨0o755, rfl⟩ ⟨0o755, rfl⟩ rfl
  exact ⟨pkg, _, .run hstart default (.ok ⟨[danglingComponent]⟩) hwatched⟩

theorem lineage_dangling : ∃ pkg w s, Runs Kernel.steady emptyRootTx emptyRoot
      [⟨default, .ok ⟨[danglingComponent]⟩, some (.ok pkg)⟩] (w, s) ∧
    ∃ l, Published [⟨default, .ok ⟨[danglingComponent]⟩, some (.ok pkg)⟩] l ∧
      (w.fs.get emptyRootTx.root ≠ none ∧ Descends (treeAt emptyRoot.fs emptyRootTx.root) l w.fs emptyRootTx.root ∨
        w.fs.get emptyRootTx.root = none ∧
          Descends (treeAt emptyRoot.fs emptyRootTx.root) l w.fs emptyRootTx.original) := by
  obtain ⟨pkg, ⟨w, s⟩, h⟩ := runs_dangling
  exact ⟨pkg, w, s, h, lineage Kernel.steady emptyRootTx emptyRoot w s _ (fun _ _ h => h) (fun _ _ _ => id) h⟩

/-- The package that was installed, if the run got so far. -/
def Run.installed (r : Run) : Option Package :=
  match r.outcome with
  | some (.ok pkg) => some pkg
  | _ => none

theorem Published.sublist {rs : List Run} (h : Published rs l) :
    ((rs.filterMap Run.installed).flatMap Package.components).Sublist (l.flatMap Publication.components) := by
  induction h with
  | nil => exact .slnil
  | @package rs l r pkg pkg' h hpkg hplaced hout ih =>
      rw [List.filterMap_append, List.flatMap_append, List.flatMap_append]
      refine ih.append ?_
      cases hr : r.installed with
      | none => simp [hr]
      | some p =>
          obtain rfl : p = pkg' := by
            unfold Run.installed at hr
            split at hr
            · next ho => exact Option.some.inj hr ▸ hout _ ho
            · cases hr
          simp [hr]
  | @nothing rs l r h hout ih =>
      rw [List.filterMap_append, List.flatMap_append]
      have hr : r.installed = none := by
        unfold Run.installed
        split
        · next ho => exact absurd ho (hout _)
        · rfl
      simpa [hr] using ih

/-- **No component is installed twice**, whatever the packages are and wherever the other runs were stopped: the
packages that were installed have components with pairwise different identifiers, and none of them had a receipt when the
first run began. The conditions are those of `lineage`. -/
theorem installed_once (K : Kernel Part) (tx : Tx) (w0 w : World Part) (s : Notes) (rs : List Run) (hK : ChildIdle K)
    (hl : LstatHolds K) (h : Runs K tx w0 rs (w, s)) :
    ((rs.filterMap Run.installed).flatMap Package.components).Pairwise (fun c c' => c.identifier ≠ c'.identifier) ∧
      ∀ pkg ∈ rs.filterMap Run.installed, ∀ c ∈ pkg.components,
        w0.fs.get (tx.root ++ Record.plist.path c.identifier) = none := by
  obtain ⟨-, l, t, ht⟩ := h.traced hK hl
  have hsub := ht.published.sublist
  refine ⟨ht.once.distinct.sublist hsub, fun pkg hpkg c hc => ?_⟩
  obtain ⟨x, hx, hcx⟩ := List.mem_flatMap.1 (hsub.mem (List.mem_flatMap.2 ⟨pkg, hpkg, hc⟩))
  exact ht.once.free x hx c hcx

theorem installed_once_dangling : ∃ pkg w s, Runs Kernel.steady emptyRootTx emptyRoot
      [⟨default, .ok ⟨[danglingComponent]⟩, some (.ok pkg)⟩] (w, s) ∧
    ∀ c ∈ pkg.components, emptyRoot.fs.get (emptyRootTx.root ++ Record.plist.path c.identifier) = none := by
  obtain ⟨pkg, ⟨w, s⟩, h⟩ := runs_dangling
  exact ⟨pkg, w, s, h, (installed_once Kernel.steady emptyRootTx emptyRoot w s _ (fun _ _ h => h) (fun _ _ _ => id) h).2
    pkg (by simp [Run.installed])⟩

end MiniDarwin.Installer
