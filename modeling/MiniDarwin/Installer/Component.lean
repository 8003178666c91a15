import MiniDarwin.Installer.Links

/-!
What the installation of a component does to the tree: its scripts are
unpacked in a directory of their own beneath the work area, its payload
and its receipts beneath the root.

`ComponentCalls` bounds the calls of each part, and `Ran` describes the
outcome. The work directory is the one thing that is not in the journal.
-/

namespace MiniDarwin.Installer

open Posix Effects Effects.Proc

variable {K : Kernel Part} {fs0 : Fs} {b B t T p q : Path}
  {Ok Ok' : Path → Prop} {g g' g'' : Globals} {w w' w'' : World Part} {env : Env} {c : Component}
  {α : Type} {P : α → Globals → World Part → Prop}

/-- One call of a function that adds to the tree. -/
theorem Grows.step {o : Op Part} {r : Except Errno o.Val} (h : Grows fs0 b B Ok o w)
    (hk : fs0.Kept w.fs) (hs : sem K o w r w') : SameRun w w' ∧ fs0.Kept w'.fs := by
  have fresh : ∀ {c v}, Made w c v w' → SameRun w w' ∧ fs0.Kept w'.fs := fun {c v} hm => by
    refine ⟨hm.toSameRun, fun p hp => ?_⟩
    have : p ≠ c := by rintro rfl; exact hk.ne_none hp hm.free
    rw [hm.get, if_neg this, hk p hp]
  cases r with
  | error e =>
      obtain rfl := sem_error hs
      exact ⟨SameRun.refl _, hk⟩
  | ok x =>
      cases o with
      | mkdir p m =>
          obtain ⟨c, -, hm⟩ := sem_makes (v := .dir m) rfl hs
          exact fresh hm
      | symlink s p =>
          obtain ⟨c, -, hm⟩ := sem_makes (v := .link s) rfl hs
          exact fresh hm
      | create p =>
          obtain ⟨c, -, hm⟩ := sem_makes (v := .file 0o600 []) rfl hs
          exact fresh hm
      | clonefile a p =>
          obtain ⟨_, _, _, _, -, -, -, hm⟩ := sem_clonefile hs
          exact fresh hm
      | write p data =>
          obtain ⟨q, hq, hn⟩ := h
          obtain ⟨-, -, c, m, old, hc, -, ha⟩ := sem_write hs
          rw [hq.locate] at hc
          cases hc
          exact ⟨ha.toSameRun, kept_of_altered hk hn ha⟩
      | fchmod p m =>
          obtain ⟨q, hq, hn⟩ := h
          obtain ⟨c, m', data, hc, -, ha⟩ := sem_fchmod hs
          rw [hq.locate] at hc
          cases hc
          exact ⟨ha.toSameRun, kept_of_altered hk hn ha⟩
      | chmod p m =>
          obtain ⟨q, hq, hd, hn⟩ := h
          obtain ⟨c, u, hc, -, ha⟩ := sem_chmod hs
          rw [hq.eq, realPath_append hq.base hd] at hc
          cases hc
          exact ⟨ha.toSameRun, kept_of_altered hk hn ha⟩
      | _ =>
          obtain rfl := sem_quiet h hs
          exact ⟨SameRun.refl _, hk⟩

/-- What a function that adds to the tree beneath `B` may change. -/
theorem Grows.elsewhere {fs0 : Fs} {b B : Path} {Ok : Path → Prop} {o : Op Part}
    {r : Except Errno o.Val} (h : Grows fs0 b B Ok o w) (hs : sem K o w r w')
    (hp : ∀ q, Ok q → p ≠ B ++ q) : w'.fs.get p = w.fs.get p := by
  cases r with
  | error e =>
      obtain rfl := sem_error hs
      rfl
  | ok x =>
      have made : ∀ {q c v}, Beneath w b B Ok q c → ∀ {d}, locate w.fs q = .ok d →
          Made w d v w' → w'.fs.get p = w.fs.get p := by
        intro q c v hb d hd hm
        rw [hb.locate] at hd
        cases hd
        rw [hm.get, if_neg (hp c hb.ok)]
      have altered : ∀ {q c d v}, Beneath w b B Ok q c → locate w.fs q = .ok d →
          Altered w d v w' → w'.fs.get p = w.fs.get p := by
        intro q c d v hb hd hm
        rw [hb.locate] at hd
        cases hd
        rw [hm.get, if_neg (hp c hb.ok)]
      cases o with
      | mkdir q m =>
          obtain ⟨c, hb⟩ := h
          obtain ⟨d, hd, hm⟩ := sem_makes (v := .dir m) rfl hs
          exact made hb hd hm
      | symlink t q =>
          obtain ⟨c, hb⟩ := h
          obtain ⟨d, hd, hm⟩ := sem_makes (v := .link t) rfl hs
          exact made hb hd hm
      | create q =>
          obtain ⟨c, hb⟩ := h
          obtain ⟨d, hd, hm⟩ := sem_makes (v := .file 0o600 []) rfl hs
          exact made hb hd hm
      | clonefile a q =>
          obtain ⟨c, hb⟩ := h
          obtain ⟨_, d, _, _, _, _, hd, hm⟩ := sem_clonefile hs
          exact made hb hd hm
      | write q data =>
          obtain ⟨c, hb, -⟩ := h
          obtain ⟨-, -, d, _, _, hd, -, ha⟩ := sem_write hs
          exact altered hb hd ha
      | fchmod q m =>
          obtain ⟨c, hb, -⟩ := h
          obtain ⟨d, _, _, hd, -, ha⟩ := sem_fchmod hs
          exact altered hb hd ha
      | chmod q m =>
          obtain ⟨c, hb, hdir, -⟩ := h
          obtain ⟨d, u, hd, -, ha⟩ := sem_chmod hs
          rw [hb.eq, realPath_append hb.base hdir] at hd
          cases hd
          rw [ha.get, if_neg (hp c hb.ok)]
      | _ =>
          obtain rfl := sem_quiet h hs
          rfl

/-- What a part of a run does that adds to the tree it found when it was entered. -/
def GrowsSince (b B : Path) (Ok : Path → Prop) (o : Op Part) (v : World Part) : Prop :=
  Grows v.since b B Ok o v ∧ v.since.Kept v.fs

/-- The calls of a part of a run that has been entered. -/
theorem Stays.entered {X : Globals → World Part → Globals → World Part → Prop} {m : M α}
    (h : Stays (sem K) (Grows w.since b B Ok) X m P g w) (hk : w.since.Kept w.fs) :
    Stays (sem K) (fun o v => GrowsSince b B Ok o v ∧ v.tag = w.tag) X m P g w := by
  have hi := wp.invariant (I := fun v => SameRun w v ∧ w.since.Kept v.fs) h ?_
    ⟨SameRun.refl w, hk⟩
  · refine wp.mono hi ?_ (fun _ _ _ h => h.1) (fun _ _ _ h => h.1)
    rintro o v ⟨hg, hr, hkv⟩
    rw [GrowsSince, hr.since]
    exact ⟨⟨hg, hkv⟩, hr.tag⟩
  · rintro o v r v' hg ⟨hr, hkv⟩ hs
    obtain ⟨hr', hkv'⟩ := hg.step hkv hs
    exact ⟨SameRun.trans hr hr', hkv'⟩

/-! ### Receipts -/

/-- The receipts of the component and the directories above them. -/
def RecordPath (c : Component) (q : Path) : Prop := q ≠ [] ∧ ∃ r : Record, q <+: r.path c.identifier

/-- The three files are there. -/
def Recorded (env : Env) (fs : Fs) (B : Path) (c : Component) : Prop :=
  fs.get (B ++ Record.plist.path c.identifier) = some (.file 0o644 (env.receipt c)) ∧
    fs.get (B ++ Record.bom.path c.identifier) = some (.file 0o644 c.bom) ∧
    ∃ installed changes, fs.get (B ++ Record.inventory.path c.identifier) =
      some (.file 0o644 (env.inventory c installed changes))

theorem Record.path_ne_nil (r : Record) (id : Name) : r.path id ≠ [] := by simp [Record.path]

theorem RecordPath.self (r : Record) : RecordPath c (r.path c.identifier) :=
  ⟨r.path_ne_nil _, r, List.prefix_refl _⟩

theorem stays_writePlist {rel : Path} {data : Bytes} (hr : Ready fs0 b B w) (hne : rel ≠ []) (hpar : Parents rel Ok)
    (hok : Ok rel) :
    Stays (sem K) (Grows fs0 b B Ok) (Grew b B Ok) (writePlist b rel data)
      (fun _ _ w' => w'.fs.get (B ++ rel) = some (.file 0o644 data)) g w := by
  unfold writePlist
  refine (stays_pathParents hr hpar).bind Grew.trans fun _ g1 w1 hg1 hd => ?_
  have hr1 := hr.grew hg1
  refine stays_hostJoin Grew.refl fun _ => ?_
  exact (stays_fileWrite _ _ hr1 ⟨rfl, hne, hr1.base, hd, hok⟩).post fun _ _ _ _ h => h.2

theorem RecordPath.parents (r : Record) : Parents (r.path c.identifier) (RecordPath c) :=
  fun _ hq hne _ => ⟨hne, r, hq⟩

theorem stays_receiptsWrite (env : Env) (c : Component) (changes : List (String × Snapshot))
    (hr : Ready fs0 b B w) :
    Stays (sem K) (Grows fs0 b B (RecordPath c)) (Grew b B (RecordPath c))
      (receiptsWrite env b c changes) (fun _ _ w' => Recorded env w'.fs B c) g w := by
  unfold receiptsWrite
  refine (stays_writePlist hr (Record.path_ne_nil .plist _) (.parents .plist)
    (.self .plist)).bind Grew.trans fun _ g1 w1 hg1 h1 => ?_
  have hr1 := hr.grew hg1
  -- the receipt lies in the directory the BOM goes to
  have hdir : w1.fs.IsDir (B ++ receiptsDir) := by
    refine Fs.isDir_of_append (q := [Record.plist.name c.identifier]) ?_ (by simp)
    rw [List.append_assoc]
    exact fun hn => by simp [Record.path, Record.dir, hn] at h1
  refine stays_hostJoin Grew.refl fun _ => ?_
  have hbom : Beneath w1 b B (RecordPath c) (b ++ Record.bom.path c.identifier)
      (Record.bom.path c.identifier) :=
    ⟨rfl, Record.path_ne_nil _ _, hr1.base, by simpa [Record.path, Record.dir] using hdir, .self _⟩
  refine (stays_fileWrite _ _ hr1 hbom).bind Grew.trans fun _ g2 w2 hg2 h2 => ?_
  refine looks_installedEntries.bind_stays (fun _ => Grows.of_quiet) Grew.refl fun installed => ?_
  refine (stays_writePlist (hr1.grew hg2) (Record.path_ne_nil .inventory _) (.parents .inventory)
    (.self .inventory)).post fun _ g3 w3 hg3 h3 => ?_
  refine ⟨?_, ?_, installed, changes, h3⟩
  · have h1' := (hg2.kept _ (by simp [h1])).trans h1
    rw [hg3.kept _ (by simp [h1']), h1']
  · rw [hg3.kept _ (by simp [h2.2]), h2.2]

/-! ### The component -/

/-- The payload of the component and the directories above it. -/
def PayloadPath (c : Component) (q : Path) : Prop := q ≠ [] ∧ ∃ e ∈ c.payload, q <+: e.path

theorem covers_payload : ∀ e ∈ c.payload, Covers (PayloadPath c) e :=
  fun e he _ hr hne => ⟨hne, e, he, hr⟩

/-- What a component writes beneath the root. -/
def RootPath (c : Component) (q : Path) : Prop := PayloadPath c q ∨ RecordPath c q

/-- The calls of `install_component ()`, by the part they belong to. -/
def ComponentCalls (b B t T : Path) (c : Component) (o : Op Part) (v : World Part) : Prop :=
  (∃ x, o = .enter x) ∨
    match v.tag with
    | .scripts => GrowsSince t T (fun q => [c.identifier] <+: q) o v
    | .payload => GrowsSince b B (PayloadPath c) o v
    | .receipts => GrowsSince b B (RecordPath c) o v
    | .main => Op.mild o
    | .dying => False

theorem ComponentCalls.of_mild {o : Op Part} (ho : Op.mild o) (hv : w.tag = .main) :
    ComponentCalls b B t T c o w := by
  refine .inr ?_
  rw [hv]
  exact ho

/-- A path that was made, with the name it has in the journal: beneath the
root, in a work directory, or a work directory itself. -/
inductive Noted (b B t T : Path) (Ok : Path → Prop) (Id : Name → Prop) : Path × Option Path → Prop where
  | root {q : Path} (h : Ok q) : Noted b B t T Ok Id (B ++ q, some (b ++ q))
  | work {id : Name} {q : Path} (h : Id id) (hq : q ≠ []) :
      Noted b B t T Ok Id (T ++ ([id] ++ q), some (t ++ ([id] ++ q)))
  | workdir {id : Name} (h : Id id) (hf : Fits t [id]) : Noted b B t T Ok Id (T ++ [id], none)

/-- From `g` and `w` to `g'` and `w'`, paths have been made, each known with its
name in the journal. -/
def Ran (b B t T : Path) (Ok : Path → Prop) (Id : Name → Prop) (g : Globals) (w : World Part)
    (g' : Globals) (w' : World Part) : Prop :=
  ∃ xs : List (Path × Option Path), (∀ x ∈ xs, Noted b B t T Ok Id x) ∧
    w.fs.Built (xs.map Prod.fst) w'.fs ∧
    g' = { g with journal := g.journal ++ if g.createHook then xs.filterMap Prod.snd else [] }

variable {Id Id' : Name → Prop}

theorem Ran.refl : Ran b B t T Ok Id g w g w :=
  ⟨[], by simp, by simpa using Fs.Built.refl w.fs, by simp⟩

theorem Ran.trans (h : Ran b B t T Ok Id g w g' w') (h' : Ran b B t T Ok Id g' w' g'' w'') :
    Ran b B t T Ok Id g w g'' w'' := by
  obtain ⟨xs, hx, hbuilt, rfl⟩ := h
  obtain ⟨ys, hy, hbuilt', rfl⟩ := h'
  refine ⟨xs ++ ys, ?_, ?_, ?_⟩
  · intro x hx'
    rcases List.mem_append.1 hx' with hx' | hx'
    · exact hx x hx'
    · exact hy x hx'
  · rw [List.map_append]
    exact hbuilt.trans hbuilt'
  · cases g.createHook <;> simp

theorem Ran.kept (h : Ran b B t T Ok Id g w g' w') : w.fs.Kept w'.fs := by
  obtain ⟨_, _, hb, _⟩ := h
  exact hb.kept

theorem Ran.hooked (h : Ran b B t T Ok Id g w g' w') (hh : Hooked g) : Hooked g' := by
  obtain ⟨_, _, _, rfl⟩ := h
  exact hh

theorem Ran.live (h : Ran b B t T Ok Id g w g' w') : g'.live = g.live := by
  obtain ⟨_, _, _, rfl⟩ := h
  rfl

theorem Ran.mono (hok : ∀ q, Ok q → Ok' q) (hid : ∀ n, Id n → Id' n)
    (h : Ran b B t T Ok Id g w g' w') : Ran b B t T Ok' Id' g w g' w' := by
  obtain ⟨xs, hx, h⟩ := h
  refine ⟨xs, fun x hx' => ?_, h⟩
  cases hx x hx' with
  | root h => exact .root (hok _ h)
  | work h hq => exact .work (hid _ h) hq
  | workdir h hf => exact .workdir (hid _ h) hf

theorem Grew.ran (h : Grew b B Ok g w g' w') (hok : ∀ q, Ok q → Ok' q) :
    Ran b B t T Ok' Id g w g' w' := by
  obtain ⟨qs, hq, hbuilt, -, rfl⟩ := h
  refine ⟨qs.map fun q => (B ++ q, some (b ++ q)), ?_, ?_, ?_⟩
  · simp only [List.mem_map]
    rintro _ ⟨q, hq', rfl⟩
    exact .root (hok q (hq q hq'))
  · simpa [Function.comp_def] using hbuilt
  · simp [List.filterMap_map]

theorem Grew.ran_work {id : Name} (h : Grew (t ++ [id]) (T ++ [id]) (· ≠ []) g w g' w')
    (hid : Id id) : Ran b B t T Ok Id g w g' w' := by
  obtain ⟨qs, hq, hbuilt, -, rfl⟩ := h
  refine ⟨qs.map fun q => (T ++ ([id] ++ q), some (t ++ ([id] ++ q))), ?_, ?_, ?_⟩
  · simp only [List.mem_map]
    rintro _ ⟨q, hq', rfl⟩
    exact .work hid (hq q hq')
  · simpa [Function.comp_def] using hbuilt
  · simp [List.filterMap_map]

theorem ran_workdir {id : Name} {v : Node} (hm : Made w (T ++ [id]) v w') (hid : Id id)
    (hf : Fits t [id]) : Ran b B t T Ok Id g w g w' :=
  ⟨[(T ++ [id], none)], by simpa using .workdir hid hf,
    by simpa using (Fs.Built.refl w.fs).snoc hm.free hm.get, by simp⟩

/-! ### Links made by a component -/

theorem linkAt_kept {fs fs' : Fs} (hk : fs.Kept fs') (hp : fs.get (B ++ p) ≠ none) :
    linkAt fs' B p = linkAt fs B p := by
  unfold linkAt
  rw [hk _ hp]

/-- Above a record, and at it, there is no link. -/
theorem Recorded.no_link {fs : Fs} (h : Recorded env fs B c) (hp : RecordPath c p) :
    linkAt fs B p = none := by
  obtain ⟨h1, h2, i, ch, h3⟩ := h
  obtain ⟨-, r, hr⟩ := hp
  have hfile : ∃ data, fs.get (B ++ r.path c.identifier) = some (.file 0o644 data) := by
    cases r with
    | plist => exact ⟨_, h1⟩
    | bom => exact ⟨_, h2⟩
    | inventory => exact ⟨_, h3⟩
  obtain ⟨data, hfile⟩ := hfile
  obtain ⟨s, hs⟩ := hr
  by_cases hnil : s = []
  · rw [hnil, List.append_nil] at hs
    simp [linkAt, hs, hfile]
  · refine linkAt_of_isDir (Fs.isDir_of_append (q := s) ?_ hnil)
    rw [List.append_assoc, hs, hfile]
    simp

theorem Grew.made (h : Grew b B Ok g w g' w') (hw : w.fs.get (B ++ p) = none)
    (hw' : w'.fs.get (B ++ p) ≠ none) : Ok p := by
  obtain ⟨qs, hq, hbuilt, -⟩ := h
  have hmem := (hbuilt.made _ hw).1 hw'
  obtain ⟨q, hq', heq⟩ := List.mem_map.1 hmem
  obtain rfl := List.append_cancel_left heq
  exact hq q hq'

theorem linkAt_receipts (h : Grew b B (RecordPath c) g w g' w') (hrec : Recorded env w'.fs B c)
    (p : Path) : linkAt w'.fs B p = linkAt w.fs B p := by
  by_cases hw : w.fs.get (B ++ p) = none
  · by_cases hw' : w'.fs.get (B ++ p) = none
    · simp [linkAt, hw, hw']
    · rw [hrec.no_link (h.made hw hw')]
      simp [linkAt, hw]
  · exact linkAt_kept h.kept hw

/-! ### `install_component ()` -/

/-- What a successful installation leaves. -/
structure Installed (env : Env) (B : Path) (c : Component) (live : Bool) (fs : Fs) : Prop where
  inPlace : ∀ e ∈ c.payload, InPlace fs B e
  recorded : Recorded env fs B c
  checked : live = false → LinksChecked fs B c

section Steps

variable {E : Op Part → World Part → Prop} {X : Globals → World Part → Globals → World Part → Prop}

/-- A part of the run, and the calls that belong to it. -/
theorem stays_during {x : Part} {m : M Unit} {I : Fs → Prop}
    (hm : Stays (sem K) (Grows w.fs b B Ok) X m (fun _ _ w' => I w'.fs) g
      { w with tag := x, since := w.fs })
    (hE : ∀ o v, GrowsSince b B Ok o v → v.tag = x → E o v) (hent : ∀ y v, E (.enter y) v)
    (hX : ∀ g' w', X g { w with tag := x, since := w.fs } g' w' → X g w g' w')
    (hX' : ∀ g' w' y, X g w g' w' → X g w g' { w' with tag := y, since := w'.fs }) :
    Stays (sem K) E X (during x m) (fun _ _ w' => w'.tag = .main ∧ I w'.fs) g w := by
  unfold during
  refine wp_bind.2 (wp_enter (hent _ _) ?_)
  refine wp_bind.2 (wp.mono (Stays.entered hm (Fs.Kept.refl _)) ?_ ?_ ?_)
  · exact fun o v h => hE o v h.1 h.2
  · rintro _ g' w' ⟨hx, hi⟩
    exact wp_bind.2 (wp_enter (hent _ _) ⟨hX' _ _ _ (hX _ _ hx), rfl, hi⟩)
  · exact fun _ _ _ h => hX _ _ h

theorem Beneath.shift {id : Name} (h : Beneath w (t ++ [id]) (T ++ [id]) Ok p q) (ht : At w.fs t T)
    (hok : Ok' ([id] ++ q)) : Beneath w t T Ok' p ([id] ++ q) := by
  refine ⟨by simpa using h.eq, by simp, ht, ?_, hok⟩
  have hd := h.inDir
  rwa [List.append_assoc, ← List.dropLast_append_of_ne_nil h.ne_nil] at hd

/-- Seen from the work area, what is written in a work directory. -/
theorem Grows.shift {id : Name} {o : Op Part} (h : Grows fs0 (t ++ [id]) (T ++ [id]) Ok o w)
    (ht : At w.fs t T) : Grows fs0 t T (fun q => [id] <+: q) o w := by
  cases o with
  | mkdir | symlink | create | clonefile =>
      obtain ⟨q, hq⟩ := h
      exact ⟨_, hq.shift ht (List.prefix_append _ _)⟩
  | write | fchmod =>
      obtain ⟨q, hq, hn⟩ := h
      exact ⟨_, hq.shift ht (List.prefix_append _ _), by simpa using hn⟩
  | chmod =>
      obtain ⟨q, hq, hd, hn⟩ := h
      exact ⟨_, hq.shift ht (List.prefix_append _ _), by simpa using hd, by simpa using hn⟩
  | _ => exact h

theorem stays_checkPayloadSymlinks (hb : At w.fs b B) (hE : ∀ o, o.quiet = true → E o w)
    (hX : X g w g w) (hin : ∀ e ∈ c.payload, InPlace w.fs B e) :
    Stays (sem K) E X (checkPayloadSymlinks b c)
      (fun _ g' w' => Same g w g' w' ∧
        (g.live = false → LinksChecked w.fs B c)) g w := by
  have hlooks := (looks_checkPayloadSymlinks : Looks (checkPayloadSymlinks b c)) K g w
  have hE' : ∀ o v, o.quiet = true ∧ v = w → E o v := by
    rintro o _ ⟨ho, rfl⟩
    exact hE o ho
  by_cases h : g.live = false
  · refine wp.mono (wp.and hlooks (wp_checkPayloadSymlinks hb h hin))
      (fun o v h => hE' o v h.1) ?_ ?_
    · rintro _ _ _ ⟨⟨⟨rfl, rfl⟩, -⟩, -, hc⟩
      exact ⟨hX, Same.refl, fun _ => hc⟩
    · rintro _ _ _ ⟨⟨rfl, rfl⟩, -⟩
      exact hX
  · refine wp.mono hlooks hE' ?_ ?_
    · rintro _ _ _ ⟨⟨rfl, rfl⟩, -⟩
      exact ⟨hX, Same.refl, fun h1 => absurd h1 h⟩
    · rintro _ _ _ ⟨rfl, rfl⟩
      exact hX

end Steps

theorem stays_unpackScripts (hh : Hooked g) (ht : At w.fs t T)
    (hfits : Fits t [c.identifier]) :
    Stays (sem K) (Grows w.fs t T (fun q => [c.identifier] <+: q))
      (Ran b B t T Ok (· = c.identifier))
      (unpackScripts env c (t ++ [c.identifier])) (fun _ _ _ => True) g w := by
  unfold unpackScripts
  have hbe : Beneath w t T (fun q => [c.identifier] <+: q) (t ++ [c.identifier]) [c.identifier] :=
    ⟨rfl, by simp, ht, by simpa using ht.isDir, List.prefix_refl _⟩
  refine wp_bind.2 (wp_call_sem ⟨_, hbe⟩ (fun _ => Ran.refl) ?_)
  intro _ w1 hs
  obtain ⟨_, hc, hm⟩ := sem_makes (v := .dir 0o700) rfl hs
  rw [hbe.locate] at hc
  obtain rfl := Except.ok.inj hc
  have hran : Ran b B t T Ok (· = c.identifier) g w g w1 := ran_workdir hm rfl hfits
  have hready : Ready w.fs (t ++ [c.identifier]) (T ++ [c.identifier]) w1 :=
    ⟨(ht.kept hran.kept).append ⟨0o700, by simp [hm.get]⟩, hran.kept⟩
  have hok : ∀ e ∈ c.scripts, Covers (· ≠ []) e := fun e _ _ _ hne => hne
  have hext := stays_extract (K := K) env c.scripts hh hready hok
  -- the work area is found at every call, so the calls can be seen from there
  have hkept := wp.invariant (I := fun v => w.fs.Kept v.fs) hext
    (fun o v r v' hE hk hs => (hE.step hk hs).2) hran.kept
  refine wp.mono hkept ?_ ?_ ?_
  · exact fun o v h => h.1.shift (ht.kept h.2)
  · exact fun _ _ _ h => ⟨hran.trans (h.1.1.ran_work rfl), trivial⟩
  · exact fun _ _ _ h => hran.trans (h.1.ran_work rfl)

theorem stays_installComponent (env : Env) (c : Component) (hh : Hooked g) (hc : Harmless K c) (hb : At w.fs b B)
    (ht : At w.fs t T) :
    Stays (sem K) (ComponentCalls b B t T c) (Ran b B t T (RootPath c) (· = c.identifier))
      (installComponent env b c t) (fun _ _ w' => w'.tag = .main ∧ Installed env B c g.live w'.fs)
      g w := by
  have hent : ∀ y v, ComponentCalls b B t T c (.enter y) v := fun y v => .inl ⟨y, rfl⟩
  have hmild : ∀ v : World Part, v.tag = .main → ∀ o, Op.mild o →
      ComponentCalls b B t T c o v := fun v hv o ho => .of_mild ho hv
  unfold installComponent
  refine stays_hostJoin Ran.refl fun hfits => ?_
  refine (stays_during (w := w) (I := fun _ => True) (stays_unpackScripts
      (w := { w with tag := .scripts, since := w.fs }) hh ht hfits) ?_ hent
    (fun _ _ h => h) (fun _ _ _ h => h)).bind Ran.trans fun _ g1 w1 hr1 ⟨htag1, _⟩ => ?_
  · exact fun o v hg hv => .inr (by rw [hv]; exact hg)
  refine stays_runHooks hc (hmild w1 htag1) Ran.refl fun changes => ?_
  -- the payload
  have hpay := stays_extract (K := K) env c.payload
    (w := { w1 with tag := .payload, since := w1.fs }) (hr1.hooked hh)
    ⟨hb.kept hr1.kept, Fs.Kept.refl _⟩ (covers_payload (c := c))
  refine (stays_during (w := w1) (I := fun fs => ∀ e ∈ c.payload, InPlace fs B e)
    (hpay.mono (Y := Ran b B t T (RootPath c) (· = c.identifier)) (fun _ _ => id)
      (fun _ _ h => h.ran fun _ => .inl) (fun _ _ _ _ => id)) ?_ hent
    (fun _ _ h => h) (fun _ _ _ h => h)).bind Ran.trans fun _ g2 w2 hr2 ⟨htag2, hin⟩ => ?_
  · exact fun o v hg hv => .inr (by rw [hv]; exact hg)
  have hb2 : At w2.fs b B := (hb.kept hr1.kept).kept hr2.kept
  refine (stays_checkPayloadSymlinks hb2 (fun o ho => hmild w2 htag2 o (.inl ho)) Ran.refl hin).bind Ran.trans ?_
  rintro _ g2 w2 - ⟨⟨rfl, rfl⟩, hchecked⟩
  refine stays_runHooks hc (hmild w2 htag2) Ran.refl fun changes' => ?_
  -- the receipts
  have hrec := stays_receiptsWrite (K := K) env c changes'
    (g := g2) (w := { w2 with tag := .receipts, since := w2.fs }) ⟨hb2, Fs.Kept.refl _⟩
  refine (stays_during (w := w2) (I := fun fs => Recorded env fs B c ∧ w2.fs.Kept fs ∧
      ∀ p, linkAt fs B p = linkAt w2.fs B p)
    (hrec.mono (Y := Ran b B t T (RootPath c) (· = c.identifier)) (fun _ _ => id)
      (fun _ _ h => h.ran fun _ => .inr)
      (fun _ _ _ hg h => ⟨h, hg.kept,
        linkAt_receipts (w := { w2 with tag := .receipts, since := w2.fs }) hg h⟩)) ?_ hent
    (fun _ _ h => h) (fun _ _ _ h => h)).post ?_
  · exact fun o v hg hv => .inr (by rw [hv]; exact hg)
  rintro _ g3 w3 hr3 ⟨htag3, hrec3, hkept3, hlinks⟩
  have hlive : g2.live = g.live := hr2.live.trans hr1.live
  refine ⟨htag3, fun e he => (hin e he).kept hkept3, hrec3, fun hl e he hne t' ht' => ?_⟩
  exact (hchecked (hlive.trans hl) e he hne t' ht').congr hlinks

/-- The component loop. `J` is what is known of the tree, given the components
that are still to come. -/
theorem stays_components (env : Env) (cs : List Component) (J : List Component → Fs → Prop) (hh : Hooked g)
    (hcs : ∀ c ∈ cs, Harmless K c) (hb : At w.fs b B) (ht : At w.fs t T)
    (hJ : ∀ c l g' w1 g'' w2, g'.live = g.live → w.fs.Kept w1.fs →
      Ran b B t T (RootPath c) (· = c.identifier) g' w1 g'' w2 →
      Installed env B c g'.live w2.fs → J (c :: l) w1.fs → J l w2.fs) (h0 : J cs w.fs) :
    Stays (sem K) (fun o v => ∃ c ∈ cs, ComponentCalls b B t T c o v)
      (Ran b B t T (fun q => ∃ c ∈ cs, RootPath c q) (fun n => ∃ c ∈ cs, n = c.identifier))
      (each (fun c => installComponent env b c t) cs)
      (fun _ _ w' => (w.tag = .main → w'.tag = .main) ∧ J [] w'.fs) g w := by
  refine (Stays.each Ran.refl Ran.trans (fun l g' w' => (∀ c ∈ l, c ∈ cs) ∧ Hooked g' ∧
    g'.live = g.live ∧ w.fs.Kept w'.fs ∧ (w.tag = .main → w'.tag = .main) ∧ J l w'.fs) ?_
    ⟨fun _ => id, hh, rfl, Fs.Kept.refl _, id, h0⟩).post fun _ _ _ _ h => h.2.2.2.2
  rintro c l g1 w1 ⟨hmem, hh1, hlive, hk, -, hj⟩
  have hc : c ∈ cs := hmem c (by simp)
  refine (stays_installComponent env c hh1 (hcs c hc) (hb.kept hk) (ht.kept hk)).mono
    ?_ ?_ ?_
  · exact fun o v h => ⟨c, hc, h⟩
  · exact fun g' w' h => h.mono (fun q hq => ⟨c, hc, hq⟩) (fun n hn => ⟨c, hc, hn⟩)
  · intro _ g' w' hr h
    exact ⟨fun x hx => hmem x (by simp [hx]), hr.hooked hh1, hr.live.trans hlive,
      hk.trans hr.kept, fun _ => h.1, hJ c l g1 w1 g' w' hlive hk hr h.2 hj⟩

end MiniDarwin.Installer
