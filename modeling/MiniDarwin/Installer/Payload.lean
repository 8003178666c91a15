import MiniDarwin.Installer.Times

/-!
What unpacking comes to.

The entries of an archive are laid one after another, each with the
directories above it that are not there yet. So of all entries at a path or
beneath it the first decides what becomes of the path: its own entry makes
it what was packaged, and any other a directory like those of
`path_parents ()`. An entry that comes after something beneath it finds its
directory made, and its mode and time are lost.
-/

namespace MiniDarwin.Installer

open Posix Effects Effects.Proc

variable {K : Kernel Part} {g g' : Globals} {w w' v : World Part} {env : Env} {b B base p q : Path} {fs0 : Fs}
  {Ok : Path → Prop} {t : Times} {s s' s'' : World Part × Times} {α : Type} {e : Entry} {entries created : List Entry}

/-! ### What an archive describes -/

/-- The node an entry describes. -/
def Entry.node (e : Entry) : Node :=
  match e.content with
  | .directory => .dir e.mode
  | .file data => .file e.mode data
  | .symlink t => .link t.1

/-- The same before its mode is set. -/
def Entry.draft (e : Entry) : Node := if e.isDir then .dir 0o700 else e.node

/-- The first entry at `q` or beneath it. -/
def reaching (entries : List Entry) (q : Path) : Option Entry := entries.find? fun e => q <+: e.path

/-- What is made of a path that is not there. -/
def unpacked (node : Entry → Node) (entries : List Entry) (q : Path) : Option Node :=
  (reaching entries q).map fun e => if e.path = q then node e else .dir 0o755

theorem reaching_cons : reaching (e :: entries) q = if q <+: e.path then some e else reaching entries q := by
  unfold reaching
  rw [List.find?_cons]
  split
  · next h => rw [if_pos (by simpa using h)]
  · next h => rw [if_neg (by simpa using h)]

theorem reaching_eq_some (h : reaching entries q = some e) : e ∈ entries ∧ q <+: e.path :=
  ⟨List.mem_of_find?_eq_some h, by simpa using List.find?_some h⟩

/-! ### Times while a tree grows -/

/-- The tree has grown, and what nothing has been put into has the time it had. -/
structure Aged (s s' : World Part × Times) : Prop where
  kept : s.1.fs.Kept s'.1.fs
  times : ∀ p, SameContents s.1.fs p s'.1.fs p → s'.2 p = s.2 p

theorem Aged.refl : Aged s s := ⟨Fs.Kept.refl _, fun _ _ => rfl⟩

/-- What has the same contents in the end had them all the time. -/
theorem sameContents_between {fs fs' fs'' : Fs} (hk : fs.Kept fs') (hgrown : ∀ p, fs'.get p ≠ none → fs''.get p ≠ none)
    (hk' : fs.Kept fs'') (h : SameContents fs p fs'' p) : SameContents fs p fs' p ∧ SameContents fs' p fs'' p := by
  have hnames : ∀ n, fs'.get (p ++ [n]) = none ↔ fs.get (p ++ [n]) = none := by
    intro n
    constructor
    · intro hn
      by_contra hne
      exact hk.ne_none hne hn
    · intro hn
      by_contra hne
      exact hgrown _ hne ((h.names n).2 hn)
  refine ⟨⟨h.there, by rw [hk p h.there], hnames⟩, hk.ne_none h.there, ?_, fun n => ?_⟩
  · rw [hk p h.there, hk' p h.there]
  · rw [h.names, hnames]

theorem Aged.trans (h : Aged s s') (h' : Aged s' s'') : Aged s s'' := by
  refine ⟨h.kept.trans h'.kept, fun p hp => ?_⟩
  obtain ⟨h1, h2⟩ := sameContents_between h.kept (fun _ => h'.kept.ne_none) (h.kept.trans h'.kept) hp
  rw [h'.times p h2, h.times p h1]

/-- Nothing goes away while a tree grows. -/
theorem Grows.grown {o : Op Part} {r : Except Errno o.Val} (h : Grows fs0 b B Ok o w) (hs : sem K o w r w')
    (hp : w.fs.get p ≠ none) : w'.fs.get p ≠ none := by
  have altered : ∀ {q u}, Altered w q u w' → w'.fs.get p ≠ none := by
    intro q u ha
    rw [ha.get]
    split
    · simp
    · exact hp
  have made : Grows w.fs b B Ok o w → w'.fs.get p ≠ none := fun hg =>
    (hg.step (Fs.Kept.refl _) hs).2.ne_none hp
  cases r with
  | error x =>
      obtain rfl := sem_error hs
      exact hp
  | ok x =>
      cases o with
      | write p data =>
          obtain ⟨-, -, _, _, _, -, -, ha⟩ := sem_write hs
          exact altered ha
      | fchmod p m =>
          obtain ⟨_, _, _, -, -, ha⟩ := sem_fchmod hs
          exact altered ha
      | chmod p m =>
          obtain ⟨_, _, -, -, ha⟩ := sem_chmod hs
          exact altered ha
      | _ => exact made h

theorem Aged.step {o : Op Part} {r : Except Errno o.Val} (h : Aged s s') (hg : Grows s.1.fs b B Ok o s'.1)
    (ho : o.setsTimes = false) (hs : timed K o s' r s'') : Aged s s'' := by
  have hk := (hg.step h.kept hs.1).2
  refine ⟨hk, fun p hp => ?_⟩
  obtain ⟨h1, h2⟩ := sameContents_between h.kept (fun _ => hg.grown hs.1) hk hp
  have htimeless : o.timeless = true := by
    cases o with
    | utimes | spawn => cases ho
    | rename => simp [Grows, Op.quiet] at hg
    | _ => rfl
  rw [hs.2.kept htimeless h2, h.times p h1]

/-- A function that adds to the tree and sets no times. -/
theorem wp_aged {m : M α} {X : Globals → World Part → Globals → World Part → Prop} {P : α → Globals → World Part → Prop}
    (h : Stays (sem K) (Grows s.1.fs b B Ok) X m P g s.1) (ht : Timeless m) :
    wp (timed K) (fun _ _ => True) m (fun a g' s' => (X g s.1 g' s'.1 ∧ P a g' s'.1) ∧ Aged s s') (fun _ _ _ => True)
      g s := by
  have hboth := wp.and (wp.project (t := timed K) (π := Prod.fst) (v := s) h fun _ _ _ _ => timed_sem)
    (wp.project (t := timed K) (π := Prod.fst) (v := s) (ht K g s.1) fun _ _ _ _ => timed_sem)
  refine (hboth.invariant (I := Aged s) (fun o s1 r s2 ho hs1 hs => hs1.step ho.1 ho.2 hs) .refl).mono
    (fun _ _ _ => trivial) ?_ fun _ _ _ _ => trivial
  rintro a g' s' ⟨⟨hxp, -⟩, haged⟩
  exact ⟨hxp, haged⟩

/-- The time is set of something that was not there. -/
theorem wp_timed_setTimes {u : Timespec} (hb : At s.1.fs b B) (hq : q ≠ []) (hfree : s.1.fs.get (B ++ q) = none)
    (haged : Aged s s') (hthere : s'.1.fs.get (B ++ q) ≠ none) :
    wp (timed K) (fun _ _ => True) (setTimes (b ++ q) u)
      (fun _ g' s'' => (g' = g ∧ s''.1 = s'.1) ∧ Aged s s'' ∧ s''.2 (B ++ q) = u) (fun _ _ _ => True) g s' := by
  refine wp_call.2 (wp_ask.2 ⟨trivial, ?_⟩)
  rintro r s'' ⟨hs, htick⟩
  have heq : s''.1 = s'.1 := sem_quiet rfl hs
  cases r with
  | error e => trivial
  | ok x =>
      obtain ⟨c, hc, htimes⟩ := htick
      have hloc := (locate_clear (hb.kept haged.kept) hq (.of_ne_none hthere)).resolve_right fun h => hthere h.2
      obtain rfl : B ++ q = c := Except.ok.inj (hloc.symm.trans hc)
      refine ⟨⟨rfl, heq⟩, ⟨by rw [heq]; exact haged.kept, fun p hp => ?_⟩, by rw [htimes, Function.update_self]⟩
      rw [htimes, Function.update_of_ne, haged.times p (by rwa [heq] at hp)]
      rintro rfl
      exact hp.there hfree

/-! ### `path_parents ()` -/

theorem Timeless.pathParents {rel : Path} : Timeless (Installer.pathParents base rel true) := by
  have parent : ∀ {host}, Timeless (pathParent true host) := by
    intro host
    refine (ask rfl).bind fun r => ?_
    cases r with
    | ok st => exact .ite (.die _) (.pure _)
    | error x => exact .ite (.die _) ((call rfl).bind fun _ => createHook)
  have rest : ∀ rest done, Timeless (Installer.pathParentsFrom base true done rest) := by
    intro rest
    induction rest with
    | nil => exact fun _ => .pure _
    | cons n rest ih =>
        intro done
        cases rest with
        | nil => exact .pure _
        | cons m rest => exact hostJoin.bind fun host => parent.bind fun _ => ih _
  exact rest rel []

/-- The calls of `path_parents ()`. -/
def Op.parental (o : Op Part) : Prop := o.quiet = true ∨ ∃ p, o = .mkdir p 0o755

theorem wp_parental :
    wp (sem K) (fun o _ => Op.parental o) (pathParents b q true) (fun _ _ _ => True) (fun _ _ _ => True) g w := by
  have parent : ∀ {host g w}, wp (sem K) (fun o _ => Op.parental o) (pathParent true host) (fun _ _ _ => True)
      (fun _ _ _ => True) g w := by
    intro host g w
    refine wp_bind.2 (wp_ask.2 ⟨.inl rfl, fun r w' _ => ?_⟩)
    cases r with
    | ok st =>
        show wp _ _ (if _ then _ else _) _ _ _ _
        split <;> trivial
    | error x =>
        show wp _ _ (if _ then _ else _) _ _ _ _
        split
        · trivial
        · refine wp_bind.2 (wp_call.2 (wp_ask.2 ⟨.inr ⟨_, rfl⟩, fun r w' _ => ?_⟩))
          cases r with
          | error y => trivial
          | ok y => exact wp_createHook.2 trivial
  have rest : ∀ rest done g w, wp (sem K) (fun o _ => Op.parental o) (pathParentsFrom b true done rest)
      (fun _ _ _ => True) (fun _ _ _ => True) g w := by
    intro rest
    induction rest with
    | nil => exact fun _ _ _ => trivial
    | cons n rest ih =>
        intro done g w
        cases rest with
        | nil => trivial
        | cons m rest =>
            refine wp_bind_hostJoin (fun _ => trivial) (wp_bind.2 ?_)
            exact wp.post parent (fun _ _ _ _ => ih _ _ _) fun _ _ _ => id
  exact rest q [] g w

/-- What is put there is directories like those of `path_parents ()`. -/
def Implied (fs fs' : Fs) : Prop := ∀ p, fs.get p = none → fs'.get p = none ∨ fs'.get p = some (.dir 0o755)

theorem Implied.step {o : Op Part} {r : Except Errno o.Val} (h : Implied w.fs v.fs) (ho : Op.parental o)
    (hs : sem K o v r w') : Implied w.fs w'.fs := by
  rcases ho with ho | ⟨p, rfl⟩
  · obtain rfl := sem_quiet ho hs
    exact h
  · cases r with
    | error x =>
        obtain rfl := sem_error hs
        exact h
    | ok x =>
        obtain ⟨c, -, hm⟩ := sem_makes (v := .dir 0o755) rfl hs
        intro q hq
        rw [hm.get]
        split
        · exact .inr rfl
        · exact h q hq

theorem wp_timed_pathParents {rel : Path} (hb : At s.1.fs b B) (hok : Parents rel Ok) :
    wp (timed K) (fun _ _ => True) (pathParents b rel true)
      (fun _ g' s' => Grew b B Ok g s.1 g' s'.1 ∧ s'.1.fs.IsDir (B ++ rel.dropLast) ∧ Implied s.1.fs s'.1.fs ∧
        Aged s s') (fun _ _ _ => True) g s := by
  have hready : Ready s.1.fs b B s.1 := ⟨hb, Fs.Kept.refl _⟩
  have hgrew := wp_aged (stays_pathParents (K := K) (g := g) hready hok) .pathParents
  have himplied := wp.invariant (I := fun v => Implied s.1.fs v.fs) (wp_parental (K := K) (b := b) (q := rel) (g := g))
    (fun o v r v' ho hv hs => hv.step ho hs) (fun p hp => .inl hp)
  refine (wp.and hgrew (wp_timed (s := s) himplied)).mono (fun _ _ _ => trivial) ?_ fun _ _ _ _ => trivial
  rintro _ g' s' ⟨⟨⟨hg, hd⟩, haged⟩, -, hi⟩
  exact ⟨hg, hd, hi, haged⟩

/-! ### One entry -/

/-- An entry has been laid, with the directories above it that were missing. -/
structure LaidAt (B : Path) (e : Entry) (made : Bool) (s s' : World Part × Times) : Prop where
  aged : Aged s s'
  only : ∀ p, s.1.fs.get p = none → s'.1.fs.get p ≠ none → ∃ q, q ≠ [] ∧ q <+: e.path ∧ p = B ++ q
  above : ∀ q, q <+: e.path → q ≠ e.path → s.1.fs.get (B ++ q) = none → s'.1.fs.get (B ++ q) = some (.dir 0o755)
  here : s.1.fs.get (B ++ e.path) = none → s'.1.fs.get (B ++ e.path) = some e.draft
  time : e.isDir = false → e.path ≠ [] → s'.2 (B ++ e.path) = ⟨e.mtime, 0⟩
  leaf : e.isDir = false → e.path ≠ [] → s.1.fs.get (B ++ e.path) = none
  made_iff : made = true ↔ e.path ≠ [] ∧ e.isDir = true ∧ s.1.fs.get (B ++ e.path) = none

/-- What is above an entry is there if the directory it is in is. -/
theorem isDir_above {fs : Fs} {x : Path} (hd : fs.IsDir (B ++ x.dropLast)) (hq : q <+: x) (hqx : q ≠ x) :
    fs.get (B ++ q) ≠ none := by
  obtain ⟨r, rfl⟩ := hq
  have hr : r ≠ [] := by
    rintro rfl
    exact hqx (List.append_nil q).symm
  rw [List.dropLast_append_of_ne_nil hr, ← List.append_assoc] at hd
  exact Fs.ne_none_of_append hd.ne_none

/-- A directory that is there is left as it is. -/
theorem LaidAt.present (hthere : s.1.fs.get (B ++ e.path) ≠ none) (hdir : e.isDir = true) : LaidAt B e false s s := by
  refine ⟨.refl, fun p hp hp' => absurd hp hp', fun q hq _ hnone => ?_, fun h => absurd h hthere,
    fun h => by simp [hdir] at h, fun h => by simp [hdir] at h, ⟨by simp, fun h => absurd h.2.2 hthere⟩⟩
  exact absurd hnone (Fs.ne_none_of_isPrefix ((List.prefix_append_right_inj B).2 hq) hthere)

theorem Grew.only (h : Grew b B Ok g w g' w') (hp : w.fs.get p = none) (hp' : w'.fs.get p ≠ none) :
    ∃ q, Ok q ∧ p = B ++ q := by
  obtain ⟨qs, hok, hbuilt, -, -⟩ := h
  obtain ⟨q, hq, rfl⟩ := List.mem_map.1 ((hbuilt.made p hp).1 hp')
  exact ⟨q, hok q hq, rfl⟩

/-- What an entry is followed by, when it has been put where there was nothing. -/
structure Put (b B : Path) (e : Entry) (g : Globals) (s : World Part × Times) (g' : Globals)
    (s' : World Part × Times) : Prop where
  grew : Grew b B (· = e.path) g s.1 g' s'.1
  free : s.1.fs.get (B ++ e.path) = none
  here : s'.1.fs.get (B ++ e.path) = some e.draft
  aged : Aged s s'

theorem Put.laid {made : Bool} (h : Put b B e g s g' s') (hne : e.path ≠ []) (hd : s.1.fs.IsDir (B ++ e.path.dropLast))
    (heq : s''.1 = s'.1) (haged : Aged s s'') (htime : e.isDir = false → s''.2 (B ++ e.path) = ⟨e.mtime, 0⟩)
    (hmade : made = e.isDir) : LaidAt B e made s s'' := by
  have hhere : s''.1.fs.get (B ++ e.path) = some e.draft := by rw [heq, h.here]
  refine ⟨haged, fun p hp hp' => ?_, fun q hq hqe hnone => ?_, fun _ => hhere, fun hdir _ => htime hdir,
    fun _ _ => h.free, ?_⟩
  · rw [heq] at hp'
    obtain ⟨q, rfl, rfl⟩ := h.grew.only hp hp'
    exact ⟨e.path, hne, List.prefix_refl _, rfl⟩
  · -- there is nothing above the entry that is not there
    exact absurd hnone (isDir_above hd hq hqe)
  · rw [hmade]
    exact ⟨fun hdir => ⟨hne, hdir, h.free⟩, fun hx => hx.2.1⟩

/-- A leaf gets its time at once. -/
theorem Put.leaf (h : Put b B e g s g' s') (hb : At s.1.fs b B) (hne : e.path ≠ []) :
    wp (timed K) (fun _ _ => True)
      (do
        setTimes (b ++ e.path) ⟨e.mtime, 0⟩
        pure false)
      (fun made' g'' s'' => (made' = false ∧ g'' = g' ∧ s''.1 = s'.1) ∧ Aged s s'' ∧
        (e.isDir = false → s''.2 (B ++ e.path) = ⟨e.mtime, 0⟩)) (fun _ _ _ => True) g' s' := by
  refine wp_bind.2 ((wp_timed_setTimes hb hne h.free h.aged (by simp [h.here])).post ?_ fun _ _ _ => id)
  rintro _ g'' s'' ⟨⟨rfl, heq⟩, haged, htime⟩
  exact ⟨⟨rfl, rfl, heq⟩, haged, fun _ => htime⟩

theorem wp_put {m : M Unit}
    (hm : Stays (sem K) (Grows s.1.fs b B (· = e.path)) (Grew b B (· = e.path)) m
      (fun _ _ w' => s.1.fs.get (B ++ e.path) = none ∧ w'.fs.get (B ++ e.path) = some e.draft) g s.1)
    (ht : Timeless m) :
    wp (timed K) (fun _ _ => True) m (fun _ g' s' => Put b B e g s g' s') (fun _ _ _ => True) g s := by
  refine (wp_aged hm ht).post ?_ fun _ _ _ => id
  rintro _ g' s' ⟨⟨hg, hfree, hhere⟩, haged⟩
  exact ⟨hg, hfree, hhere, haged⟩

theorem stays_owned {P : World Part → Prop} (h : P w) :
    Stays (sem K) (Grows fs0 b B Ok) (Grew b B Ok) (applyOwnership env p) (fun _ _ w' => P w') g w := by
  unfold applyOwnership
  split
  · refine wp_call_sem (Grows.of_quiet rfl) (fun _ => Grew.refl) fun _ w' hs => ?_
    obtain rfl := sem_quiet rfl hs
    exact ⟨Grew.refl, h⟩
  · exact ⟨Grew.refl, h⟩

theorem stays_put {o : Op Part} {u : Node} {msg : Errno → String} (hh : Hooked g) (ho : o.makes = some (b ++ q, u))
    (h : Beneath w b B Ok (b ++ q) q) :
    Stays (sem K) (Grows fs0 b B Ok) (Grew b B Ok)
      (do
        let _ ← call o msg
        journalLive (b ++ q)
        applyOwnership env (b ++ q))
      (fun _ _ w' => w.fs.get (B ++ q) = none ∧ w'.fs.get (B ++ q) = some u) g w := by
  refine Stays.assoc (Stays.bind Grew.trans (stays_make ho h fun _ _ _ => wp_journalLive hh) fun _ g2 w2 _ hm => ?_)
  exact stays_owned (P := fun w' => w.fs.get (B ++ q) = none ∧ w'.fs.get (B ++ q) = some u)
    ⟨hm.free, by simp [hm.get]⟩

theorem Timeless.journalLive : Timeless (Installer.journalLive p) := get.bind fun _ => .ite (.modify _) (.pure _)

theorem Timeless.put {o : Op Part} {msg : Errno → String} (ho : o.setsTimes = false) :
    Timeless
      (do
        let _ ← Installer.call o msg
        Installer.journalLive p
        Installer.applyOwnership env p) :=
  (call ho).bind fun _ => journalLive.bind fun _ => applyOwnership

section

variable {W : Type} {σ : Sem (calls Part) W} {E : Op Part → W → Prop} {β : Type} {Q : α → Globals → W → Prop}
  {D : String → Globals → W → Prop} {x : W}

/-- Where the brackets are does not matter. -/
theorem wp_bind_assoc {m : M β} {n : M Unit} {f : M α} :
    wp σ E (m >>= fun _ => n >>= fun _ => f) Q D g x ↔ wp σ E ((m >>= fun _ => n) >>= fun _ => f) Q D g x := by
  simp only [wp_bind]

theorem wp_regroup {m : M β} {n n' : M Unit} {f : M α} :
    wp σ E (m >>= fun _ => n >>= fun _ => n' >>= fun _ => f) Q D g x ↔
      wp σ E ((m >>= fun _ => n >>= fun _ => n') >>= fun _ => f) Q D g x := by
  simp only [wp_bind]

end

theorem wp_timed_extractAt {st : Except Errno Stat} (hh : Hooked g) (hb : At s.1.fs b B) (hne : e.path ≠ [])
    (hd : s.1.fs.IsDir (B ++ e.path.dropLast)) (hst : ∀ x, st = .ok x → s.1.fs.get (B ++ e.path) ≠ none) :
    wp (timed K) (fun _ _ => True) (extractAt env e (b ++ e.path) st)
      (fun made g' s' => LaidAt B e made s s' ∧ Hooked g') (fun _ _ _ => True) g s := by
  have hbe : Beneath s.1 b B (· = e.path) (b ++ e.path) e.path := ⟨rfl, hne, hb, hd, rfl⟩
  have hready : Ready s.1.fs b B s.1 := ⟨hb, Fs.Kept.refl _⟩
  have put : ∀ {m : M Unit} {n : M Bool} {made : Bool}, made = e.isDir → Timeless m →
      Stays (sem K) (Grows s.1.fs b B (· = e.path)) (Grew b B (· = e.path)) m
        (fun _ _ w' => s.1.fs.get (B ++ e.path) = none ∧ w'.fs.get (B ++ e.path) = some e.draft) g s.1 →
      (∀ g' s', Put b B e g s g' s' → wp (timed K) (fun _ _ => True) n
        (fun made' g'' s'' => (made' = made ∧ g'' = g' ∧ s''.1 = s'.1) ∧ Aged s s'' ∧
          (e.isDir = false → s''.2 (B ++ e.path) = ⟨e.mtime, 0⟩)) (fun _ _ _ => True) g' s') →
      wp (timed K) (fun _ _ => True) (m >>= fun _ => n) (fun made g' s' => LaidAt B e made s s' ∧ Hooked g')
        (fun _ _ _ => True) g s := by
    intro m n made hmade ht hm hf
    refine wp_bind.2 ((wp_put hm ht).post (fun _ g' s' hp => ?_) fun _ _ _ => id)
    refine (hf g' s' hp).post ?_ fun _ _ _ => id
    rintro _ g'' s'' ⟨⟨rfl, rfl, heq⟩, haged, htime⟩
    exact ⟨hp.laid hne hd heq haged htime hmade, hp.grew.hooked hh⟩
  unfold extractAt
  cases hc : e.content with
  | directory =>
      have hdir : e.isDir = true := by simp [Entry.isDir, hc]
      cases st with
      | ok x =>
          show wp _ _ (if _ then _ else _) _ _ _ _
          split
          · trivial
          · exact ⟨.present (hst x rfl) hdir, hh⟩
      | error x =>
          have hdraft : e.draft = .dir 0o700 := by simp [Entry.draft, hdir]
          refine wp_regroup.2 (put hdir.symm (.put rfl) ?_ fun g' s' hp => ⟨⟨rfl, rfl, rfl⟩, hp.aged, by simp [hdir]⟩)
          rw [hdraft]
          exact stays_put hh rfl hbe
  | symlink target =>
      have hdir : e.isDir = false := by simp [Entry.isDir, hc]
      cases st with
      | ok x => trivial
      | error x =>
          have hdraft : e.draft = .link target.1 := by simp [Entry.draft, Entry.node, hdir, hc]
          refine wp_regroup.2 (put hdir.symm (.put rfl) ?_ fun _ _ hp => hp.leaf hb hne)
          rw [hdraft]
          exact stays_put hh rfl hbe
  | file data =>
      have hdir : e.isDir = false := by simp [Entry.isDir, hc]
      cases st with
      | ok x => trivial
      | error x =>
          have hdraft : e.draft = .file e.mode data := by simp [Entry.draft, Entry.node, hdir, hc]
          refine wp_bind_assoc.2 (put hdir.symm (Timeless.fileWrite.bind fun _ => .applyOwnership) ?_
            fun _ _ hp => hp.leaf hb hne)
          refine (stays_fileWrite data e.mode hready hbe).bind Grew.trans fun _ g' w' _ hdone => ?_
          exact stays_owned ⟨hdone.1, by rw [hdraft]; exact hdone.2⟩

/-- What is looked up at a known place. -/
theorem sem_lstat_ok {x : Stat} (hb : At w.fs b B) (hq : q ≠ []) (hd : w.fs.IsDir (B ++ q.dropLast))
    (hs : sem K (.lstat (b ++ q)) w (.ok x) w') : w.fs.get (B ++ q) ≠ none := by
  have hrun : (Op.lstat (τ := Part) (b ++ q)).run w = .ok (x, w') := hs
  rw [run_lstat rfl hb hq (clear_of_isDir hq hd)] at hrun
  intro hnone
  simp [hnone] at hrun

/-- An entry is laid after the directories above it. -/
theorem LaidAt.after {made : Bool} (h : LaidAt B e made s' s'')
    (hg : Grew b B (fun q => q ≠ [] ∧ q <+: e.path ∧ q ≠ e.path) g s.1 g' s'.1) (hi : Implied s.1.fs s'.1.fs)
    (ha : Aged s s') (hd : s'.1.fs.IsDir (B ++ e.path.dropLast)) : LaidAt B e made s s'' := by
  -- the entry itself is not made with what is above it
  have hself : s'.1.fs.get (B ++ e.path) = none ↔ s.1.fs.get (B ++ e.path) = none := by
    constructor
    · intro hnone
      by_contra hthere
      exact ha.kept.ne_none hthere hnone
    · intro hnone
      by_contra hthere
      obtain ⟨q, ⟨-, -, hqe⟩, heq⟩ := hg.only hnone hthere
      exact hqe (List.append_cancel_left heq).symm
  refine ⟨ha.trans h.aged, fun p hp hp' => ?_, fun q hq hqe hnone => ?_, fun hnone => h.here (hself.2 hnone), h.time,
    fun hdir hne => hself.1 (h.leaf hdir hne), by rw [h.made_iff, hself]⟩
  · by_cases hnone : s'.1.fs.get p = none
    · exact h.only p hnone hp'
    · obtain ⟨q, ⟨hqne, hq, -⟩, rfl⟩ := hg.only hp hnone
      exact ⟨q, hqne, hq, rfl⟩
  · have hthere : s'.1.fs.get (B ++ q) ≠ none := isDir_above hd hq hqe
    rw [h.aged.kept _ hthere]
    exact (hi _ hnone).resolve_left hthere

theorem wp_timed_extractEntry (hh : Hooked g) (hb : At s.1.fs b B) :
    wp (timed K) (fun _ _ => True) (extractEntry env b e) (fun made g' s' => LaidAt B e made s s' ∧ Hooked g')
      (fun _ _ _ => True) g s := by
  unfold extractEntry
  split
  · next hnil =>
      have hthere : s.1.fs.get (B ++ e.path) ≠ none := by
        rw [hnil, List.append_nil]
        exact hb.isDir.ne_none
      refine ⟨⟨.refl, fun p hp hp' => absurd hp hp', fun q hq hqe => ?_, fun h => absurd h hthere,
        fun _ h => absurd hnil h, fun _ h => absurd hnil h, by simp [hnil]⟩, hh⟩
      rw [hnil, List.prefix_nil] at hq
      exact absurd (hq.trans hnil.symm) hqe
  · next hne =>
      have hparents : Parents e.path fun q => q ≠ [] ∧ q <+: e.path ∧ q ≠ e.path := fun q hq hqne hqe => ⟨hqne, hq, hqe⟩
      refine wp_bind.2 ((wp_timed_pathParents hb hparents).post ?_ fun _ _ _ => id)
      rintro _ g1 s1 ⟨hg1, hd, hi, ha1⟩
      have hb1 := hb.kept ha1.kept
      refine wp_bind_hostJoin (fun _ => trivial) (wp_bind.2 (wp_ask.2 ⟨trivial, fun r s2 hs => ?_⟩))
      have heq : s2.1 = s1.1 := sem_quiet rfl hs.1
      have hquiet : Grows s.1.fs b B (fun _ => True) (.lstat (b ++ e.path)) s1.1 := .of_quiet rfl
      have ha2 : Aged s s2 := ha1.step hquiet rfl hs
      rw [← heq] at hg1 hd hi hb1
      have hst : ∀ x, r = .ok x → s2.1.fs.get (B ++ e.path) ≠ none := by
        rintro x rfl
        exact sem_lstat_ok hb1 hne hd (by rw [heq]; exact hs.1)
      refine (wp_timed_extractAt (hg1.hooked hh) hb1 hne hd hst).post ?_ fun _ _ _ => id
      rintro made g' s' ⟨hl, hh'⟩
      exact ⟨hl.after hg1 hi ha2 hd, hh'⟩

/-! ### All entries -/

/-- What becomes of a path that was not there. -/
theorem LaidAt.get {made : Bool} (h : LaidAt B e made s s') (hq : s.1.fs.get (B ++ q) = none) :
    s'.1.fs.get (B ++ q) = if q <+: e.path then some (if e.path = q then e.draft else .dir 0o755) else none := by
  split
  · next hpre =>
      split
      · next heq =>
          subst heq
          exact h.here hq
      · next hne => exact h.above q hpre (Ne.symm hne) hq
  · next hpre =>
      by_contra hthere
      obtain ⟨r, -, hr, heq⟩ := h.only _ hq hthere
      rw [List.append_cancel_left heq] at hpre
      exact hpre hr

/-- An entry has been laid, and so is what is above it. -/
theorem LaidAt.covers {made : Bool} (h : LaidAt B e made s s') (hq : q <+: e.path) : s'.1.fs.get (B ++ q) ≠ none := by
  by_cases hnone : s.1.fs.get (B ++ q) = none
  · rw [h.get hnone, if_pos hq]
    simp
  · exact h.aged.kept.ne_none hnone

/-- What is neither an entry nor above it is as it was. -/
theorem LaidAt.get_eq_none_iff {made : Bool} (h : LaidAt B e made s s') (hq : ¬ q <+: e.path) :
    s'.1.fs.get (B ++ q) = none ↔ s.1.fs.get (B ++ q) = none := by
  constructor
  · intro hnone
    by_contra hthere
    exact h.aged.kept.ne_none hthere hnone
  · intro hnone
    rw [h.get hnone, if_neg hq]

/-- There is nothing in a file or a link. -/
theorem sameContents_leaf {fs fs' : Fs} {u : Node} (hk : fs.Kept fs') (hu : fs.get p = some u)
    (hdir : u.isDir = false) : SameContents fs p fs' p := by
  have empty : ∀ {f : Fs}, f.get p = some u → ∀ n, f.get (p ++ [n]) = none := by
    intro f hf n
    by_contra hn
    obtain ⟨m, hm⟩ := f.parent p n hn
    rw [hf] at hm
    cases hm
    cases hdir
  have hu' : fs'.get p = some u := by rw [hk p (by simp [hu]), hu]
  exact ⟨by simp [hu], by rw [hu, hu'], fun n => by rw [empty hu, empty hu']⟩

/-- The directory of an entry was made for it. -/
def Fresh (B : Path) (entries : List Entry) (fs : Fs) (e : Entry) : Prop :=
  e.isDir = true ∧ fs.get (B ++ e.path) = none ∧ reaching entries e.path = some e

/-- The entries have been laid, the directories not finished. -/
structure Drafted (B : Path) (entries created created' : List Entry) (s s' : World Part × Times) : Prop where
  aged : Aged s s'
  new : ∀ q, s.1.fs.get (B ++ q) = none → s'.1.fs.get (B ++ q) = unpacked Entry.draft entries q
  outside : ∀ p, ¬ B <+: p → s'.1.fs.get p = s.1.fs.get p
  time : ∀ e, reaching entries e.path = some e → e.isDir = false → e.path ≠ [] → s'.2 (B ++ e.path) = ⟨e.mtime, 0⟩
  leaves : ∀ e ∈ entries, e.isDir = false → e.path ≠ [] →
    s.1.fs.get (B ++ e.path) = none ∧ reaching entries e.path = some e
  made : ∀ e, e ∈ created' ↔ e ∈ created ∨ Fresh B entries s.1.fs e

theorem Drafted.nil : Drafted B [] created created s s := by
  refine ⟨.refl, fun q hq => hq, fun _ _ => rfl, fun e he => absurd he (by simp [reaching]), by simp, fun e => ?_⟩
  constructor
  · exact .inl
  · rintro (h | ⟨-, -, h⟩)
    · exact h
    · simp [reaching] at h

theorem Drafted.cons {made : Bool} {created' : List Entry} (h : LaidAt B e made s s') (hb : s.1.fs.get B ≠ none)
    (h' : Drafted B entries (if made then e :: created else created) created' s' s'') :
    Drafted B (e :: entries) created created' s s'' := by
  have hleaf : e.isDir = false → e.draft.isDir = false := by
    intro hdir
    unfold Entry.draft
    rw [hdir, if_neg (by simp)]
    revert hdir
    unfold Entry.isDir Entry.node
    cases e.content <;> simp [Node.isDir]
  refine ⟨h.aged.trans h'.aged, fun q hq => ?_, fun p hp => ?_, fun x hx hdir hne => ?_, fun x hx hdir hne => ?_,
    fun x => ?_⟩
  · by_cases hpre : q <+: e.path
    · have hget := h.get hq
      rw [if_pos hpre] at hget
      rw [h'.aged.kept _ (h.covers hpre), hget, unpacked, reaching_cons, if_pos hpre, Option.map_some]
    · rw [h'.new q ((h.get_eq_none_iff hpre).2 hq), unpacked, unpacked, reaching_cons, if_neg hpre]
  · by_cases hnone : s.1.fs.get p = none
    · have hnone' : s'.1.fs.get p = none := by
        by_contra hthere
        obtain ⟨q, -, -, rfl⟩ := h.only p hnone hthere
        exact hp (List.prefix_append _ _)
      rw [h'.outside p hp, hnone', hnone]
    · exact (h.aged.trans h'.aged).kept p hnone
  · rw [reaching_cons] at hx
    split at hx
    · next hpre =>
        obtain rfl := Option.some.inj hx
        have hget : s'.1.fs.get (B ++ e.path) = some e.draft := h.here (h.leaf hdir hne)
        rw [h'.aged.times _ (sameContents_leaf h'.aged.kept hget (hleaf hdir)), h.time hdir hne]
    · exact h'.time x hx hdir hne
  · rcases List.mem_cons.1 hx with rfl | hx
    · exact ⟨h.leaf hdir hne, by rw [reaching_cons, if_pos (List.prefix_refl _)]⟩
    · obtain ⟨hnone, hreach⟩ := h'.leaves x hx hdir hne
      have hpre : ¬ x.path <+: e.path := fun hpre => h.covers hpre hnone
      exact ⟨(h.get_eq_none_iff hpre).1 hnone, by rw [reaching_cons, if_neg hpre, hreach]⟩
  · rw [h'.made x]
    by_cases hpre : x.path <+: e.path
    · -- what is at the entry or above it is there when the others are laid
      have hlater : ¬ Fresh B entries s'.1.fs x := fun hx => h.covers hpre hx.2.1
      have hfirst : Fresh B (e :: entries) s.1.fs x ↔ x = e ∧ made = true := by
        rw [Fresh, reaching_cons, if_pos hpre, h.made_iff]
        constructor
        · rintro ⟨hdir, hnone, heq⟩
          obtain rfl := Option.some.inj heq
          refine ⟨rfl, ?_, hdir, hnone⟩
          intro hnil
          rw [hnil, List.append_nil] at hnone
          exact hb hnone
        · rintro ⟨rfl, -, hdir, hnone⟩
          exact ⟨hdir, hnone, rfl⟩
      rw [hfirst]
      cases made with
      | true => simp [hlater, or_comm]
      | false => simp [hlater]
    · have hother : Fresh B (e :: entries) s.1.fs x ↔ Fresh B entries s'.1.fs x := by
        rw [Fresh, Fresh, reaching_cons, if_neg hpre, h.get_eq_none_iff hpre]
      have hne : x ≠ e := by
        rintro rfl
        exact hpre (List.prefix_refl _)
      rw [hother]
      cases made with
      | true => simp [hne]
      | false => rfl

theorem wp_timed_extractEntries (hh : Hooked g) (hb : At s.1.fs b B) :
    wp (timed K) (fun _ _ => True) (extractEntries env b created entries)
      (fun created' _ s' => Drafted B entries created created' s s') (fun _ _ _ => True) g s := by
  induction entries generalizing created g s with
  | nil => exact .nil
  | cons e entries ih =>
      unfold extractEntries
      refine wp_bind.2 ((wp_timed_extractEntry hh hb).post ?_ fun _ _ _ => id)
      rintro made g1 s1 ⟨hl, hh1⟩
      have hb1 := hb.kept hl.aged.kept
      have hB := hb.isDir.ne_none
      cases made with
      | true => exact (ih hh1 hb1).post (fun _ _ _ h => .cons hl hB h) fun _ _ _ => id
      | false => exact (ih hh1 hb1).post (fun _ _ _ h => .cons hl hB h) fun _ _ _ => id

/-! ### The directories -/

/-- The directories of `l` have the modes and times that were packaged. -/
structure Finished (B : Path) (l : List Entry) (s s' : World Part × Times) : Prop where
  same : ∀ p, (∀ e ∈ l, p ≠ B ++ e.path) → s'.1.fs.get p = s.1.fs.get p ∧ (s.1.fs.get p ≠ none → s'.2 p = s.2 p)
  done : ∀ e ∈ l, s'.1.fs.get (B ++ e.path) = some (.dir e.mode) ∧ s'.2 (B ++ e.path) = ⟨e.mtime, 0⟩

theorem wp_timed_finishDirectory (hb : At fs0 b B) (hk : fs0.Kept s.1.fs) (hfree : fs0.get (B ++ e.path) = none)
    (hdir : s.1.fs.IsDir (B ++ e.path)) :
    wp (timed K) (fun _ _ => True) (finishDirectory b e) (fun _ _ s' => fs0.Kept s'.1.fs ∧ Finished B [e] s s')
      (fun _ _ _ => True) g s := by
  have hne : e.path ≠ [] := by
    intro hnil
    rw [hnil, List.append_nil] at hfree
    exact hb.isDir.ne_none hfree
  unfold finishDirectory
  refine wp_bind_hostJoin (fun _ => trivial) (wp_bind.2 (wp_call.2 (wp_ask.2 ⟨trivial, fun r s1 hs => ?_⟩)))
  cases r with
  | error x => trivial
  | ok x =>
      obtain ⟨c, u, hc, hu, ha⟩ := sem_chmod hs.1
      rw [realPath_append (hb.kept hk) hdir] at hc
      obtain rfl := Except.ok.inj hc
      obtain ⟨m, hm⟩ := hdir
      obtain rfl : Node.dir m = u := Option.some.inj (hm.symm.trans hu)
      replace ha : Altered s.1 (B ++ e.path) (.dir e.mode) s1.1 := ha
      have hk1 := kept_of_altered hk hfree ha
      have hthere : s1.1.fs.get (B ++ e.path) = some (.dir e.mode) := by rw [ha.get, if_pos rfl]
      -- a mode is no part of the contents
      have hmode : (Node.dir e.mode).chmod 0 = (Node.dir m).chmod 0 := rfl
      have hsame : ∀ p, s.1.fs.get p ≠ none → s1.2 p = s.2 p := fun p hp =>
        hs.2.kept rfl (sameContents_of_altered hp hu hmode ha)
      refine wp_call.2 (wp_ask.2 ⟨trivial, fun r s2 hs2 => ?_⟩)
      cases r with
      | error y => trivial
      | ok y =>
          have heq : s2.1 = s1.1 := sem_quiet rfl hs2.1
          obtain ⟨-, d, hd, htimes⟩ := hs2
          have hloc := (locate_clear (hb.kept hk1) hne (.of_ne_none (by simp [hthere]))).resolve_right
            fun h => by simp [hthere] at h
          obtain rfl : B ++ e.path = d := Except.ok.inj (hloc.symm.trans hd)
          refine ⟨by rwa [heq], fun p hp => ?_, fun x hx => ?_⟩
          · have hpe : p ≠ B ++ e.path := hp e (.head _)
            rw [heq, ha.get, if_neg hpe, htimes, Function.update_of_ne hpe]
            exact ⟨rfl, hsame p⟩
          · obtain rfl := List.mem_singleton.1 hx
            rw [heq, htimes, Function.update_self]
            exact ⟨hthere, rfl⟩

/-- Entries with one path are one entry, so it does not matter which of them is last. -/
theorem Finished.cons {l : List Entry} (hl : ∀ x ∈ l, x.path = e.path → x = e) (h : Finished B [e] s s')
    (h' : Finished B l s' s'') : Finished B (e :: l) s s'' := by
  refine ⟨fun p hp => ?_, fun x hx => ?_⟩
  · obtain ⟨hget, htime⟩ := h.same p fun x hx => hp x (by simp_all)
    obtain ⟨hget', htime'⟩ := h'.same p fun x hx => hp x (.tail _ hx)
    rw [hget', hget]
    exact ⟨rfl, fun hp => (htime' (by rwa [hget])).trans (htime hp)⟩
  · by_cases hmem : x ∈ l
    · exact h'.done x hmem
    · obtain rfl : x = e := (List.mem_cons.1 hx).resolve_right hmem
      obtain ⟨hget, htime⟩ := h.done x (.head _)
      obtain ⟨hget', htime'⟩ := h'.same (B ++ x.path) fun y hy heq =>
        hmem (hl y hy (List.append_cancel_left heq).symm ▸ hy)
      rw [hget', htime' (by simp [hget])]
      exact ⟨hget, htime⟩

theorem wp_timed_finishDirectories {l : List Entry} (hb : At fs0 b B) (hk : fs0.Kept s.1.fs)
    (hl : ∀ e ∈ l, fs0.get (B ++ e.path) = none ∧ s.1.fs.IsDir (B ++ e.path))
    (hone : ∀ x ∈ l, ∀ y ∈ l, x.path = y.path → x = y) :
    wp (timed K) (fun _ _ => True) (each (finishDirectory b) l) (fun _ _ s' => Finished B l s s') (fun _ _ _ => True)
      g s := by
  induction l generalizing g s with
  | nil => exact ⟨fun p _ => ⟨rfl, fun _ => rfl⟩, fun e he => by cases he⟩
  | cons e l ih =>
      obtain ⟨hfree, hdir⟩ := hl e (.head _)
      refine wp_bind.2 ((wp_timed_finishDirectory hb hk hfree hdir).post ?_ fun _ _ _ => id)
      rintro _ g1 s1 ⟨hk1, h1⟩
      refine (ih hk1 (fun x hx => ?_) fun x hx y hy => hone x (.tail _ hx) y (.tail _ hy)).post
        (fun _ _ _ h => h1.cons (fun x hx => hone x (.tail _ hx) e (.head _)) h) fun _ _ _ => id
      obtain ⟨hfreex, m, hm⟩ := hl x (.tail _ hx)
      refine ⟨hfreex, ?_⟩
      by_cases hxe : B ++ x.path = B ++ e.path
      · rw [hxe]
        exact ⟨_, (h1.done e (.head _)).1⟩
      · exact ⟨m, (h1.same _ fun y hy => by simp_all).1.trans hm⟩

/-! ### `extract ()` -/

/-- An archive has been unpacked at `B`. -/
structure Unpacked (B : Path) (entries : List Entry) (s s' : World Part × Times) : Prop where
  old : ∀ p, s.1.fs.get p ≠ none → s'.1.fs.get p = s.1.fs.get p
  outside : ∀ p, ¬ B <+: p → s'.1.fs.get p = s.1.fs.get p
  new : ∀ q, s.1.fs.get (B ++ q) = none → s'.1.fs.get (B ++ q) = unpacked Entry.node entries q
  /-- what an entry was the first to reach has the time that was packaged -/
  time : ∀ e, e.path ≠ [] → s.1.fs.get (B ++ e.path) = none → reaching entries e.path = some e →
    s'.2 (B ++ e.path) = ⟨e.mtime, 0⟩
  /-- nothing has been put into it -/
  untouched : ∀ p, SameContents s.1.fs p s'.1.fs p → s'.2 p = s.2 p
  leaves : ∀ e ∈ entries, e.isDir = false → e.path ≠ [] →
    s.1.fs.get (B ++ e.path) = none ∧ reaching entries e.path = some e
  inPlace : ∀ e ∈ entries, InPlace s'.1.fs B e

theorem Entry.node_of_isDir (h : e.isDir = true) : e.node = .dir e.mode := by
  unfold Entry.node
  revert h
  unfold Entry.isDir
  cases e.content <;> simp

theorem Drafted.unpacked (h : Drafted B entries [] created s s') (h' : Finished B created s' s'')
    (hin : ∀ e ∈ entries, InPlace s''.1.fs B e) : Unpacked B entries s s'' := by
  have hcreated : ∀ e, e ∈ created ↔ Fresh B entries s.1.fs e := fun e => by simp [h.made e]
  have hold : ∀ p, s.1.fs.get p ≠ none → ∀ e ∈ created, p ≠ B ++ e.path := by
    rintro p hp e he rfl
    exact hp ((hcreated e).1 he).2.1
  have hthere : ∀ p, s''.1.fs.get p = none ↔ s'.1.fs.get p = none := by
    intro p
    by_cases hp : ∃ e ∈ created, p = B ++ e.path
    · obtain ⟨e, he, rfl⟩ := hp
      obtain ⟨hdir, hnone, hreach⟩ := (hcreated e).1 he
      rw [(h'.done e he).1, h.new _ hnone, Installer.unpacked, hreach]
      simp
    · rw [(h'.same p fun e he heq => hp ⟨e, he, heq⟩).1]
  refine ⟨fun p hp => ?_, fun p hp => ?_, fun q hq => ?_, fun e hne hnone hreach => ?_, fun p hp => ?_, h.leaves, hin⟩
  · rw [(h'.same p (hold p hp)).1, h.aged.kept p hp]
  · rw [(h'.same p fun e _ heq => hp (heq ▸ List.prefix_append _ _)).1, h.outside p hp]
  · by_cases hdone : ∃ e ∈ created, q = e.path
    · obtain ⟨e, he, rfl⟩ := hdone
      obtain ⟨hdir, -, hreach⟩ := (hcreated e).1 he
      rw [(h'.done e he).1, Installer.unpacked, hreach, Option.map_some, if_pos rfl, Entry.node_of_isDir hdir]
    · rw [(h'.same _ fun e he heq => hdone ⟨e, he, List.append_cancel_left heq⟩).1, h.new q hq, Installer.unpacked,
        Installer.unpacked]
      cases hreach : reaching entries q with
      | none => rfl
      | some e =>
          rw [Option.map_some, Option.map_some]
          split
          · next heq =>
              -- a directory that reaches the path first is made for it
              have hdir : ¬ e.isDir = true := by
                intro hdir
                subst heq
                exact hdone ⟨e, (hcreated e).2 ⟨hdir, hq, hreach⟩, rfl⟩
              rw [Entry.draft, if_neg hdir]
          · rfl
  · by_cases hdir : e.isDir = true
    · exact (h'.done e ((hcreated e).2 ⟨hdir, hnone, hreach⟩)).2
    · have hsame := h'.same (B ++ e.path) fun x hx heq => by
        obtain ⟨hxdir, -, hx⟩ := (hcreated x).1 hx
        rw [← List.append_cancel_left heq, hreach] at hx
        exact hdir (Option.some.inj hx ▸ hxdir)
      rw [hsame.2, h.time e hreach (by simpa using hdir) hne]
      rw [h.new _ hnone, Installer.unpacked, hreach]
      simp
  · have hsame := h'.same p (hold p hp.there)
    rw [hsame.2 (h.aged.kept.ne_none hp.there), h.aged.times p]
    exact ⟨hp.there, by rw [← hsame.1]; exact hp.node, fun n => by rw [← hthere]; exact hp.names n⟩

theorem wp_timed_extract (hh : Hooked g) (hb : At s.1.fs b B) :
    wp (timed K) (fun _ _ => True) (extract env entries b) (fun _ _ s' => Unpacked B entries s s') (fun _ _ _ => True)
      g s := by
  have hready : Ready s.1.fs b B s.1 := ⟨hb, Fs.Kept.refl _⟩
  have hin := stays_extract (K := K) env entries hh hready fun e _ => fun _ _ _ => trivial
  have hexact : wp (timed K) (fun _ _ => True) (extract env entries b)
      (fun _ _ s'' => ∃ created s', Drafted B entries [] created s s' ∧ Finished B created s' s'') (fun _ _ _ => True)
      g s := by
    unfold extract
    refine wp_bind.2 ((wp_timed_extractEntries hh hb).post ?_ fun _ _ _ => id)
    rintro created g1 s1 hd
    have hcreated : ∀ e ∈ created, Fresh B entries s.1.fs e := fun e he => by simpa using (hd.made e).1 he
    refine (wp_timed_finishDirectories hb hd.aged.kept (fun e he => ?_) fun x hx y hy heq => ?_).post
      (fun _ _ _ h => ⟨created, s1, hd, h⟩) fun _ _ _ => id
    · obtain ⟨hdir, hnone, hreach⟩ := hcreated e he
      refine ⟨hnone, 0o700, ?_⟩
      rw [hd.new _ hnone, unpacked, hreach, Option.map_some, if_pos rfl, Entry.draft, if_pos hdir]
    · have hx := (hcreated x hx).2.2
      rw [heq, (hcreated y hy).2.2] at hx
      exact (Option.some.inj hx).symm
  refine (wp.and hexact (wp_timed hin)).mono (fun _ _ _ => trivial) ?_ fun _ _ _ _ => trivial
  rintro _ g' s'' ⟨⟨created, s', hd, hf⟩, -, hplace⟩
  exact hd.unpacked hf hplace

/-- **Unpacking, exactly.** Whatever calls fail, if `extract ()` returns, everything that was there is as it was; of
what was not there, the first entry at a path or beneath it decides what the path is, and with it the time if it is at
the path itself; a file or link was not there, and is the first to reach its path; and what nothing was put into keeps
its time. -/
theorem extract_exact (K : Kernel Part) (env : Env) (entries : List Entry) (b B : Path) (g g' : Globals)
    (s s' : World Part × Times) (hh : Hooked g) (hb : At s.1.fs b B)
    (hr : Prog.Reach (timed K) (extract env entries b g) s (.ret (.ok (), g')) s') : Unpacked B entries s s' :=
  Prog.Spec.reach (wp_timed_extract (K := K) hh hb) hr

/-- A directory that comes after something in it. -/
def latePayload : List Entry :=
  [{ path := [nm "usr".toList, nm "cc".toList], mode := 0o644, content := .file [1], mtime := 3 },
    { path := [nm "usr".toList], mode := 0o700, content := .directory, mtime := 5 }]

/-- The directory is one of `path_parents ()`. -/
theorem extract_exact_late :
    ∃ s', Prog.Reach (timed Kernel.steady) (extract default latePayload [] {}) (emptyRoot, fun _ => ⟨7, 5⟩)
        (.ret (.ok (), {})) s' ∧ Unpacked [] latePayload (emptyRoot, fun _ => ⟨7, 5⟩) s' := by
  have hrun := Prog.reach_exec (timed_answer (K := Kernel.steady)) (extract default latePayload [] {})
    (emptyRoot, fun _ => ⟨7, 5⟩)
  have hres : ((extract default latePayload [] {}).exec Op.timedAnswer (emptyRoot, fun _ => ⟨7, 5⟩)).1 =
      (.ok (), {}) := by
    decide +kernel
  rw [hres] at hrun
  exact ⟨_, hrun, extract_exact Kernel.steady default latePayload [] [] {} {} _ _ rfl (at_self Fs.isDir_nil) hrun⟩

example : unpacked Entry.node latePayload [nm "usr".toList] = some (.dir 0o755) := by decide

/-! ### The order of the entries -/

/-- Every directory comes before what is at its path or beneath it. -/
def Heralded (entries : List Entry) : Prop :=
  entries.Pairwise fun x y => y.isDir = true → ¬ y.path <+: x.path

instance : DecidablePred Heralded := fun entries =>
  inferInstanceAs (Decidable (entries.Pairwise fun x y => y.isDir = true → ¬ y.path <+: x.path))

theorem Heralded.first (h : Heralded entries) (he : e ∈ entries) (hdir : e.isDir = true) :
    reaching entries e.path = some e := by
  induction entries with
  | nil => cases he
  | cons x entries ih =>
      obtain ⟨hx, hrest⟩ := List.pairwise_cons.1 h
      rw [reaching_cons]
      rcases List.mem_cons.1 he with rfl | he
      · rw [if_pos (List.prefix_refl _)]
      · rw [if_neg (hx e he hdir), ih hrest he]

/-- Every entry is the first to reach its path. -/
theorem Unpacked.first (h : Unpacked B entries s s') (hher : Heralded entries) (he : e ∈ entries) (hne : e.path ≠ []) :
    reaching entries e.path = some e := by
  cases hdir : e.isDir with
  | true => exact hher.first he hdir
  | false => exact (h.leaves e he hdir hne).2

theorem reaching_isSome_iff : (reaching entries q).isSome = true ↔ ∃ e ∈ entries, q <+: e.path := by
  unfold reaching
  rw [List.find?_isSome]
  simp

/-- What does not depend on the order. -/
theorem Unpacked.perm {entries' : List Entry} {r r' : World Part × Times} (h : Unpacked B entries s s')
    (h' : Unpacked B entries' r r') (hperm : entries.Perm entries') (hher : Heralded entries)
    (hher' : Heralded entries') (hq : q ≠ []) : unpacked Entry.node entries' q = unpacked Entry.node entries q := by
  unfold unpacked
  by_cases hat : ∃ e ∈ entries, e.path = q
  · obtain ⟨e, he, rfl⟩ := hat
    rw [h.first hher he hq, h'.first hher' (hperm.mem_iff.1 he) hq]
  · have hsome : (reaching entries' q).isSome = (reaching entries q).isSome := by
      rw [Bool.eq_iff_iff, reaching_isSome_iff, reaching_isSome_iff]
      simp [hperm.mem_iff]
    have hdir : ∀ {l : List Entry} {x}, (∀ e ∈ l, e ∈ entries) → reaching l q = some x → x.path ≠ q :=
      fun hl hx heq => hat ⟨_, hl _ (reaching_eq_some hx).1, heq⟩
    cases hx : reaching entries q with
    | none =>
        rw [hx] at hsome
        rw [Option.isNone_iff_eq_none.1 (Option.isSome_eq_false_iff.1 hsome)]
    | some x =>
        rw [hx] at hsome
        obtain ⟨y, hy⟩ := Option.isSome_iff_exists.1 hsome
        rw [hy, Option.map_some, Option.map_some, if_neg (hdir (fun _ => id) hx),
          if_neg (hdir (fun _ => hperm.mem_iff.2) hy)]

/-- **The order of a payload does not matter**, if every directory comes before what is in it: any two runs of
`extract ()` that return, on the same tree and two such orders of the same entries, leave the same tree; every entry
that was not there is there as it was packaged, with its time; and what nothing was put into has the time it had. -/
theorem payload_order (K K' : Kernel Part) (env env' : Env) (entries entries' : List Entry) (b B : Path)
    (g h g' h' : Globals) (s r r' : World Part × Times) (hg : Hooked g) (hh : Hooked h) (hb : At s.1.fs b B)
    (hperm : entries.Perm entries') (hher : Heralded entries) (hher' : Heralded entries')
    (hr : Prog.Reach (timed K) (extract env entries b g) s (.ret (.ok (), g')) r)
    (hr' : Prog.Reach (timed K') (extract env' entries' b h) s (.ret (.ok (), h')) r') :
    (∀ p, r'.1.fs.get p = r.1.fs.get p) ∧
      (∀ e ∈ entries, e.path ≠ [] → s.1.fs.get (B ++ e.path) = none →
        r.1.fs.get (B ++ e.path) = some e.node ∧ r.2 (B ++ e.path) = ⟨e.mtime, 0⟩ ∧ r'.2 (B ++ e.path) = ⟨e.mtime, 0⟩) ∧
        ∀ p, SameContents s.1.fs p r.1.fs p → r.2 p = s.2 p ∧ r'.2 p = s.2 p := by
  have h1 : Unpacked B entries s r := Prog.Spec.reach (wp_timed_extract (K := K) hg hb) hr
  have h2 : Unpacked B entries' s r' := Prog.Spec.reach (wp_timed_extract (K := K') hh hb) hr'
  have hsame : ∀ p, r'.1.fs.get p = r.1.fs.get p := by
    intro p
    by_cases hp : s.1.fs.get p = none
    · by_cases hpre : B <+: p
      · obtain ⟨q, rfl⟩ := hpre
        have hq : q ≠ [] := by
          rintro rfl
          rw [List.append_nil] at hp
          exact hb.isDir.ne_none hp
        rw [h1.new q hp, h2.new q hp, h1.perm h2 hperm hher hher' hq]
      · rw [h1.outside p hpre, h2.outside p hpre]
    · rw [h1.old p hp, h2.old p hp]
  refine ⟨hsame, fun e he hne hnone => ?_, fun p hp => ?_⟩
  · have hreach := h1.first hher he hne
    refine ⟨?_, h1.time e hne hnone hreach, h2.time e hne hnone (h2.first hher' (hperm.mem_iff.1 he) hne)⟩
    rw [h1.new _ hnone, unpacked, hreach, Option.map_some, if_pos rfl]
  · refine ⟨h1.untouched p hp, h2.untouched p ⟨hp.there, ?_, fun n => ?_⟩⟩
    · rw [hsame]
      exact hp.node
    · rw [hsame]
      exact hp.names n

/-- A directory, a file in it, and a link beside it. -/
def plainPayload : List Entry :=
  [{ path := [nm "usr".toList], mode := 0o700, content := .directory, mtime := 5 },
    { path := [nm "usr".toList, nm "cc".toList], mode := 0o644, content := .file [1], mtime := 3 },
    { path := [nm "bin".toList], mode := 0o777, content := .symlink ⟨"usr".toList, by decide⟩, mtime := 4 }]

/-- Unpacked as it is and with the link first. -/
theorem payload_order_plain :
    ∃ r r', Prog.Reach (timed Kernel.steady) (extract default plainPayload [] {}) (emptyRoot, fun _ => ⟨7, 5⟩)
        (.ret (.ok (), {})) r ∧
      Prog.Reach (timed Kernel.steady) (extract default (plainPayload.rotate 2) [] {}) (emptyRoot, fun _ => ⟨7, 5⟩)
        (.ret (.ok (), {})) r' ∧
      (∀ p, r'.1.fs.get p = r.1.fs.get p) ∧ r.1.fs.get [nm "usr".toList] = some (.dir 0o700) ∧
        r.2 [nm "usr".toList] = ⟨5, 0⟩ ∧ r'.2 [nm "usr".toList] = ⟨5, 0⟩ := by
  have hrun := Prog.reach_exec (timed_answer (K := Kernel.steady)) (extract default plainPayload [] {})
    (emptyRoot, fun _ => ⟨7, 5⟩)
  have hrun' := Prog.reach_exec (timed_answer (K := Kernel.steady)) (extract default (plainPayload.rotate 2) [] {})
    (emptyRoot, fun _ => ⟨7, 5⟩)
  have hres : ((extract default plainPayload [] {}).exec Op.timedAnswer (emptyRoot, fun _ => ⟨7, 5⟩)).1 =
      (.ok (), {}) := by
    decide +kernel
  have hres' : ((extract default (plainPayload.rotate 2) [] {}).exec Op.timedAnswer (emptyRoot, fun _ => ⟨7, 5⟩)).1 =
      (.ok (), {}) := by
    decide +kernel
  rw [hres] at hrun
  rw [hres'] at hrun'
  have hher : Heralded plainPayload := by decide
  have hher' : Heralded (plainPayload.rotate 2) := by decide
  obtain ⟨hsame, hnew, -⟩ := payload_order Kernel.steady Kernel.steady default default plainPayload
    (plainPayload.rotate 2) [] [] {} {} {} {} _ _ _ rfl rfl (at_self Fs.isDir_nil) (List.rotate_perm _ _).symm
    hher hher' hrun hrun'
  obtain ⟨hget, htime, htime'⟩ := hnew _ (.head _) (by decide) (by decide)
  exact ⟨_, _, hrun, hrun', hsame, hget, htime, htime'⟩

end MiniDarwin.Installer
