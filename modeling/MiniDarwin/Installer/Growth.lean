import MiniDarwin.Installer.Quiet

/-!
What unpacking does to the tree.

`Grows` bounds the calls: beneath a directory, and nowhere else, new nodes
are made at permitted paths, and only nodes that were not there at the
beginning are changed. `Grew` describes the outcome, of a success and of a
failure alike: the tree has been added to, the additions are known in the
order they were made, and in a live install each of them is in the
journal.

Every function of `extract ()` and `receipts_write ()` has one lemma here,
which bounds its calls by `Grows`, relates its outcomes to its start by
`Grew`, and says what a success has put in place.
-/

namespace MiniDarwin.Installer

open Posix Effects Effects.Proc

variable {K : Kernel Part} {E : Op Part → World Part → Prop}
  {fs0 : Fs} {b B p q : Path} {Ok Ok' : Path → Prop} {g g' g'' : Globals}
  {w w' w'' : World Part} {v : Node} {env : Env} {mode : Mode}

/-- The name `p` is that of `q` beneath the directory `b`, and the way there
leads through directories only. -/
structure Beneath (w : World Part) (b B : Path) (Ok : Path → Prop) (p q : Path) : Prop where
  eq : p = b ++ q
  ne_nil : q ≠ []
  base : At w.fs b B
  inDir : w.fs.IsDir (B ++ q.dropLast)
  ok : Ok q

theorem locate_of_isDir {fs : Fs} (hb : At fs b B) (hq : q ≠ []) (hd : fs.IsDir (B ++ q.dropLast)) :
    locate fs (b ++ q) = .ok (B ++ q) := by
  have h := @locate_append fs b B q.dropLast (q.getLast hq) hb hd
  rw [List.append_assoc, List.append_assoc, List.dropLast_append_getLast] at h
  exact h

theorem Beneath.locate (h : Beneath w b B Ok p q) : Posix.locate w.fs p = .ok (B ++ q) := by
  rw [h.eq]
  exact locate_of_isDir h.base h.ne_nil h.inDir

theorem clear_of_isDir {fs : Fs} (hq : q ≠ []) (hd : fs.IsDir (B ++ q.dropLast)) :
    Clear fs B q := by
  have h := @Clear.of_isDir B fs q.dropLast (q.getLast hq) hd
  rwa [List.dropLast_append_getLast] at h

/-- The calls of a function that adds to the tree beneath `b`. -/
def Grows (fs0 : Fs) (b B : Path) (Ok : Path → Prop) : Op Part → World Part → Prop
  | .mkdir p _, w | .symlink _ p, w | .create p, w | .clonefile _ p, w =>
      ∃ q, Beneath w b B Ok p q
  | .write p _, w | .fchmod p _, w => ∃ q, Beneath w b B Ok p q ∧ fs0.get (B ++ q) = none
  | .chmod p _, w =>
      ∃ q, Beneath w b B Ok p q ∧ w.fs.IsDir (B ++ q) ∧ fs0.get (B ++ q) = none
  | o, _ => o.quiet = true

theorem Grows.of_quiet {o : Op Part} (h : o.quiet = true) : Grows fs0 b B Ok o w := by
  cases o <;> first | exact h | simp [Op.quiet] at h

theorem Grows.of_makes {o : Op Part} (ho : o.makes = some (p, v)) (h : Beneath w b B Ok p q) :
    Grows fs0 b B Ok o w := by
  cases o with
  | mkdir | symlink | create =>
      simp only [Op.makes, Option.some.injEq, Prod.mk.injEq] at ho
      obtain ⟨rfl, -⟩ := ho
      exact ⟨q, h⟩
  | _ => simp [Op.makes] at ho

theorem Beneath.weaken (h : Beneath w b B Ok p q) (hok : Ok q → Ok' q) : Beneath w b B Ok' p q :=
  { h with ok := hok h.ok }

theorem Grows.mono {fs1 : Fs} {o : Op Part} (hk : fs0.Kept fs1) (hok : ∀ q, Ok q → Ok' q)
    (h : Grows fs1 b B Ok o w) : Grows fs0 b B Ok' o w := by
  have hnone : ∀ {q}, fs1.get q = none → fs0.get q = none := fun {q} hq => by
    by_contra hne
    exact hk.ne_none hne hq
  cases o with
  | mkdir | symlink | create | clonefile =>
      obtain ⟨q, hq⟩ := h
      exact ⟨q, hq.weaken (hok q)⟩
  | write | fchmod =>
      obtain ⟨q, hq, hn⟩ := h
      exact ⟨q, hq.weaken (hok q), hnone hn⟩
  | chmod =>
      obtain ⟨q, hq, hd, hn⟩ := h
      exact ⟨q, hq.weaken (hok q), hd, hnone hn⟩
  | _ => exact h

/-! ### Outcomes -/

/-- From `g` and `w` to `g'` and `w'`, permitted paths have been added beneath
`b`, and noted in the journal if the create hook is set. -/
def Grew (b B : Path) (Ok : Path → Prop) (g : Globals) (w : World Part) (g' : Globals)
    (w' : World Part) : Prop :=
  ∃ qs : List Path, (∀ q ∈ qs, Ok q) ∧ w.fs.Built (qs.map (B ++ ·)) w'.fs ∧ SameRun w w' ∧
    g' = { g with journal := g.journal ++ if g.createHook then qs.map (b ++ ·) else [] }

theorem Grew.refl : Grew b B Ok g w g w :=
  ⟨[], by simp, by simpa using Fs.Built.refl w.fs, SameRun.refl w, by simp⟩

theorem Grew.trans (h : Grew b B Ok g w g' w') (h' : Grew b B Ok g' w' g'' w'') :
    Grew b B Ok g w g'' w'' := by
  obtain ⟨qs, hok, hbuilt, hrun, rfl⟩ := h
  obtain ⟨qs', hok', hbuilt', hrun', rfl⟩ := h'
  refine ⟨qs ++ qs', ?_, ?_, SameRun.trans hrun hrun', ?_⟩
  · intro q hq
    rcases List.mem_append.1 hq with hq | hq
    · exact hok q hq
    · exact hok' q hq
  · rw [List.map_append]
    exact hbuilt.trans hbuilt'
  · cases g.createHook <;> simp

theorem Grew.kept (h : Grew b B Ok g w g' w') : w.fs.Kept w'.fs := by
  obtain ⟨_, _, hb, _⟩ := h
  exact hb.kept

theorem Grew.run (h : Grew b B Ok g w g' w') : SameRun w w' := by
  obtain ⟨_, _, _, hr, _⟩ := h
  exact hr

theorem Grew.mono (hok : ∀ q, Ok q → Ok' q) (h : Grew b B Ok g w g' w') :
    Grew b B Ok' g w g' w' := by
  obtain ⟨qs, h1, h2⟩ := h
  exact ⟨qs, fun q hq => hok q (h1 q hq), h2⟩

/-- In a live install the create hook is set, in an offline one it is not. -/
def Hooked (g : Globals) : Prop := g.createHook = g.live

theorem Grew.hooked (h : Grew b B Ok g w g' w') (hh : Hooked g) : Hooked g' := by
  obtain ⟨_, _, _, _, rfl⟩ := h
  exact hh

/-- The base is there and the tree has grown from `fs0`. -/
structure Ready (fs0 : Fs) (b B : Path) (w : World Part) : Prop where
  base : At w.fs b B
  kept : fs0.Kept w.fs

theorem Ready.grew (h : Ready fs0 b B w) (hg : Grew b B Ok g w g' w') : Ready fs0 b B w' :=
  ⟨h.base.kept hg.kept, h.kept.trans hg.kept⟩

/-- Only nodes in `S` have been changed, and none of them in its type. -/
structure Reworked (S : Path → Prop) (g : Globals) (w : World Part) (g' : Globals)
    (w' : World Part) : Prop where
  globals : g' = g
  run : SameRun w w'
  same : ∀ p, ¬ S p → w'.fs.get p = w.fs.get p
  shape : ∀ p, (w'.fs.get p).map Node.isDir = (w.fs.get p).map Node.isDir

theorem Reworked.refl {S : Path → Prop} : Reworked S g w g w :=
  ⟨rfl, SameRun.refl w, fun _ _ => rfl, fun _ => rfl⟩

theorem Reworked.trans {S : Path → Prop} (h : Reworked S g w g' w')
    (h' : Reworked S g' w' g'' w'') : Reworked S g w g'' w'' :=
  ⟨h'.globals.trans h.globals, SameRun.trans h.run h'.run,
    fun p hp => (h'.same p hp).trans (h.same p hp), fun p => (h'.shape p).trans (h.shape p)⟩

theorem reworked_of_altered {S : Path → Prop} {c : Path} (hc : S c) (h : Altered w c v w') :
    Reworked S g w g w' := by
  refine ⟨rfl, h.toSameRun, ?_, ?_⟩
  · intro p hp
    have : p ≠ c := by rintro rfl; exact hp hc
    simp [h.get, this]
  · intro p
    rw [h.get]
    split
    · next heq => simp [heq, h.was]
    · rfl

theorem ne_none_iff_of_shape {fs fs' : Fs} (h : (fs'.get p).map Node.isDir = (fs.get q).map Node.isDir) :
    fs'.get p ≠ none ↔ fs.get q ≠ none := by
  cases h1 : fs'.get p <;> cases h2 : fs.get q <;> simp_all

theorem isDir_iff_of_shape {fs fs' : Fs}
    (h : (fs'.get p).map Node.isDir = (fs.get q).map Node.isDir) : fs'.IsDir p ↔ fs.IsDir q := by
  rw [Fs.isDir_iff, Fs.isDir_iff]
  cases h1 : fs'.get p <;> cases h2 : fs.get q <;> simp_all

/-- Changes to what was not there at the beginning do not count. -/
theorem Grew.rework {S : Path → Prop} (h : Grew b B Ok g w g' w') (hS : ∀ p, S p → w.fs.get p = none)
    (h' : Reworked S g' w' g'' w'') : Grew b B Ok g w g'' w'' := by
  obtain ⟨qs, hok, hbuilt, hrun, hg⟩ := h
  refine ⟨qs, hok, ⟨?_, ?_, hbuilt.fresh, hbuilt.order⟩, SameRun.trans hrun h'.run,
    h'.globals.trans hg⟩
  · intro p hp
    rw [h'.same p fun hs => hp (hS p hs), hbuilt.kept p hp]
  · intro p hp
    rw [ne_none_iff_of_shape (h'.shape p), hbuilt.made p hp]

theorem Grew.of_made (hok : Ok q) (h : Made w (B ++ q) v w') :
    Grew b B Ok g w (g.hooked (b ++ q)) w' := by
  refine ⟨[q], by simpa using hok, ?_, h.toSameRun, ?_⟩
  · simpa using (Fs.Built.refl w.fs).snoc h.free h.get
  · obtain ⟨live, pub, hook, jr, bd⟩ := g
    cases hook <;> simp [Globals.hooked]

/-! ### Calls -/

section Calls

variable {o : Op Part} {msg : Errno → String}

variable {α : Type} {X : Globals → World Part → Globals → World Part → Prop}
  {P : α → Globals → World Part → Prop}

theorem stays_call {f : o.Val → M α} (ho : o.quiet = true) (hr : X g w g w) (hE : E o w)
    (h : ∀ r, sem K o w (.ok r) w → Stays (sem K) E X (f r) P g w) :
    Stays (sem K) E X (call o msg >>= f) P g w := by
  refine wp_bind.2 (wp_call.2 (wp_quiet ho hE fun r hs => ?_))
  cases r with
  | error e => exact hr
  | ok r => exact h r hs

theorem stays_hostJoin {f : Path → M α} {a c : Path} (hr : X g w g w)
    (h : Fits a c → Stays (sem K) E X (f (a ++ c)) P g w) :
    Stays (sem K) E X (hostJoin a c >>= f) P g w :=
  wp_bind.2 (wp_hostJoin h fun _ _ => hr)

theorem stays_applyOwnership {f : Unit → M α} (hr : X g w g w) (hE : E (.chown p) w)
    (h : Stays (sem K) E X (f ()) P g w) :
    Stays (sem K) E X (applyOwnership env p >>= f) P g w := by
  unfold applyOwnership
  split
  · exact stays_call rfl hr hE fun _ _ => h
  · exact wp_bind.2 h

theorem stays_setTimes {P : Unit → Globals → World Part → Prop} {t : Timespec} (hr : X g w g w)
    (hE : E (.utimes p t) w) (h : P () g w) : Stays (sem K) E X (setTimes p t) P g w := by
  refine wp_call.2 (wp_quiet rfl hE fun r _ => ?_)
  cases r with
  | error e => exact hr
  | ok r => exact ⟨hr, h⟩

/-- Something is created and noted. -/
theorem stays_make {note : M Unit} (ho : o.makes = some (p, v)) (h : Beneath w b B Ok p q)
    (hnote : ∀ Q D w', wp (sem K) (Grows fs0 b B Ok) note Q D g w' ↔ Q () (g.hooked p) w') :
    Stays (sem K) (Grows fs0 b B Ok) (Grew b B Ok) (do let _ ← call o msg; note)
      (fun _ _ w' => Made w (B ++ q) v w') g w := by
  refine wp_bind.2 (wp_call.2 (wp_makes ho (Grows.of_makes ho h) ?_ ?_))
  · exact fun e => Grew.refl
  · intro r c w' hc hm
    rw [h.locate] at hc
    obtain rfl := Except.ok.inj hc
    refine (hnote _ _ _).2 ⟨?_, hm⟩
    rw [h.eq]
    exact Grew.of_made h.ok hm

end Calls

theorem wp_journalLive {P : Unit → Globals → World Part → Prop}
    {D : String → Globals → World Part → Prop} (hhook : Hooked g) :
    wp (sem K) E (journalLive p) P D g w ↔ P () (g.hooked p) w := by
  obtain ⟨live, pub, hook, jr, bd⟩ := g
  obtain rfl : hook = live := hhook
  unfold journalLive Globals.hooked
  rw [wp_bind, wp_get]
  cases hook <;> simp

/-! ### `path_parents ()` -/

/-- The permitted paths include every directory above `rel`. -/
def Parents (rel : Path) (Ok : Path → Prop) : Prop :=
  ∀ r, r <+: rel → r ≠ [] → r ≠ rel → Ok r

theorem stays_pathParent {d : Path} {n : Name} (hr : Ready fs0 b B w) (hd : w.fs.IsDir (B ++ d))
    (hok : Ok (d ++ [n])) :
    Stays (sem K) (Grows fs0 b B Ok) (Grew b B Ok) (pathParent true (b ++ (d ++ [n])))
      (fun _ _ w' => w'.fs.IsDir (B ++ (d ++ [n]))) g w := by
  unfold pathParent
  refine wp_bind.2 (wp_lstat hr.base (by simp) (.of_isDir hd) (Grows.of_quiet rfl) ?_ ?_ ?_)
  · intro v hv
    cases v with
    | dir m => exact ⟨Grew.refl, m, hv⟩
    | _ => exact Grew.refl
  · intro hnone
    have hbe : Beneath w b B Ok (b ++ (d ++ [n])) (d ++ [n]) :=
      ⟨rfl, by simp, hr.base, by simpa using hd, hok⟩
    refine Stays.post (P := fun _ _ w' => Made w (B ++ (d ++ [n])) (.dir 0o755) w')
      (stays_make rfl hbe fun _ _ _ => wp_createHook) fun _ _ w' _ hm => ?_
    exact ⟨0o755, by simp [hm.get]⟩
  · exact fun _ => Grew.refl

theorem stays_pathParentsFrom {done rest : Path} (hr : Ready fs0 b B w)
    (hd : w.fs.IsDir (B ++ done)) (hok : Parents (done ++ rest) Ok) :
    Stays (sem K) (Grows fs0 b B Ok) (Grew b B Ok) (pathParentsFrom b true done rest)
      (fun _ _ w' => w'.fs.IsDir (B ++ (done ++ rest.dropLast))) g w := by
  induction rest generalizing done g w with
  | nil => exact ⟨Grew.refl, by simpa using hd⟩
  | cons n rest ih =>
      cases rest with
      | nil => exact ⟨Grew.refl, by simpa using hd⟩
      | cons m rest =>
          have hn : Ok (done ++ [n]) :=
            hok (done ++ [n]) ⟨m :: rest, by simp⟩ (by simp) (by simp)
          unfold pathParentsFrom
          refine stays_hostJoin Grew.refl fun _ => ?_
          refine (stays_pathParent hr hd hn).bind Grew.trans fun _ g' w' hg hd' => ?_
          refine (ih (hr.grew hg) hd' (by simpa using hok)).post fun _ _ _ _ h => ?_
          simpa using h

theorem stays_pathParents {rel : Path} (hr : Ready fs0 b B w) (hok : Parents rel Ok) :
    Stays (sem K) (Grows fs0 b B Ok) (Grew b B Ok) (pathParents b rel true)
      (fun _ _ w' => w'.fs.IsDir (B ++ rel.dropLast)) g w :=
  (stays_pathParentsFrom hr (by simpa using hr.base.isDir) (by simpa using hok)).post
    fun _ _ _ _ h => by simpa using h

/-! ### `file_write ()` -/

/-- A file made by this function, at the point `q` of its work. -/
structure Filling (fs0 : Fs) (w : World Part) (b B : Path) (Ok : Path → Prop) (q : Path)
    (mode : Mode) (data : Bytes) : Prop where
  beneath : Beneath w b B Ok (b ++ q) q
  fresh : fs0.get (B ++ q) = none
  here : w.fs.get (B ++ q) = some (.file mode data)

theorem Beneath.reworked {S : Path → Prop} (h : Beneath w b B Ok p q)
    (hbase : At w'.fs b B) (hr : Reworked S g w g' w') : Beneath w' b B Ok p q :=
  ⟨h.eq, h.ne_nil, hbase, (isDir_iff_of_shape (hr.shape _)).2 h.inDir, h.ok⟩

theorem Filling.step {old new : Bytes} {mode' : Mode} (h : Filling fs0 w b B Ok q mode old)
    (hk : fs0.Kept w'.fs) (hb : At fs0 b B) (ha : Altered w (B ++ q) (.file mode' new) w') :
    Filling fs0 w' b B Ok q mode' new := by
  refine ⟨h.beneath.reworked (hb.kept hk) (reworked_of_altered (g := {}) (S := (· = B ++ q)) rfl ha),
    h.fresh, by simp [ha.get]⟩

theorem kept_of_altered {c : Path} (hk : fs0.Kept w.fs) (hc : fs0.get c = none)
    (ha : Altered w c v w') : fs0.Kept w'.fs := by
  intro p hp
  have : p ≠ c := by rintro rfl; exact hp hc
  rw [ha.get, if_neg this, hk p hp]

theorem stays_writeRounds {rounds : Nat} {old data : Bytes} (hb : At fs0 b B)
    (hk : fs0.Kept w.fs) (h : Filling fs0 w b B Ok q mode old) (hn : data.length ≤ rounds) :
    Stays (sem K) (Grows fs0 b B Ok) (Reworked (· = B ++ q)) (writeRounds (b ++ q) rounds data)
      (fun _ _ w' => fs0.Kept w'.fs ∧ Filling fs0 w' b B Ok q mode (old ++ data)) g w := by
  induction rounds generalizing old data g w with
  | zero =>
      obtain rfl : data = [] := List.eq_nil_of_length_eq_zero (by omega)
      exact ⟨Reworked.refl, hk, by simpa using h⟩
  | succ rounds ih =>
      unfold writeRounds
      split
      · next hd => exact ⟨Reworked.refl, hk, by simpa [hd] using h⟩
      · next hd =>
          refine wp_bind.2 (wp_call_sem ⟨q, h.beneath, h.fresh⟩ ?_ ?_)
          · exact fun _ => Reworked.refl
          · intro n w1 hs
            obtain ⟨h0, hle, c, m, old', hc, hold, ha⟩ := sem_write hs
            rw [h.beneath.locate] at hc
            obtain rfl := Except.ok.inj hc
            rw [h.here] at hold
            cases hold
            have hpos : 0 < n := h0.resolve_right hd
            have hk' := kept_of_altered hk h.fresh ha
            have hr : Reworked (· = B ++ q) g w g w1 := reworked_of_altered rfl ha
            rw [if_neg (Nat.ne_of_gt hpos)]
            have hlen : (data.drop n).length ≤ rounds := by
              rw [List.length_drop]
              exact (Nat.sub_le_sub_left hpos _).trans (Nat.sub_le_of_le_add hn)
            refine wp.post (ih hk' (h.step hk' hb ha) hlen) ?_ (fun _ _ _ => hr.trans)
            rintro _ g2 w2 ⟨hr2, hp⟩
            rw [List.append_assoc, List.take_append_drop] at hp
            exact ⟨hr.trans hr2, hp⟩

theorem stays_fileFinish {data : Bytes} {mode' : Mode} (hb : At fs0 b B) (hk : fs0.Kept w.fs)
    (h : Filling fs0 w b B Ok q mode' data) :
    Stays (sem K) (Grows fs0 b B Ok) (Reworked (· = B ++ q)) (fileFinish (b ++ q) mode)
      (fun _ _ w' => Filling fs0 w' b B Ok q mode data) g w := by
  unfold fileFinish
  refine wp_bind.2 (wp_call_sem ⟨q, h.beneath, h.fresh⟩ (fun _ => Reworked.refl) ?_)
  intro _ w1 hs
  obtain ⟨c, m, data', hc, hold, ha⟩ := sem_fchmod hs
  rw [h.beneath.locate] at hc
  obtain rfl := Except.ok.inj hc
  rw [h.here] at hold
  cases hold
  have hr : Reworked (· = B ++ q) g w g w1 := reworked_of_altered rfl ha
  have hfin := h.step (kept_of_altered hk h.fresh ha) hb ha
  refine wp_bind.2 (wp_call.2 (wp_quiet rfl (Grows.of_quiet rfl) fun r _ => ?_))
  cases r with
  | error e => exact hr
  | ok r => exact ⟨hr, hfin⟩

/-- Whatever ends up in the new file while it is being filled, from the start
of the function it is only a new file. -/
theorem Grew.fill {m : M Unit} {P : Unit → Globals → World Part → Prop}
    (h : Grew b B Ok g w g' w') (hn : w.fs.get (B ++ q) = none)
    (hm : Stays (sem K) E (Reworked (· = B ++ q)) m P g' w') :
    wp (sem K) E m (fun a g'' w'' => Grew b B Ok g w g'' w'' ∧ P a g'' w'')
      (fun _ g'' w'' => Grew b B Ok g w g'' w'') g' w' := by
  have hS : ∀ p, p = B ++ q → w.fs.get p = none := by rintro _ rfl; exact hn
  exact wp.post hm (fun _ _ _ h' => ⟨h.rework hS h'.1, h'.2⟩) (fun _ _ _ h' => h.rework hS h')

theorem stays_fileWrite (data : Bytes) (mode : Mode) (hr : Ready fs0 b B w)
    (h : Beneath w b B Ok (b ++ q) q) :
    Stays (sem K) (Grows fs0 b B Ok) (Grew b B Ok) (fileWrite (b ++ q) data mode)
      (fun _ _ w' => w.fs.get (B ++ q) = none ∧ w'.fs.get (B ++ q) = some (.file mode data)) g w := by
  unfold fileWrite fileCreate
  refine wp_bind.2 (wp.post (stays_make (o := .create (b ++ q)) rfl h
    fun _ _ _ => wp_createHook) ?_ (fun _ _ _ => id))
  rintro _ g1 w1 ⟨hg, hm⟩
  have hn : w.fs.get (B ++ q) = none := hm.free
  have hr1 := hr.grew hg
  -- the base is found in the tree this function started from
  have hfill : Filling w.fs w1 b B Ok q 0o600 [] :=
    ⟨⟨rfl, h.ne_nil, hr1.base, hg.kept.isDir h.inDir, h.ok⟩, hn, by simp [hm.get]⟩
  have hE : ∀ o v, Grows w.fs b B Ok o v → Grows fs0 b B Ok o v :=
    fun _ _ => Grows.mono hr.kept fun _ => id
  refine wp.mono ?_ hE (fun _ _ _ => id) (fun _ _ _ => id)
  refine wp_bind.2 ((hg.fill hn (stays_writeRounds hr.base hg.kept hfill le_rfl)).post ?_
    (fun _ _ _ => id))
  rintro _ g2 w2 ⟨hg2, hk2, hfill2⟩
  refine (hg2.fill hn (stays_fileFinish hr.base hk2 hfill2)).post ?_ (fun _ _ _ => id)
  rintro _ g3 w3 ⟨hg3, hfill3⟩
  exact ⟨hg3, hn, by simpa using hfill3.here⟩

/-! ### `extract ()` -/

/-- The node an entry asks for. Of a directory only the type is asked for: one
that exists is kept as it is. -/
def Entry.Matches (e : Entry) (v : Node) : Prop :=
  match e.content with
  | .directory => v.isDir = true
  | .file data => v = .file e.mode data
  | .symlink t => v = .link t.1

/-- The entry is in place. -/
def InPlace (fs : Fs) (B : Path) (e : Entry) : Prop :=
  e.path = [] ∨ ∃ v, fs.get (B ++ e.path) = some v ∧ e.Matches v

theorem InPlace.kept {fs fs' : Fs} {e : Entry} (h : InPlace fs B e) (hk : fs.Kept fs') :
    InPlace fs' B e := by
  rcases h with h | ⟨v, hv, hm⟩
  · exact .inl h
  · exact .inr ⟨v, by rw [hk _ (by simp [hv]), hv], hm⟩

/-- The directory of the entry was made after `w`. -/
structure NewDir (w : World Part) (B : Path) (Ok : Path → Prop) (w' : World Part) (e : Entry) :
    Prop where
  ne_nil : e.path ≠ []
  ok : Ok e.path
  isDirectory : e.content = .directory
  fresh : w.fs.get (B ++ e.path) = none
  here : w'.fs.IsDir (B ++ e.path)

/-- The permitted paths include the entry and every directory above it. -/
def Covers (Ok : Path → Prop) (e : Entry) : Prop := ∀ r, r <+: e.path → r ≠ [] → Ok r

theorem Covers.parents {e : Entry} (h : Covers Ok e) : Parents e.path Ok :=
  fun r hr hne _ => h r hr hne

theorem Covers.self {e : Entry} (h : Covers Ok e) (hne : e.path ≠ []) : Ok e.path :=
  h e.path (List.prefix_refl _) hne

/-- What is found at the path decides, whatever the reason nothing is found. -/
theorem stays_extractAt {e : Entry} {st : Except Errno Stat} (hh : Hooked g)
    (hr : Ready fs0 b B w)
    (h : Beneath w b B Ok (b ++ e.path) e.path)
    (hst : ∀ s, st = .ok s → ∃ v, w.fs.get (B ++ e.path) = some v ∧ v.stat = s) :
    Stays (sem K) (Grows fs0 b B Ok) (Grew b B Ok) (extractAt env e (b ++ e.path) st)
      (fun made _ w' => InPlace w'.fs B e ∧ (made = true → NewDir w B Ok w' e)) g w := by
  unfold extractAt
  cases hc : e.content with
  | directory =>
      cases st with
      | ok s =>
          obtain ⟨v, hv, rfl⟩ := hst s rfl
          cases v with
          | dir m =>
              refine ⟨Grew.refl, .inr ⟨_, hv, ?_⟩, by simp⟩
              simp [Entry.Matches, hc, Node.isDir]
          | _ => exact Grew.refl
      | error x =>
          refine Stays.assoc (Stays.bind Grew.trans (stays_make (v := .dir 0o700) rfl h
            fun _ _ _ => wp_journalLive hh) fun _ g2 w2 _ hm => ?_)
          have hdir : w2.fs.get (B ++ e.path) = some (.dir 0o700) := by simp [hm.get]
          refine stays_applyOwnership Grew.refl (Grows.of_quiet rfl) ⟨Grew.refl, ?_, ?_⟩
          · exact .inr ⟨_, hdir, by simp [Entry.Matches, hc, Node.isDir]⟩
          · exact fun _ => ⟨h.ne_nil, h.ok, hc, hm.free, _, hdir⟩
  | symlink t =>
      cases st with
      | ok s => exact Grew.refl
      | error x =>
          refine Stays.assoc (Stays.bind Grew.trans (stays_make (v := .link t.1) rfl h
            fun _ _ _ => wp_journalLive hh) fun _ g2 w2 _ hm => ?_)
          refine stays_applyOwnership Grew.refl (Grows.of_quiet rfl) ?_
          refine (stays_setTimes (P := fun _ _ w' => w' = w2) Grew.refl
            (Grows.of_quiet rfl) rfl).bind Grew.trans ?_
          rintro _ g3 w' _ rfl
          have hlink : w'.fs.get (B ++ e.path) = some (.link t.1) := by simp [hm.get]
          exact ⟨Grew.refl, .inr ⟨_, hlink, by simp [Entry.Matches, hc]⟩, by simp⟩
  | file data =>
      cases st with
      | ok s => exact Grew.refl
      | error x =>
          refine (stays_fileWrite _ _ hr h).bind Grew.trans fun _ g2 w2 _ hf => ?_
          refine stays_applyOwnership Grew.refl (Grows.of_quiet rfl) ?_
          refine (stays_setTimes (P := fun _ _ w' => w' = w2) Grew.refl
            (Grows.of_quiet rfl) rfl).bind Grew.trans ?_
          rintro _ g3 _ _ rfl
          exact ⟨Grew.refl, .inr ⟨_, hf.2, by simp [Entry.Matches, hc]⟩, by simp⟩

theorem stays_extractEntry {e : Entry} (hh : Hooked g) (hr : Ready fs0 b B w) (hok : Covers Ok e) :
    Stays (sem K) (Grows fs0 b B Ok) (Grew b B Ok) (extractEntry env b e)
      (fun made _ w' => InPlace w'.fs B e ∧ (made = true → NewDir w B Ok w' e)) g w := by
  unfold extractEntry
  split
  · next hnil => exact ⟨Grew.refl, .inl hnil, by simp⟩
  · next hne =>
      refine (stays_pathParents hr hok.parents).bind Grew.trans fun _ g1 w1 hg1 hd => ?_
      have hr1 := hr.grew hg1
      have hbe : Beneath w1 b B Ok (b ++ e.path) e.path := ⟨rfl, hne, hr1.base, hd, hok.self hne⟩
      refine stays_hostJoin Grew.refl fun _ => ?_
      have main : ∀ st : Except Errno Stat,
          (∀ s, st = .ok s → ∃ v, w1.fs.get (B ++ e.path) = some v ∧ v.stat = s) →
          Stays (sem K) (Grows fs0 b B Ok) (Grew b B Ok) (extractAt env e (b ++ e.path) st)
            (fun made _ w' => InPlace w'.fs B e ∧ (made = true → NewDir w B Ok w' e)) g1 w1 := by
        intro st hst
        refine (stays_extractAt (hg1.hooked hh) hr1 hbe hst).post fun made _ _ _ h => ⟨h.1, fun hm => ?_⟩
        refine { h.2 hm with fresh := ?_ }
        by_contra hn
        exact hg1.kept.ne_none hn (h.2 hm).fresh
      refine wp_bind.2 (wp_lstat hr1.base hne (clear_of_isDir hne hd) (Grows.of_quiet rfl) ?_ ?_ ?_)
      · exact fun v hv => main _ fun s hs => ⟨v, hv, Except.ok.inj hs⟩
      · exact fun _ => main _ (by intro s hs; cases hs)
      · exact fun _ => main _ (by intro s hs; cases hs)

theorem NewDir.grew {e : Entry} (h : NewDir w B Ok w' e) (hg : Grew b B Ok g' w' g'' w'') :
    NewDir w B Ok w'' e := { h with here := hg.kept.isDir h.here }

theorem stays_extractEntries {entries created : List Entry} (hh : Hooked g)
    (hr : Ready fs0 b B w)
    (hok : ∀ e ∈ entries, Covers Ok e) :
    Stays (sem K) (Grows fs0 b B Ok) (Grew b B Ok) (extractEntries env b created entries)
      (fun created' _ w' => (∀ e ∈ entries, InPlace w'.fs B e) ∧
        ∀ e ∈ created', e ∈ created ∨ NewDir w B Ok w' e) g w := by
  induction entries generalizing created g w with
  | nil => exact ⟨Grew.refl, by simp, fun e he => .inl he⟩
  | cons e es ih =>
      unfold extractEntries
      refine (stays_extractEntry hh hr (hok e (by simp))).bind Grew.trans fun made g1 w1 hg1 h1 => ?_
      have step : ∀ created₁ : List Entry, (∀ x ∈ created₁, x ∈ created ∨ NewDir w B Ok w1 x) →
          Stays (sem K) (Grows fs0 b B Ok) (Grew b B Ok) (extractEntries env b created₁ es)
            (fun created' _ w' => (∀ x ∈ e :: es, InPlace w'.fs B x) ∧
              ∀ x ∈ created', x ∈ created ∨ NewDir w B Ok w' x) g1 w1 := by
        intro created₁ hc
        refine (ih (hg1.hooked hh) (hr.grew hg1) fun x hx => hok x (by simp [hx])).post ?_
        rintro created' g2 w2 hg2 ⟨hin, hnew⟩
        refine ⟨?_, ?_⟩
        · intro x hx
          rcases List.mem_cons.1 hx with rfl | hx
          · exact h1.1.kept hg2.kept
          · exact hin x hx
        · intro x hx
          rcases hnew x hx with hx | hx
          · exact (hc x hx).imp id fun h => h.grew hg2
          · refine .inr { hx with fresh := ?_ }
            by_contra hn
            exact hg1.kept.ne_none hn hx.fresh
      cases made with
      | true =>
          refine step (e :: created) fun x hx => ?_
          rcases List.mem_cons.1 hx with rfl | hx
          · exact .inr (h1.2 rfl)
          · exact .inl hx
      | false => exact step created fun x hx => .inl hx

/-- The directories of the entries in `l`. -/
def DirsOf (B : Path) (l : List Entry) (p : Path) : Prop := ∃ e ∈ l, p = B ++ e.path

theorem stays_finishDirectories {w0 : World Part} {all created : List Entry}
    (hsub : ∀ e ∈ created, e ∈ all) (hb : At w0.fs b B) (hk : fs0.Kept w0.fs)
    (hk0 : w0.fs.Kept w.fs) (hnew : ∀ e ∈ created, NewDir w0 B Ok w e) :
    Stays (sem K) (Grows fs0 b B Ok) (Reworked (DirsOf B all)) (each (finishDirectory b) created)
      (fun _ _ w' => w0.fs.Kept w'.fs) g w := by
  refine (Stays.each Reworked.refl Reworked.trans
    (fun l _ w' => w0.fs.Kept w'.fs ∧ ∀ e ∈ l, e ∈ all ∧ NewDir w0 B Ok w' e) ?_
    ⟨hk0, fun e he => ⟨hsub e he, hnew e he⟩⟩).post fun _ _ _ _ h => h.1
  rintro e l g1 w1 ⟨hk1, hl⟩
  obtain ⟨hmem, he⟩ := hl e (by simp)
  have hbase := hb.kept hk1
  have hbe : Beneath w1 b B Ok (b ++ e.path) e.path := by
    refine ⟨rfl, he.ne_nil, hbase, ?_, he.ok⟩
    refine Fs.isDir_of_append (q := [e.path.getLast he.ne_nil]) ?_ (by simp)
    rw [List.append_assoc, List.dropLast_append_getLast]
    exact he.here.ne_none
  unfold finishDirectory
  refine stays_hostJoin Reworked.refl fun _ => ?_
  refine wp_bind.2 (wp_call_sem ⟨e.path, hbe, he.here, ?_⟩ (fun _ => Reworked.refl) ?_)
  · by_contra hn
    exact hk.ne_none hn he.fresh
  · intro _ w2 hs
    obtain ⟨c, u, hc, hu, ha⟩ := sem_chmod hs
    rw [realPath_append hbase he.here] at hc
    obtain rfl := Except.ok.inj hc
    have hrw : Reworked (DirsOf B all) g1 w1 g1 w2 := reworked_of_altered ⟨e, hmem, rfl⟩ ha
    have hk2 := kept_of_altered hk1 he.fresh ha
    refine wp.post (stays_setTimes (P := fun _ _ w' => w' = w2) Reworked.refl
      (Grows.of_quiet rfl) rfl) ?_ (fun _ _ _ h => hrw.trans h)
    rintro _ g3 w3 ⟨hrw3, rfl⟩
    refine ⟨hrw.trans hrw3, hk2, fun x hx => ?_⟩
    obtain ⟨hxm, hx⟩ := hl x (by simp [hx])
    exact ⟨hxm, { hx with here := (isDir_iff_of_shape (hrw.shape _)).2 hx.here }⟩

theorem InPlace.reworked {all : List Entry} {e : Entry}
    (hall : ∀ x ∈ all, w.fs.IsDir (B ++ x.path)) (h : InPlace w.fs B e)
    (hr : Reworked (DirsOf B all) g w g' w') : InPlace w'.fs B e := by
  rcases h with h | ⟨v, hv, hm⟩
  · exact .inl h
  · right
    by_cases hs : DirsOf B all (B ++ e.path)
    · -- a directory that was made here: it still is one
      obtain ⟨x, hx, heq⟩ := hs
      have hd := hall x hx
      rw [← heq] at hd
      obtain ⟨m, hd'⟩ := (isDir_iff_of_shape (hr.shape _)).2 hd
      obtain ⟨m0, hd0⟩ := hd
      rw [hv] at hd0
      cases hd0
      refine ⟨.dir m, hd', ?_⟩
      unfold Entry.Matches at hm ⊢
      split at hm <;> simp_all [Node.isDir]
    · exact ⟨v, by rw [hr.same _ hs, hv], hm⟩

theorem stays_extract (env : Env) (entries : List Entry) (hh : Hooked g) (hr : Ready fs0 b B w)
    (hok : ∀ e ∈ entries, Covers Ok e) :
    Stays (sem K) (Grows fs0 b B Ok) (Grew b B Ok) (extract env entries b)
      (fun _ _ w' => ∀ e ∈ entries, InPlace w'.fs B e) g w := by
  unfold extract
  refine wp_bind.2 (wp.post (stays_extractEntries hh hr hok) ?_ (fun _ _ _ => id))
  rintro created g1 w1 ⟨hg1, hin, hnew⟩
  replace hnew : ∀ e ∈ created, NewDir w B Ok w1 e := fun e he => (hnew e he).resolve_left (by simp)
  have hS : ∀ p, DirsOf B created p → w.fs.get p = none := by
    rintro _ ⟨e, he, rfl⟩
    exact (hnew e he).fresh
  refine wp.post (stays_finishDirectories (fun _ => id) hr.base hr.kept hg1.kept
    hnew) ?_ (fun _ _ _ h => hg1.rework hS h)
  rintro _ g2 w2 ⟨hrw, -⟩
  exact ⟨hg1.rework hS hrw, fun e he => (hin e he).reworked (fun x hx => (hnew x hx).here) hrw⟩

end MiniDarwin.Installer
