import MiniDarwin.Installer.Placement

/-!
Collisions after `preflight ()`.

On a machine where no call fails for reasons of its own, the functions that
write a payload and its records give up only because something is in their
way or because a path is too long. What may be in the way is what the root
had, what earlier entries and earlier components put there, and the work
area of the scripts. `preflight ()` has looked at the first, and
`entries_check_paths ()` at the entries among each other; what nobody looks
at is an entry that is placed above the directories of the records.
-/

namespace MiniDarwin.Installer

open Posix Effects Effects.Proc

variable {K : Kernel Part} {g g' : Globals} {w w' : World Part} {p q b B R : Path} {env : Env} {fs fs' : Fs}
  {α β : Type} {v : Node} {mode : Mode}

/-! ### Calls that cannot fail -/

theorem Untroubled.calm (h : Untroubled K) (w : World Part) : Calm K w := fun o v _ => h o v

theorem add_free (hl : locate w.fs p = .ok q) (hne : q ≠ []) (hd : w.fs.IsDir q.dropLast) (hn : w.fs.get q = none) :
    ∃ x, w.add p v = .ok x := by
  unfold World.add
  rw [hl]
  exact ⟨_, dif_pos ⟨hne, hd, hn⟩⟩

theorem run_makes {o : Op Part} (ho : o.makes = some (p, v)) (hl : locate w.fs p = .ok q) (hne : q ≠ [])
    (hd : w.fs.IsDir q.dropLast) (hn : w.fs.get q = none) : ∃ x, o.run w = .ok x := by
  obtain ⟨x, hx⟩ := add_free (v := v) hl hne hd hn
  cases o with
  | mkdir | symlink | create =>
      simp only [Op.makes, Option.some.injEq, Prod.mk.injEq] at ho
      obtain ⟨rfl, rfl⟩ := ho
      exact ⟨((), x.2), by simp only [Op.run, hx, Except.map]⟩
  | _ => simp [Op.makes] at ho

theorem run_write {m : Mode} {old data : Bytes} (hl : locate w.fs p = .ok q) (hv : w.fs.get q = some (.file m old)) :
    ∃ x, (Op.write (τ := Part) p data).run w = .ok x := by
  have halter : ∃ w', w.alter q (.file m (old ++ data)) = .ok w' := ⟨_, dif_pos (by simp [hv, Node.isDir])⟩
  obtain ⟨w', hw'⟩ := halter
  exact ⟨(data.length, w'), by simp only [Op.run, hl, Except.bind, hv, hw', Except.map]⟩

theorem run_fchmod {m m' : Mode} {data : Bytes} (hl : locate w.fs p = .ok q)
    (hv : w.fs.get q = some (.file m data)) : ∃ x, (Op.fchmod (τ := Part) p m').run w = .ok x := by
  have halter : ∃ w', w.alter q (.file m' data) = .ok w' := ⟨_, dif_pos (by simp [hv, Node.isDir])⟩
  obtain ⟨w', hw'⟩ := halter
  exact ⟨((), w'), by simp only [Op.run, hl, Except.bind, hv, hw', Except.map]⟩

/-- A call that wants no more than that something is there. -/
def Op.wants : Op Part → Option Path
  | .chown p | .utimes p _ | .fsync p => some p
  | _ => none

theorem run_wants {o : Op Part} (ho : Op.wants o = some p) (hl : locate w.fs p = .ok q) (hv : w.fs.get q ≠ none) :
    ∃ x, o.run w = .ok x := by
  cases o with
  | chown | utimes | fsync =>
      simp only [Op.wants, Option.some.injEq] at ho
      subst ho
      exact ⟨((), w), by simp only [Op.run, hl, Except.bind, if_neg hv]⟩
  | _ => simp [Op.wants] at ho

/-! ### Giving up for a path that is too long, and for nothing else -/

def TooLong (msg : String) : Prop := ∃ rest, msg = "path too long: " ++ rest

/-- The function gives up for no other reason. -/
def Lasts (K : Kernel Part) (m : M α) (g : Globals) (w : World Part) : Prop :=
  wp (sem K) (fun _ _ => True) m (fun _ _ _ => True) (fun msg _ _ => TooLong msg) g w

namespace Lasts

theorem pure (a : α) : Lasts K (Pure.pure a) g w := trivial

/-- What is known of the first function is known where the second starts. -/
theorem bind {m : M α} {f : α → M β} {E : Op Part → World Part → Prop} {Q : α → Globals → World Part → Prop}
    {D : String → Globals → World Part → Prop} (h : Lasts K m g w) (hs : wp (sem K) E m Q D g w)
    (hf : ∀ a g' w', Q a g' w' → Lasts K (f a) g' w') : Lasts K (m >>= f) g w := by
  refine wp_bind.2 ((wp.and h hs).mono (fun _ _ _ => trivial) ?_ (fun _ _ _ hd => hd.1))
  exact fun a g' w' hq => hf a g' w' hq.2

theorem assoc {γ : Type} {m : M α} {f : α → M β} {k : β → M γ} (h : Lasts K (m >>= fun a => f a >>= k) g w) :
    Lasts K (m >>= f >>= k) g w :=
  wp_bind.2 (wp_bind.2 (wp.post (wp_bind.1 h) (fun _ _ _ => wp_bind.1) (fun _ _ _ => id)))

theorem hostJoin {a c : Path} {f : Path → M α} (h : Lasts K (f (a ++ c)) g w) :
    Lasts K (Installer.hostJoin a c >>= f) g w := by
  refine wp_bind.2 ?_
  unfold Installer.hostJoin
  split
  · next hc =>
      rw [hc, List.append_nil] at h
      exact h
  · split
    · refine wp_die.2 ?_
      unfold TooLong
      simp only [String.append_assoc]
      exact ⟨_, rfl⟩
    · exact h

theorem ask {o : Op Part} {f : Except Errno o.Val → M α} (h : ∀ r w', sem K o w r w' → Lasts K (f r) g w') :
    Lasts K (Posix.ask o >>= f) g w := wp_bind.2 (wp_ask.2 ⟨trivial, h⟩)

/-- A call that cannot fail, and what comes after it. -/
theorem step {o : Op Part} {msg : Errno → String} {f : o.Val → M α} (hK : Untroubled K)
    (ho : ∀ a c, o ≠ .clonefile a c) (hrun : ∃ x, o.run w = .ok x)
    (h : ∀ r w', sem K o w (.ok r) w' → Lasts K (f r) g w') : Lasts K (Installer.call o msg >>= f) g w := by
  obtain ⟨x, hx⟩ := hrun
  refine wp_bind.2 (wp_call.2 (wp_ask.2 ⟨trivial, fun r w' hs => ?_⟩))
  cases r with
  | error e => exact ((hK.calm w).no_error ho hx hs).elim
  | ok y => exact h y w' hs

theorem createHook : Lasts K (Installer.createHook p) g w := wp_createHook.2 trivial

theorem journalLive {f : Unit → M α} (h : ∀ g', Lasts K (f ()) g' w) : Lasts K (Installer.journalLive p >>= f) g w := by
  refine wp_bind.2 (wp_bind.2 (wp_get.2 ?_))
  split
  · exact h _
  · exact h _

/-- What is there is owned and dated without fail. -/
theorem wants {o : Op Part} {msg : Errno → String} {f : o.Val → M α} (hK : Untroubled K) (ho : Op.wants o = some p)
    (hl : locate w.fs p = .ok q) (hv : w.fs.get q ≠ none) (h : ∀ r, Lasts K (f r) g w) :
    Lasts K (Installer.call o msg >>= f) g w := by
  have hquiet : o.quiet = true ∧ ∀ a c, o ≠ .clonefile a c := by
    cases o with
    | chown | utimes | fsync => exact ⟨rfl, by simp⟩
    | _ => simp [Op.wants] at ho
  refine step hK hquiet.2 (run_wants ho hl hv) fun r w' hs => ?_
  obtain rfl := sem_quiet hquiet.1 hs
  exact h r

theorem applyOwnership {f : Unit → M α} (hK : Untroubled K) (hl : locate w.fs p = .ok q) (hv : w.fs.get q ≠ none)
    (h : Lasts K (f ()) g w) : Lasts K (Installer.applyOwnership env p >>= f) g w := by
  unfold Installer.applyOwnership
  split
  · exact wants hK rfl hl hv fun _ => h
  · exact wp_bind.2 h

theorem setTimes {t : Timespec} {f : Unit → M α} (hK : Untroubled K) (hl : locate w.fs p = .ok q)
    (hv : w.fs.get q ≠ none) (h : Lasts K (f ()) g w) : Lasts K (Installer.setTimes p t >>= f) g w :=
  wants hK rfl hl hv fun _ => h

end Lasts

/-! ### `path_parents ()` -/

theorem lasts_pathParent {d : Path} {n : Name} (hK : Untroubled K) (hb : At w.fs b B) (hd : w.fs.IsDir (B ++ d))
    (hopen : w.fs.get (B ++ (d ++ [n])) = none ∨ w.fs.IsDir (B ++ (d ++ [n]))) :
    Lasts K (pathParent true (b ++ (d ++ [n]))) g w := by
  unfold pathParent
  refine wp_bind.2 (wp_lstat hb (by simp) (.of_isDir hd) trivial ?_ ?_ ?_)
  · intro v hv
    obtain hnone | ⟨m, hm⟩ := hopen
    · rw [hv] at hnone
      cases hnone
    · rw [hv] at hm
      cases hm
      trivial
  · intro hnone
    have hloc : locate w.fs (b ++ (d ++ [n])) = .ok (B ++ (d ++ [n])) :=
      locate_of_isDir hb (by simp) (by simpa using hd)
    have hmade := run_makes (o := .mkdir (b ++ (d ++ [n])) 0o755) rfl hloc (by simp)
      (by rwa [← List.append_assoc, List.dropLast_concat]) hnone
    exact Lasts.step hK (by simp) hmade fun _ _ _ => Lasts.createHook
  · exact fun hflaky => absurd hflaky (hK _ _)

/-- A directory more does not close the way. -/
theorem clear_grew {d : Path} (h : Clear w.fs B q) (hg : Grew b B (· = d) g w g' w') (hd : w'.fs.IsDir (B ++ d)) :
    Clear w'.fs B q := by
  intro r hr hne
  by_cases hw : w.fs.get (B ++ r) = none
  · by_cases hw' : w'.fs.get (B ++ r) = none
    · exact .inl hw'
    · obtain rfl := hg.made hw hw'
      exact .inr hd
  · exact .inr (hg.kept.isDir ((h r hr hne).resolve_left hw))

theorem lasts_pathParentsFrom {done rest : Path} (hK : Untroubled K) (hb : At w.fs b B)
    (hd : w.fs.IsDir (B ++ done)) (hopen : Clear w.fs B (done ++ rest)) :
    Lasts K (pathParentsFrom b true done rest) g w := by
  induction rest generalizing done g w with
  | nil => exact Lasts.pure _
  | cons n rest ih =>
      cases rest with
      | nil => exact Lasts.pure _
      | cons m rest =>
          unfold pathParentsFrom
          refine Lasts.hostJoin ?_
          have hn := hopen (done ++ [n]) ⟨m :: rest, by simp⟩ (by simp)
          have hstays : Stays (sem K) (Grows w.fs b B (· = done ++ [n])) (Grew b B (· = done ++ [n]))
              (pathParent true (b ++ (done ++ [n]))) (fun _ _ w' => w'.fs.IsDir (B ++ (done ++ [n]))) g w :=
            stays_pathParent ⟨hb, Fs.Kept.refl w.fs⟩ hd rfl
          refine (lasts_pathParent hK hb hd hn).bind hstays fun _ g1 w1 h1 => ?_
          obtain ⟨hg, hd1⟩ := h1
          refine ih (hb.kept hg.kept) hd1 ?_
          rw [← List.append_cons]
          exact clear_grew hopen hg hd1

theorem lasts_pathParents {rel : Path} (hK : Untroubled K) (hb : At w.fs b B) (hopen : Clear w.fs B rel) :
    Lasts K (pathParents b rel true) g w := by
  refine lasts_pathParentsFrom hK hb ?_ hopen
  rw [List.append_nil]
  exact hb.isDir

/-- Above a path, and not at it. -/
def Above (q r : Path) : Prop := r <+: q ∧ r ≠ q

theorem parents_above : Parents q (Above q) := fun _ hr _ hne => ⟨hr, hne⟩

/-- The directories above a path have been made, and nothing is at it that was not there. -/
theorem free_after_parents (hg : Grew b B (Above q) g w g' w') (h : w.fs.get (B ++ q) = none) :
    w'.fs.get (B ++ q) = none := by
  by_contra hne
  exact (hg.made h hne).2 rfl

/-! ### `file_write ()` -/

variable {Ok : Path → Prop}

theorem lasts_writeRounds {rounds : Nat} {old data : Bytes} (hK : Untroubled K) (hb : At fs b B)
    (hk : fs.Kept w.fs) (h : Filling fs w b B Ok q mode old) : Lasts K (writeRounds (b ++ q) rounds data) g w := by
  induction rounds generalizing old data w with
  | zero => exact Lasts.pure _
  | succ rounds ih =>
      unfold writeRounds
      split
      · exact Lasts.pure _
      · next hdata =>
          refine Lasts.step hK (by simp) (run_write h.beneath.locate h.here) fun n w1 hs => ?_
          obtain ⟨hpos, -, c, m, old', hc, hold, ha⟩ := sem_write hs
          rw [h.beneath.locate] at hc
          obtain rfl := Except.ok.inj hc
          rw [h.here] at hold
          cases hold
          have hk1 := kept_of_altered hk h.fresh ha
          rw [if_neg (Nat.ne_of_gt (hpos.resolve_right hdata))]
          exact ih hk1 (h.step hk1 hb ha)

theorem lasts_fileFinish {data : Bytes} {mode' : Mode} (hK : Untroubled K) (hb : At fs b B) (hk : fs.Kept w.fs)
    (h : Filling fs w b B Ok q mode' data) : Lasts K (fileFinish (b ++ q) mode) g w := by
  unfold fileFinish
  refine Lasts.step hK (by simp) (run_fchmod h.beneath.locate h.here) fun _ w1 hs => ?_
  obtain ⟨c, m, data', hc, hold, ha⟩ := sem_fchmod hs
  rw [h.beneath.locate] at hc
  obtain rfl := Except.ok.inj hc
  rw [h.here] at hold
  cases hold
  have h1 := h.step (kept_of_altered hk h.fresh ha) hb ha
  exact Lasts.wants hK rfl h1.beneath.locate (by simp [h1.here]) fun _ => Lasts.pure _

theorem lasts_fileWrite {data : Bytes} (hK : Untroubled K) (h : Beneath w b B Ok (b ++ q) q)
    (hn : w.fs.get (B ++ q) = none) : Lasts K (fileWrite (b ++ q) data mode) g w := by
  unfold fileWrite fileCreate
  have hdrop : w.fs.IsDir (B ++ q).dropLast := by
    rw [List.dropLast_append_of_ne_nil h.ne_nil]
    exact h.inDir
  have hmakes := run_makes (o := .create (b ++ q)) rfl h.locate (by simp [h.ne_nil]) hdrop hn
  have hcreate : Stays (sem K) (Grows w.fs b B Ok) (Grew b B Ok)
      (do
        let _ ← call (.create (b ++ q)) fun e => s!"create {hostStr (b ++ q)}: {strerror e}"
        createHook (b ++ q))
      (fun _ _ w' => Made w (B ++ q) (.file 0o600 []) w') g w :=
    stays_make rfl h fun _ _ _ => wp_createHook
  refine Lasts.bind (Lasts.step hK (by simp) hmakes fun _ _ _ => Lasts.createHook) hcreate ?_
  rintro _ g1 w1 ⟨hg, hm⟩
  have hfill : Filling w.fs w1 b B Ok q 0o600 [] :=
    ⟨⟨rfl, h.ne_nil, h.base.kept hg.kept, hg.kept.isDir h.inDir, h.ok⟩, hn, by simp [hm.get]⟩
  refine (lasts_writeRounds hK h.base hg.kept hfill).bind (stays_writeRounds h.base hg.kept hfill le_rfl) ?_
  rintro _ g2 w2 ⟨-, hk2, hfill2⟩
  exact lasts_fileFinish hK h.base hk2 hfill2

/-! ### `extract ()` -/

/-- Nothing is in the way of the entry but a directory where it wants one. -/
def Entry.Free (e : Entry) (fs : Fs) (B : Path) : Prop :=
  fs.get (B ++ e.path) = none ∨ e.isDir = true ∧ fs.IsDir (B ++ e.path)

theorem Beneath.made {w1 : World Part} (h : Beneath w b B Ok (b ++ q) q) (hm : Made w (B ++ q) v w1) :
    Posix.locate w1.fs (b ++ q) = .ok (B ++ q) ∧ w1.fs.get (B ++ q) ≠ none := by
  have hk : w.fs.Kept w1.fs := by
    intro r hr
    have hne : r ≠ B ++ q := by
      rintro rfl
      exact hr hm.free
    rw [hm.get, if_neg hne]
  exact ⟨locate_of_isDir (h.base.kept hk) h.ne_nil (hk.isDir h.inDir), by simp [hm.get]⟩

theorem lasts_extractAt {e : Entry} {st : Except Errno Stat} (hK : Untroubled K)
    (h : Beneath w b B Ok (b ++ e.path) e.path) (hfree : e.Free w.fs B)
    (hsome : ∀ v, w.fs.get (B ++ e.path) = some v → st = .ok v.stat)
    (hnone : w.fs.get (B ++ e.path) = none → st = .error .ENOENT) :
    Lasts K (extractAt env e (b ++ e.path) st) g w := by
  have hdrop : w.fs.IsDir (B ++ e.path).dropLast := by
    rw [List.dropLast_append_of_ne_nil h.ne_nil]
    exact h.inDir
  -- the call that makes the entry
  have makes : ∀ {o : Op Part} {u : Node}, o.makes = some (b ++ e.path, u) → w.fs.get (B ++ e.path) = none →
      ∃ x, o.run w = .ok x :=
    fun ho hn => run_makes ho h.locate (by simp [h.ne_nil]) hdrop hn
  have made : ∀ {o : Op Part} {u : Node} {r : o.Val} {w1 : World Part}, o.makes = some (b ++ e.path, u) →
      sem K o w (.ok r) w1 → Posix.locate w1.fs (b ++ e.path) = .ok (B ++ e.path) ∧ w1.fs.get (B ++ e.path) ≠ none := by
    intro o u r w1 ho hs
    obtain ⟨c, hc, hm⟩ := sem_makes ho hs
    rw [h.locate] at hc
    obtain rfl := Except.ok.inj hc
    exact h.made hm
  unfold extractAt
  obtain hn | ⟨hdir, m, hm⟩ := hfree
  · rw [hnone hn]
    cases hc : e.content with
    | directory =>
        refine Lasts.step hK (by simp) (makes (u := .dir 0o700) rfl hn) fun _ w1 hs => ?_
        obtain ⟨hl, hv⟩ := made (u := .dir 0o700) rfl hs
        exact Lasts.journalLive fun _ => Lasts.applyOwnership hK hl hv (Lasts.pure _)
    | symlink t =>
        refine Lasts.step hK (by simp) (makes (u := .link t.1) rfl hn) fun _ w1 hs => ?_
        obtain ⟨hl, hv⟩ := made (u := .link t.1) rfl hs
        exact Lasts.journalLive fun _ => Lasts.applyOwnership hK hl hv (Lasts.setTimes hK hl hv (Lasts.pure _))
    | file data =>
        have hstays := stays_fileWrite (K := K) (g := g) data e.mode ⟨h.base, Fs.Kept.refl w.fs⟩ h
        refine (lasts_fileWrite hK h hn).bind hstays ?_
        rintro _ g1 w1 ⟨hg, -, hv⟩
        have hl : Posix.locate w1.fs (b ++ e.path) = .ok (B ++ e.path) :=
          locate_of_isDir (h.base.kept hg.kept) h.ne_nil (hg.kept.isDir h.inDir)
        have hv' : w1.fs.get (B ++ e.path) ≠ none := by simp [hv]
        exact Lasts.applyOwnership hK hl hv' (Lasts.setTimes hK hl hv' (Lasts.pure _))
  · rw [hsome _ hm]
    unfold Entry.isDir at hdir
    cases hc : e.content with
    | directory => exact Lasts.pure _
    | symlink t =>
        rw [hc] at hdir
        cases hdir
    | file data =>
        rw [hc] at hdir
        cases hdir

theorem Entry.Free.grew {e : Entry} (h : e.Free w.fs B) (hg : Grew b B (Above e.path) g w g' w') : e.Free w'.fs B := by
  obtain hn | ⟨hdir, hd⟩ := h
  · exact .inl (free_after_parents hg hn)
  · exact .inr ⟨hdir, hg.kept.isDir hd⟩

theorem lasts_extractEntry {e : Entry} (hK : Untroubled K) (hb : At w.fs b B)
    (h : e.path ≠ [] → Clear w.fs B e.path ∧ e.Free w.fs B) : Lasts K (extractEntry env b e) g w := by
  unfold extractEntry
  split
  · exact Lasts.pure _
  · next hne =>
      obtain ⟨hclear, hfree⟩ := h hne
      have hstays := stays_pathParents (K := K) (g := g) ⟨hb, Fs.Kept.refl w.fs⟩ (parents_above (q := e.path))
      refine (lasts_pathParents hK hb hclear).bind hstays ?_
      rintro _ g1 w1 ⟨hg, hd⟩
      have hb1 := hb.kept hg.kept
      have hbe : Beneath w1 b B (fun _ => True) (b ++ e.path) e.path := ⟨rfl, hne, hb1, hd, trivial⟩
      have hfree1 := hfree.grew hg
      refine Lasts.hostJoin (wp_bind.2 (wp_lstat hb1 hne (clear_of_isDir hne hd) trivial ?_ ?_ ?_))
      · intro v hv
        refine lasts_extractAt hK hbe hfree1 (fun u hu => ?_) fun hn => ?_
        · rw [hv] at hu
          cases hu
          rfl
        · rw [hv] at hn
          cases hn
      · intro hn
        refine lasts_extractAt hK hbe hfree1 (fun u hu => ?_) fun _ => rfl
        rw [hn] at hu
        cases hu
      · exact fun hflaky => absurd hflaky (hK _ _)

theorem lasts_finishDirectories {w0 : World Part} {created : List Entry} (hK : Untroubled K) (hb : At w0.fs b B)
    (hk : w0.fs.Kept w.fs) (hnew : ∀ e ∈ created, NewDir w0 B Ok w e) :
    Lasts K (each (finishDirectory b) created) g w := by
  induction created generalizing w with
  | nil => exact Lasts.pure _
  | cons e created ih =>
      have he := hnew e (.head _)
      have hb1 := hb.kept hk
      obtain ⟨m, hm⟩ := he.here
      have hreal : realPath w.fs (b ++ e.path) = .ok (B ++ e.path) := realPath_append hb1 he.here
      have hchmod : ∃ w1, (Op.chmod (τ := Part) (b ++ e.path) e.mode).run w = .ok ((), w1) := run_chmod hreal hm
      obtain ⟨w1, hw1⟩ := hchmod
      refine Lasts.assoc (Lasts.hostJoin (Lasts.assoc (Lasts.step hK (by simp) ⟨_, hw1⟩ fun _ w2 hs => ?_)))
      obtain ⟨c, u, hc, hu, ha⟩ := sem_chmod hs
      rw [hreal] at hc
      obtain rfl := Except.ok.inj hc
      have hk2 := kept_of_altered hk he.fresh ha
      have hshape : ∀ r, w2.fs.IsDir r ↔ w.fs.IsDir r :=
        fun r => isDir_iff_of_shape ((reworked_of_altered (g := g) (S := (· = B ++ e.path)) rfl ha).shape r)
      have hdir2 : w2.fs.IsDir (B ++ e.path.dropLast) := by
        refine Fs.isDir_of_append (q := [e.path.getLast he.ne_nil]) ?_ (by simp)
        rw [List.append_assoc, List.dropLast_append_getLast]
        exact ((hshape _).2 he.here).ne_none
      have hl : locate w2.fs (b ++ e.path) = .ok (B ++ e.path) := locate_of_isDir (hb.kept hk2) he.ne_nil hdir2
      refine Lasts.setTimes hK hl ((hshape _).2 he.here).ne_none (ih hk2 fun x hx => ?_)
      have hx' := hnew x (.tail _ hx)
      exact { hx' with here := (hshape _).2 hx'.here }

/-! ### What is in the tree -/

/-- The tree at `B` began as the one at `R`, and the entries `es` and the records `rs` have been put
in it. `W` is the work area of the scripts. -/
structure Laid (fs0 : Fs) (R : Path) (W : Path → Prop) (es : List Entry) (rs : List Path) (fs : Fs) (B : Path) :
    Prop where
  top : fs.IsDir B
  base : ∀ q, fs0.get (R ++ q) ≠ none → (fs.get (B ++ q)).map Node.isDir = (fs0.get (R ++ q)).map Node.isDir
  only : ∀ q, fs.get (B ++ q) ≠ none →
    fs0.get (R ++ q) ≠ none ∨ (∃ e ∈ es, q <+: e.path) ∨ (∃ r ∈ rs, q <+: r) ∨ W q
  inPlace : ∀ e ∈ es, InPlace fs B e
  recorded : ∀ r ∈ rs, fs.get (B ++ r) ≠ none

/-- The components have passed `preflight ()`, and nothing of them is in the way of the records. -/
structure Fitting (fs0 : Fs) (R : Path) (W : Path → Prop) (cs : List Component) : Prop where
  vetted : ∀ c ∈ cs, Vetted fs0 R c
  consistent : Consistent (cs.flatMap (·.payload))
  reserved : ∀ c ∈ cs, ∀ e ∈ c.payload, isReserved e.path = false
  above : ∀ c ∈ cs, ∀ e ∈ c.payload, e.path ≠ [] → e.isDir = false → ∀ r : Record, ¬ e.path <+: r.dir
  identifiers : (cs.map (·.identifier)).Nodup
  entries_out : ∀ c ∈ cs, ∀ e ∈ c.payload, ¬ W e.path
  records_out : ∀ c ∈ cs, ∀ r : Record, ¬ W (r.path c.identifier)
  beneath_out : ∀ q s, W q → W (q ++ s)

variable {fs0 : Fs} {W : Path → Prop} {es : List Entry} {rs : List Path} {cs : List Component} {c : Component}

theorem Entry.Matches.isDir_eq {e : Entry} (h : e.Matches v) : e.isDir = v.isDir := by
  unfold Entry.Matches at h
  unfold Entry.isDir
  cases hc : e.content with
  | directory =>
      rw [hc] at h
      exact h.symm
  | file data =>
      rw [hc] at h
      rw [show v = .file e.mode data from h]
      rfl
  | symlink t =>
      rw [hc] at h
      rw [show v = .link t.1 from h]
      rfl

theorem isDir_eq_false (hv : fs.get p = some v) (h : ¬ fs.IsDir p) : v.isDir = false := by
  cases v with
  | dir m => exact absurd ⟨m, hv⟩ h
  | _ => rfl

theorem not_isDir (hv : fs.get p = some v) (h : v.isDir = false) : ¬ fs.IsDir p := by
  rintro ⟨m, hm⟩
  rw [hv] at hm
  cases hm
  cases h

/-- What is not a directory was one of the root's files, an entry or a record. -/
theorem Laid.block (h : Laid fs0 R W es rs fs B) (hv : fs.get (B ++ q) = some v) (hfile : v.isDir = false) :
    (fs0.get (R ++ q) ≠ none ∧ ¬ fs0.IsDir (R ++ q)) ∨ (∃ e ∈ es, e.path = q ∧ q ≠ [] ∧ e.isDir = false) ∨
      q ∈ rs ∨ W q := by
  have hne : fs.get (B ++ q) ≠ none := by simp [hv]
  have hnil : q ≠ [] := by
    rintro rfl
    rw [List.append_nil] at hv
    exact not_isDir hv hfile h.top
  -- nothing lies beneath it
  have bare : ∀ p, q <+: p → fs.get (B ++ p) ≠ none → q = p := by
    rintro _ ⟨s, rfl⟩ hp
    by_contra hs
    have hs' : s ≠ [] := by
      rintro rfl
      exact hs (List.append_nil q).symm
    rw [← List.append_assoc] at hp
    exact not_isDir hv hfile (Fs.isDir_of_append hp hs')
  obtain hold | ⟨e, he, hq⟩ | ⟨r, hr, hq⟩ | hwork := h.only q hne
  · exact .inl ⟨hold, fun hd => not_isDir hv hfile ((isDir_iff_of_shape (h.base q hold)).2 hd)⟩
  · obtain hpath | ⟨u, hu, hmatch⟩ := h.inPlace e he
    · rw [hpath] at hq
      exact absurd (List.prefix_nil.1 hq) hnil
    · obtain rfl := bare e.path hq (by simp [hu])
      rw [hv] at hu
      cases hu
      exact .inr (.inl ⟨e, he, rfl, hnil, hmatch.isDir_eq.trans hfile⟩)
  · exact .inr (.inr (.inl (bare r hq (h.recorded r hr) ▸ hr)))
  · exact .inr (.inr (.inr hwork))

theorem record_reserved (r : Record) (id : Name) (h : r.path id <+: q) : isReserved q = true := by
  have hdir : r.dir <+: q := (List.prefix_append _ _).trans h
  cases r <;> simp_all [isReserved, pathHasPrefix, Record.dir]

theorem above_record {r : Record} {id : Name} (h : q <+: r.path id) : q = r.path id ∨ q <+: r.dir :=
  List.prefix_concat_iff.1 h

theorem record_length_eq (r : Record) (id : Name) : (r.path id).length = 5 := by cases r <;> rfl

theorem Record.path_injective {r r' : Record} {id id' : Name} (h : r.path id = r'.path id') : r = r' ∧ id = id' := by
  obtain ⟨hdir, hname⟩ := List.append_inj' h rfl
  have hstr : (r.name id).1 = (r'.name id').1 := by rw [List.singleton_inj.1 hname]
  have hlast : ∀ s t : Str, s ++ ".plist".toList ≠ t ++ ".bom".toList := by
    intro s t heq
    have hget := congrArg List.getLast? heq
    simp at hget
  cases r <;> cases r'
  all_goals first
    | exact absurd hdir (by decide)
    | exact absurd hstr (hlast _ _)
    | exact absurd hstr.symm (hlast _ _)
    | exact ⟨rfl, Subtype.ext (List.append_cancel_right hstr)⟩

section Turn

variable {e : Entry} {rest : List Entry}

/-- The entry `e` comes after the entries `es`, and the records `rs` are some component's. -/
structure Turn (cs : List Component) (es : List Entry) (rs : List Path) (e : Entry) : Prop where
  mem : e ∈ cs.flatMap (·.payload)
  earlier : ∀ x ∈ es, x ∈ cs.flatMap (·.payload) ∧ x.Apart e
  records : ∀ r ∈ rs, ∃ (k : Record) (id : Name), r = k.path id

theorem Fitting.turn (hfit : Fitting fs0 R W cs) (hall : cs.flatMap (·.payload) = es ++ e :: rest)
    (hrs : ∀ r ∈ rs, ∃ (k : Record) (id : Name), r = k.path id) : Turn cs es rs e := by
  have hpair := hfit.consistent.apart
  rw [hall] at hpair
  refine ⟨?_, fun x hx => ⟨?_, (List.pairwise_append.1 hpair).2.2 x hx e (.head _)⟩, hrs⟩
  · rw [hall]
    exact List.mem_append_right _ (.head _)
  · rw [hall]
    exact List.mem_append_left _ hx

theorem Fitting.not_record (hfit : Fitting fs0 R W cs) (hturn : Turn cs es rs e) {r : Path} (hr : r ∈ rs) :
    ¬ r <+: e.path := by
  intro hp
  obtain ⟨c, hc, he⟩ := List.mem_flatMap.1 hturn.mem
  obtain ⟨k, id, rfl⟩ := hturn.records r hr
  have hreserved := hfit.reserved c hc e he
  rw [record_reserved k id hp] at hreserved
  cases hreserved

theorem Fitting.not_work (hfit : Fitting fs0 R W cs) (hturn : Turn cs es rs e) (hq : q <+: e.path) : ¬ W q := by
  intro hw
  obtain ⟨c, hc, he⟩ := List.mem_flatMap.1 hturn.mem
  obtain ⟨s, hs⟩ := hq
  exact hfit.entries_out c hc e he (hs ▸ hfit.beneath_out q s hw)

theorem Fitting.vetted_entry (hfit : Fitting fs0 R W cs) (hturn : Turn cs es rs e) (hne : e.path ≠ []) :
    Clear fs0 R e.path ∧ e.Free fs0 R := by
  obtain ⟨c, hc, he⟩ := List.mem_flatMap.1 hturn.mem
  exact (hfit.vetted c hc).entries e he hne

/-- Above an entry whose turn has come there are only directories. -/
theorem Fitting.entry_clear (hfit : Fitting fs0 R W cs) (hturn : Turn cs es rs e) (h : Laid fs0 R W es rs fs B)
    (hne : e.path ≠ []) : Clear fs B e.path := by
  intro r hr hner
  by_contra hnot
  obtain ⟨hsome, hdir⟩ := not_or.1 hnot
  obtain ⟨v, hv⟩ := Option.ne_none_iff_exists'.1 hsome
  obtain ⟨hold, hold'⟩ | ⟨x, hx, rfl, hnil, hx'⟩ | hrec | hwork := h.block hv (isDir_eq_false hv hdir)
  · exact ((hfit.vetted_entry hturn hne).1 r hr hner).elim hold hold'
  · rw [hfit.consistent.beneath e hturn.mem x (hturn.earlier x hx).1 hnil hr hner] at hx'
    cases hx'
  · exact hfit.not_record hturn hrec hr
  · exact hfit.not_work hturn hr hwork

/-- Where an entry that is not a directory goes there is nothing. -/
theorem Fitting.entry_isDir (hfit : Fitting fs0 R W cs) (hturn : Turn cs es rs e) (h : Laid fs0 R W es rs fs B)
    (hne : e.path ≠ []) (hthere : fs.get (B ++ e.path) ≠ none) : e.isDir = true := by
  by_contra hfile
  rw [Bool.not_eq_true] at hfile
  obtain hold | ⟨x, hx, hp⟩ | ⟨r, hr, hp⟩ | hwork := h.only e.path hthere
  · obtain hnone | ⟨hd, -⟩ := (hfit.vetted_entry hturn hne).2
    · exact hold hnone
    · rw [hd] at hfile
      cases hfile
  · by_cases heq : e.path = x.path
    · rw [((hturn.earlier x hx).2 heq.symm).2] at hfile
      cases hfile
    · rw [hfit.consistent.beneath x (hturn.earlier x hx).1 e hturn.mem hne hp heq] at hfile
      cases hfile
  · obtain ⟨k, id, rfl⟩ := hturn.records r hr
    obtain heq | habove := above_record hp
    · exact hfit.not_record hturn hr (heq ▸ List.prefix_refl _)
    · obtain ⟨c, hc, he⟩ := List.mem_flatMap.1 hturn.mem
      exact hfit.above c hc e he hne hfile k habove
  · exact hfit.not_work hturn (List.prefix_refl _) hwork

/-- Nothing is in the way of an entry whose turn has come. -/
theorem Fitting.entry_free (hfit : Fitting fs0 R W cs) (hturn : Turn cs es rs e) (h : Laid fs0 R W es rs fs B)
    (hne : e.path ≠ []) : e.Free fs B := by
  by_cases hn : fs.get (B ++ e.path) = none
  · exact .inl hn
  refine .inr ⟨hfit.entry_isDir hturn h hne hn, ?_⟩
  by_contra hdir
  obtain ⟨v, hv⟩ := Option.ne_none_iff_exists'.1 hn
  obtain ⟨hold, hold'⟩ | ⟨x, hx, hxe, -, hx'⟩ | hrec | hwork := h.block hv (isDir_eq_false hv hdir)
  · exact (hfit.vetted_entry hturn hne).2.elim hold fun hd => hold' hd.2
  · rw [((hturn.earlier x hx).2 hxe).1] at hx'
    cases hx'
  · exact hfit.not_record hturn hrec (List.prefix_refl _)
  · exact hfit.not_work hturn (List.prefix_refl _) hwork

end Turn

/-- Nothing is in the way of a record. -/
theorem Fitting.record_free (hfit : Fitting fs0 R W cs) (hc : c ∈ cs) (k : Record)
    (hes : ∀ e ∈ es, e ∈ cs.flatMap (·.payload)) (hrs : ∀ r ∈ rs, ∃ (k : Record) (id : Name), r = k.path id)
    (hnew : k.path c.identifier ∉ rs) (h : Laid fs0 R W es rs fs B) :
    Clear fs B (k.path c.identifier) ∧ fs.get (B ++ k.path c.identifier) = none := by
  obtain ⟨hclear, hnone⟩ := (hfit.vetted c hc).records k
  have hout : ∀ r, r <+: k.path c.identifier → ¬ W r := by
    rintro r ⟨s, hs⟩ hw
    exact hfit.records_out c hc k (hs ▸ hfit.beneath_out r s hw)
  constructor
  · intro r hr hner
    by_contra hnot
    obtain ⟨hsome, hdir⟩ := not_or.1 hnot
    obtain ⟨v, hv⟩ := Option.ne_none_iff_exists'.1 hsome
    obtain ⟨hold, hold'⟩ | ⟨x, hx, rfl, hnil, hx'⟩ | hrec | hwork := h.block hv (isDir_eq_false hv hdir)
    · exact (hclear r hr hner).elim hold hold'
    · obtain ⟨d, hd, hxd⟩ := List.mem_flatMap.1 (hes x hx)
      exact hfit.above d hd x hxd hnil hx' k ((above_record hr).resolve_left hner)
    · obtain ⟨k', id, rfl⟩ := hrs r hrec
      refine hner (hr.eq_of_length ?_)
      rw [record_length_eq, record_length_eq]
    · exact hout r hr hwork
  · by_contra hthere
    obtain hold | ⟨x, hx, hp⟩ | ⟨r, hr, hp⟩ | hwork := h.only _ hthere
    · exact hold hnone
    · obtain ⟨d, hd, hxd⟩ := List.mem_flatMap.1 (hes x hx)
      have hreserved := hfit.reserved d hd x hxd
      rw [record_reserved k _ hp] at hreserved
      cases hreserved
    · obtain ⟨k', id, rfl⟩ := hrs r hr
      have heq := hp.eq_of_length (by rw [record_length_eq, record_length_eq])
      exact hnew (heq ▸ hr)
    · exact hout _ (List.prefix_refl _) hwork

/-- What is added to the tree. -/
theorem Laid.grow {es' : List Entry} {rs' : List Path} (h : Laid fs0 R W es rs w.fs B) (hk : w.fs.Kept w'.fs)
    (honly : ∀ q, w.fs.get (B ++ q) = none → w'.fs.get (B ++ q) ≠ none →
      (∃ e ∈ es', q <+: e.path) ∨ (∃ r ∈ rs', q <+: r) ∨ W q)
    (hin : ∀ e ∈ es', InPlace w'.fs B e) (hrec : ∀ r ∈ rs', w'.fs.get (B ++ r) ≠ none) :
    Laid fs0 R W (es ++ es') (rs ++ rs') w'.fs B := by
  constructor
  · exact hk.isDir h.top
  · intro q hq
    have hthere := (ne_none_iff_of_shape (h.base q hq)).2 hq
    rw [hk _ hthere, h.base q hq]
  · intro q hq
    by_cases hn : w.fs.get (B ++ q) = none
    · obtain ⟨e, he, hp⟩ | ⟨r, hr, hp⟩ | hwork := honly q hn hq
      · exact .inr (.inl ⟨e, List.mem_append_right _ he, hp⟩)
      · exact .inr (.inr (.inl ⟨r, List.mem_append_right _ hr, hp⟩))
      · exact .inr (.inr (.inr hwork))
    · obtain hold | ⟨e, he, hp⟩ | ⟨r, hr, hp⟩ | hwork := h.only q hn
      · exact .inl hold
      · exact .inr (.inl ⟨e, List.mem_append_left _ he, hp⟩)
      · exact .inr (.inr (.inl ⟨r, List.mem_append_left _ hr, hp⟩))
      · exact .inr (.inr (.inr hwork))
  · intro e he
    obtain he | he := List.mem_append.1 he
    · exact (h.inPlace e he).kept hk
    · exact hin e he
  · intro r hr
    obtain hr | hr := List.mem_append.1 hr
    · exact hk.ne_none (h.recorded r hr)
    · exact hrec r hr

/-! ### The payload -/

/-- The entry and the directories above it. -/
def AtOrAbove (e : Entry) (q : Path) : Prop := q ≠ [] ∧ q <+: e.path

theorem covers_atOrAbove {e : Entry} : Covers (AtOrAbove e) e := fun _ hr hne => ⟨hne, hr⟩

theorem Laid.extracted {e : Entry} (h : Laid fs0 R W es rs w.fs B) (hg : Grew b B (AtOrAbove e) g w g' w')
    (hin : InPlace w'.fs B e) : Laid fs0 R W (es ++ [e]) rs w'.fs B := by
  rw [← List.append_nil rs]
  refine h.grow hg.kept (fun q hn hq => .inl ⟨e, .head _, (hg.made hn hq).2⟩) ?_ (by simp)
  intro x hx
  rwa [List.mem_singleton.1 hx]

theorem lasts_extractEntries {todo rest created : List Entry} (hK : Untroubled K) (hfit : Fitting fs0 R W cs)
    (hall : cs.flatMap (·.payload) = es ++ (todo ++ rest))
    (hrs : ∀ r ∈ rs, ∃ (k : Record) (id : Name), r = k.path id) (hh : Hooked g) (hb : At w.fs b B)
    (h : Laid fs0 R W es rs w.fs B) : Lasts K (extractEntries env b created todo) g w := by
  induction todo generalizing es created g w with
  | nil => exact Lasts.pure _
  | cons e todo ih =>
      unfold extractEntries
      have hturn : Turn cs es rs e := hfit.turn hall hrs
      refine (lasts_extractEntry hK hb fun hne => ⟨hfit.entry_clear hturn h hne, hfit.entry_free hturn h hne⟩).bind
        (stays_extractEntry hh ⟨hb, Fs.Kept.refl w.fs⟩ covers_atOrAbove) ?_
      rintro made g1 w1 ⟨hg, hin, -⟩
      have hlaid := h.extracted hg hin
      have hall1 : cs.flatMap (·.payload) = es ++ [e] ++ (todo ++ rest) := by
        rw [hall, List.append_assoc]
        rfl
      cases made with
      | true => exact ih hall1 (hg.hooked hh) (hb.kept hg.kept) hlaid
      | false => exact ih hall1 (hg.hooked hh) (hb.kept hg.kept) hlaid

theorem lasts_extract {todo rest : List Entry} (hK : Untroubled K) (hfit : Fitting fs0 R W cs)
    (hall : cs.flatMap (·.payload) = es ++ (todo ++ rest))
    (hrs : ∀ r ∈ rs, ∃ (k : Record) (id : Name), r = k.path id) (hh : Hooked g) (hb : At w.fs b B)
    (h : Laid fs0 R W es rs w.fs B) : Lasts K (extract env todo b) g w := by
  have hcovers : ∀ e ∈ todo, Covers (· ≠ []) e := fun _ _ _ _ hne => hne
  refine (lasts_extractEntries hK hfit hall hrs hh hb h).bind
    (stays_extractEntries hh ⟨hb, Fs.Kept.refl w.fs⟩ hcovers) ?_
  rintro created g1 w1 ⟨hg, -, hnew⟩
  exact lasts_finishDirectories hK hb hg.kept fun e he => (hnew e he).resolve_left (by simp)

/-! ### The records -/

theorem lasts_writePlist {rel : Path} {data : Bytes} (hK : Untroubled K) (hb : At w.fs b B) (hne : rel ≠ [])
    (hclear : Clear w.fs B rel) (hn : w.fs.get (B ++ rel) = none) : Lasts K (writePlist b rel data) g w := by
  unfold writePlist
  have hstays := stays_pathParents (K := K) (g := g) ⟨hb, Fs.Kept.refl w.fs⟩ (parents_above (q := rel))
  refine (lasts_pathParents hK hb hclear).bind hstays ?_
  rintro _ g1 w1 ⟨hg, hd⟩
  have hbe : Beneath w1 b B (fun _ => True) (b ++ rel) rel := ⟨rfl, hne, hb.kept hg.kept, hd, trivial⟩
  exact Lasts.hostJoin (lasts_fileWrite hK hbe (free_after_parents hg hn))

/-- What is there and was installed can be looked at. -/
theorem lasts_snapshotEntry {f : Snapshot → M α} (hK : Untroubled K) (hl : locate w.fs (b ++ q) = .ok p)
    (hv : w.fs.get p = some v) (hother : v ≠ .other) (h : ∀ e, Lasts K (f e) g w) :
    Lasts K (snapshotEntry env b q >>= f) g w := by
  unfold snapshotEntry
  refine Lasts.assoc (Lasts.hostJoin (Lasts.assoc ?_))
  have hstat : (Op.lstat (τ := Part) (b ++ q)).run w = .ok (v.stat, w) := by simp only [Op.run, hl, Except.bind, hv]
  refine Lasts.step hK (by simp) ⟨_, hstat⟩ fun st w1 hs => ?_
  have hs' : (Op.lstat (τ := Part) (b ++ q)).run w = .ok (st, w1) := hs
  rw [hstat] at hs'
  cases hs'
  cases v with
  | other => exact absurd rfl hother
  | dir m => exact wp_bind.2 (h _)
  | file m data =>
      have hread : (Op.read (τ := Part) (b ++ q)).run w = .ok (data, w) := by simp only [Op.run, hl, Except.bind, hv]
      refine Lasts.assoc (Lasts.assoc (Lasts.step hK (by simp) ⟨_, hread⟩ fun r w2 hs2 => ?_))
      obtain rfl := sem_quiet rfl hs2
      exact wp_bind.2 (wp_bind.2 (h _))
  | link t =>
      have hread : (Op.readlink (τ := Part) (b ++ q)).run w = .ok (t, w) := by
        simp only [Op.run, hl, Except.bind, hv]
      refine Lasts.assoc (Lasts.assoc (Lasts.step hK (by simp) ⟨_, hread⟩ fun r w2 hs2 => ?_))
      obtain rfl := sem_quiet rfl hs2
      exact wp_bind.2 (wp_bind.2 (h _))

theorem lasts_installedEntries {f : List Snapshot → M α} {wanted : List Entry} (hK : Untroubled K)
    (hB : w.fs.IsDir B) (hin : ∀ e ∈ wanted, InPlace w.fs B e) (h : ∀ l, Lasts K (f l) g w) :
    Lasts K (installedEntries env B wanted >>= f) g w := by
  induction wanted generalizing f with
  | nil => exact wp_bind.2 (h _)
  | cons e wanted ih =>
      -- where the entry is, and that it is no device
      have hthere : ∃ v, locate w.fs (B ++ e.path) = .ok (B ++ e.path) ∧ w.fs.get (B ++ e.path) = some v ∧
          v ≠ .other := by
        obtain hnil | ⟨v, hv, hmatch⟩ := hin e (.head _)
        · obtain ⟨m, hm⟩ := hB
          refine ⟨.dir m, ?_, ?_, by simp⟩
          · rw [hnil, List.append_nil]
            by_cases hB' : B = []
            · rw [hB']
              rfl
            · exact locate_self (by simp [hm]) hB'
          · rwa [hnil, List.append_nil]
        · by_cases hne : B ++ e.path = []
          · refine ⟨v, ?_, hv, ?_⟩
            · rw [hne]
              rfl
            · rintro rfl
              rw [hne] at hv
              obtain ⟨m, hm⟩ := w.fs.top
              rw [hv] at hm
              cases hm
          · refine ⟨v, locate_self (by simp [hv]) hne, hv, ?_⟩
            rintro rfl
            unfold Entry.Matches at hmatch
            cases hc : e.content with
            | _ =>
                rw [hc] at hmatch
                cases hmatch
      obtain ⟨v, hl, hv, hother⟩ := hthere
      unfold installedEntries
      refine Lasts.assoc (Lasts.hostJoin (Lasts.assoc ?_))
      have hstat : (Op.lstat (τ := Part) (B ++ e.path)).run w = .ok (v.stat, w) := by
        simp only [Op.run, hl, Except.bind, hv]
      refine Lasts.step hK (by simp) ⟨_, hstat⟩ fun _ w1 hs => ?_
      obtain rfl := sem_quiet rfl hs
      refine Lasts.assoc (lasts_snapshotEntry hK hl hv hother fun s => Lasts.assoc ?_)
      exact ih (fun x hx => hin x (.tail _ hx)) fun l => wp_bind.2 (h _)

theorem Laid.record {x : Path} (h : Laid fs0 R W es rs w.fs B) (hg : Grew b B (· <+: x) g w g' w')
    (hthere : w'.fs.get (B ++ x) ≠ none) : Laid fs0 R W es (rs ++ [x]) w'.fs B := by
  rw [← List.append_nil es]
  refine h.grow hg.kept (fun q hn hq => .inr (.inl ⟨x, .head _, hg.made hn hq⟩)) (by simp) ?_
  intro r hr
  rwa [List.mem_singleton.1 hr]

theorem lasts_receiptsWrite {changes : List (String × Snapshot)} (hK : Untroubled K) (hfit : Fitting fs0 R W cs)
    (hc : c ∈ cs) (hes : ∀ e ∈ es, e ∈ cs.flatMap (·.payload))
    (hrs : ∀ r ∈ rs, ∃ (k : Record) (id : Name), r = k.path id) (hnew : ∀ k : Record, k.path c.identifier ∉ rs)
    (hin : ∀ e ∈ c.payload, e ∈ es) (h : Laid fs0 R W es rs w.fs B) :
    Lasts K (receiptsWrite env B c changes) g w := by
  have hrecord : ∀ (l : List Record), ∀ r ∈ rs ++ l.map (·.path c.identifier), ∃ (k : Record) (id : Name), r = k.path id := by
    intro l r hr
    obtain hr | hr := List.mem_append.1 hr
    · exact hrs r hr
    · obtain ⟨k, -, rfl⟩ := List.mem_map.1 hr
      exact ⟨k, _, rfl⟩
  have hfresh : ∀ (l : List Record) (k : Record), k ∉ l → k.path c.identifier ∉ rs ++ l.map (·.path c.identifier) := by
    intro l k hk hr
    obtain hr | hr := List.mem_append.1 hr
    · exact hnew k hr
    · obtain ⟨k', hk', heq⟩ := List.mem_map.1 hr
      exact hk ((Record.path_injective heq).1 ▸ hk')
  unfold receiptsWrite
  -- the receipt
  obtain ⟨hclear, hn⟩ := hfit.record_free hc .plist hes hrs (hnew .plist) h
  have hne : ∀ k : Record, k.path c.identifier ≠ [] := fun k => k.path_ne_nil _
  have hprefix : Parents (Record.plist.path c.identifier) (· <+: Record.plist.path c.identifier) := fun _ hr _ _ => hr
  refine (lasts_writePlist hK (at_self h.top) (hne .plist) hclear hn).bind
    (stays_writePlist ⟨at_self h.top, Fs.Kept.refl w.fs⟩ (hne .plist) hprefix (List.prefix_refl _)) ?_
  rintro _ g1 w1 ⟨hg1, hv1⟩
  have h1 : Laid fs0 R W es (rs ++ [Record.plist].map (·.path c.identifier)) w1.fs B := h.record hg1 (by simp [hv1])
  -- the bill of materials
  obtain ⟨-, hn1⟩ := hfit.record_free hc .bom hes (hrecord [.plist]) (hfresh [.plist] .bom (by decide)) h1
  have hdir1 : w1.fs.IsDir (B ++ receiptsDir) := by
    refine Fs.isDir_of_append (q := [Record.plist.name c.identifier]) ?_ (by simp)
    rw [List.append_assoc]
    exact fun hnone => by simp [Record.path, Record.dir, hnone] at hv1
  have hbom : Beneath w1 B B (· <+: Record.bom.path c.identifier) (B ++ Record.bom.path c.identifier)
      (Record.bom.path c.identifier) :=
    ⟨rfl, hne .bom, at_self h1.top, by simpa [Record.path, Record.dir] using hdir1, List.prefix_refl _⟩
  refine Lasts.hostJoin ((lasts_fileWrite hK hbom hn1).bind
    (stays_fileWrite c.bom 0o644 ⟨at_self h1.top, Fs.Kept.refl w1.fs⟩ hbom) ?_)
  rintro _ g2 w2 ⟨hg2, -, hv2⟩
  have h2 : Laid fs0 R W es (rs ++ [Record.plist, Record.bom].map (·.path c.identifier)) w2.fs B := by
    have hlaid := h1.record hg2 (by simp [hv2])
    rwa [List.append_assoc] at hlaid
  -- the inventory
  refine lasts_installedEntries hK h2.top (fun e he => h2.inPlace e (hin e he)) fun installed => ?_
  obtain ⟨hclear2, hn2⟩ := hfit.record_free hc .inventory hes (hrecord [.plist, .bom])
    (hfresh [.plist, .bom] .inventory (by decide)) h2
  exact lasts_writePlist hK (at_self h2.top) (hne .inventory) hclear2 hn2

/-! ### The components -/

/-- A payload or a record is not given up but for a path that is too long. -/
def NoCollision (msg : String) (w : World Part) : Prop := w.tag = .payload ∨ w.tag = .receipts → TooLong msg

theorem NoCollision.of_main {msg : String} (h : w.tag = .main) : NoCollision msg w := by
  rw [NoCollision, h]
  rintro (h | h) <;> cases h

theorem NoCollision.of_scripts {msg : String} (h : w.tag = .scripts) : NoCollision msg w := by
  rw [NoCollision, h]
  rintro (h | h) <;> cases h

/-- The records of the component. -/
def Component.records (c : Component) : List Path := Installer.records.map (·.path c.identifier)

theorem mem_componentRecords {x : Path} : x ∈ c.records ↔ ∃ k : Record, x = k.path c.identifier := by
  constructor
  · intro h
    obtain ⟨k, -, rfl⟩ := List.mem_map.1 h
    exact ⟨k, rfl⟩
  · rintro ⟨k, rfl⟩
    exact List.mem_map.2 ⟨k, by cases k <;> decide, rfl⟩

/-- What is made in the work area does not count. -/
theorem Laid.worked {t T : Path} {Id : Name → Prop} (h : Laid fs0 R W es rs w.fs B) (hwork : ∀ q, T <+: B ++ q → W q)
    (hr : Ran b B t T (fun _ => False) Id g w g' w') : Laid fs0 R W es rs w'.fs B := by
  rw [← List.append_nil es, ← List.append_nil rs]
  refine h.grow hr.kept (fun q hn hq => .inr (.inr (hwork q ?_))) (by simp) (by simp)
  obtain ⟨xs, hx, hbuilt, -⟩ := hr
  obtain ⟨x, hmem, hx1⟩ := List.mem_map.1 ((hbuilt.made _ hn).1 hq)
  rw [← hx1]
  cases hx x hmem with
  | root hfalse => exact hfalse.elim
  | work => exact List.prefix_append _ _
  | workdir => exact List.prefix_append _ _

theorem runHooks_none {f : List (String × Snapshot) → M α} {first last : Hook} {workdir : Path}
    {changes : List (String × Snapshot)} {E : Op Part → World Part → Prop} {Q : α → Globals → World Part → Prop}
    {D : String → Globals → World Part → Prop} (hc : ∀ k, c.hooks k = none) (h : wp (sem K) E (f changes) Q D g w) :
    wp (sem K) E (runHooks env b c first last workdir changes >>= f) Q D g w := by
  have hnone : anyHook c first last = false := by simp [anyHook, hc]
  unfold runHooks
  rw [hnone]
  exact wp_bind.2 h

/-- A part of the run, with what is known of it. -/
theorem wp_during {x : Part} {m : M Unit} {Q : Unit → Globals → World Part → Prop}
    {D : String → Globals → World Part → Prop}
    (h : wp (sem K) (fun _ _ => True) m (fun _ g' w' => Q () g' { w' with tag := .main, since := w'.fs }) D g
      { w with tag := x, since := w.fs }) :
    wp (sem K) (fun _ _ => True) (during x m) Q D g w := by
  unfold during
  refine wp_bind.2 (wp_enter trivial (wp_bind.2 (h.post ?_ (fun _ _ _ => id))))
  exact fun _ g' w' hq => wp_bind.2 (wp_enter trivial hq)

/-- What is known between two components. -/
structure Between (fs0 : Fs) (R : Path) (W : Path → Prop) (done : List Component) (t T : Path) (B : Path) (g : Globals)
    (w : World Part) : Prop where
  hooked : Hooked g
  tag : w.tag = .main
  work : At w.fs t T
  laid : Laid fs0 R W (done.flatMap (·.payload)) (done.flatMap (·.records)) w.fs B

section Component

variable {done rest : List Component} {t T : Path}

theorem wp_scripts_lasts (hwork : ∀ q, T <+: B ++ q → W q) (h : Between fs0 R W done t T B g w)
    (hfits : Fits t [c.identifier]) :
    wp (sem K) (fun _ _ => True) (during .scripts (unpackScripts env c (t ++ [c.identifier])))
      (fun _ g' w' => Between fs0 R W done t T B g' w') (fun msg _ w' => NoCollision msg w') g w := by
  have hscripts : Stays (sem K) (Grows w.fs t T (fun q => [c.identifier] <+: q))
      (Ran B B t T (fun _ => False) (· = c.identifier)) (unpackScripts env c (t ++ [c.identifier])) (fun _ _ _ => True)
      g { w with tag := .scripts, since := w.fs } := stays_unpackScripts h.hooked h.work hfits
  refine wp_during ((wp_sameRun hscripts fun _ _ ho => ho.not_enter).mono (fun _ _ _ => trivial) ?_
    fun _ _ _ hd => .of_scripts hd.2.tag)
  rintro _ g1 w1 ⟨⟨hr, -⟩, -⟩
  replace hr : Ran B B t T (fun _ => False) (· = c.identifier) g w g1 w1 := hr
  exact ⟨hr.hooked h.hooked, rfl, h.work.kept hr.kept, h.laid.worked hwork hr⟩

theorem wp_payload_lasts (hK : Untroubled K) (hfit : Fitting fs0 R W cs)
    (hall : cs.flatMap (·.payload) = es ++ (c.payload ++ rest.flatMap (·.payload)))
    (hrs : ∀ r ∈ rs, ∃ (k : Record) (id : Name), r = k.path id) (hh : Hooked g) (h : Laid fs0 R W es rs w.fs B) :
    wp (sem K) (fun _ _ => True) (during .payload (extract env c.payload B))
      (fun _ g' w' => w'.tag = .main ∧ w.fs.Kept w'.fs ∧ Hooked g' ∧ Laid fs0 R W (es ++ c.payload) rs w'.fs B)
      (fun msg _ w' => NoCollision msg w') g w := by
  have hstays : Stays (sem K) (Grows w.fs B B (PayloadPath c)) (Grew B B (PayloadPath c)) (extract env c.payload B)
      (fun _ _ w' => ∀ e ∈ c.payload, InPlace w'.fs B e) g { w with tag := .payload, since := w.fs } :=
    stays_extract env c.payload hh ⟨at_self h.top, Fs.Kept.refl _⟩ covers_payload
  have hlasts : Lasts K (extract env c.payload B) g { w with tag := .payload, since := w.fs } :=
    lasts_extract hK hfit hall hrs hh (at_self h.top) h
  refine wp_during ((wp.and hstays hlasts).mono (fun _ _ _ => trivial) ?_ fun _ _ _ hd _ => hd.2)
  rintro _ g1 w1 ⟨⟨hg, hin⟩, -⟩
  refine ⟨rfl, hg.kept, hg.hooked hh, ?_⟩
  rw [← List.append_nil rs]
  exact h.grow hg.kept (fun q hn hq => .inl (hg.made hn hq).2) hin (by simp)

theorem wp_records_lasts {changes : List (String × Snapshot)} (hK : Untroubled K) (hfit : Fitting fs0 R W cs)
    (hc : c ∈ cs) (hes : ∀ e ∈ es, e ∈ cs.flatMap (·.payload))
    (hrs : ∀ r ∈ rs, ∃ (k : Record) (id : Name), r = k.path id) (hnew : ∀ k : Record, k.path c.identifier ∉ rs)
    (hin : ∀ e ∈ c.payload, e ∈ es) (hh : Hooked g) (h : Laid fs0 R W es rs w.fs B) :
    wp (sem K) (fun _ _ => True) (during .receipts (receiptsWrite env B c changes))
      (fun _ g' w' => w'.tag = .main ∧ w.fs.Kept w'.fs ∧ Hooked g' ∧ Laid fs0 R W es (rs ++ c.records) w'.fs B)
      (fun msg _ w' => NoCollision msg w') g w := by
  have hstays : Stays (sem K) (Grows w.fs B B (RecordPath c)) (Grew B B (RecordPath c)) (receiptsWrite env B c changes)
      (fun _ _ w' => Recorded env w'.fs B c) g { w with tag := .receipts, since := w.fs } :=
    stays_receiptsWrite env c changes ⟨at_self h.top, Fs.Kept.refl _⟩
  have hlasts : Lasts K (receiptsWrite env B c changes) g { w with tag := .receipts, since := w.fs } :=
    lasts_receiptsWrite hK hfit hc hes hrs hnew hin h
  refine wp_during ((wp.and hstays hlasts).mono (fun _ _ _ => trivial) ?_ fun _ _ _ hd _ => hd.2)
  rintro _ g1 w1 ⟨⟨hg, hrec⟩, -⟩
  refine ⟨rfl, hg.kept, hg.hooked hh, ?_⟩
  rw [← List.append_nil es]
  refine h.grow hg.kept (fun q hn hq => .inr (.inl ?_)) (by simp) fun r hr => ?_
  · obtain ⟨-, k, hk⟩ := hg.made hn hq
    exact ⟨_, mem_componentRecords.2 ⟨k, rfl⟩, hk⟩
  · obtain ⟨k, rfl⟩ := mem_componentRecords.1 hr
    obtain ⟨h1, h2, i, ch, h3⟩ := hrec
    cases k with
    | plist => simp [h1]
    | bom => simp [h2]
    | inventory => simp [h3]

theorem wp_installComponent_lasts (hK : Untroubled K) (hfit : Fitting fs0 R W cs) (hcs : cs = done ++ c :: rest)
    (hhooks : ∀ k, c.hooks k = none) (hwork : ∀ q, T <+: B ++ q → W q) (h : Between fs0 R W done t T B g w) :
    wp (sem K) (fun _ _ => True) (installComponent env B c t)
      (fun _ g' w' => Between fs0 R W (done ++ [c]) t T B g' w') (fun msg _ w' => NoCollision msg w') g w := by
  have hmem : c ∈ cs := by
    rw [hcs]
    exact List.mem_append_right _ (.head _)
  have hall : cs.flatMap (·.payload) = done.flatMap (·.payload) ++ (c.payload ++ rest.flatMap (·.payload)) := by
    rw [hcs, List.flatMap_append, List.flatMap_cons]
  have hrs : ∀ r ∈ done.flatMap (·.records), ∃ (k : Record) (id : Name), r = k.path id := by
    intro r hr
    obtain ⟨d, -, hr⟩ := List.mem_flatMap.1 hr
    obtain ⟨k, rfl⟩ := mem_componentRecords.1 hr
    exact ⟨k, _, rfl⟩
  have hnew : ∀ k : Record, k.path c.identifier ∉ done.flatMap (·.records) := by
    intro k hk
    obtain ⟨d, hd, hr⟩ := List.mem_flatMap.1 hk
    obtain ⟨k', heq⟩ := mem_componentRecords.1 hr
    have hids := hfit.identifiers
    rw [hcs, List.map_append, List.map_cons] at hids
    exact (List.nodup_append.1 hids).2.2 _ (List.mem_map_of_mem hd) _ (.head _) (Record.path_injective heq).2.symm
  unfold installComponent
  refine wp_bind.2 (wp_hostJoin (fun hfits => ?_) fun _ _ => .of_main h.tag)
  refine wp_bind.2 ((wp_scripts_lasts hwork h hfits).post ?_ (fun _ _ _ => id))
  intro _ g1 w1 h1
  refine runHooks_none hhooks (wp_bind.2 ((wp_payload_lasts hK hfit hall hrs h1.hooked h1.laid).post ?_
    (fun _ _ _ => id)))
  rintro _ g2 w2 ⟨htag2, hk2, hh2, h2⟩
  refine looks_checkPayloadSymlinks.bind_wp (fun _ _ => trivial) (fun _ => .of_main htag2) fun _ => ?_
  have hes : ∀ e ∈ done.flatMap (·.payload) ++ c.payload, e ∈ cs.flatMap (·.payload) := by
    intro e he
    rw [hall, ← List.append_assoc]
    exact List.mem_append_left _ he
  refine runHooks_none hhooks ((wp_records_lasts hK hfit hmem hes hrs hnew
    (fun e he => List.mem_append_right _ he) hh2 h2).post ?_ (fun _ _ _ => id))
  rintro _ g3 w3 ⟨htag3, hk3, hh3, h3⟩
  refine ⟨hh3, htag3, (h1.work.kept hk2).kept hk3, ?_⟩
  simpa using h3

theorem wp_components_lasts (hK : Untroubled K) (hfit : Fitting fs0 R W cs)
    (hhooks : ∀ c ∈ cs, ∀ k, c.hooks k = none) (hwork : ∀ q, T <+: B ++ q → W q)
    (h : Between fs0 R W [] t T B g w) :
    wp (sem K) (fun _ _ => True) (each (fun c => installComponent env B c t) cs)
      (fun _ _ w' => w'.tag = .main) (fun msg _ w' => NoCollision msg w') g w := by
  refine (wp_each (fun l g' w' => ∃ done, cs = done ++ l ∧ Between fs0 R W done t T B g' w') ?_ ⟨[], rfl, h⟩).post ?_
    (fun _ _ _ => id)
  · rintro c l g1 w1 ⟨done, hcs, h1⟩
    have hc : c ∈ cs := by
      rw [hcs]
      exact List.mem_append_right _ (.head _)
    refine (wp_installComponent_lasts hK hfit hcs (hhooks c hc) hwork h1).post (fun _ g2 w2 h2 => ?_) (fun _ _ _ => id)
    exact ⟨done ++ [c], by simp [hcs], h2⟩
  · rintro _ g1 w1 ⟨done, -, h1⟩
    exact h1.tag

end Component

/-! ### The rest of the run -/

theorem OnePart.die {msg : String} : OnePart (Installer.die msg : M α) := fun _ _ _ => trivial

theorem OnePart.modify {f : Globals → Globals} : OnePart (Proc.modify f : M Unit) := fun _ _ _ => trivial

theorem OnePart.call {o : Op Part} {msg : Errno → String} (ho : ∀ t, o ≠ .enter t) : OnePart (Installer.call o msg) := by
  refine (OnePart.ask ho).bind fun r => ?_
  cases r with
  | ok x => exact .pure _
  | error e => exact .die

theorem Looks.onePart {m : M α} (h : Looks m) : OnePart m := by
  intro K g w
  refine wp.mono (h K g w) ?_ (fun _ _ _ _ => trivial) (fun _ _ _ _ => trivial)
  rintro o v ⟨ho, -⟩ t rfl
  cases ho

theorem onePart_removeOrDie : OnePart (removeOrDie p) := onePart_removeTree.bind fun _ => .ite (.pure _) .die

theorem onePart_restoreBaseDirectories : OnePart (restoreBaseDirectories p) := by
  refine OnePart.get.bind fun g => .each (fun e => ?_) _
  refine looks_hostJoin.onePart.bind fun path => (OnePart.call (by simp)).bind fun st => .ite .die ?_
  exact (OnePart.call (by simp)).bind fun _ => looks_setTimes.onePart

theorem onePart_publish {tx : Tx} : OnePart (publish tx) := by
  have hsync : ∀ p, OnePart (syncDir p) := fun p => .call (by simp)
  refine (hsync _).bind fun _ => (hsync _).bind fun _ => (OnePart.call (by simp)).bind fun _ => (hsync _).bind fun _ =>
    (hsync _).bind fun _ => (OnePart.call (by simp)).bind fun _ => OnePart.modify.bind fun _ => (hsync _).bind fun _ =>
      (hsync _).bind fun _ => onePart_removeTree.bind fun _ => .pure _

/-- Outside of the parts that write a payload or a record there is nothing to show. -/
theorem OnePart.noCollision {m : M α} (h : OnePart m) (htag : w.tag = .main) :
    Proc.wp (sem K) (fun _ _ => True) m (fun _ _ w' => w'.tag = .main) (fun msg _ w' => NoCollision msg w') g w := by
  refine (wp_sameRun (h K g w) fun _ _ => id).mono (fun _ _ _ => trivial) ?_ ?_
  · exact fun _ _ _ hq => hq.2.tag.trans htag
  · exact fun _ _ _ hd => .of_main (hd.2.tag.trans htag)

theorem Vetted.congr {c : Component} (h : Vetted fs R c) (heq : ∀ q, fs'.get (R ++ q) = fs.get (R ++ q)) :
    Vetted fs' R c := by
  have hdir : ∀ q, fs'.IsDir (R ++ q) ↔ fs.IsDir (R ++ q) := fun q => isDir_iff_of_shape (by rw [heq])
  have hclear : ∀ q, Clear fs R q → Clear fs' R q := by
    intro q hq r hr hne
    rw [heq, hdir]
    exact hq r hr hne
  constructor
  · intro k
    rw [heq]
    exact ⟨hclear _ (h.records k).1, (h.records k).2⟩
  · intro e he hne
    rw [heq, hdir]
    exact ⟨hclear _ (h.entries e he hne).1, (h.entries e he hne).2⟩

section Offline

variable {tx : Tx} {pkg : Package}

theorem wp_fillStage_lasts (hK : Untroubled K) (hhooks : ∀ c ∈ pkg.components, ∀ k, c.hooks k = none)
    (hfit : Fitting w.fs tx.root (scriptsDir <+: ·) pkg.components) (hdir : w.fs.IsDir tx.dir)
    (hroot : w.fs.IsDir tx.root) (hg : g.createHook = false) (hlive : g.live = false) (htag : w.tag = .main) :
    wp (sem K) (fun _ _ => True) (fillStage env tx pkg) (fun _ _ w' => w'.tag = .main)
      (fun msg _ w' => NoCollision msg w') g w := by
  unfold fillStage
  refine wp_copyStage hdir hroot hg (fun _ _ _ _ => trivial) (fun _ _ _ _ hrun => .of_main (hrun.tag.trans htag)) ?_
  rintro g1 w1 - hrun hg1 hlive1 hnoscripts hcopied -
  have hstage : w1.fs.IsDir tx.stage := by
    obtain ⟨m, hm⟩ := hroot
    have htop := hcopied []
    rw [List.append_nil, List.append_nil, hm, if_neg (by decide)] at htop
    exact ⟨_, htop⟩
  have hwork : w1.fs.IsDir tx.scripts := ⟨_, (hcopied scriptsDir).trans (if_pos rfl)⟩
  have hbetween : Between w.fs tx.root (scriptsDir <+: ·) [] tx.scripts tx.scripts tx.stage g1 w1 := by
    refine ⟨by rw [Hooked, hg1, hlive1, hlive], hrun.tag.trans htag, at_self hwork, hstage, ?_, ?_, by simp, by simp⟩
    · intro q hq
      rw [hcopied q, if_neg (by rintro rfl; exact hq hnoscripts), Option.map_map]
      congr 1
      ext v
      cases v <;> rfl
    · intro q hq
      rw [hcopied q] at hq
      by_cases hscripts : q = scriptsDir
      · exact .inr (.inr (.inr (hscripts ▸ List.prefix_refl _)))
      · rw [if_neg hscripts] at hq
        exact .inl fun hn => hq (by rw [hn]; rfl)
  have hout : ∀ q, tx.scripts <+: tx.stage ++ q → scriptsDir <+: q := by
    intro q hq
    rwa [Tx.scripts, List.prefix_append_right_inj] at hq
  refine wp_bind.2 ((wp_components_lasts hK hfit hhooks hout hbetween).post ?_ (fun _ _ _ => id))
  intro _ g2 w2 htag2
  exact (onePart_removeOrDie.bind fun _ => onePart_restoreBaseDirectories).noCollision htag2

theorem wp_transact_lasts (hK : Untroubled K) (hhooks : ∀ c ∈ pkg.components, ∀ k, c.hooks k = none)
    (hfit : Fitting w.fs tx.root (scriptsDir <+: ·) pkg.components) (hdir : w.fs.IsDir tx.dir)
    (hroot : w.fs.IsDir tx.root) (hg : g.createHook = false) (hlive : g.live = false) (htag : w.tag = .main) :
    wp (sem K) (fun _ _ => True) (transact env tx pkg) (fun _ _ w' => w'.tag = .main)
      (fun msg _ w' => NoCollision msg w') g w := by
  have hprepare : wp (sem K) (fun _ _ => True) (prepare env tx pkg) (fun _ _ w' => w'.tag = .main)
      (fun msg _ w' => NoCollision msg w') g w := by
    unfold prepare
    refine wp_bind.2 (wp_hostJoin (fun _ => ?_) fun _ _ => .of_main htag)
    have hbe : Beneath w tx.dir tx.dir (· = [Tx.targetName]) (tx.dir ++ [Tx.targetName]) [Tx.targetName] :=
      ⟨rfl, by simp, at_self hdir, by simpa using hdir, rfl⟩
    have hmark := stays_fileWrite (K := K) (g := g) tx.rootBytes 0o600 ⟨at_self hdir, Fs.Kept.refl _⟩ hbe
    refine wp_bind.2 (wp.mono (wp_sameRun hmark fun _ _ h => h.not_enter) (fun _ _ _ => trivial) ?_
      fun _ _ _ hd => .of_main (hd.2.tag.trans htag))
    rintro _ g1 w1 ⟨⟨hgrew, -⟩, hrun⟩
    have htag1 := hrun.tag.trans htag
    refine (Looks.call rfl).bind_wp (fun _ _ => trivial) (fun _ => .of_main htag1) fun _ => ?_
    have hsame : ∀ q, w1.fs.get (tx.root ++ q) = w.fs.get (tx.root ++ q) := hgrew.preparing.root
    have hvars : g1.createHook = false ∧ g1.live = false := by
      obtain ⟨_, _, _, _, rfl⟩ := hgrew
      exact ⟨hg, hlive⟩
    exact wp_fillStage_lasts hK hhooks { hfit with vetted := fun c hc => (hfit.vetted c hc).congr hsame }
      (hgrew.kept.isDir hdir) (hgrew.kept.isDir hroot) hvars.1 hvars.2 htag1
  refine wp_bind.2 (hprepare.post ?_ (fun _ _ _ => id))
  exact fun _ g1 w1 htag1 => onePart_publish.noCollision htag1

end Offline

/-! ### What `preflight ()` is worth -/

/-- The entries are not in the way of each other, and none but a directory is above the directories
of the records. -/
structure Unobstructed (pkg : Package) : Prop where
  consistent : Consistent pkg.entries
  above : ∀ e ∈ pkg.entries, e.path ≠ [] → e.isDir = false → ∀ r : Record, ¬ e.path <+: r.dir

/-- No run of `m` gives up a payload or a record because of what is in the tree. -/
def Unhindered (K : Kernel Part) (m : M α) (g : Globals) (w : World Part) : Prop :=
  ∀ msg g' v, Prog.Reach (sem K) (m g) w (.ret (.error msg, g')) v → v.tag = .payload ∨ v.tag = .receipts → TooLong msg

theorem unhindered_of_wp {m : M α} {Q : α → Globals → World Part → Prop}
    (h : wp (sem K) (fun _ _ => True) m Q (fun msg _ w' => NoCollision msg w') g w) : Unhindered K m g w :=
  fun _ _ _ hr => Prog.Spec.reach h hr

theorem Package.PlacedAs.identifiers {pkg pkg' : Package} (h : pkg.PlacedAs env pkg') :
    pkg'.components.map (·.identifier) = pkg.components.map (·.identifier) := by
  have hmap : ∀ {l l' : List Component}, List.Forall₂ (Component.PlacedAs env) l l' →
      l'.map (·.identifier) = l.map (·.identifier) := by
    intro l l' hl
    induction hl with
    | nil => rfl
    | cons hx _ ih => rw [List.map_cons, List.map_cons, hx.identifier, ih]
  exact hmap h

theorem fitting_of_preflight {pkg pkg' : Package} (hids : (pkg.components.map (·.identifier)).Nodup)
    (hplaced : pkg.PlacedAs env pkg') (hvetted : ∀ c ∈ pkg'.components, Vetted fs R c)
    (hun : Unobstructed pkg')
    (hentries : ∀ c ∈ pkg'.components, ∀ e ∈ c.payload, ¬ W e.path)
    (hrecords : ∀ c ∈ pkg'.components, ∀ r : Record, ¬ W (r.path c.identifier)) (hout : ∀ q s, W q → W (q ++ s)) :
    Fitting fs R W pkg'.components where
  vetted := hvetted
  consistent := hun.consistent
  reserved _ hc := hplaced.free hc
  above c hc e he := hun.above e (List.mem_flatMap.2 ⟨c, hc, he⟩)
  identifiers := hplaced.identifiers ▸ hids
  entries_out := hentries
  records_out := hrecords
  beneath_out := hout

theorem kept_of_made {T : Path} {v : Node} (hm : Made w T v w') : w.fs.Kept w'.fs := by
  intro p hp
  have hne : p ≠ T := fun heq => hp (heq ▸ hm.free)
  rw [hm.get, if_neg hne]

theorem at_of_made {d T : Path} {n : Name} {m : Mode} (hm : Made w T (.dir m) w') (hT : locate w.fs (d ++ [n]) = .ok T) :
    At w'.fs (d ++ [n]) T := by
  rw [locate_concat] at hT
  cases hd : realDir w.fs d with
  | error e => simp [hd] at hT
  | ok D =>
    obtain rfl : D ++ [n] = T := by simpa [hd] using hT
    exact At.append ((show At w.fs d D from hd).kept (kept_of_made hm)) ⟨_, by rw [hm.get, if_pos rfl]⟩

/-- A new directory is the only thing that is not as it was. -/
theorem laid_made {T : Path} {m : Mode} (hB : w.fs.IsDir B) (hm : Made w T (.dir m) w') :
    Laid w.fs B (fun q => T <+: B ++ q) [] [] w'.fs B := by
  have hold := kept_of_made hm
  refine ⟨hold.isDir hB, fun q hq => by rw [hold _ hq], ?_, by simp, by simp⟩
  intro q hq
  by_cases heq : B ++ q = T
  · exact .inr (.inr (.inr (heq ▸ List.prefix_refl _)))
  · rw [hm.get, if_neg heq] at hq
    exact .inl hq

/-- **What passes `preflight ()` meets no collision**, unless it is in the way of the records or the
check has missed an entry for a path that it cannot sort. In an offline install the components are
put in a copy of the root; in a live install they are put in the root itself, and the work area is in
a directory that `mkdtemp ()` has just made. -/
theorem preflight_refuses_collisions (K : Kernel Part) (env : Env) (root : Path) (pkg pkg' : Package)
    (g g' : Globals) (w w' : World Part) (hK : Untroubled K) (htag : w.tag = .main) (hroot : w.fs.IsDir root)
    (hscripts : Scriptless env pkg) (hids : (pkg.components.map (·.identifier)).Nodup)
    (hpre : Prog.Reach (sem K) (preflight env root pkg g) w (.ret (.ok pkg', g')) w') :
    ((∀ e ∈ pkg'.entries, Plain e.path) → Consistent pkg'.entries) ∧
    (Unobstructed pkg' → ∀ tx w1, tx.root = root → g.createHook = false → g.live = false →
      sem K (.mkdir tx.dir 0o700) w' (.ok ()) w1 → Unhindered K (transact env tx pkg') g' w1) ∧
    (Unobstructed pkg' → ∀ d n t T w1, g.live = true → sem K (.mkdtemp d n) w' (.ok t) w1 → locate w'.fs t = .ok T →
      (∀ e ∈ pkg'.entries, ¬ T <+: root ++ e.path) →
      (∀ c ∈ pkg'.components, ∀ r : Record, ¬ T <+: root ++ r.path c.identifier) →
      Unhindered K (each (fun c => installComponent env root c t) pkg'.components) { g' with createHook := true } w1) := by
  obtain ⟨⟨rfl, rfl⟩, hplaced, hvetted, hconsistent⟩ := Prog.Spec.reach (sees_preflight hK (at_self hroot)) hpre
  have hhooks : ∀ c ∈ pkg'.components, ∀ k, c.hooks k = none := fun c hc k => hplaced.no_hooks hscripts hc k
  refine ⟨hconsistent, ?_, ?_⟩
  · rintro hun tx w1 rfl hhook hlive hs
    have hparent : w'.fs.IsDir tx.parent := Fs.isDir_of_append hroot.ne_none (List.cons_ne_nil _ _)
    obtain ⟨c, hc, hm⟩ := sem_makes (v := .dir 0o700) rfl hs
    have hloc : locate w'.fs tx.dir = .ok tx.dir :=
      locate_of_isDir (b := tx.parent) (at_self hparent) (by simp) (by simpa using hparent)
    obtain rfl : tx.dir = c := Except.ok.inj (hloc.symm.trans hc)
    have hsame : ∀ q, w1.fs.get (tx.root ++ q) = w'.fs.get (tx.root ++ q) := by
      intro q
      have hne : tx.root ++ q ≠ tx.dir := fun heq => tx.dir_apart q (heq ▸ List.prefix_refl _)
      rw [hm.get, if_neg hne]
    have hroot1 : w1.fs.IsDir tx.root := by
      obtain ⟨m, hm'⟩ := hroot
      exact ⟨m, by simpa [hm'] using hsame []⟩
    refine unhindered_of_wp (wp_transact_lasts hK hhooks ?_ ⟨_, by rw [hm.get, if_pos rfl]⟩ hroot1 hhook hlive
      (hm.tag.trans htag))
    refine fitting_of_preflight hids hplaced (fun c hc => (hvetted c hc).congr hsame) hun ?_ ?_ ?_
    · exact fun c hc e he => not_scripts_of_free (hplaced.free hc e he)
    · exact fun c hc r => not_scripts_of_record r _ (List.prefix_refl _)
    · exact fun q s hq => hq.trans (List.prefix_append _ _)
  · intro hun d n t T w1 hlive hs hT hentries hrecords
    obtain ⟨n', c, rfl, hc, hm⟩ := sem_mkdtemp hs
    obtain rfl : T = c := Except.ok.inj (hT.symm.trans hc)
    have hfit : Fitting w'.fs root (fun q => T <+: root ++ q) pkg'.components := by
      refine fitting_of_preflight hids hplaced hvetted hun ?_ hrecords ?_
      · exact fun c hc e he => hentries e (List.mem_flatMap.2 ⟨c, hc, he⟩)
      · exact fun q s hq => hq.trans (by rw [← List.append_assoc]; exact List.prefix_append _ _)
    exact unhindered_of_wp (wp_components_lasts hK hfit hhooks (fun _ => id)
      ⟨hlive.symm, hm.tag.trans htag, at_of_made hm hc, laid_made hroot hm⟩)

theorem untroubled_steady : Untroubled Kernel.steady := by
  intro o w h
  exact h

/-- A component whose payload is one file. -/
def plainComponent (path : Path) : Component where
  identifier := packageName
  location := []
  bom := []
  payload := [{ path, mode := 0o644, content := .file [] }]
  scripts := []
  hooks _ := none

/-- What `preflight ()` says of it in the empty root. -/
def vettedRun (path : Path) : (Except String Package × Globals) × World Part :=
  (preflight default emptyRootTx.root ⟨[plainComponent path]⟩ {}).exec Op.answer emptyRoot

/-- The paths of a package that was placed. -/
def placedEntries : Except String Package → Option (List (Path × Bool))
  | .ok pkg => some (pkg.entries.map fun e => (e.path, e.isDir))
  | .error _ => none

/-- A file beside the records, at `/p`. -/
theorem preflight_refuses_collisions_file :
    ∃ pkg' g' w' w1,
      Prog.Reach (sem Kernel.steady) (preflight default emptyRootTx.root ⟨[plainComponent [packageName]]⟩ {}) emptyRoot
        (.ret (.ok pkg', g')) w' ∧
      sem Kernel.steady (.mkdir emptyRootTx.dir 0o700) w' (.ok ()) w1 ∧ Unobstructed pkg' ∧
      Unhindered Kernel.steady (transact default emptyRootTx pkg') g' w1 := by
  have hreach : Prog.Reach (sem Kernel.steady) (preflight default emptyRootTx.root ⟨[plainComponent [packageName]]⟩ {})
      emptyRoot (.ret (vettedRun [packageName]).1) (vettedRun [packageName]).2 := Prog.reach_exec sem_answer _ _
  have hplaced : placedEntries (vettedRun [packageName]).1.1 = some [([packageName], false)] := by decide +kernel
  have hmkdir : (Op.answer (.mkdir emptyRootTx.dir 0o700) (vettedRun [packageName]).2).1 = .ok () := by decide +kernel
  generalize vettedRun [packageName] = x at hreach hplaced hmkdir
  obtain ⟨⟨r, g'⟩, w'⟩ := x
  cases r with
  | error _ => exact absurd hplaced (by simp [placedEntries])
  | ok pkg' =>
      obtain ⟨e, he, hpath⟩ := List.map_eq_singleton_iff.1 (Option.some.inj hplaced)
      have hun : Unobstructed pkg' := by
        obtain ⟨hp, hd⟩ := Prod.mk.inj hpath
        refine ⟨?_, ?_⟩
        · rw [he]
          refine ⟨List.pairwise_singleton _ _, ?_⟩
          rintro x hx y hy - - hne
          rw [List.mem_singleton.1 hx, List.mem_singleton.1 hy] at hne
          exact absurd rfl hne
        · rintro x hx - - r
          rw [he] at hx
          rw [List.mem_singleton.1 hx, hp]
          cases r <;> decide
      have hs := sem_answer (K := Kernel.steady) (.mkdir emptyRootTx.dir 0o700) w'
      rw [hmkdir] at hs
      exact ⟨pkg', g', w', _, hreach, hs, hun,
        (preflight_refuses_collisions Kernel.steady default emptyRootTx.root ⟨[plainComponent [packageName]]⟩ pkg' {} g'
          emptyRoot w' untroubled_steady rfl ⟨0o755, rfl⟩ (.inr (by simp [plainComponent])) (by simp) hreach).2.1 hun
          emptyRootTx _ rfl rfl rfl hs⟩

/-- Where and why the install of a package that was placed gives up. -/
def refusal : (Except String Package × Globals) × World Part → Option (Part × String)
  | ((.ok pkg, g), w) =>
      let x := (transact default emptyRootTx pkg g).exec Op.answer (Op.answer (.mkdir emptyRootTx.dir 0o700) w).2
      match x.1.1 with
      | .ok _ => none
      | .error msg => some (x.2.tag, msg)
  | ((.error _, _), _) => none

/-- A file at `/private` is let through and is then in the way of the receipt. -/
theorem file_above_records_collides :
    Untroubled Kernel.steady ∧ Scriptless default ⟨[plainComponent [nm "private".toList]]⟩ ∧
      ∃ pkg' g' w' w1,
        Prog.Reach (sem Kernel.steady) (preflight default emptyRootTx.root ⟨[plainComponent [nm "private".toList]]⟩ {})
          emptyRoot (.ret (.ok pkg', g')) w' ∧
        sem Kernel.steady (.mkdir emptyRootTx.dir 0o700) w' (.ok ()) w1 ∧
        ∃ g'' v, Prog.Reach (sem Kernel.steady) (transact default emptyRootTx pkg' g') w1
            (.ret (.error "not a directory: /r.mdpkg-transaction/new/private", g'')) v ∧ v.tag = .receipts := by
  refine ⟨untroubled_steady, .inr (by simp [plainComponent]), ?_⟩
  have hreach : Prog.Reach (sem Kernel.steady)
      (preflight default emptyRootTx.root ⟨[plainComponent [nm "private".toList]]⟩ {}) emptyRoot
      (.ret (vettedRun [nm "private".toList]).1) (vettedRun [nm "private".toList]).2 := Prog.reach_exec sem_answer _ _
  have hmkdir : (Op.answer (.mkdir emptyRootTx.dir 0o700) (vettedRun [nm "private".toList]).2).1 = .ok () := by
    decide +kernel
  have hrefusal : refusal (vettedRun [nm "private".toList]) =
      some (.receipts, "not a directory: /r.mdpkg-transaction/new/private") := by decide +kernel
  generalize vettedRun [nm "private".toList] = x at hreach hmkdir hrefusal
  obtain ⟨⟨r, g'⟩, w'⟩ := x
  cases r with
  | error _ => exact absurd hrefusal (by simp [refusal])
  | ok pkg' =>
      have hs := sem_answer (K := Kernel.steady) (.mkdir emptyRootTx.dir 0o700) w'
      rw [hmkdir] at hs
      have hrun := Prog.reach_exec (sem_answer (K := Kernel.steady)) (transact default emptyRootTx pkg' g')
        (Op.answer (.mkdir emptyRootTx.dir 0o700) w').2
      simp only [refusal] at hrefusal
      generalize (transact default emptyRootTx pkg' g').exec Op.answer (Op.answer (.mkdir emptyRootTx.dir 0o700) w').2 = y
        at hrun hrefusal
      obtain ⟨⟨r, g''⟩, v⟩ := y
      cases r with
      | ok _ => exact absurd hrefusal (by simp)
      | error msg =>
          obtain ⟨htag, hmsg⟩ := Prod.mk.inj (Option.some.inj hrefusal)
          exact ⟨pkg', g', w', _, hreach, hs, g'', v, hmsg ▸ hrun, htag⟩

end MiniDarwin.Installer
