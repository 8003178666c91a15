import MiniDarwin.Posix.Rules

/-!
Modification times.

A tree has no times in it, so they are kept beside it: `timed` is `sem`
with the time of every path before and after a call. A call that asks for
a time is answered with the one that is kept, and a call that sets one
sets it. Of every other call it is only known what leaves a time alone:
what is still there after the call, with the same contents, was not
modified by it. Whatever is modified may have any time afterwards, and so
may everything when a child process has run.
-/

namespace Posix

open Effects Effects.Proc

variable {τ σ ε α : Type} {K : Kernel τ} {E : Op τ → World τ → Prop} {w w' : World τ} {p q a b R : Path}
  {t t' : Path → Timespec}

/-- The modification time of what is at a path, if anything is. -/
abbrev Times : Type := Path → Timespec

/-- What is at `x` has the contents that were at `y`: the same names, the same bytes or the
same target. The mode does not matter. -/
structure SameContents (fs : Fs) (y : Path) (fs' : Fs) (x : Path) : Prop where
  there : fs.get y ≠ none
  node : (fs'.get x).map (Node.chmod 0) = (fs.get y).map (Node.chmod 0)
  names : ∀ n, fs'.get (x ++ [n]) = none ↔ fs.get (y ++ [n]) = none

/-- Where what a call leaves at `x` was before. -/
def Op.source (o : Op τ) (w : World τ) (x : Path) : Path :=
  match o with
  | .rename a b =>
      match locate w.fs a, locate w.fs b with
      | .ok p, .ok q => if q <+: x then p ++ x.drop q.length else x
      | _, _ => x
  | _ => x

/-- What a call does to the modification times. -/
def Op.Ticks : (o : Op τ) → World τ → Except Errno o.Val → World τ → Times → Times → Prop
  | _, _, .error _, _, t, t' => t' = t
  | .mtime p, w, .ok (u : Timespec), _, t, t' => t' = t ∧ ∃ q, locate w.fs p = .ok q ∧ u = t q
  | .utimes p u, w, .ok _, _, t, t' => ∃ q, locate w.fs p = .ok q ∧ t' = Function.update t q u
  | .spawn _, _, .ok _, _, _, _ => True
  | o, w, .ok _, w', t, t' =>
      ∀ x, SameContents w.fs (o.source w x) w'.fs x → t' x = t (o.source w x)

/-- What a program may see of a call, and what becomes of the times. -/
def timed (K : Kernel τ) : Sem (calls τ) (World τ × Times) :=
  fun o s r s' => sem K o s.1 r s'.1 ∧ Op.Ticks o s.1 r s'.1 s.2 s'.2

theorem timed_sem {o : Op τ} {s s' : World τ × Times} {r : Except Errno o.Val} (h : timed K o s r s') :
    sem K o s.1 r s'.1 := h.1

/-- The answer when nothing goes wrong, with the time that is kept. -/
def Op.timedAnswer (o : Op τ) (s : World τ × Times) : Except Errno o.Val × (World τ × Times) :=
  match o, o.answer s.1 with
  | .mtime p, (.ok _, w) => ((locate s.1.fs p).map s.2, (w, s.2))
  | .utimes p u, (.ok x, w) =>
      (.ok x, (w, ((locate s.1.fs p).toOption.map (Function.update s.2 · u)).getD s.2))
  | o, (.ok v, w) => (.ok v, (w, fun x => s.2 (o.source s.1 x)))
  | _, (.error e, w) => (.error e, (w, s.2))

theorem timed_answer (o : Op τ) (s : World τ × Times) : timed K o s (o.timedAnswer s).1 (o.timedAnswer s).2 := by
  have hsem := sem_answer (K := K) o s.1
  unfold Op.timedAnswer
  generalize hx : o.answer s.1 = x at hsem
  obtain ⟨r, w⟩ := x
  cases r with
  | error e => cases o <;> exact ⟨hsem, rfl⟩
  | ok v =>
      cases o with
      | mtime p =>
          obtain ⟨u, hu⟩ := hsem
          cases hq : locate s.1.fs p with
          | error e => simp [Op.run, hq, Except.bind] at hu
          | ok q =>
              show timed K (.mtime p) s ((locate s.1.fs p).map s.2) (w, s.2)
              rw [hq]
              exact ⟨⟨u, hu⟩, rfl, q, hq, rfl⟩
      | utimes p u =>
          have hu : (Op.utimes p u).run s.1 = .ok (v, w) := hsem
          cases hq : locate s.1.fs p with
          | error e => simp [Op.run, hq, Except.bind] at hu
          | ok q => exact ⟨hsem, q, hq, by simp [hq, Except.toOption]⟩
      | spawn => exact ⟨hsem, trivial⟩
      | _ => exact ⟨hsem, fun _ _ => rfl⟩

/-! ### Calls that set no times -/

/-- The call sets a time, or runs a child process that may. -/
def Op.setsTimes : Op τ → Bool
  | .utimes _ _ | .spawn _ => true
  | _ => false

/-- The call sets no time and moves nothing. -/
def Op.timeless : Op τ → Bool
  | .utimes _ _ | .spawn _ | .rename _ _ => false
  | _ => true

theorem SameContents.refl {fs : Fs} (h : fs.get p ≠ none) : SameContents fs p fs p := ⟨h, rfl, fun _ => Iff.rfl⟩

theorem Op.Ticks.kept {o : Op τ} {r : Except Errno o.Val} (h : o.Ticks w r w' t t') (ho : o.timeless = true)
    (hp : SameContents w.fs p w'.fs p) : t' p = t p := by
  cases r with
  | error e => rw [show t' = t from h]
  | ok v =>
      cases o with
      | utimes | spawn | rename => simp [Op.timeless] at ho
      | mtime p => rw [show t' = t from h.1]
      | _ => exact h p hp

/-- A directory of the tree at `R` has the names it had, and the time. -/
structure Undisturbed (R : Path) (w : World τ) (t : Times) (s : World τ × Times) : Prop where
  tree : ∀ q, s.1.fs.get (R ++ q) = w.fs.get (R ++ q)
  times : ∀ q, w.fs.get (R ++ q) ≠ none → s.2 (R ++ q) = t (R ++ q)

theorem Undisturbed.refl : Undisturbed R w t (w, t) := ⟨fun _ => rfl, fun _ _ => rfl⟩

theorem Undisturbed.trans {s s' : World τ × Times} (h : Undisturbed R w t s) (h' : Undisturbed R s.1 s.2 s') :
    Undisturbed R w t s' := by
  refine ⟨fun q => (h'.tree q).trans (h.tree q), fun q hq => ?_⟩
  rw [h'.times q (by rwa [h.tree]), h.times q hq]

theorem sameContents_of_tree (h : ∀ q, w'.fs.get (R ++ q) = w.fs.get (R ++ q)) (hq : w.fs.get (R ++ q) ≠ none) :
    SameContents w.fs (R ++ q) w'.fs (R ++ q) := by
  refine ⟨hq, by rw [h], fun n => ?_⟩
  rw [List.append_assoc, h]

/-- A call that sets no times and leaves a tree as it is leaves its times. -/
theorem Undisturbed.step {o : Op τ} {s s' : World τ × Times} {r : Except Errno o.Val} (h : Undisturbed R w t s)
    (hs : timed K o s r s') (ho : o.timeless = true) (htree : ∀ q, s'.1.fs.get (R ++ q) = s.1.fs.get (R ++ q)) :
    Undisturbed R w t s' := by
  refine h.trans ⟨htree, fun q hq => ?_⟩
  exact hs.2.kept ho (sameContents_of_tree htree hq)

/-- A time is set elsewhere. -/
theorem Undisturbed.utimes {s s' : World τ × Times} {u : Timespec} {r : Except Errno Unit} (h : Undisturbed R w t s)
    (hs : timed K (.utimes p u) s r s') (hp : ∀ q, locate s.1.fs p = .ok q → ¬ R <+: q) : Undisturbed R w t s' := by
  obtain ⟨hsem, htick⟩ := hs
  have hfs : s'.1 = s.1 := sem_quiet rfl hsem
  refine h.trans ⟨fun q => by rw [hfs], fun q _ => ?_⟩
  cases r with
  | error e => rw [show s'.2 = s.2 from htick]
  | ok x =>
      obtain ⟨c, hc, ht⟩ := htick
      rw [ht, Function.update_of_ne]
      rintro rfl
      exact hp _ hc (List.prefix_append _ _)

/-- What is moved takes its times with it, and what is elsewhere keeps them. -/
theorem timed_rename {s s' : World τ × Times} {x : Unit} (hs : timed K (.rename a b) s (.ok x) s')
    (ha : locate s.1.fs a = .ok p) (hb : locate s.1.fs b = .ok q) (hm : Moved s.1 p q s'.1) :
    (∀ r, s.1.fs.get (p ++ r) ≠ none → s'.2 (q ++ r) = s.2 (p ++ r)) ∧
      ∀ c, (∀ r, ¬ q <+: c ++ r) → (∀ r, ¬ p <+: c ++ r) → s.1.fs.get c ≠ none → s'.2 c = s.2 c := by
  have htick : ∀ x, SameContents s.1.fs ((Op.rename a b).source s.1 x) s'.1.fs x →
      s'.2 x = s.2 ((Op.rename a b).source s.1 x) := hs.2
  constructor
  · intro r hr
    have hsource : (Op.rename a b).source s.1 (q ++ r) = p ++ r := by
      simp only [Op.source, ha, hb]
      rw [if_pos (List.prefix_append _ _), List.drop_left]
    have := htick (q ++ r)
    rw [hsource] at this
    refine this ⟨hr, by rw [hm.get_target], fun n => ?_⟩
    rw [List.append_assoc, hm.get_target, ← List.append_assoc]
  · intro c hq hp hc
    have hself : ¬ q <+: c := by simpa using hq []
    have hsource : (Op.rename a b).source s.1 c = c := by
      simp only [Op.source, ha, hb]
      rw [if_neg hself]
    have := htick c
    rw [hsource] at this
    have hsame : ∀ r, s'.1.fs.get (c ++ r) = s.1.fs.get (c ++ r) := by
      intro r
      rw [hm.get_elsewhere (hq r), if_neg (hp r)]
    refine this ⟨hc, by simpa using congrArg (Option.map (Node.chmod 0)) (hsame []), fun n => by rw [hsame]⟩

/-- What a program with no such call does, seen with the times. -/
theorem wp_undisturbed {m : Proc (calls τ) σ ε α} {Q : α → σ → World τ → Prop} {D : ε → σ → World τ → Prop} {g : σ}
    (h : wp (sem K) E m Q D g w)
    (hE : ∀ o v r v', E o v → (∀ q, v.fs.get (R ++ q) = w.fs.get (R ++ q)) → sem K o v r v' →
      o.timeless = true ∧ ∀ q, v'.fs.get (R ++ q) = v.fs.get (R ++ q)) :
    wp (timed K) (fun o s => E o s.1) m (fun a g' s => Q a g' s.1 ∧ Undisturbed R w t s)
      (fun e g' s => D e g' s.1 ∧ Undisturbed R w t s) g (w, t) := by
  have hlift : wp (timed K) (fun o s => E o s.1) m (fun a g' s => Q a g' s.1) (fun e g' s => D e g' s.1) g (w, t) :=
    wp.project (π := Prod.fst) h fun _ _ _ _ => timed_sem
  refine (wp.invariant hlift (I := Undisturbed R w t) ?_ .refl).mono (fun _ _ h => h.1) (fun _ _ _ => id)
    (fun _ _ _ => id)
  rintro o s r s' ho hs hstep
  obtain ⟨htimeless, htree⟩ := hE o s.1 r s'.1 ho hs.tree hstep.1
  exact hs.step hstep htimeless htree

end Posix
