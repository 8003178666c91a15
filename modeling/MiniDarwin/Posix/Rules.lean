import MiniDarwin.Posix.Calls

/-!
Rules for single calls, in the form proofs about programs use them: what
must hold of the answer for the call to be followed by what comes next.

The rules for looking something up are stated for a path that consists of
a directory known to the caller (`At`) and further names, none of which
may be a link or a file until the last (`Clear`).
-/

namespace Posix

open Effects Effects.Proc

variable {τ σ ε : Type} {K : Kernel τ} {E : Op τ → World τ → Prop}
  {D : ε → σ → World τ → Prop} {g : σ} {w : World τ} {b B p q : Path} {v : Node}

/-- Above `q`, seen from `B`, there are only directories and missing names. -/
def Clear (fs : Fs) (B q : Path) : Prop :=
  ∀ r, r <+: q → r ≠ q → fs.get (B ++ r) = none ∨ fs.IsDir (B ++ r)

theorem Clear.of_isDir {fs : Fs} {d : Path} {n : Name} (h : fs.IsDir (B ++ d)) :
    Clear fs B (d ++ [n]) := by
  intro r hr hne
  obtain rfl | hr' := List.prefix_concat_iff.1 hr
  · exact absurd rfl hne
  · obtain ⟨t, rfl⟩ := hr'
    by_cases ht : t = []
    · subst ht
      exact .inr (by simpa using h)
    · rw [← List.append_assoc] at h
      exact .inr (Fs.isDir_of_append h.ne_none ht)

/-- What lies under something real is reached without following a link. -/
theorem Clear.of_ne_none {fs : Fs} (h : fs.get (B ++ q) ≠ none) : Clear fs B q := by
  intro r hr hne
  obtain ⟨t, rfl⟩ := hr
  have ht : t ≠ [] := by rintro rfl; simp at hne
  rw [← List.append_assoc] at h
  exact .inr (Fs.isDir_of_append h ht)

theorem Clear.dropLast {fs : Fs} {d : Path} {n : Name} (h : Clear fs B (d ++ [n])) :
    ∀ r, r <+: d → fs.get (B ++ r) = none ∨ fs.IsDir (B ++ r) := by
  intro r hr
  refine h r (hr.trans (List.prefix_append _ _)) ?_
  rintro rfl
  have hle := hr.length_le
  simp only [List.length_append, List.length_singleton] at hle
  omega

/-- The two ways a lookup on a clear way goes. -/
theorem locate_clear {fs : Fs} (hb : At fs b B) (hq : q ≠ []) (hc : Clear fs B q) :
    locate fs (b ++ q) = .ok (B ++ q) ∨
      locate fs (b ++ q) = .error .ENOENT ∧ fs.get (B ++ q) = none := by
  induction q using List.reverseRecOn with
  | nil => exact absurd rfl hq
  | append_singleton d n _ =>
      rw [← List.append_assoc, ← List.append_assoc]
      by_cases hd : fs.IsDir (B ++ d)
      · exact .inl (locate_append hb hd)
      · refine .inr ⟨?_, ?_⟩
        · rw [locate_concat, realDir_missing hb hc.dropLast hd]
        · have hnone : fs.get (B ++ d) = none :=
            (hc.dropLast d (List.prefix_refl d)).resolve_right hd
          exact Fs.get_append_eq_none hnone

theorem realPath_append {fs : Fs} (hb : At fs b B) (hq : fs.IsDir (B ++ q)) :
    realPath fs (b ++ q) = .ok (B ++ q) := by
  have h := realDir_append hb hq
  unfold realDir at h
  unfold realPath
  split at h
  · simp at h
  · next d _ hw =>
      split at h
      · rw [hw]
        exact h
      · simp at h

theorem run_lstat {fs : Fs} {w : World τ} (hw : w.fs = fs) (hb : At fs b B) (hq : q ≠ [])
    (hc : Clear fs B q) :
    (Op.lstat (τ := τ) (b ++ q)).run w =
      match fs.get (B ++ q) with
      | none => .error .ENOENT
      | some v => .ok (v.stat, w) := by
  subst hw
  rcases locate_clear hb hq hc with h | ⟨h, hn⟩
  · have hrun : (Op.lstat (τ := τ) (b ++ q)).run w = (locate w.fs (b ++ q)).bind _ := rfl
    rw [hrun, h]
    rfl
  · simp only [Op.run, h, Except.bind, hn]

/-! ### The rules -/

/-- A call, as a step of a procedure. -/
def ask (o : Op τ) : Proc (calls τ) σ ε (Except Errno o.Val) := sys (S := calls τ) o

theorem wp_ask {W : Type} {s : Sem (calls τ) W} {E : Op τ → W → Prop} {D : ε → σ → W → Prop}
    {w : W} {o : Op τ} {Q : Except Errno o.Val → σ → W → Prop} :
    wp (ε := ε) s E (ask o) Q D g w ↔ E o w ∧ ∀ r w', s o w r w' → Q r g w' := wp_sys

theorem wp_quiet {o : Op τ} (ho : o.quiet = true) {Q : Except Errno o.Val → σ → World τ → Prop}
    (hE : E o w) (h : ∀ r, sem K o w r w → Q r g w) :
    wp (ε := ε) (sem K) E (ask o) Q D g w := by
  refine wp_ask.2 ⟨hE, fun r w' hr => ?_⟩
  obtain rfl := sem_quiet ho hr
  exact h r hr

theorem wp_enter {t : τ} {Q : Except Errno Unit → σ → World τ → Prop} (hE : E (.enter t) w)
    (h : Q (.ok ()) g { w with tag := t, since := w.fs }) :
    wp (ε := ε) (sem K) E (ask (.enter t)) Q D g w := by
  refine wp_ask.2 ⟨hE, fun r w' hr => ?_⟩
  cases r with
  | error e =>
      obtain ⟨-, hr | hr⟩ := hr
      · simp [Op.run] at hr
      · exact hr.elim
  | ok x =>
      obtain rfl := congrArg Prod.snd (Except.ok.inj hr)
      exact h

theorem wp_lstat {Q : Except Errno Stat → σ → World τ → Prop} (hb : At w.fs b B) (hq : q ≠ [])
    (hc : Clear w.fs B q) (hE : E (.lstat (b ++ q)) w)
    (hsome : ∀ v, w.fs.get (B ++ q) = some v → Q (.ok v.stat) g w)
    (hnone : w.fs.get (B ++ q) = none → Q (.error .ENOENT) g w)
    (hio : K.flaky (.lstat (b ++ q)) w → Q (.error .EDEVERR) g w) :
    wp (ε := ε) (sem K) E (ask (.lstat (b ++ q))) Q D g w := by
  refine wp_quiet rfl hE fun r hr => ?_
  have hrun := run_lstat (w := w) rfl hb hq hc
  cases r with
  | error e =>
      obtain ⟨-, hr | ⟨rfl, hr⟩⟩ := hr
      · rw [hrun] at hr
        split at hr
        · next hn =>
            obtain rfl := Except.error.inj hr
            exact hnone hn
        · simp at hr
      · exact hio hr
  | ok st =>
      replace hr : (Op.lstat (τ := τ) (b ++ q)).run w = .ok (st, w) := hr
      rw [hrun] at hr
      split at hr
      · simp at hr
      · next v hv =>
          obtain rfl : v.stat = st := congrArg Prod.fst (Except.ok.inj hr)
          exact hsome v hv

/-- A link that is there is read; on another machine the call fails. -/
theorem wp_readlink {Q : Except Errno Str → σ → World τ → Prop} {t : Str} (hb : At w.fs b B)
    (hq : q ≠ []) (hv : w.fs.get (B ++ q) = some (.link t)) (hE : E (.readlink (b ++ q)) w)
    (hok : Q (.ok t) g w) (hio : K.flaky (.readlink (b ++ q)) w → Q (.error .EDEVERR) g w) :
    wp (ε := ε) (sem K) E (ask (.readlink (b ++ q))) Q D g w := by
  refine wp_quiet rfl hE fun r hr => ?_
  have hloc : locate w.fs (b ++ q) = .ok (B ++ q) :=
    (locate_clear hb hq (.of_ne_none (by simp [hv]))).resolve_right (by simp [hv])
  have hrun : (Op.readlink (τ := τ) (b ++ q)).run w = .ok (t, w) := by
    simp only [Op.run, hloc, Except.bind, hv]
  cases r with
  | error e =>
      obtain ⟨-, hr | ⟨rfl, hr⟩⟩ := hr
      · simp [hrun] at hr
      · exact hio hr
  | ok s =>
      replace hr : (Op.readlink (τ := τ) (b ++ q)).run w = .ok (s, w) := hr
      rw [hrun] at hr
      obtain rfl : t = s := congrArg Prod.fst (Except.ok.inj hr)
      exact hok

theorem wp_makes {o : Op τ} {Q : Except Errno o.Val → σ → World τ → Prop}
    (ho : o.makes = some (p, v)) (hE : E o w) (hfail : ∀ e, Q (.error e) g w)
    (hok : ∀ r q w', locate w.fs p = .ok q → Made w q v w' → Q (.ok r) g w') :
    wp (ε := ε) (sem K) E (ask o) Q D g w := by
  refine wp_ask.2 ⟨hE, fun r w' hr => ?_⟩
  cases r with
  | error e =>
      obtain rfl := sem_error hr
      exact hfail e
  | ok x =>
      obtain ⟨q, hq, hm⟩ := sem_makes ho hr
      exact hok x q w' hq hm

/-- Without an `enter`, all calls belong to the part that was running. -/
theorem wp_sameRun {α : Type} {m : Proc (calls τ) σ ε α} {Q : α → σ → World τ → Prop}
    (h : wp (sem K) E m Q D g w) (hE : ∀ o v, E o v → ∀ t, o ≠ .enter t) :
    wp (sem K) (fun o v => E o v ∧ SameRun w v) m (fun a g' v => Q a g' v ∧ SameRun w v)
      (fun e g' v => D e g' v ∧ SameRun w v) g w :=
  wp.invariant h (fun o v _ _ ho hr hs => hr.trans (sem_sameRun (hE o v ho) hs)) (SameRun.refl w)

/-- The rule for a call whose success is described by `P`. -/
theorem wp_of_sem {o : Op τ} {Q : Except Errno o.Val → σ → World τ → Prop} (hE : E o w)
    (hfail : ∀ e, Q (.error e) g w) (hok : ∀ r w', sem K o w (.ok r) w' → Q (.ok r) g w') :
    wp (ε := ε) (sem K) E (ask o) Q D g w := by
  refine wp_ask.2 ⟨hE, fun r w' hr => ?_⟩
  cases r with
  | error e =>
      obtain rfl := sem_error hr
      exact hfail e
  | ok x => exact hok x w' hr

end Posix
