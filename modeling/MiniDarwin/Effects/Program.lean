import Mathlib

/-!
Programs that talk to an operating system, as trees of calls.

A program is either done or makes one call and continues with the answer.
The tree says nothing about what a call does: that is the business of a
`Sem`, a relation between the world before, the answer, and the world
after. One program text therefore serves every reading that is wanted of
it: a run in which some calls fail, a run that is killed between two
calls, a run whose calls are only inspected.

`Prog.Reach` is the operational reading, and the one theorems are stated
in: from a program in a world, the programs and worlds a run can be in
when it is stopped between two calls. `Prog.Spec` is the reading proofs
are written in. It asks two things of every run at once, a condition `E`
on each call in the world where the call is made and a condition `Q` on
the result; the two readings are related by `Prog.spec_iff`.

A tree has no infinite branch, so every program of this file terminates.
-/

namespace Effects

/-- The calls a program may make, and the answers each one has. -/
structure Sig where
  Op : Type
  Ans : Op → Type

inductive Prog (S : Sig) (α : Type) : Type where
  | ret (a : α) : Prog S α
  | call (o : S.Op) (k : S.Ans o → Prog S α) : Prog S α

/-- What calls do: the answer and the world a call may leave. -/
abbrev Sem (S : Sig) (W : Type) : Type := (o : S.Op) → W → S.Ans o → W → Prop

variable {S : Sig} {W : Type} {α β : Type} {sem : Sem S W}

namespace Prog

def bind : Prog S α → (α → Prog S β) → Prog S β
  | .ret a, f => f a
  | .call o k, f => .call o fun r => (k r).bind f

/-- The run with one fixed way of answering. -/
def exec (answer : (o : S.Op) → W → S.Ans o × W) : Prog S α → W → α × W
  | .ret a, w => (a, w)
  | .call o k, w => (k (answer o w).1).exec answer (answer o w).2

/-- The same run, stopped after a number of calls. -/
def execFor (answer : (o : S.Op) → W → S.Ans o × W) : Nat → Prog S α → W → Prog S α × W
  | 0, p, w => (p, w)
  | _ + 1, .ret a, w => (.ret a, w)
  | n + 1, .call o k, w => execFor answer n (k (answer o w).1) (answer o w).2

/-- `Reach sem p w q v`: started as `p` in the world `w`, a run may be at `q`
in the world `v`. -/
inductive Reach (sem : Sem S W) : Prog S α → W → Prog S α → W → Prop where
  | refl (p : Prog S α) (w : W) : Reach sem p w p w
  | step {p : Prog S α} {w v v' : W} {o : S.Op} {k : S.Ans o → Prog S α} {r : S.Ans o}
      (h : Reach sem p w (.call o k) v) (hr : sem o v r v') : Reach sem p w (k r) v'

theorem Reach.head {w v w' : W} {o : S.Op} {k : S.Ans o → Prog S α} {r : S.Ans o}
    {q : Prog S α} (hr : sem o w r v) (h : Reach sem (k r) v q w') :
    Reach sem (.call o k) w q w' := by
  induction h with
  | refl => exact .step (.refl _ _) hr
  | step _ hs ih => exact .step ih hs

theorem Reach.trans {p q s : Prog S α} {w v u : W} (h : Reach sem p w q v)
    (h' : Reach sem q v s u) : Reach sem p w s u := by
  induction h' with
  | refl => exact h
  | step _ hs ih => exact .step ih hs

/-- The run with fixed answers is one of the runs. -/
theorem reach_exec {answer : (o : S.Op) → W → S.Ans o × W}
    (h : ∀ o w, sem o w (answer o w).1 (answer o w).2) (p : Prog S α) (w : W) :
    Reach sem p w (.ret (p.exec answer w).1) (p.exec answer w).2 := by
  induction p generalizing w with
  | ret a => exact .refl _ _
  | call o k ih => exact Reach.head (h o w) (ih _ _)

theorem reach_execFor {answer : (o : S.Op) → W → S.Ans o × W}
    (h : ∀ o w, sem o w (answer o w).1 (answer o w).2) (n : Nat) (p : Prog S α) (w : W) :
    Reach sem p w (execFor answer n p w).1 (execFor answer n p w).2 := by
  induction n generalizing p w with
  | zero => exact .refl _ _
  | succ n ih =>
      cases p with
      | ret a => exact .refl _ _
      | call o k => exact Reach.head (h o w) (ih _ _)

/-- One call further. -/
def Next (q p : Prog S α) : Prop := ∃ o k r, p = .call o k ∧ q = k r

/-- No run goes on for ever. -/
theorem halts (p : Prog S α) : Acc Next p := by
  induction p with
  | ret a => exact ⟨_, fun q ⟨_, _, _, h, _⟩ => by cases h⟩
  | call o k ih =>
      refine ⟨_, fun q ⟨o', k', r, h, hq⟩ => ?_⟩
      cases h
      exact hq ▸ ih r

/-- Every call is made in a world that satisfies `E`, and every result is
returned in a world that satisfies `Q`. -/
def Spec (sem : Sem S W) (E : S.Op → W → Prop) : Prog S α → (α → W → Prop) → W → Prop
  | .ret a, Q, w => Q a w
  | .call o k, Q, w => E o w ∧ ∀ r v, sem o w r v → (k r).Spec sem E Q v

variable {E F : S.Op → W → Prop} {Q R : α → W → Prop}

theorem Spec.mono {p : Prog S α} {w : W} (h : p.Spec sem E Q w)
    (hE : ∀ o v, E o v → F o v) (hQ : ∀ a v, Q a v → R a v) : p.Spec sem F R w := by
  induction p generalizing w with
  | ret a => exact hQ a w h
  | call o k ih => exact ⟨hE o w h.1, fun r v hr => ih r (h.2 r v hr)⟩

theorem Spec.and {p : Prog S α} {w : W} (h : p.Spec sem E Q w) (h' : p.Spec sem F R w) :
    p.Spec sem (fun o v => E o v ∧ F o v) (fun a v => Q a v ∧ R a v) w := by
  induction p generalizing w with
  | ret a => exact ⟨h, h'⟩
  | call o k ih => exact ⟨⟨h.1, h'.1⟩, fun r v hr => ih r (h.2 r v hr) (h'.2 r v hr)⟩

/-- **The invariant rule.** A condition on worlds that every permitted call
preserves holds at every call and at the end. -/
theorem Spec.invariant {p : Prog S α} {w : W} {I : W → Prop} (h : p.Spec sem E Q w)
    (hI : ∀ o v r v', E o v → I v → sem o v r v' → I v') (hw : I w) :
    p.Spec sem (fun o v => E o v ∧ I v) (fun a v => Q a v ∧ I v) w := by
  induction p generalizing w with
  | ret a => exact ⟨h, hw⟩
  | call o k ih =>
      exact ⟨⟨h.1, hw⟩, fun r v hr => ih r (h.2 r v hr) (hI o w r v h.1 hw hr)⟩

/-- What is known of the calls is known of them where more is seen. -/
theorem Spec.project {V : Type} {t : Sem S V} {π : V → W} {p : Prog S α} {v : V}
    (h : p.Spec sem E Q (π v)) (hsem : ∀ o v r v', t o v r v' → sem o (π v) r (π v')) :
    p.Spec t (fun o v => E o (π v)) (fun a v => Q a (π v)) v := by
  induction p generalizing v with
  | ret a => exact h
  | call o k ih => exact ⟨h.1, fun r v' hr => ih r (h.2 r (π v') (hsem o v r v' hr))⟩

/-- Calls as an observer sees them, who keeps notes `γ` of each answer. -/
def observed {γ : Type} (sem : Sem S W)
    (note : (o : S.Op) → W → S.Ans o → γ → γ) : Sem S (W × γ) :=
  fun o s r s' => sem o s.1 r s'.1 ∧ s'.2 = note o s.1 r s.2

theorem Reach.bind {p q : Prog S α} {w v : W} {f : α → Prog S β} (h : Reach sem p w q v) :
    Reach sem (p.bind f) w (q.bind f) v := by
  induction h with
  | refl => exact .refl _ _
  | step _ hs ih => exact .step ih hs

/-- Every run can be watched. -/
theorem Reach.observed {γ : Type} {note : (o : S.Op) → W → S.Ans o → γ → γ} {p q : Prog S α} {w v : W}
    (h : Reach sem p w q v) (c : γ) : ∃ c', Reach (Prog.observed sem note) p (w, c) q (v, c') := by
  induction h with
  | refl => exact ⟨c, .refl _ _⟩
  | step _ hs ih =>
      obtain ⟨c', ih⟩ := ih
      exact ⟨_, .step ih ⟨hs, rfl⟩⟩

/-- Runs in a world that stands for another. -/
theorem Reach.along {W' : Type} {s : Sem S W} {t : Sem S W'} {π : W' → W} {p q : Prog S α} {w v : W'}
    (hπ : ∀ o w r v, t o w r v → s o (π w) r (π v)) (h : Reach t p w q v) : Reach s p (π w) q (π v) := by
  induction h with
  | refl => exact .refl _ _
  | step _ hs ih => exact .step ih (hπ _ _ _ _ hs)

theorem spec_bind {p : Prog S α} {f : α → Prog S β} {Q : β → W → Prop} {w : W} :
    (p.bind f).Spec sem E Q w ↔ p.Spec sem E (fun a v => (f a).Spec sem E Q v) w := by
  induction p generalizing w with
  | ret a => exact Iff.rfl
  | call o k ih =>
      constructor
      · exact fun h => ⟨h.1, fun r v hr => (ih r).1 (h.2 r v hr)⟩
      · exact fun h => ⟨h.1, fun r v hr => (ih r).2 (h.2 r v hr)⟩

/-- A condition on the world and the notes that every permitted call preserves
holds at every call and at the end. -/
theorem Spec.observed {γ : Type} {note : (o : S.Op) → W → S.Ans o → γ → γ} {p : Prog S α} {w : W}
    {c : γ} {I : W × γ → Prop} (h : p.Spec sem E Q w)
    (hI : ∀ o v r v' c, E o v → I (v, c) → sem o v r v' → I (v', note o v r c)) (hw : I (w, c)) :
    p.Spec (Prog.observed sem note) (fun o s => E o s.1 ∧ I s) (fun a s => Q a s.1 ∧ I s)
      (w, c) := by
  induction p generalizing w c with
  | ret a => exact ⟨h, hw⟩
  | call o k ih =>
      refine ⟨⟨h.1, hw⟩, ?_⟩
      rintro r ⟨v, c'⟩ ⟨hr, rfl⟩
      exact ih r (h.2 r v hr) (hI o w r v c h.1 hw hr)

theorem Spec.reach {p q : Prog S α} {w v : W} (h : p.Spec sem E Q w)
    (hr : Reach sem p w q v) : q.Spec sem E Q v := by
  induction hr with
  | refl => exact h
  | step _ hs ih => exact ih.2 _ _ hs

/-- The specification says exactly what holds at every call and every
result of a run. -/
theorem spec_iff {p : Prog S α} {w : W} :
    p.Spec sem E Q w ↔
      (∀ o k v, Reach sem p w (.call o k) v → E o v) ∧
        ∀ a v, Reach sem p w (.ret a) v → Q a v := by
  constructor
  · exact fun h => ⟨fun o k v hr => (h.reach hr).1, fun a v hr => h.reach hr⟩
  · intro ⟨hE, hQ⟩
    induction p generalizing w with
    | ret a => exact hQ a w (.refl _ _)
    | call o k ih =>
        refine ⟨hE o k w (.refl _ _), fun r v hr => ih r ?_ ?_⟩
        · exact fun o' k' v' h => hE o' k' v' (.head hr h)
        · exact fun a v' h => hQ a v' (.head hr h)

end Prog

/-! ### Procedures

A procedure of a C or Python program also has global variables of its own
(`σ`) and may give up with an error (`ε`). The variables live in the
process: a run that is stopped between two calls loses them, which is why
they are arguments of the tree and not part of the world. -/

def Proc (S : Sig) (σ ε α : Type) : Type := σ → Prog S (Except ε α × σ)

namespace Proc

variable {σ ε : Type}

/-- Continue after success, pass an error on. -/
def andThen (f : α → Proc S σ ε β) : Except ε α × σ → Prog S (Except ε β × σ)
  | (.ok a, g) => f a g
  | (.error e, g) => .ret (.error e, g)

instance : Monad (Proc S σ ε) where
  pure a := fun g => .ret (.ok a, g)
  bind m f := fun g => (m g).bind (andThen f)

/-- Give up. -/
def fail (e : ε) : Proc S σ ε α := fun g => .ret (.error e, g)

/-- One call. -/
def sys (o : S.Op) : Proc S σ ε (S.Ans o) := fun g => .call o fun r => .ret (.ok r, g)

def get : Proc S σ ε σ := fun g => .ret (.ok g, g)

def modify (f : σ → σ) : Proc S σ ε Unit := fun g => .ret (.ok (), f g)

/-- A loop over a list. -/
def each {γ : Type} (f : γ → Proc S σ ε Unit) : List γ → Proc S σ ε Unit
  | [] => pure ()
  | x :: l => do
      f x
      each f l

/-- Run `hook` if `m` gives up, and pass the error on whatever becomes of
the hook. -/
def onFail (hook : Proc S σ ε Unit) (m : Proc S σ ε α) : Proc S σ ε α := fun g =>
  (m g).bind fun
    | (.ok a, g') => .ret (.ok a, g')
    | (.error e, g') => (hook g').bind fun x => .ret (.error e, x.2)

/-- What a procedure owes: `Q` of a result, `D` of an error. -/
def Outcome (Q : α → σ → W → Prop) (D : ε → σ → W → Prop) : Except ε α × σ → W → Prop
  | (.ok a, g), w => Q a g w
  | (.error e, g), w => D e g w

/-- The weakest precondition of a procedure, every call being made under
`E`. -/
def wp (sem : Sem S W) (E : S.Op → W → Prop) (m : Proc S σ ε α)
    (Q : α → σ → W → Prop) (D : ε → σ → W → Prop) (g : σ) (w : W) : Prop :=
  (m g).Spec sem E (Outcome Q D) w

variable {E F : S.Op → W → Prop} {Q R : α → σ → W → Prop} {D C : ε → σ → W → Prop}
  {g : σ} {w : W}

@[simp] theorem wp_pure {a : α} :
    wp sem E (pure a : Proc S σ ε α) Q D g w ↔ Q a g w := Iff.rfl

@[simp] theorem wp_fail {e : ε} : wp sem E (fail e : Proc S σ ε α) Q D g w ↔ D e g w :=
  Iff.rfl

@[simp] theorem wp_get {Q : σ → σ → W → Prop} :
    wp sem E (get : Proc S σ ε σ) Q D g w ↔ Q g g w := Iff.rfl

@[simp] theorem wp_modify {f : σ → σ} {Q : Unit → σ → W → Prop} :
    wp sem E (modify f : Proc S σ ε Unit) Q D g w ↔ Q () (f g) w := Iff.rfl

theorem wp_sys {o : S.Op} {Q : S.Ans o → σ → W → Prop} :
    wp sem E (sys o : Proc S σ ε (S.Ans o)) Q D g w ↔
      E o w ∧ ∀ r v, sem o w r v → Q r g v := Iff.rfl

@[simp] theorem wp_bind {m : Proc S σ ε α} {f : α → Proc S σ ε β} {Q : β → σ → W → Prop} :
    wp sem E (m >>= f) Q D g w ↔ wp sem E m (fun a g' w' => wp sem E (f a) Q D g' w') D g w := by
  refine Prog.spec_bind.trans ?_
  constructor <;>
  · intro h
    refine h.mono (fun _ _ => id) ?_
    rintro ⟨x | x, g'⟩ v hx <;> exact hx

theorem wp_onFail {hook : Proc S σ ε Unit} {m : Proc S σ ε α} :
    wp sem E (onFail hook m) Q D g w ↔
      wp sem E m Q (fun e g' w' =>
        wp sem E hook (fun _ g'' w'' => D e g'' w'') (fun _ g'' w'' => D e g'' w'') g' w') g w := by
  refine Prog.spec_bind.trans ?_
  constructor <;>
  · intro h
    refine h.mono (fun _ _ => id) ?_
    rintro ⟨x | x, g'⟩ v hx
    · first
        | refine (Prog.spec_bind.1 hx).mono (fun _ _ => id) ?_
        | refine Prog.spec_bind.2 (Prog.Spec.mono hx (fun _ _ => id) ?_)
      rintro ⟨y | y, g''⟩ u hy <;> exact hy
    · exact hx

theorem wp.mono {m : Proc S σ ε α} (h : wp sem E m Q D g w)
    (hE : ∀ o v, E o v → F o v) (hQ : ∀ a g' v, Q a g' v → R a g' v)
    (hD : ∀ e g' v, D e g' v → C e g' v) : wp sem F m R C g w := by
  refine Prog.Spec.mono h hE ?_
  rintro ⟨x | x, g'⟩ v hx
  · exact hD x g' v hx
  · exact hQ x g' v hx

/-- The consequence rule for the two postconditions alone. -/
theorem wp.post {m : Proc S σ ε α} (h : wp sem E m Q D g w)
    (hQ : ∀ a g' v, Q a g' v → R a g' v) (hD : ∀ e g' v, D e g' v → C e g' v) :
    wp sem E m R C g w := h.mono (fun _ _ => id) hQ hD

theorem wp.and {m : Proc S σ ε α} (h : wp sem E m Q D g w) (h' : wp sem F m R C g w) :
    wp sem (fun o v => E o v ∧ F o v) m (fun a g' v => Q a g' v ∧ R a g' v)
      (fun e g' v => D e g' v ∧ C e g' v) g w := by
  refine (Prog.Spec.and h h').mono (fun _ _ => id) ?_
  rintro ⟨x | x, g'⟩ v hx <;> exact hx

theorem wp.invariant {m : Proc S σ ε α} {I : W → Prop} (h : wp sem E m Q D g w)
    (hI : ∀ o v r v', E o v → I v → sem o v r v' → I v') (hw : I w) :
    wp sem (fun o v => E o v ∧ I v) m (fun a g' v => Q a g' v ∧ I v)
      (fun e g' v => D e g' v ∧ I v) g w := by
  refine (Prog.Spec.invariant h hI hw).mono (fun _ _ => id) ?_
  rintro ⟨x | x, g'⟩ v hx <;> exact hx

theorem wp.project {V : Type} {t : Sem S V} {π : V → W} {m : Proc S σ ε α} {v : V}
    (h : wp sem E m Q D g (π v)) (hsem : ∀ o v r v', t o v r v' → sem o (π v) r (π v')) :
    wp t (fun o v => E o (π v)) m (fun a g' v => Q a g' (π v)) (fun e g' v => D e g' (π v)) g v := by
  refine (Prog.Spec.project h hsem).mono (fun _ _ => id) ?_
  rintro ⟨x | x, g'⟩ v hx <;> exact hx

theorem wp.observed {γ : Type} {note : (o : S.Op) → W → S.Ans o → γ → γ} {m : Proc S σ ε α} {c : γ}
    {I : W × γ → Prop} (h : wp sem E m Q D g w)
    (hI : ∀ o v r v' c, E o v → I (v, c) → sem o v r v' → I (v', note o v r c)) (hw : I (w, c)) :
    wp (Prog.observed sem note) (fun o s => E o s.1 ∧ I s) m (fun a g' s => Q a g' s.1 ∧ I s)
      (fun e g' s => D e g' s.1 ∧ I s) g (w, c) := by
  refine (Prog.Spec.observed h hI hw).mono (fun _ _ => id) ?_
  rintro ⟨x | x, g'⟩ s hx <;> exact hx

theorem wp_trivial {m : Proc S σ ε α} :
    wp sem (fun _ _ => True) m (fun _ _ _ => True) (fun _ _ _ => True) g w := by
  refine Prog.spec_iff.2 ⟨fun _ _ _ _ => trivial, ?_⟩
  rintro ⟨_ | _, _⟩ _ _ <;> trivial

/-- A result is what a run arrives at. -/
theorem wp_reach {m : Proc S σ ε α} :
    wp sem (fun _ _ => True) m (fun a g' v => Prog.Reach sem (m g) w (.ret (.ok a, g')) v)
      (fun _ _ _ => True) g w := by
  refine Prog.spec_iff.2 ⟨fun _ _ _ _ => trivial, ?_⟩
  rintro ⟨x | x, g'⟩ v h
  · trivial
  · exact h

/-- **The loop rule.** An invariant on what is still to be done that every round
preserves. -/
theorem wp_each {γ : Type} {f : γ → Proc S σ ε Unit} (I : List γ → σ → W → Prop)
    (hf : ∀ x l g w, I (x :: l) g w → wp sem E (f x) (fun _ g' w' => I l g' w') D g w)
    {l : List γ} (h : I l g w) : wp sem E (each f l) (fun _ g' w' => I [] g' w') D g w := by
  induction l generalizing g w with
  | nil => exact h
  | cons x l ih =>
      rw [each, wp_bind]
      exact (hf x l g w h).post (fun _ _ _ h' => ih h') (fun _ _ _ => id)

/-! ### Staying within a relation

Most procedures are described by a relation between the state they start
in and the state they leave, the same whether they succeed or give up,
and by what a success brings about besides. -/

variable {X : σ → W → σ → W → Prop}

/-- Every outcome is related to the start by `X`, and a success has `P`. -/
def Stays (sem : Sem S W) (E : S.Op → W → Prop) (X : σ → W → σ → W → Prop) (m : Proc S σ ε α)
    (P : α → σ → W → Prop) (g : σ) (w : W) : Prop :=
  wp sem E m (fun a g' w' => X g w g' w' ∧ P a g' w') (fun _ g' w' => X g w g' w') g w

variable {P P' : α → σ → W → Prop}

theorem Stays.bind {m : Proc S σ ε α} {f : α → Proc S σ ε β} {P' : β → σ → W → Prop}
    (ht : ∀ {g w g1 w1 g2 w2}, X g w g1 w1 → X g1 w1 g2 w2 → X g w g2 w2)
    (h : Stays sem E X m P g w)
    (h' : ∀ a g1 w1, X g w g1 w1 → P a g1 w1 → Stays sem E X (f a) P' g1 w1) :
    Stays sem E X (m >>= f) P' g w := by
  refine wp_bind.2 (h.post ?_ (fun _ _ _ => id))
  rintro a g1 w1 ⟨hx, hp⟩
  exact (h' a g1 w1 hx hp).post (fun _ _ _ h2 => ⟨ht hx h2.1, h2.2⟩) (fun _ _ _ h2 => ht hx h2)

/-- What follows a step, seen from before the step. -/
theorem Stays.after {m : Proc S σ ε α} {g1 : σ} {w1 : W}
    (ht : ∀ {g w g1 w1 g2 w2}, X g w g1 w1 → X g1 w1 g2 w2 → X g w g2 w2) (hx : X g w g1 w1)
    (h : Stays sem E X m P g1 w1) :
    wp sem E m (fun a g' w' => X g w g' w' ∧ P a g' w') (fun _ g' w' => X g w g' w') g1 w1 :=
  wp.post h (fun _ _ _ h' => ⟨ht hx h'.1, h'.2⟩) (fun _ _ _ h' => ht hx h')

/-- Where the brackets are does not matter. -/
theorem Stays.assoc {γ : Type} {m : Proc S σ ε γ} {n : γ → Proc S σ ε β} {f : β → Proc S σ ε α}
    (h : Stays sem E X ((m >>= n) >>= f) P g w) :
    Stays sem E X (m >>= fun a => n a >>= f) P g w := by
  unfold Stays at h ⊢
  simpa only [wp_bind] using h

theorem Stays.assoc_left {γ : Type} {m : Proc S σ ε γ} {n : γ → Proc S σ ε β}
    {f : β → Proc S σ ε α} (h : Stays sem E X (m >>= fun a => n a >>= f) P g w) :
    Stays sem E X ((m >>= n) >>= f) P g w := by
  unfold Stays at h ⊢
  simpa only [wp_bind] using h

theorem Stays.mono {m : Proc S σ ε α} {Y : σ → W → σ → W → Prop} (h : Stays sem E X m P g w)
    (hE : ∀ o v, E o v → F o v) (hX : ∀ g' w', X g w g' w' → Y g w g' w')
    (hP : ∀ a g' w', X g w g' w' → P a g' w' → P' a g' w') : Stays sem F Y m P' g w :=
  wp.mono h hE (fun _ _ _ h' => ⟨hX _ _ h'.1, hP _ _ _ h'.1 h'.2⟩) (fun _ _ _ h' => hX _ _ h')

theorem Stays.post {m : Proc S σ ε α} (h : Stays sem E X m P g w)
    (hP : ∀ a g' w', X g w g' w' → P a g' w' → P' a g' w') : Stays sem E X m P' g w :=
  h.mono (fun _ _ => id) (fun _ _ => id) hP

/-- The same for a procedure that never gives up. -/
def Sure (sem : Sem S W) (E : S.Op → W → Prop) (X : σ → W → σ → W → Prop) (m : Proc S σ ε α)
    (P : α → σ → W → Prop) (g : σ) (w : W) : Prop :=
  wp sem E m (fun a g' w' => X g w g' w' ∧ P a g' w') (fun _ _ _ => False) g w

theorem Sure.bind {m : Proc S σ ε α} {f : α → Proc S σ ε β} {P' : β → σ → W → Prop}
    (ht : ∀ {g w g1 w1 g2 w2}, X g w g1 w1 → X g1 w1 g2 w2 → X g w g2 w2)
    (h : Sure sem E X m P g w)
    (h' : ∀ a g1 w1, X g w g1 w1 → P a g1 w1 → Sure sem E X (f a) P' g1 w1) :
    Sure sem E X (m >>= f) P' g w := by
  refine wp_bind.2 (h.post ?_ (fun _ _ _ => id))
  rintro a g1 w1 ⟨hx, hp⟩
  exact (h' a g1 w1 hx hp).post (fun _ _ _ h2 => ⟨ht hx h2.1, h2.2⟩) (fun _ _ _ => id)

/-- The loop rule for a relation: the rounds must leave an invariant alone. -/
theorem Stays.each {γ : Type} {f : γ → Proc S σ ε Unit} (hr : ∀ {g w}, X g w g w)
    (ht : ∀ {g w g1 w1 g2 w2}, X g w g1 w1 → X g1 w1 g2 w2 → X g w g2 w2)
    (I : List γ → σ → W → Prop)
    (hf : ∀ x l g w, I (x :: l) g w → Stays sem E X (f x) (fun _ g' w' => I l g' w') g w)
    {l : List γ} (h : I l g w) :
    Stays sem E X (each f l) (fun _ g' w' => I [] g' w') g w := by
  induction l generalizing g w with
  | nil => exact ⟨hr, h⟩
  | cons x l ih => exact (hf x l g w h).bind ht (fun _ _ _ _ h' => ih h')

end Proc

end Effects
