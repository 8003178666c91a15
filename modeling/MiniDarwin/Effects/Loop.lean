import MiniDarwin.Effects.Program

/-!
Programs that run for ever.

A tree of calls ends, so a server is not one tree but a tree that is
continued with another one as often as it ends: `next` says with which, or
that the server is done. `Runs` is the operational reading. A
specification of each of the trees, under a precondition that the one
before it establishes, is a specification of the whole run.
-/

namespace Effects

variable {S : Sig} {W : Type} {α β : Type} {sem : Sem S W}

/-- `Runs sem next p w q v`: a server started as `p` in the world `w` may be at
`q` in the world `v`. -/
inductive Runs (sem : Sem S W) (next : α → Option (Prog S α)) (p : Prog S α) (w : W) :
    Prog S α → W → Prop where
  | start : Runs sem next p w p w
  | step {v v' : W} {o : S.Op} {k : S.Ans o → Prog S α} {r : S.Ans o}
      (h : Runs sem next p w (.call o k) v) (hr : sem o v r v') : Runs sem next p w (k r) v'
  | again {v : W} {a : α} {q : Prog S α} (h : Runs sem next p w (.ret a) v)
      (hq : next a = some q) : Runs sem next p w q v

/-- Calls that are only made where a condition holds. -/
def under (C : S.Op → W → Prop) (sem : Sem S W) : Sem S W := fun o w r v => C o w ∧ sem o w r v

variable {next : α → Option (Prog S α)} {p q : Prog S α} {w v : W} {E : S.Op → W → Prop}
  {Q : α → W → Prop}

/-- What is known of every call may be used to specify the rest. -/
theorem Prog.Spec.under {C F : S.Op → W → Prop} {R : α → W → Prop} (h : p.Spec sem E Q w)
    (hC : ∀ o v, E o v → C o v) (h' : p.Spec (under C sem) F R w) :
    p.Spec sem E (fun a v => Q a v ∧ R a v) w := by
  induction p generalizing w with
  | ret a => exact ⟨h, h'⟩
  | call o k ih => exact ⟨h.1, fun r v hr => ih r (h.2 r v hr) (h'.2 r v ⟨hC o w h.1, hr⟩)⟩

/-- Does the run with fixed answers make only such calls? -/
def Prog.heeds (answer : (o : S.Op) → W → S.Ans o × W) (ok : S.Op → W → Bool) : Prog S α → W → Bool
  | .ret _, _ => true
  | .call o k, w => ok o w && (k (answer o w).1).heeds answer ok (answer o w).2

/-- Such a run is one of the runs, though other calls be answered otherwise. -/
theorem Prog.reach_heeds {answer : (o : S.Op) → W → S.Ans o × W} {ok : S.Op → W → Bool}
    (h : ∀ o w, ok o w = true → sem o w (answer o w).1 (answer o w).2) (hp : p.heeds answer ok w = true) :
    Reach sem p w (.ret (p.exec answer w).1) (p.exec answer w).2 := by
  induction p generalizing w with
  | ret a => exact .refl _ _
  | call o k ih =>
      obtain ⟨ho, hk⟩ := Bool.and_eq_true_iff.1 hp
      exact Reach.head (h o w ho) (ih _ hk)

/-- What is left of a run meets the specification of its trees. -/
theorem Runs.spec (h : Runs sem next p w q v) (hp : p.Spec sem E Q w)
    (hnext : ∀ a u s, Q a u → next a = some s → s.Spec sem E Q u) : q.Spec sem E Q v := by
  induction h with
  | start => exact hp
  | step _ hr ih => exact ih.2 _ _ hr
  | again _ hq ih => exact hnext _ _ _ ih hq

/-- **The invariant rule.** A condition on worlds that every permitted call
preserves holds throughout a run. -/
theorem Runs.invariant {I : W → Prop} (h : Runs sem next p w q v) (hp : p.Spec sem E Q w)
    (hnext : ∀ a u s, Q a u → next a = some s → s.Spec sem E Q u)
    (hI : ∀ o u r u', E o u → I u → sem o u r u' → I u') (hw : I w) : I v := by
  induction h with
  | start => exact hw
  | step h hr ih => exact hI _ _ _ _ (h.spec hp hnext).1 ih hr
  | again _ _ ih => exact ih

/-- A run goes on as its tree does. -/
theorem Runs.reach {s : Prog S α} {u : W} (h : Runs sem next p w q v)
    (hr : Prog.Reach sem q v s u) : Runs sem next p w s u := by
  induction hr with
  | refl => exact h
  | step _ hs ih => exact .step ih hs

/-! ### Records

What a server has done is recorded as a list, the latest first. -/

variable {ε : Type} {A : ε → List ε → Prop} {t : List ε} {e : ε}

/-- Everything that was done was in order, given what had been done before. -/
def Always (A : ε → List ε → Prop) (t : List ε) : Prop :=
  ∀ later e earlier, t = later ++ e :: earlier → A e earlier

theorem always_nil : Always A [] := by
  intro later e earlier h
  simp at h

theorem Always.cons (h : Always A t) (he : A e t) : Always A (e :: t) := by
  intro later e' earlier heq
  cases later with
  | nil =>
      cases heq
      exact he
  | cons x later =>
      cases heq
      exact h later e' earlier rfl

/-- Events that are in order whatever has been done before. -/
theorem Always.append {es : List ε} (h : Always A t) (hes : ∀ e ∈ es, ∀ t', A e t') :
    Always A (es ++ t) := by
  induction es with
  | nil => exact h
  | cons e es ih =>
      exact (ih fun e' he' => hes e' (.tail _ he')).cons (hes e (.head _) _)

/-- A record of the calls, each with its answer. -/
def recorded (S : Sig) : Sem S (List (Σ o, S.Ans o)) := fun o t r t' => t' = ⟨o, r⟩ :: t

/-- What every call meets where it is made is met throughout the record of a run. -/
theorem Prog.Spec.always {A : S.Op → List (Σ o, S.Ans o) → Prop} {t t' : List (Σ o, S.Ans o)}
    {Q : α → List (Σ o, S.Ans o) → Prop} (h : p.Spec (recorded S) A Q t)
    (hr : Prog.Reach (recorded S) p t q t') (ht : Always (fun e => A e.1) t) : Always (fun e => A e.1) t' := by
  have hinv := h.invariant (I := Always fun e => A e.1) (by rintro o u r _ hA hu rfl; exact hu.cons hA) ht
  have hq := hinv.reach hr
  cases q with
  | ret a => exact hq.2
  | call o k => exact hq.1.2

/-- The last word on a question that only some events speak to. -/
def lastWord {β : Type} (f : ε → Option β) (t : List ε) : Option β := t.findSome? f

theorem lastWord_cons {β : Type} {f : ε → Option β} :
    lastWord f (e :: t) = (f e).or (lastWord f t) := by
  unfold lastWord
  rw [List.findSome?_cons]
  cases f e <;> rfl

theorem lastWord_append {β : Type} {f : ε → Option β} {es : List ε} (h : ∀ e ∈ es, f e = none) :
    lastWord f (es ++ t) = lastWord f t := by
  unfold lastWord
  rw [List.findSome?_append, List.findSome?_eq_none_iff.2 h, Option.none_or]

namespace Proc

variable {σ ε : Type}

/-- `try` and `catch`: an error becomes part of the result. -/
def attempt (m : Proc S σ ε α) : Proc S σ ε (Except ε α) := fun g =>
  (m g).bind fun x => .ret (.ok x.1, x.2)

theorem wp_attempt {m : Proc S σ ε α} {R : Except ε α → σ → W → Prop} {D : ε → σ → W → Prop}
    {g : σ} :
    wp sem E (attempt m) R D g w ↔
      wp sem E m (fun a g' w' => R (.ok a) g' w') (fun e g' w' => R (.error e) g' w') g w := by
  refine Prog.spec_bind.trans ?_
  constructor <;>
  · intro h
    refine Prog.Spec.mono h (fun _ _ => id) ?_
    rintro ⟨x | x, g'⟩ v hx <;> exact hx

/-! ### Keeping a condition -/

/-- Every run of `m` from a world with `I` leaves a world with `I`, whatever its
outcome. -/
def Maintains (sem : Sem S W) (E : S.Op → W → Prop) (I : W → Prop) (m : Proc S σ ε α) : Prop :=
  ∀ g w, I w → wp sem E m (fun _ _ v => I v) (fun _ _ v => I v) g w

namespace Maintains

variable {I : W → Prop}

theorem pure {a : α} : Maintains sem E I (pure a : Proc S σ ε α) := fun _ _ hw => hw

theorem fail {e : ε} : Maintains sem E I (fail e : Proc S σ ε α) := fun _ _ hw => hw

theorem bind {m : Proc S σ ε α} {f : α → Proc S σ ε β} (h : Maintains sem E I m)
    (h' : ∀ a, Maintains sem E I (f a)) : Maintains sem E I (m >>= f) := fun g w hw =>
  wp_bind.2 ((h g w hw).post (fun a g' w' hw' => h' a g' w' hw') fun _ _ _ hw' => hw')

theorem ite {p : Prop} [Decidable p] {m m' : Proc S σ ε α} (h : Maintains sem E I m)
    (h' : Maintains sem E I m') : Maintains sem E I (if p then m else m') := by
  split
  · exact h
  · exact h'

theorem each {γ : Type} {f : γ → Proc S σ ε Unit} (h : ∀ x, Maintains sem E I (f x))
    (l : List γ) : Maintains sem E I (each f l) := by
  induction l with
  | nil => exact pure
  | cons x l ih => exact (h x).bind fun _ => ih

theorem attempt {m : Proc S σ ε α} (h : Maintains sem E I m) : Maintains sem E I (attempt m) :=
  fun g w hw => wp_attempt.2 (h g w hw)

end Maintains

end Proc

end Effects
