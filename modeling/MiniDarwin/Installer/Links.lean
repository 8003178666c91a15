import MiniDarwin.Installer.Growth

/-!
Where links lead.

Only links make a difference to where a path leads: whether a name that is
not a link exists or not, `..` after it comes back to the same place. So
the check of `resolve_target_path ()` is described over a table of links.
`Checked` is the course of a resolution that was accepted and `Visits` the
paths it looked up, with one path, the work area of the scripts, being a
dead end. `Escapes` is the kernel's view in a tree: the walk comes to `..`
at the root or to an absolute link.

A walk that was accepted with one table does not escape in any tree that
ends where the dead end is and whose links are those of the table at the
paths that were looked up (`Checked.not_escapes`).
-/

namespace MiniDarwin.Installer

open Posix Effects Effects.Proc

/-- The link at a path beneath `B`, if there is one, as it is read into a buffer. -/
def linkAt (fs : Fs) (B p : Path) : Option Str :=
  match fs.get (B ++ p) with
  | some (.link t) => some (t.take (pathMax - 1))
  | _ => none

theorem linkAt_of_link {fs : Fs} {B p : Path} {t : Str} (h : fs.get (B ++ p) = some (.link t)) :
    linkAt fs B p = some (t.take (pathMax - 1)) := by simp [linkAt, h]

theorem linkAt_of_isDir {fs : Fs} {B p : Path} (h : fs.IsDir (B ++ p)) : linkAt fs B p = none := by
  obtain ⟨m, h⟩ := h
  simp [linkAt, h]

theorem take_short {t : Str} (h : t.length < pathMax) : t.take (pathMax - 1) = t :=
  List.take_of_length_le (by unfold pathMax at *; omega)

/-- From `cur`, following the steps and every link on the way, the walk stays
beneath the root to the end. Names that are not links are taken as they
are. -/
inductive Checked (L : Path → Option Str) : Path → List Step → Prop where
  | done (cur : Path) : Checked L cur []
  | up {cur : Path} {l : List Step} (hne : cur ≠ []) (h : Checked L cur.dropLast l) :
      Checked L cur (.up :: l)
  | down {cur : Path} {n : Name} {l : List Step} (hn : L (cur ++ [n]) = none)
      (h : Checked L (cur ++ [n]) l) : Checked L cur (.down n :: l)
  | link {cur : Path} {n : Name} {l : List Step} {t : Str} (ht : L (cur ++ [n]) = some t)
      (hrel : t.head? ≠ some '/') (h : Checked L cur (steps t ++ l)) :
      Checked L cur (.down n :: l)

/-- The walk looks `p` up; it does not go on from `dead`. -/
inductive Visits (L : Path → Option Str) (dead : Path) : Path → List Step → Path → Prop where
  | here {cur : Path} {n : Name} {l : List Step} : Visits L dead cur (.down n :: l) (cur ++ [n])
  | up {cur p : Path} {l : List Step} (h : Visits L dead cur.dropLast l p) :
      Visits L dead cur (.up :: l) p
  | down {cur p : Path} {n : Name} {l : List Step} (hdead : cur ++ [n] ≠ dead)
      (hn : L (cur ++ [n]) = none) (h : Visits L dead (cur ++ [n]) l p) :
      Visits L dead cur (.down n :: l) p
  | link {cur p : Path} {n : Name} {l : List Step} {t : Str} (hdead : cur ++ [n] ≠ dead)
      (ht : L (cur ++ [n]) = some t) (h : Visits L dead cur (steps t ++ l) p) :
      Visits L dead cur (.down n :: l) p

/-- The kernel, with the tree at `B` as its root, is led out of it. -/
inductive Escapes (fs : Fs) (B : Path) : Path → List Step → Prop where
  | above {l : List Step} : Escapes fs B [] (.up :: l)
  | absolute {cur : Path} {n : Name} {l : List Step} {t : Str}
      (ht : fs.get (B ++ (cur ++ [n])) = some (.link t)) (h : t.head? = some '/') :
      Escapes fs B cur (.down n :: l)
  | up {cur : Path} {l : List Step} (hne : cur ≠ []) (h : Escapes fs B cur.dropLast l) :
      Escapes fs B cur (.up :: l)
  | down {cur : Path} {n : Name} {l : List Step} (hd : fs.IsDir (B ++ (cur ++ [n])))
      (h : Escapes fs B (cur ++ [n]) l) : Escapes fs B cur (.down n :: l)
  | link {cur : Path} {n : Name} {l : List Step} {t : Str}
      (ht : fs.get (B ++ (cur ++ [n])) = some (.link t)) (h : Escapes fs B cur (steps t ++ l)) :
      Escapes fs B cur (.down n :: l)

variable {L L' : Path → Option Str} {fs : Fs} {B cur dead p : Path} {l : List Step}

theorem Checked.congr (h : Checked L cur l) (hL : ∀ p, L' p = L p) : Checked L' cur l := by
  obtain rfl : L' = L := funext hL
  exact h

theorem not_prefix_concat {n : Name} (hc : ¬ dead <+: cur) (hn : cur ++ [n] ≠ dead) :
    ¬ dead <+: cur ++ [n] := by
  intro h
  rcases List.prefix_concat_iff.1 h with rfl | h
  · exact hn rfl
  · exact hc h

/-- Tables that differ only beyond the dead end have the same walks. -/
theorem Visits.congr (h : Visits L dead cur l p) (hc : ¬ dead <+: cur)
    (hL : ∀ q, ¬ dead <+: q.dropLast → L q = L' q) :
    Visits L' dead cur l p ∧ ¬ dead <+: p.dropLast := by
  have hcat : ∀ {cur : Path} {n : Name}, ¬ dead <+: cur → L (cur ++ [n]) = L' (cur ++ [n]) :=
    fun {cur n} hc => hL _ (by simpa using hc)
  induction h with
  | here => exact ⟨.here, by simpa using hc⟩
  | up _ ih =>
      have := ih fun h => hc (h.trans (List.dropLast_prefix _))
      exact ⟨.up this.1, this.2⟩
  | down hdead hn _ ih =>
      have := ih (not_prefix_concat hc hdead)
      exact ⟨.down hdead ((hcat hc).symm.trans hn) this.1, this.2⟩
  | link hdead ht _ ih =>
      have := ih hc
      exact ⟨.link hdead ((hcat hc).symm.trans ht) this.1, this.2⟩

/-- A walk that was accepted does not escape where it finds the same links. -/
theorem Checked.not_escapes (h : Checked L cur l) (hdead : fs.get (B ++ dead) = none)
    (hL : ∀ p, Visits L dead cur l p → fs.get (B ++ p) = none ∨
      ∀ t, fs.get (B ++ p) = some (.link t) ↔ L p = some t) : ¬ Escapes fs B cur l := by
  have alive : ∀ {cur : Path} {n : Name}, fs.get (B ++ (cur ++ [n])) ≠ none → cur ++ [n] ≠ dead :=
    fun hne heq => hne (heq ▸ hdead)
  induction h with
  | done => nofun
  | up hne _ ih =>
      rintro (_ | _ | ⟨-, h⟩)
      · exact hne rfl
      · exact ih (fun p hp => hL p (.up hp)) h
  | @down cur n l hn _ ih =>
      intro h
      have hfs := hL _ (.here (n := n) (l := l))
      rw [hn] at hfs
      cases h with
      | absolute ht => simp [ht] at hfs
      | down hd h => exact ih (fun p hp => hL p (.down (alive hd.ne_none) hn hp)) h
      | link ht => simp [ht] at hfs
  | @link cur n l t ht hrel _ ih =>
      intro h
      have hfs := hL _ (.here (n := n) (l := l))
      rw [ht] at hfs
      cases h with
      | absolute ht' habs =>
          obtain rfl := Option.some.inj ((hfs.resolve_left (by simp [ht']) _).1 ht')
          exact hrel habs
      | down hd _ =>
          have hlink := (hfs.resolve_left hd.ne_none t).2 rfl
          obtain ⟨m, hm⟩ := hd
          simp [hm] at hlink
      | link ht' h =>
          obtain rfl := Option.some.inj ((hfs.resolve_left (by simp [ht']) _).1 ht')
          exact ih (fun p hp => hL p (.link (alive (by simp [ht'])) ht hp)) h

/-- Names that are no links lead straight down. -/
theorem Checked.of_path {q : Path} (hq : ∀ r, r <+: q → r ≠ [] → L (cur ++ r) = none) :
    Checked L cur (q.map .down ++ l) ↔ Checked L (cur ++ q) l := by
  induction q generalizing cur with
  | nil => simp
  | cons n q ih =>
      have hn : L (cur ++ [n]) = none := hq [n] ⟨q, rfl⟩ (by simp)
      have ih' := @ih (cur ++ [n]) fun r hr hne => by
        have := hq (n :: r) (by simpa using hr) (by simp)
        simpa using this
      simp only [List.append_assoc, List.singleton_append] at ih'
      rw [← ih']
      constructor
      · intro h
        cases h with
        | down _ h => exact h
        | link ht => simp [hn] at ht
      · exact fun h => .down hn h

/-! ### The check -/

theorem steps_concat_slash {a : Str} (h : a.getLast? = some '/') (b : Str) :
    steps (a ++ b) = steps a ++ steps b := by
  obtain ⟨a', rfl⟩ := List.getLast?_eq_some_iff.1 h
  rw [List.append_assoc, List.singleton_append, steps_append_slash, steps_append_slash, steps_nil,
    List.append_nil]

variable {K : Kernel Part} {g : Globals} {w : World Part} {base : Path}

theorem wp_strJoin_steps {E : Op Part → World Part → Prop} {a b : Str}
    {Q : Str → Globals → World Part → Prop} {D : String → Globals → World Part → Prop}
    (hQ : ∀ s, steps s = steps a ++ steps b → Q s g w) (hD : ∀ msg, D msg g w) :
    wp (sem K) E (strJoin a b) Q D g w := by
  refine wp_strJoin (fun s hs => hQ s ?_) hD
  rcases hs with ⟨rfl, rfl⟩ | ⟨rfl, rfl⟩ | rfl | ⟨rfl, h⟩
  · simp
  · simp
  · exact steps_append_slash a b
  · exact steps_concat_slash h b

theorem wp_resolveWith_checked {rel : Str} {onLink : Path → Path → Path → Str → M Path}
    (hb : At w.fs base B)
    (hlink : ∀ d n t todo, Open w.fs B d → w.fs.get (B ++ (d ++ [n])) = some (.link t) →
      wp (sem K) (fun _ v => v = w) (onLink d (d ++ [n]) (base ++ (d ++ [n])) todo)
        (fun _ g' v => Same g w g' v ∧ (t.take (pathMax - 1)).head? ≠ some '/' ∧
          Checked (linkAt w.fs B) d (steps (t.take (pathMax - 1)) ++ steps todo))
        (fun _ g' v => Same g w g' v) g w)
    {todo : Str} {ts : List (Token × Str)} (hts : ts = tokens todo) {done : Path}
    (hdone : Open w.fs B done) :
    wp (sem K) (fun _ v => v = w) (resolveWith base rel true onLink done ts)
      (fun _ g' v => Same g w g' v ∧
        Checked (linkAt w.fs B) done (ts.filterMap fun t => t.1.step))
      (fun _ g' v => Same g w g' v) g w := by
  induction ts generalizing done todo with
  | nil => exact ⟨Same.refl, .done _⟩
  | cons x ts ih =>
      obtain ⟨name, todo'⟩ := x
      have hmore : ts = tokens todo' := tokens_cons hts.symm
      unfold resolveWith
      split
      · next h1 =>
          have hs : Token.step name = none := by simp [Token.step, h1]
          simp only [List.filterMap_cons, hs]
          exact ih hmore hdone
      · next h1 =>
          split
          · next h2 =>
              have hs : Token.step name = some .up := by simp [Token.step, h2]
              simp only [List.filterMap_cons, hs]
              split
              · exact Same.refl
              · next hne =>
                  exact (ih hmore hdone.dropLast).post (fun _ _ _ h => ⟨h.1, .up hne h.2⟩)
                    (fun _ _ _ => id)
          · next h2 =>
              have hs : Token.step name = some (.down (name.name h1 h2)) := by
                simp [Token.step, h1, h2]
              simp only [List.filterMap_cons, hs]
              refine wp_bind.2 (wp_relJoin ?_ (fun _ => Same.refl))
              refine wp_bind.2 (wp_hostJoin (fun _ => ?_) (fun _ _ => Same.refl))
              refine wp_bind.2 (wp_lstat hb (by simp) hdone.clear_concat rfl ?_ ?_ ?_)
              · intro v hv
                simp only
                split
                · next hk =>
                    cases v with
                    | link t =>
                        refine (hlink _ _ t _ hdone hv).post ?_ (fun _ _ _ => id)
                        rintro _ g' v ⟨hsame, hrel, hc⟩
                        rw [hmore]
                        exact ⟨hsame, .link (linkAt_of_link hv) hrel hc⟩
                    | _ => simp [Node.stat] at hk
                · next hk =>
                    have hnl : linkAt w.fs B (done ++ [name.name h1 h2]) = none := by
                      unfold linkAt
                      split
                      · next t ht =>
                          rw [hv] at ht
                          cases ht
                          simp [Node.stat] at hk
                      · rfl
                    split
                    · exact Same.refl
                    · next hd =>
                        by_cases ht : todo' = []
                        · obtain rfl : ts = [] := by simpa [ht, tokens, tokensFrom] using hmore
                          exact ⟨Same.refl, .down hnl (.done _)⟩
                        · have hdir : w.fs.IsDir (B ++ (done ++ [name.name h1 h2])) := by
                            cases v with
                            | dir m => exact ⟨m, hv⟩
                            | _ => exact absurd ⟨ht, by simp [Node.stat]⟩ hd
                          exact (ih hmore (hdone.concat (.inr hdir))).post
                            (fun _ _ _ h => ⟨h.1, .down hnl h.2⟩) (fun _ _ _ => id)
              · intro hn
                have hnl : linkAt w.fs B (done ++ [name.name h1 h2]) = none := by simp [linkAt, hn]
                exact (ih hmore (hdone.concat (.inl hn))).post
                  (fun _ _ _ h => ⟨h.1, .down hnl h.2⟩) (fun _ _ _ => id)
              · exact fun _ => Same.refl

/-- A resolution in an offline root that succeeds has been all the way. -/
theorem wp_resolve_checked {rel todo : Str} {hops : Nat} {done : Path} (hb : At w.fs base B)
    (hdone : Open w.fs B done) :
    wp (sem K) (fun _ v => v = w) (resolve base rel true false hops done todo)
      (fun _ g' v => Same g w g' v ∧ Checked (linkAt w.fs B) done (steps todo))
      (fun _ g' v => Same g w g' v) g w := by
  induction hops generalizing done todo with
  | zero =>
      refine wp_resolveWith_checked hb (fun _ _ _ _ _ _ => ?_) rfl hdone
      exact Same.refl
  | succ hops ih =>
      refine wp_resolveWith_checked hb (fun d n t todo hd ht => ?_) rfl hdone
      refine wp_bind.2 (wp_readlink_host hb (by simp) ht rfl ?_ (fun _ _ => Same.refl))
      split
      · exact Same.refl
      · next hrel =>
          refine wp_bind.2 (wp_strJoin_steps (fun s hs => ?_) (fun _ => Same.refl))
          refine (ih hd).post (fun _ _ _ h => ⟨h.1, hrel, ?_⟩) (fun _ _ _ => id)
          rw [← hs]
          exact h.2

/-- Every link of the component has been followed to its end. -/
def LinksChecked (fs : Fs) (B : Path) (c : Component) : Prop :=
  ∀ e ∈ c.payload, e.path ≠ [] → ∀ t, e.link = some t →
    Checked (linkAt fs B) [] (e.path.map .down)

/-- A link that is in place, read from the directory it is in. -/
theorem Checked.of_inPlace {fs : Fs} {e : Entry} {t : LinkTarget} (hin : InPlace fs B e)
    (hne : e.path ≠ []) (hl : e.link = some t)
    (hc : Checked (linkAt fs B) [] (e.path.dropLast.map .down ++ steps t.1)) :
    Checked (linkAt fs B) [] (e.path.map .down) := by
  obtain ⟨v, hv, hm⟩ := hin.resolve_left hne
  have hct : e.content = .symlink t := by
    unfold Entry.link at hl
    split at hl <;> simp_all
  have hlink : v = .link t.1 := by simpa [Entry.Matches, hct] using hm
  rw [hlink] at hv
  have hsplit : e.path = e.path.dropLast ++ [e.path.getLast hne] :=
    (List.dropLast_append_getLast hne).symm
  have hdirs : ∀ r, r <+: e.path.dropLast → r ≠ [] → linkAt fs B ([] ++ r) = none := by
    intro r hr _
    refine linkAt_of_isDir ?_
    obtain ⟨s, hs⟩ := hr
    refine Fs.isDir_of_append (q := s ++ [e.path.getLast hne]) ?_ (by simp)
    rw [List.nil_append, List.append_assoc, ← List.append_assoc r, hs, ← hsplit, hv]
    simp
  rw [Checked.of_path hdirs] at hc
  rw [hsplit, List.map_append, Checked.of_path hdirs]
  refine .link (t := t.1) ?_ t.2.2.1 (by simpa using hc)
  rw [List.nil_append, ← hsplit, linkAt_of_link hv, take_short t.2.2.2]

theorem wp_checkLink {e : Entry} (hb : At w.fs base B) (hlive : g.live = false)
    (hin : InPlace w.fs B e) :
    wp (sem K) (fun _ v => v = w) (checkLink base e)
      (fun _ g' v => Same g w g' v ∧ (e.path ≠ [] → ∀ t, e.link = some t →
        Checked (linkAt w.fs B) [] (e.path.map .down)))
      (fun _ g' v => Same g w g' v) g w := by
  unfold checkLink
  cases hl : e.link with
  | none => exact ⟨Same.refl, by simp⟩
  | some t =>
      refine wp_bind.2 (wp_strJoin_steps (fun s hs => ?_) (fun _ => Same.refl))
      rw [steps_render] at hs
      unfold resolveBeneath
      refine wp_bind.2 (wp_bind.2 (wp_get.2 ?_))
      rw [hlive]
      refine (wp_resolve_checked hb (open_nil hb)).post ?_ (fun _ _ _ => id)
      rintro _ g' v ⟨hsame, hc⟩
      rw [hs] at hc
      exact ⟨hsame, fun hne _ _ => Checked.of_inPlace hin hne hl hc⟩

/-- `check_payload_symlinks ()` on a tree in which the payload is in place. -/
theorem wp_checkPayloadSymlinks {c : Component} (hb : At w.fs base B) (hlive : g.live = false)
    (hin : ∀ e ∈ c.payload, InPlace w.fs B e) :
    wp (sem K) (fun _ v => v = w) (checkPayloadSymlinks base c)
      (fun _ g' v => Same g w g' v ∧ LinksChecked w.fs B c) (fun _ g' v => Same g w g' v) g w := by
  -- what has been checked is every entry that is not still to come
  refine (wp_each (fun l g' v => Same g w g' v ∧ (∀ e ∈ l, e ∈ c.payload) ∧ ∀ e ∈ c.payload,
    e ∈ l ∨ (e.path ≠ [] → ∀ t, e.link = some t → Checked (linkAt w.fs B) [] (e.path.map .down)))
    ?_ ⟨Same.refl, fun _ => id, fun _ => .inl⟩).post ?_ (fun _ _ _ => id)
  · rintro e l _ _ ⟨⟨rfl, rfl⟩, hmem, hdone⟩
    refine (wp_checkLink hb hlive (hin e (hmem e (by simp)))).post ?_ (fun _ _ _ => id)
    rintro _ g' v ⟨hsame, hc⟩
    refine ⟨hsame, fun x hx => hmem x (by simp [hx]), fun x hx => ?_⟩
    rcases hdone x hx with h | h
    · rcases List.mem_cons.1 h with rfl | h
      · exact .inr hc
      · exact .inl h
    · exact .inr h
  · rintro _ g' v ⟨hsame, -, hdone⟩
    exact ⟨hsame, fun e he => (hdone e he).resolve_left (by simp)⟩

end MiniDarwin.Installer
