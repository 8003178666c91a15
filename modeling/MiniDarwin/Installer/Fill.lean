import MiniDarwin.Installer.Stage

/-!
What the stage holds when it has been filled.

The copy of the root has all the links of the root, and every component
adds those of its payload; `links` is the table that results. The work
area of the scripts lies in the stage while the components are installed
and is gone at the end.
-/

namespace MiniDarwin.Installer

open Posix Effects Effects.Proc

variable {K : Kernel Part} {E : Op Part → World Part → Prop} {fs0 : Fs} {D R S p q : Path}
  {Ok : Path → Prop} {g g' g'' : Globals} {w w' w'' : World Part} {env : Env} {c : Component}
  {mode : Mode}

/-! ### The table of links -/

/-- The link the payload of a component has at a path. -/
def Component.linkAt (c : Component) (p : Path) : Option Str :=
  (c.payload.find? fun e => e.path = p ∧ p ≠ [] ∧ e.link.isSome).bind fun e => e.link.map (·.1)

/-- The links of a tree with the components installed in it. -/
def links (L : Path → Option Str) (cs : List Component) (p : Path) : Option Str :=
  (L p).or (cs.findSome? fun c => c.linkAt p)

theorem links_nil {L : Path → Option Str} : links L [] p = L p := by simp [links]

theorem links_concat {L : Path → Option Str} {cs : List Component} :
    links L (cs ++ [c]) p = (links L cs p).or (c.linkAt p) := by
  simp [links, List.findSome?_append, Option.or_assoc]

theorem Component.linkAt_eq_some {t : Str} (h : c.linkAt p = some t) :
    p ≠ [] ∧ ∃ e ∈ c.payload, e.path = p ∧ ∃ s : LinkTarget, e.link = some s ∧ s.1 = t := by
  obtain ⟨e, he, hl⟩ := Option.bind_eq_some_iff.1 h
  have hp := List.find?_some he
  simp only [decide_eq_true_eq] at hp
  obtain ⟨s, hs, rfl⟩ := Option.map_eq_some_iff.1 hl
  exact ⟨hp.2.1, e, List.mem_of_find?_eq_some he, hp.1, s, hs, rfl⟩

theorem Component.linkAt_ne_none {e : Entry} {s : LinkTarget} (he : e ∈ c.payload) (hp : e.path ≠ [])
    (hs : e.link = some s) : c.linkAt e.path ≠ none := by
  have hsome : (c.payload.find? fun x => x.path = e.path ∧ e.path ≠ [] ∧ x.link.isSome).isSome := by
    rw [List.find?_isSome]
    exact ⟨e, he, by simp [hp, hs]⟩
  obtain ⟨x, hx⟩ := Option.isSome_iff_exists.1 hsome
  have hpx := List.find?_some hx
  simp only [decide_eq_true_eq] at hpx
  obtain ⟨s', hs'⟩ := Option.isSome_iff_exists.1 hpx.2.2
  rw [Component.linkAt, hx, Option.bind_some, hs']
  simp

theorem Entry.Matches.link {e : Entry} {v : Node} {s : LinkTarget} (h : e.Matches v)
    (hs : e.link = some s) : v = .link s.1 := by
  unfold Entry.link at hs
  unfold Entry.Matches at h
  split at hs <;> simp_all

theorem Entry.Matches.link_of {e : Entry} {t : Str} (h : e.Matches (.link t)) :
    ∃ s : LinkTarget, e.link = some s ∧ s.1 = t := by
  unfold Entry.Matches at h
  unfold Entry.link
  split at h <;> simp_all [Node.isDir]

/-- Outside the work area, the links of the tree at `S` are those of a table. -/
def HasLinks (fs : Fs) (S : Path) (L : Path → Option Str) : Prop :=
  ∀ p, ¬ scriptsDir <+: p → ∀ t, fs.get (S ++ p) = some (.link t) ↔ L p = some t

/-- A component that has been installed has added its own links. -/
theorem HasLinks.installed {L : Path → Option Str} {cs : List Component} {live : Bool}
    (h : HasLinks w.fs S (links L cs))
    (hr : Ran S S (S ++ scriptsDir) (S ++ scriptsDir) (RootPath c) (· = c.identifier) g w g' w')
    (hi : Installed env S c live w'.fs) : HasLinks w'.fs S (links L (cs ++ [c])) := by
  -- what the component has at a path is in place
  have own : ∀ {p t}, c.linkAt p = some t → w'.fs.get (S ++ p) = some (.link t) := by
    intro p t ht
    obtain ⟨hne, e, he, rfl, s, hs, rfl⟩ := c.linkAt_eq_some ht
    obtain ⟨v, hv, hm⟩ := (hi.inPlace e he).resolve_left hne
    rw [hv, hm.link hs]
  intro p hp t
  rw [links_concat]
  constructor
  · intro hlink
    by_cases hw : w.fs.get (S ++ p) = none
    · have hnone : links L cs p = none := by
        by_contra hne
        obtain ⟨s, hs⟩ := Option.ne_none_iff_exists'.1 hne
        rw [(h p hp s).2 hs] at hw
        cases hw
      rw [hnone, Option.none_or]
      -- a new link is a payload entry
      obtain ⟨xs, hx, hbuilt, -⟩ := hr
      obtain ⟨x, hmem, hx1⟩ := List.mem_map.1 ((hbuilt.made _ hw).1 (by simp [hlink]))
      have hroot : RootPath c p := by
        have hnote := hx x hmem
        cases hnote with
        | root hq => rwa [← List.append_cancel_left hx1]
        | work hid hq =>
            rw [List.append_assoc] at hx1
            exact absurd ⟨_, List.append_cancel_left hx1⟩ hp
        | workdir hid hf =>
            rw [List.append_assoc] at hx1
            exact absurd ⟨_, List.append_cancel_left hx1⟩ hp
      rcases hroot with ⟨hne, e, he, s, hs⟩ | hrec
      · have hene : e.path ≠ [] := by
          rw [← hs]
          simp [hne]
        obtain ⟨v, hv, hm⟩ := (hi.inPlace e he).resolve_left hene
        by_cases hnil : s = []
        · rw [hnil, List.append_nil] at hs
          subst hs
          rw [hlink] at hv
          cases hv
          obtain ⟨s, hs, rfl⟩ := hm.link_of
          obtain ⟨t', ht'⟩ := Option.ne_none_iff_exists'.1 (Component.linkAt_ne_none he hne hs)
          have := own ht'
          rw [hlink] at this
          cases this
          exact ht'
        · have hdir : w'.fs.IsDir (S ++ p) := by
            refine Fs.isDir_of_append (q := s) ?_ hnil
            rw [List.append_assoc, hs, hv]
            simp
          obtain ⟨m, hm'⟩ := hdir
          rw [hlink] at hm'
          cases hm'
      · have := hi.recorded.no_link hrec
        simp [Installer.linkAt, hlink] at this
    · rw [hr.kept _ hw] at hlink
      simp [(h p hp t).1 hlink]
  · intro hl
    rcases Option.or_eq_some_iff.1 hl with hl | ⟨-, hl⟩
    · have := (h p hp t).2 hl
      rw [hr.kept _ (by simp [this]), this]
    · exact own hl

theorem linkAt_short {fs : Fs} {t : Str} (h : linkAt fs R p = some t) : t.length < pathMax := by
  unfold linkAt at h
  split at h
  · obtain rfl := Option.some.inj h
    have := List.length_take_le (pathMax - 1) ‹Str›
    unfold pathMax at *
    omega
  · cases h

theorem links_short {fs : Fs} {cs : List Component} {t : Str}
    (h : links (linkAt fs R) cs p = some t) : t.length < pathMax := by
  rcases Option.or_eq_some_iff.1 h with h | ⟨-, h⟩
  · exact linkAt_short h
  · obtain ⟨c, -, hc⟩ := List.exists_of_findSome?_eq_some h
    obtain ⟨-, e, -, -, s, -, rfl⟩ := c.linkAt_eq_some hc
    exact s.2.2.2

/-- No link is ever at a path that is reserved for the scripts. -/
theorem links_scripts {fs : Fs} {cs : List Component} (hR : fs.get (R ++ scriptsDir) = none)
    (hfree : ∀ c ∈ cs, ∀ e ∈ c.payload, isReserved e.path = false) :
    links (linkAt fs R) cs scriptsDir = none := by
  unfold links
  rw [show linkAt fs R scriptsDir = none by simp [linkAt, hR], Option.none_or,
    List.findSome?_eq_none_iff]
  intro c hc
  by_contra hne
  obtain ⟨t, ht⟩ := Option.ne_none_iff_exists'.1 hne
  obtain ⟨-, e, he, heq, -⟩ := c.linkAt_eq_some ht
  have := hfree c hc e he
  rw [heq] at this
  exact absurd this (by decide)

/-- The table as it is read from the tree. -/
theorem HasLinks.linkAt_eq {fs fs' : Fs} {cs : List Component}
    (h : HasLinks fs' S (links (linkAt fs R) cs)) (hS : fs'.IsDir (S ++ scriptsDir))
    (hdead : links (linkAt fs R) cs scriptsDir = none) (hp : ¬ scriptsDir <+: p.dropLast) :
    linkAt fs' S p = links (linkAt fs R) cs p := by
  by_cases hs : scriptsDir <+: p
  · -- the work area itself is a directory
    obtain ⟨s, rfl⟩ := hs
    obtain rfl : s = [] := by
      by_contra hne
      rw [List.dropLast_append_of_ne_nil hne] at hp
      exact hp (List.prefix_append _ _)
    rw [List.append_nil, linkAt_of_isDir hS, hdead]
  · cases hl : links (linkAt fs R) cs p with
    | some t => rw [linkAt_of_link ((h p hs t).2 hl), take_short (links_short hl)]
    | none =>
        unfold linkAt
        split
        · next t ht => simp [(h p hs t).1 ht] at hl
        · rfl

/-! ### Restoring the modes -/

/-- Modes of directories beneath `S` are set, and nothing else is done. -/
def Chmods (S : Path) : Op Part → World Part → Prop
  | .chmod p _, v => ∃ q, p = S ++ q ∧ v.fs.IsDir (S ++ q)
  | o, _ => o.quiet = true

theorem Chmods.of_quiet {o : Op Part} (h : o.quiet = true) : Chmods S o w := by
  cases o <;> first | exact h | simp [Op.quiet] at h

/-- The directories of the list. -/
def Listed (S : Path) (l : List (Path × Mode × Int)) (p : Path) : Prop := ∃ x ∈ l, p = S ++ x.1

theorem stays_restoreBaseDirectories {bd : List (Path × Mode × Int)} (hS : S ≠ [])
    (hg : g.baseDirectories = bd) (hdirs : ∀ x ∈ bd, w.fs.IsDir (S ++ x.1))
    (hfun : ∀ p m m' t t', (p, m, t) ∈ bd → (p, m', t') ∈ bd → m = m') :
    Stays (sem K) (Chmods S) (Reworked (Listed S bd)) (restoreBaseDirectories S)
      (fun _ _ w' => ∀ x ∈ bd, w'.fs.get (S ++ x.1) = some (.dir x.2.1)) g w := by
  unfold restoreBaseDirectories
  refine wp_bind.2 (wp_get.2 ?_)
  rw [hg]
  -- a directory that is not to come has its mode
  refine (Stays.each Reworked.refl Reworked.trans (fun l _ w' =>
    (∀ x ∈ l, x ∈ bd) ∧ (∀ x ∈ bd, w'.fs.IsDir (S ++ x.1)) ∧
      ∀ x ∈ bd, x ∈ l ∨ w'.fs.get (S ++ x.1) = some (.dir x.2.1)) ?_ ?_).post ?_
  · rintro ⟨p, m, t⟩ l g1 w1 ⟨hsub, hd, hdone⟩
    have hmem : (p, m, t) ∈ bd := hsub _ (by simp)
    obtain ⟨m0, hm0⟩ := hd _ hmem
    unfold restoreBaseDirectory
    refine stays_hostJoin Reworked.refl fun _ => ?_
    refine wp_bind.2 (wp_call.2 (wp_lstat_self hm0 (by simp [hS]) (Chmods.of_quiet rfl) ?_
      fun _ => Reworked.refl))
    simp only [Node.stat, ne_eq, not_true_eq_false, if_false]
    refine wp_bind.2 (wp_call_sem ⟨p, rfl, m0, hm0⟩ (fun _ => Reworked.refl) fun _ w2 hs => ?_)
    obtain ⟨c, u, hc, hu, ha⟩ := sem_chmod hs
    have hreal := @realPath_append [] [] (S ++ p) w1.fs (at_self Fs.isDir_nil) ⟨m0, hm0⟩
    rw [show realPath w1.fs (S ++ p) = .ok (S ++ p) from hreal] at hc
    cases hc
    rw [hm0] at hu
    cases hu
    have hrw : Reworked (Listed S bd) g1 w1 g1 w2 := reworked_of_altered ⟨_, hmem, rfl⟩ ha
    refine Stays.after Reworked.trans hrw (looks_setTimes.stays (fun _ => Chmods.of_quiet)
      Reworked.refl fun _ => ⟨fun x hx => hsub x (by simp [hx]), fun x hx => ?_, fun x hx => ?_⟩)
    · exact (isDir_iff_of_shape (hrw.shape _)).2 (hd x hx)
    · rw [ha.get]
      obtain ⟨p', m', t'⟩ := x
      by_cases hp : p' = p
      · subst hp
        obtain rfl := hfun _ _ _ _ _ hx hmem
        exact .inr (by simp [Node.chmod])
      · rcases hdone _ hx with hin | heq
        · rcases List.mem_cons.1 hin with heq | hin
          · exact absurd (congrArg Prod.fst heq) hp
          · exact .inl hin
        · right
          rw [if_neg (by simpa using hp), heq]
  · exact ⟨by simp, hdirs, fun x hx => .inl (by simpa using hx)⟩
  · intro _ _ w' _ h x hx
    exact (h.2.2 x hx).resolve_left (by simp)

/-! ### `install_package ()`, the stage -/

namespace Tx

variable (tx : Tx)

/-- Where the scripts of the components are unpacked. -/
def scripts : Path := tx.stage ++ scriptsDir

theorem root_ne_nil : tx.root ≠ [] := by simp [root]

theorem stage_ne_nil : tx.stage ≠ [] := by simp [stage]

theorem suffixed_ne (n : Name) (s : Str) (h : '/' ∉ s) (hs : s ≠ []) : Name.suffixed n s h ≠ n := by
  intro heq
  have := congrArg (fun x : Name => x.1.length) heq
  simp only [Name.suffixed, List.length_append, Nat.add_eq_left, List.length_eq_zero_iff] at this
  exact hs this

/-- The root is not in the transaction directory. -/
theorem dir_apart (q : Path) : ¬ tx.dir <+: tx.root ++ q := by
  unfold dir root
  rw [List.append_assoc, List.prefix_append_right_inj]
  simp only [List.singleton_append, List.cons_prefix_cons, not_and]
  exact fun h => absurd h (suffixed_ne _ _ _ (by decide))

end Tx

/-- A node of the root, as it is published: a link target is read into a buffer. -/
def Node.copied : Node → Node
  | .link t => .link (t.take (pathMax - 1))
  | v => v

/-- In the tree at `S`, which was copied from `R`, the components are installed,
and the links of each were found good with those before it. -/
structure Midway (env : Env) (fs : Fs) (R : Path) (cs : List Component) (fs' : Fs) (S : Path) :
    Prop where
  inPlace : ∀ c ∈ cs, ∀ e ∈ c.payload, InPlace fs' S e
  recorded : ∀ c ∈ cs, Recorded env fs' S c
  hasLinks : HasLinks fs' S (links (linkAt fs R) cs)
  checked : ∀ l c l', cs = l ++ c :: l' → ∀ e ∈ c.payload, e.path ≠ [] → e.link ≠ none →
    ∃ L, Checked L [] (e.path.map .down) ∧
      ∀ p, ¬ scriptsDir <+: p.dropLast → L p = links (linkAt fs R) (l ++ [c]) p

/-- The tree at `S` is that at `R` with the components installed in it. -/
structure Filled (env : Env) (fs : Fs) (R : Path) (cs : List Component) (fs' : Fs) (S : Path) :
    Prop extends Midway env fs R cs fs' S where
  old : ∀ q, fs.get (R ++ q) ≠ none → fs'.get (S ++ q) = (fs.get (R ++ q)).map Node.copied
  only : ∀ q, fs'.get (S ++ q) ≠ none → fs.get (R ++ q) ≠ none ∨ ∃ c ∈ cs, RootPath c q
  noScripts : fs'.get (S ++ scriptsDir) = none

theorem Recorded.kept {fs fs' : Fs} (h : Recorded env fs S c) (hk : fs.Kept fs') :
    Recorded env fs' S c := by
  obtain ⟨h1, h2, i, ch, h3⟩ := h
  refine ⟨?_, ?_, i, ch, ?_⟩
  · rw [hk _ (by simp [h1]), h1]
  · rw [hk _ (by simp [h2]), h2]
  · rw [hk _ (by simp [h3]), h3]

theorem Midway.step {fs : Fs} {cs : List Component} (h : Midway env fs R cs w.fs S)
    (hr : Ran S S (S ++ scriptsDir) (S ++ scriptsDir) (RootPath c) (· = c.identifier) g w g' w')
    (hi : Installed env S c false w'.fs) (hS : w.fs.IsDir (S ++ scriptsDir))
    (hdead : links (linkAt fs R) (cs ++ [c]) scriptsDir = none) :
    Midway env fs R (cs ++ [c]) w'.fs S := by
  have hlinks := h.hasLinks.installed hr hi
  refine ⟨?_, ?_, hlinks, ?_⟩
  · intro x hx
    rcases List.mem_append.1 hx with hx | hx
    · exact fun e he => (h.inPlace x hx e he).kept hr.kept
    · obtain rfl := List.mem_singleton.1 hx
      exact hi.inPlace
  · intro x hx
    rcases List.mem_append.1 hx with hx | hx
    · exact (h.recorded x hx).kept hr.kept
    · obtain rfl := List.mem_singleton.1 hx
      exact hi.recorded
  · intro l x l' heq e he hne hl
    rcases List.eq_nil_or_concat l' with rfl | ⟨l'', y, rfl⟩
    · obtain ⟨rfl, hx⟩ := List.append_inj' heq rfl
      obtain rfl : c = x := by simpa using hx
      obtain ⟨t, ht⟩ := Option.ne_none_iff_exists'.1 hl
      exact ⟨linkAt w'.fs S, hi.checked rfl e he hne t ht,
        fun p hp => hlinks.linkAt_eq (hr.kept.isDir hS) hdead hp⟩
    · refine h.checked l x l'' ?_ e he hne hl
      rw [List.concat_eq_append, ← List.cons_append, ← List.append_assoc] at heq
      exact (List.append_inj' heq rfl).1

/-- Outside the work area, only modes of directories differ. -/
def Settled (S : Path) (fs fs' : Fs) : Prop :=
  ∀ p, ¬ scriptsDir <+: p →
    fs'.get (S ++ p) = fs.get (S ++ p) ∨ fs.IsDir (S ++ p) ∧ fs'.IsDir (S ++ p)

theorem Settled.leaf {fs fs' : Fs} {v : Node} (h : Settled S fs fs') (hp : ¬ scriptsDir <+: p)
    (hd : v.isDir = false) : fs'.get (S ++ p) = some v ↔ fs.get (S ++ p) = some v := by
  have hne : ∀ {t : Fs}, t.IsDir (S ++ p) → t.get (S ++ p) ≠ some v := by
    rintro t ⟨m, hm⟩ heq
    rw [hm] at heq
    cases heq
    simp [Node.isDir] at hd
  rcases h p hp with heq | ⟨h1, h2⟩
  · rw [heq]
  · exact iff_of_false (hne h2) (hne h1)

theorem not_scripts_of_free (h : isReserved p = false) : ¬ scriptsDir <+: p := by
  intro hp
  simp [isReserved, pathHasPrefix, hp] at h

theorem not_scripts_of_record (r : Record) (id : Name) (hp : p <+: r.path id) :
    ¬ scriptsDir <+: p := by
  intro h
  have : scriptsDir <+: r.path id := h.trans hp
  cases r <;> simp [Record.path, Record.dir, scriptsDir, receiptsDir, inventoryDir] at this <;>
    exact absurd this (by decide)

theorem InPlace.settled {fs fs' : Fs} {e : Entry} (h : InPlace fs S e) (hs : Settled S fs fs')
    (hfree : isReserved e.path = false) : InPlace fs' S e := by
  rcases h with h | ⟨v, hv, hm⟩
  · exact .inl h
  · refine .inr ?_
    rcases hs e.path (not_scripts_of_free hfree) with heq | ⟨⟨m, h1⟩, ⟨m', h2⟩⟩
    · exact ⟨v, heq.trans hv, hm⟩
    · rw [h1] at hv
      cases hv
      refine ⟨_, h2, ?_⟩
      unfold Entry.Matches at hm ⊢
      split at hm <;> simp_all [Node.isDir]

theorem Recorded.settled {fs fs' : Fs} (h : Recorded env fs S c) (hs : Settled S fs fs') :
    Recorded env fs' S c := by
  obtain ⟨h1, h2, i, ch, h3⟩ := h
  have hp : ∀ r : Record, ¬ scriptsDir <+: r.path c.identifier :=
    fun r => not_scripts_of_record r _ (List.prefix_refl _)
  exact ⟨(hs.leaf (hp _) rfl).2 h1, (hs.leaf (hp _) rfl).2 h2, i, ch, (hs.leaf (hp _) rfl).2 h3⟩

theorem Midway.settled {fs fs1 fs2 : Fs} {cs : List Component} (h : Midway env fs R cs fs1 S)
    (hs : Settled S fs1 fs2) (hfree : ∀ c ∈ cs, ∀ e ∈ c.payload, isReserved e.path = false) :
    Midway env fs R cs fs2 S :=
  ⟨fun c hc e he => (h.inPlace c hc e he).settled hs (hfree c hc e he),
    fun c hc => (h.recorded c hc).settled hs,
    fun p hp t => (hs.leaf hp rfl).trans (h.hasLinks p hp t), h.checked⟩

/-- The end of filling the stage: the work area is removed and the directories of
the root get their modes. -/
theorem Midway.filled {fs fs1 fs2 : Fs} {cs : List Component} {bd : List (Path × Mode × Int)}
    (h : Midway env fs R cs fs1 S)
    (hfree : ∀ c ∈ cs, ∀ e ∈ c.payload, isReserved e.path = false)
    (hR : fs.get (R ++ scriptsDir) = none)
    (hcopy : ∀ q, fs.get (R ++ q) ≠ none → fs1.get (S ++ q) = (fs.get (R ++ q)).map Node.staged)
    (honly : ∀ q, fs1.get (S ++ q) ≠ none →
      fs.get (R ++ q) ≠ none ∨ (∃ c ∈ cs, RootPath c q) ∨ scriptsDir <+: q)
    (hbases : Bases fs R [] bd) (hs : Settled S fs1 fs2) (hgone : fs2.get (S ++ scriptsDir) = none)
    (hmodes : ∀ x ∈ bd, fs2.get (S ++ x.1) = some (.dir x.2.1)) : Filled env fs R cs fs2 S := by
  have hout : ∀ q, fs.get (R ++ q) ≠ none → ¬ scriptsDir <+: q := by
    rintro _ hq ⟨s, rfl⟩
    rw [← List.append_assoc] at hq
    exact hq (Fs.get_append_eq_none hR)
  refine ⟨h.settled hs hfree, ?_, ?_, hgone⟩
  · intro q hq
    obtain ⟨v, hv⟩ := Option.ne_none_iff_exists'.1 hq
    have h1 := hcopy q hq
    rw [hv] at h1 ⊢
    by_cases hd : v.isDir = true
    · cases v with
      | dir m =>
          obtain ⟨t, ht⟩ := (hbases q m).2 ⟨List.nil_prefix, hv⟩
          exact hmodes (q, m, t) ht
      | _ => simp [Node.isDir] at hd
    · have hst : Node.staged v = Node.copied v := by
        cases v with
        | dir m => simp [Node.isDir] at hd
        | _ => rfl
      have hsd : (Node.staged v).isDir = false := by
        cases v with
        | dir m => simp [Node.isDir] at hd
        | _ => rfl
      have := (hs.leaf (hout q hq) hsd).2 h1
      rw [this, hst]
      rfl
  · intro q hq
    have hns : ¬ scriptsDir <+: q := by
      rintro ⟨s, rfl⟩
      rw [← List.append_assoc] at hq
      exact hq (Fs.get_append_eq_none hgone)
    have hq1 : fs1.get (S ++ q) ≠ none := by
      rcases hs q hns with heq | ⟨h1, -⟩
      · rwa [← heq]
      · exact h1.ne_none
    rcases honly q hq1 with h1 | h1 | h1
    · exact .inl h1
    · exact .inr h1
    · exact absurd h1 hns

/-- The calls that fill the stage. -/
def StageCalls (tx : Tx) (cs : List Component) (fs0 : Fs) (o : Op Part) (v : World Part) : Prop :=
  (∃ c ∈ cs, ComponentCalls tx.stage tx.stage tx.scripts tx.scripts c o v) ∨
    v.tag = .main ∧ (Grows fs0 tx.dir tx.dir ([Tx.stageName] <+: ·) o v ∨
      Removes tx.scripts o v ∨ Chmods tx.stage o v)

/-- Only the stage has changed. -/
structure Staging (tx : Tx) (g : Globals) (w : World Part) (g' : Globals) (w' : World Part) :
    Prop where
  outside : Outside tx.stage w.fs w'.fs
  published : g'.published = g.published

theorem Staging.refl {tx : Tx} : Staging tx g w g w := ⟨.refl, rfl⟩

theorem Staging.trans {tx : Tx} (h : Staging tx g w g' w') (h' : Staging tx g' w' g'' w'') :
    Staging tx g w g'' w'' := ⟨h.outside.trans h'.outside, h'.published.trans h.published⟩

theorem Tx.stage_prefix (tx : Tx) (q : Path) :
    tx.stage <+: tx.dir ++ q ↔ [Tx.stageName] <+: q := by
  rw [Tx.stage, List.prefix_append_right_inj]

theorem GrewBase.staging {tx : Tx}
    (h : GrewBase tx.dir tx.dir ([Tx.stageName] <+: ·) g w g' w') : Staging tx g w g' w' := by
  refine ⟨fun p hp => ?_, ?_⟩
  · by_cases hd : tx.dir <+: p
    · obtain ⟨q, rfl⟩ := hd
      exact h.same (by rwa [← tx.stage_prefix])
    · exact h.outside p hd
  · obtain ⟨_, _, _, _, _, rfl⟩ := h
    rfl

theorem Ran.staging {tx : Tx} {Id : Name → Prop}
    (h : Ran tx.stage tx.stage tx.scripts tx.scripts Ok Id g w g' w') : Staging tx g w g' w' := by
  obtain ⟨xs, hx, hb, rfl⟩ := h
  refine ⟨fun p hp => ?_, rfl⟩
  by_cases hn : w.fs.get p = none
  · by_contra hne
    rw [hn] at hne
    obtain ⟨x, hmem, rfl⟩ := List.mem_map.1 ((hb.made p hn).1 hne)
    have hs : tx.stage <+: tx.scripts := List.prefix_append _ _
    cases hx x hmem with
    | root => exact hp (List.prefix_append _ _)
    | work => exact hp (hs.trans (List.prefix_append _ _))
    | workdir => exact hp (hs.trans (List.prefix_append _ _))
  · exact hb.kept p hn

theorem Shrunk.staging {tx : Tx} (h : Shrunk tx.scripts g w g' w') : Staging tx g w g' w' :=
  ⟨h.outside.mono (List.prefix_append _ _), congrArg Globals.published h.globals⟩

theorem Reworked.staging {tx : Tx} {l : List (Path × Mode × Int)}
    (h : Reworked (Listed tx.stage l) g w g' w') : Staging tx g w g' w' := by
  refine ⟨fun p hp => h.same p ?_, congrArg Globals.published h.globals⟩
  rintro ⟨x, -, rfl⟩
  exact hp (List.prefix_append _ _)

theorem fixed_self {fs : Fs} {n : Name} (h : fs.IsDir D) : Fixed fs (D ++ [n]) D D := by
  intro fs' ho
  obtain ⟨m, hm⟩ := h
  exact at_self ⟨m, (ho D not_prefix_self).trans hm⟩

theorem Grows.not_enter {o : Op Part} (h : Grows fs0 D R Ok o w) (t : Part) : o ≠ .enter t := by
  rintro rfl
  simp [Grows, Op.quiet] at h

theorem Removes.not_enter {o : Op Part} (h : Removes D o w) (t : Part) : o ≠ .enter t := by
  rintro rfl
  simp [Removes, Op.quiet] at h

theorem Chmods.not_enter {o : Op Part} (h : Chmods D o w) (t : Part) : o ≠ .enter t := by
  rintro rfl
  simp [Chmods, Op.quiet] at h

section

variable {tx : Tx} {pkg : Package}

/-- The copy, and the work area in it. -/
theorem wp_copyStage {Q : Unit → Globals → World Part → Prop} {C : String → Globals → World Part → Prop}
    {f : Path → M Unit} (hdir : w.fs.IsDir tx.dir) (hroot : w.fs.IsDir tx.root) (hg : g.createHook = false)
    (hE : ∀ o v, Grows w.fs tx.dir tx.dir ([Tx.stageName] <+: ·) o v → SameRun w v → E o v)
    (hC : ∀ msg g' w', Staging tx g w g' w' → SameRun w w' → C msg g' w')
    (hf : ∀ g' w', Staging tx g w g' w' → SameRun w w' → g'.createHook = false →
      g'.live = g.live → w.fs.get (tx.root ++ scriptsDir) = none →
      (∀ q, w'.fs.get (tx.stage ++ q) =
        if q = scriptsDir then some (.dir 0o700)
        else (w.fs.get (tx.root ++ q)).map Node.staged) →
      (∃ l, g'.baseDirectories = g.baseDirectories ++ l ∧ Bases w.fs tx.root [] l) →
      wp (sem K) E (f tx.scripts) Q C g' w') :
    wp (sem K) E
      (do
        stageCopy env (limitDepth + 1) tx.root tx.stage []
        let scripts ← hostJoin tx.stage scriptsDir
        let _ ← call (.mkdir scripts 0o700) fun e => s!"mkdir {hostStr scripts}: {strerror e}"
        f scripts) Q C g w := by
  have hready : Ready w.fs tx.dir tx.dir w := ⟨at_self hdir, Fs.Kept.refl _⟩
  have hcopy := copySpec (K := K) env tx.root_ne_nil tx.dir_apart (limitDepth + 1) w.fs
    [Tx.stageName] [] g w (by simp) hready (by simpa using hdir) (by simpa using hroot.ne_none) hg
  simp only [List.append_nil] at hcopy
  refine wp_bind.2 (wp.mono (wp_sameRun hcopy fun _ _ h => h.not_enter) (fun o v h => hE o v h.1 h.2) ?_
    (fun _ _ _ h => hC _ _ _ h.1.staging h.2))
  rintro _ g1 w1 ⟨⟨hg1, hcopied, hbases⟩, hrun⟩
  replace hcopied : Copied w.fs tx.root w1.fs tx.stage := hcopied
  refine wp_bind.2 (wp_hostJoin (fun _ => ?_) fun _ _ => hC _ _ _ hg1.staging hrun)
  have hS : w1.fs.IsDir tx.stage := by
    obtain ⟨m, hm⟩ := hroot
    have := hcopied []
    rw [List.append_nil, List.append_nil, hm] at this
    exact ⟨_, this⟩
  have hbe : Beneath w1 tx.dir tx.dir ([Tx.stageName] <+: ·) tx.scripts
      ([Tx.stageName] ++ scriptsDir) :=
    ⟨by simp [Tx.scripts, Tx.stage], by simp, (ready_grewBase hready hg1).base, hS,
      List.prefix_append _ _⟩
  refine wp_bind.2 (wp_call_sem (hE _ _ ⟨_, hbe⟩ hrun) (fun _ => hC _ _ _ hg1.staging hrun) fun _ w2 hs => ?_)
  obtain ⟨q, hq, hm⟩ := sem_makes (v := .dir 0o700) rfl hs
  rw [show locate w1.fs (tx.stage ++ scriptsDir) = _ from hbe.locate] at hq
  obtain rfl : tx.scripts = q := by
    rw [Tx.scripts, Tx.stage, List.append_assoc]
    exact Except.ok.inj hq
  have hstage : Staging tx g w g1 w2 := by
    refine hg1.staging.trans ⟨fun p hp => ?_, rfl⟩
    have : p ≠ tx.scripts := by rintro rfl; exact hp (List.prefix_append _ _)
    rw [hm.get, if_neg this]
  refine hf g1 w2 hstage (hrun.trans hm.toSameRun) ?_ ?_ ?_ ?_ hbases
  · exact hg1.createHook hg
  · obtain ⟨_, _, _, _, _, rfl⟩ := hg1
    rfl
  · have hfree := hm.free
    rw [Tx.scripts, hcopied scriptsDir] at hfree
    simpa using hfree
  · intro q
    rw [hm.get]
    by_cases hq : q = scriptsDir
    · rw [if_pos hq, if_pos (by rw [hq]; rfl)]
    · rw [if_neg hq, if_neg (by simpa [Tx.scripts] using hq), hcopied q]

/-- The work area is removed and the modes are restored. -/
theorem stays_settle {bd : List (Path × Mode × Int)} (htag : w.tag = .main)
    (hS : w.fs.IsDir tx.stage) (hbd : g.baseDirectories = bd)
    (hdirs : ∀ x ∈ bd, ¬ scriptsDir <+: x.1 ∧ w.fs.IsDir (tx.stage ++ x.1))
    (hfun : ∀ p m m' t t', (p, m, t) ∈ bd → (p, m', t') ∈ bd → m = m') :
    Stays (sem K) (StageCalls tx pkg.components fs0) (Staging tx)
      (do
        removeOrDie tx.scripts
        restoreBaseDirectories tx.stage)
      (fun _ _ w' => w'.tag = .main ∧ Settled tx.stage w.fs w'.fs ∧
        w'.fs.get (tx.stage ++ scriptsDir) = none ∧
        ∀ x ∈ bd, w'.fs.get (tx.stage ++ x.1) = some (.dir x.2.1)) g w := by
  have hE : ∀ o v, (Removes tx.scripts o v ∨ Chmods tx.stage o v) ∧ SameRun w v →
      StageCalls tx pkg.components fs0 o v :=
    fun o v h => .inr ⟨h.2.tag.trans htag, .inr h.1⟩
  have hrem := removeSpec (K := K) (limitDepth + 1) tx.stage tx.stage
    (nm ".mdpkg-scripts".toList) g w (fixed_self hS)
  unfold removeOrDie
  refine wp_bind.2 (wp_bind.2 (wp.mono (wp_sameRun hrem fun _ _ h => h.not_enter)
    (fun o v h => hE o v ⟨.inl h.1, h.2⟩) ?_ (fun _ _ _ h => h.1.elim)))
  rintro r g1 w1 ⟨⟨hsh, hgone, -⟩, hrun⟩
  replace hsh : Shrunk tx.scripts g w g1 w1 := hsh
  cases r with
  | false => exact hsh.staging
  | true =>
      have hout : ∀ p, ¬ scriptsDir <+: p → w1.fs.get (tx.stage ++ p) = w.fs.get (tx.stage ++ p) := by
        intro p hp
        exact hsh.outside _ (by rwa [Tx.scripts, List.prefix_append_right_inj])
      have hdirs1 : ∀ x ∈ bd, w1.fs.IsDir (tx.stage ++ x.1) := by
        intro x hx
        obtain ⟨hns, m, hm⟩ := hdirs x hx
        exact ⟨m, (hout _ hns).trans hm⟩
      have hres := stays_restoreBaseDirectories (K := K) (g := g1) (w := w1) tx.stage_ne_nil
        ((congrArg Globals.baseDirectories hsh.globals).trans hbd) hdirs1 hfun
      refine wp_pure.2 (wp.mono (wp_sameRun hres fun _ _ h => h.not_enter)
        (fun o v h => hE o v ⟨.inr h.1, hrun.trans h.2⟩) ?_
        (fun _ _ _ h => hsh.staging.trans h.1.staging))
      rintro _ g2 w2 ⟨⟨hrw, hmodes⟩, hrun2⟩
      refine ⟨hsh.staging.trans hrw.staging, (hrun.trans hrun2).tag.trans htag, ?_, ?_, hmodes⟩
      · intro p hp
        by_cases hl : Listed tx.stage bd (tx.stage ++ p)
        · obtain ⟨x, hx, heq⟩ := hl
          rw [heq]
          exact .inr ⟨(hdirs x hx).2, x.2.1, hmodes x hx⟩
        · exact .inl ((hrw.same _ hl).trans (hout p hp))
      · have hnone : w1.fs.get (tx.stage ++ scriptsDir) = none := hgone rfl
        by_contra hne
        exact (ne_none_iff_of_shape (hrw.shape _)).1 hne hnone

theorem stays_fillStage (env : Env) (hcs : ∀ c ∈ pkg.components, Harmless K c)
    (hfree : ∀ c ∈ pkg.components, ∀ e ∈ c.payload, isReserved e.path = false)
    (hdir : w.fs.IsDir tx.dir) (hroot : w.fs.IsDir tx.root) (hg : g.createHook = false)
    (hlive : g.live = false) (hbd : g.baseDirectories = []) (htag : w.tag = .main) :
    Stays (sem K) (StageCalls tx pkg.components w.fs) (Staging tx) (fillStage env tx pkg)
      (fun _ _ w' => w'.tag = .main ∧
        Filled env w.fs tx.root pkg.components w'.fs tx.stage) g w := by
  unfold fillStage
  refine wp_copyStage hdir hroot hg (fun o v h hrun => .inr ⟨hrun.tag.trans htag, .inl h⟩) (fun _ _ _ h _ => h) ?_
  rintro g1 w1 hstaging hrun1 hg1 hlive1 hnoscripts hcopied ⟨bd, hbd1, hbases⟩
  have htag1 : w1.tag = .main := hrun1.tag.trans htag
  refine Stays.after Staging.trans hstaging ?_
  rw [hbd, List.nil_append] at hbd1
  have hS1 : w1.fs.IsDir tx.stage := by
    obtain ⟨m, hm⟩ := hroot
    have := hcopied []
    rw [List.append_nil, List.append_nil, hm, if_neg (by decide)] at this
    exact ⟨_, this⟩
  have hT1 : w1.fs.IsDir tx.scripts := ⟨_, (hcopied scriptsDir).trans (if_pos rfl)⟩
  -- the components
  have hstart : Midway env w.fs tx.root [] w1.fs tx.stage := by
    refine ⟨by simp, by simp, fun p hp t => ?_, by simp⟩
    rw [links_nil, hcopied p, if_neg (by rintro rfl; exact hp (List.prefix_refl _))]
    unfold linkAt
    cases w.fs.get (tx.root ++ p) with
    | none => simp
    | some v => cases v <;> simp [Node.staged]
  have hloop := stays_components (K := K) env pkg.components (g := g1) (w := w1)
    (fun l fs => ∃ done, pkg.components = done ++ l ∧ Midway env w.fs tx.root done fs tx.stage)
    (by rw [Hooked, hg1, hlive1, hlive]) hcs (at_self hS1) (at_self hT1) ?_
    ⟨[], rfl, hstart⟩
  · refine wp_bind.2 (wp.mono hloop (fun o v h => .inl h) ?_ (fun _ _ _ h => h.staging))
    rintro _ g2 w2 ⟨hran, htag2, done, heq, hmid⟩
    rw [List.append_nil] at heq
    subst heq
    have hk2 := hran.kept
    have hbd2 : g2.baseDirectories = bd := by
      obtain ⟨_, _, _, rfl⟩ := hran
      exact hbd1
    have hcopy2 : ∀ q, w.fs.get (tx.root ++ q) ≠ none →
        w2.fs.get (tx.stage ++ q) = (w.fs.get (tx.root ++ q)).map Node.staged := by
      intro q hq
      have hne : q ≠ scriptsDir := by rintro rfl; exact hq hnoscripts
      have h1 := hcopied q
      rw [if_neg hne] at h1
      rw [hk2 _ (by rw [h1]; simpa using hq), h1]
    refine Stays.after Staging.trans hran.staging ((stays_settle (htag2 htag1) (hk2.isDir hS1) hbd2
      ?_ ?_).post ?_)
    · rintro ⟨p, m, t⟩ hx
      obtain ⟨-, hm⟩ := (hbases p m).1 ⟨t, hx⟩
      refine ⟨?_, _, (hcopy2 p (by simp [hm])).trans (by rw [hm]; rfl)⟩
      rintro ⟨s, rfl⟩
      rw [← List.append_assoc, Fs.get_append_eq_none hnoscripts] at hm
      cases hm
    · intro p m m' t t' h1 h2
      have := ((hbases p m).1 ⟨t, h1⟩).2.symm.trans ((hbases p m').1 ⟨t', h2⟩).2
      cases this
      rfl
    · rintro _ g3 w3 - ⟨htag3, hset, hgone, hmodes⟩
      refine ⟨htag3, hmid.filled hfree hnoscripts hcopy2 ?_ hbases hset hgone hmodes⟩
      intro q hq
      by_cases h1 : w1.fs.get (tx.stage ++ q) = none
      · obtain ⟨xs, hx, hb, -⟩ := hran
        obtain ⟨x, hmem, hx1⟩ := List.mem_map.1 ((hb.made _ h1).1 hq)
        cases hx x hmem with
        | root h => exact .inr (.inl (List.append_cancel_left hx1 ▸ h))
        | work hid hne =>
            rw [Tx.scripts, List.append_assoc] at hx1
            exact .inr (.inr ⟨_, List.append_cancel_left hx1⟩)
        | workdir hid hf =>
            rw [Tx.scripts, List.append_assoc] at hx1
            exact .inr (.inr ⟨_, List.append_cancel_left hx1⟩)
      · have h2 := hcopied q
        split at h2
        · next hs => exact .inr (.inr ⟨[], by simp [hs]⟩)
        · left
          intro hn
          rw [hn] at h2
          exact h1 h2
  · rintro c l g2 w2 g3 w3 hl hk hran hinst ⟨done, heq, hmid⟩
    rw [hlive1, hlive] at hl
    rw [hl] at hinst
    refine ⟨done ++ [c], by simp [heq], hmid.step hran hinst (hk.isDir hT1) ?_⟩
    refine links_scripts hnoscripts fun x hx => hfree x ?_
    rw [heq]
    rcases List.mem_append.1 hx with hx | hx
    · exact List.mem_append_left _ hx
    · obtain rfl := List.mem_singleton.1 hx
      simp

end

end MiniDarwin.Installer
