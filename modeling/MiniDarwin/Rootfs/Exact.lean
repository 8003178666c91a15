import MiniDarwin.Rootfs.Compare
import MiniDarwin.Rootfs.Written

/-!
`compare_tree ()` is exact: it reports the paths at which the disk differs
from the manifest and no others, and with nothing to report the disk scans
as the manifest.
-/

namespace MiniDarwin.Rootfs

open Data

variable {sha256 : Text → Digest} {d : Disk} {T : Tree} {L : List Place} {entries : List Entry} {p q : List Text}
  {x : Leaf ⊕ Nat} {e : Entry} {i : Place} {what : Text} {allowExtra : Bool}

/-! ### Names of the disk and of the manifest -/

/-- A place of the disk that the manifest does not have, in a directory of both. -/
def Disk.Extra (d : Disk) (entries : List Entry) (p : List Text) : Prop :=
  (∃ x, (p, x) ∈ d.tree.items []) ∧ (∀ e ∈ entries, e.path ≠ spell p) ∧
    (p.dropLast = [] ∨ (∃ e ∈ entries, e.isDirectory = true ∧ e.path = spell p.dropLast) ∧ d.Real p.dropLast)

theorem OnDisk.parts_ok (h : OnDisk T) (hi : i ∈ T.items []) : ∀ part ∈ i.1, part ≠ [] ∧ 47 ∉ part :=
  fun part hpart => ⟨(h.names i hi part hpart).1, (h.names i hi part hpart).2.1⟩

theorem place_of_spell (hL : Good L) (hw : List.Forall₂ Writes L entries) (hp : ∀ part ∈ p, part ≠ [] ∧ 47 ∉ part)
    (he : e ∈ entries) (hpath : e.path = spell p) : ∃ i ∈ L, Writes i e ∧ i.1 = p := by
  obtain ⟨i, hi, hie⟩ := forall₂_exists hw he
  refine ⟨i, hi, hie, ?_⟩
  rw [hie.path] at hpath
  rw [← partsOf_spell (hL.fits i hi).parts_ok, hpath, partsOf_spell hp]

/-- Above a directory of the manifest there are directories of the manifest. -/
theorem Good.above (hL : Good L) {c : Nat} (hp : (p, Sum.inr c) ∈ L) (hq : q <+: p) (hne : q ≠ []) :
    ∃ c, (q, Sum.inr c) ∈ L := by
  induction p using List.reverseRecOn generalizing c with
  | nil => exact absurd (List.prefix_nil.1 hq) hne
  | append_singleton p n ih =>
      obtain rfl | hq := List.prefix_concat_iff.1 hq
      · exact ⟨c, hp⟩
      · obtain hnil | ⟨c', hc'⟩ := hL.listed.closed _ hp
        · rw [List.dropLast_concat] at hnil
          exact absurd (List.prefix_nil.1 (hnil ▸ hq)) hne
        · rw [List.dropLast_concat] at hc'
          exact ih hc' hq

theorem Disk.reached_nil : d.Reached [] [lit "/"] := by
  intro q hq
  rw [List.mem_singleton, show lit "/" = spellDir [] from rfl]
  constructor
  · intro h
    exact .inl (spellDir_injective hq (by simp) h)
  · rintro (rfl | ⟨⟨c, hc⟩, -⟩)
    · rfl
    · cases hc

theorem Disk.Reached.known {directories : List Text} (h : d.Reached L directories) (hL : Good L)
    (hw : List.Forall₂ Writes L entries) : d.Known (entries.map (·.path)) directories := by
  intro q hq hlisted hdir
  obtain ⟨e, he, hpath⟩ := List.mem_map.1 hlisted
  obtain ⟨i, hi, -, rfl⟩ := place_of_spell hL hw hq he hpath
  have hfits := hL.fits i hi
  rw [← spellDir_of_ne_nil hfits.nonempty, h i.1 hfits.safe] at hdir
  exact ⟨hfits.safe, hdir.elim .inl fun hreal => hreal.2⟩

/-- What the walk is shown is what the manifest lacks. -/
theorem Disk.Reached.shown_iff {directories : List Text} (h : d.Reached L directories) (hT : OnDisk d.tree) (hL : Good L)
    (hw : List.Forall₂ Writes L entries) (hi : i ∈ d.tree.items []) :
    Shown (entries.map (·.path)) directories [] i ↔ d.Extra entries i.1 := by
  have hparts := hT.parts_ok hi
  have hunlisted : spell i.1 ∉ entries.map (·.path) ↔ ∀ e ∈ entries, e.path ≠ spell i.1 := by simp
  constructor
  · rintro ⟨hnot, hentered⟩
    refine ⟨⟨i.2, hi⟩, hunlisted.1 hnot, ?_⟩
    obtain hnil | hne := eq_or_ne i.1.dropLast []
    · exact .inl hnil
    · obtain ⟨hlisted, hdir⟩ := hentered _ List.nil_prefix hne List.prefix_rfl
      obtain ⟨e, he, hpath⟩ := List.mem_map.1 hlisted
      obtain ⟨j, hj, hje, hjp⟩ := place_of_spell hL hw (fun part hpart => hparts part (List.dropLast_subset _ hpart)) he hpath
      have hfits := hL.fits j hj
      rw [← hjp, ← spellDir_of_ne_nil hfits.nonempty, h j.1 hfits.safe] at hdir
      obtain hnil | ⟨⟨c, hc⟩, hreal⟩ := hdir
      · exact absurd hnil hfits.nonempty
      · have hjdir : isDir j = true := by
          have hnodup : (L.map (·.1)).Nodup := List.pairwise_map.2 (hL.listed.sorted.imp fun hlt => hlt.ne)
          rw [List.inj_on_of_nodup_map hnodup hj hc rfl]
          rfl
        exact .inr ⟨⟨e, he, hje.isDirectory.trans hjdir, hpath⟩, hjp ▸ hreal⟩
  · rintro ⟨-, hnot, hparent⟩
    refine ⟨hunlisted.2 hnot, ?_⟩
    intro q _ hne hq
    obtain hnil | ⟨⟨e, he, hdir, hpath⟩, hreal⟩ := hparent
    · exact absurd (List.prefix_nil.1 (hnil ▸ hq)) hne
    obtain ⟨j, hj, hje, hjp⟩ := place_of_spell hL hw (fun part hpart => hparts part (List.dropLast_subset _ hpart)) he hpath
    obtain ⟨jp, jx⟩ := j
    obtain ⟨c, rfl⟩ := Sum.isRight_iff.1 (hje.isDirectory.symm.trans hdir : jx.isRight = true)
    obtain rfl : jp = i.1.dropLast := hjp
    obtain ⟨c', hc'⟩ := hL.above hj hq hne
    have hfits := hL.fits _ hc'
    obtain ⟨e', he', hwe'⟩ := forall₂_exists hw.flip hc'
    have hwe' : Writes (q, Sum.inr c') e' := hwe'
    refine ⟨List.mem_map.2 ⟨e', he', hwe'.path⟩, ?_⟩
    rw [← spellDir_of_ne_nil hne, h q hfits.safe]
    exact .inr ⟨⟨c', hc'⟩, hreal.above hq⟩

/-- What is reported, and where calls are made. -/
structure Disk.Exact (d : Disk) (entries : List Entry) (allowExtra : Bool) (problems : List Problem) (calls : List Call) :
    Prop where
  reported : ∀ x ∈ problems, (x.kind ≠ lit "unexpected" ∧ ∃ e ∈ entries, x.path = e.path ∧ d.Differs e) ∨
    allowExtra = false ∧ x.kind = lit "unexpected" ∧ ∃ p, x.path = spell p ∧ d.Extra entries p
  differs : ∀ e ∈ entries, d.Differs e → ∃ x ∈ problems, x.kind ≠ lit "unexpected" ∧ x.path = e.path
  extra : allowExtra = false → ∀ p, d.Extra entries p → ∃ x ∈ problems, x.kind = lit "unexpected" ∧ x.path = spell p
  calls : ∀ c ∈ calls, d.Stays c

/-- An entry is named for being wrong, or missing, just if it is. -/
theorem Disk.Exact.named_iff {allowExtra : Bool} {problems : List Problem} {calls : List Call}
    (h : d.Exact entries allowExtra problems calls) (hnodup : (entries.map (·.path)).Nodup) {e : Entry} (he : e ∈ entries) :
    (∃ x ∈ problems, x.kind ≠ lit "unexpected" ∧ x.path = e.path) ↔ d.Differs e := by
  constructor
  · rintro ⟨x, hx, hkind, hpath⟩
    obtain ⟨-, e', he', hpath', hd⟩ | ⟨-, hunexpected, -⟩ := h.reported x hx
    · rwa [← List.inj_on_of_nodup_map hnodup he' he (hpath'.symm.trans hpath)]
    · exact absurd hunexpected hkind
  · exact h.differs e he

theorem compareTree_exact (hT : OnDisk d.tree) (hL : Good L) (hw : List.Forall₂ Writes L entries) (allowExtra : Bool) :
    ∃ problems calls, compareTree d entries allowExtra = some (problems, calls) ∧
      d.Exact entries allowExtra problems calls := by
  obtain ⟨hproblems, hdiffers, hcalls, hreached⟩ := compareFrom_spec hT (List.nil_append L ▸ hL) hw Disk.reached_nil
  rw [List.nil_append] at hreached
  have hdiffers : ∀ e ∈ entries, d.Differs e → ∃ x ∈ (compareFrom d entries [lit "/"]).1,
      x.kind ≠ lit "unexpected" ∧ x.path = e.path := by
    intro e he hd
    obtain ⟨x, hx, hpath⟩ := hdiffers e he hd
    exact ⟨x, hx, (hproblems x hx).1, hpath⟩
  rw [compareTree]
  cases allowExtra with
  | true =>
      refine ⟨_, _, rfl, ⟨fun x hx => .inl (hproblems x hx), hdiffers, ?_, hcalls⟩⟩
      intro hno
      cases hno
  | false =>
      obtain ⟨hok, hsaid, hcalled⟩ := extras_spec (p := []) (T := d.tree) hT (hreached.known hL hw) (by simp) fun i hi => hi
      obtain ⟨r, hr, hr₁, hr₂⟩ := gather_spec hok
      have hr : gather (extras (entries.map (·.path)) (compareFrom d entries [lit "/"]).2.2 (lit "/") d.tree) = some r := hr
      refine ⟨(compareFrom d entries [lit "/"]).1 ++ r.1, (compareFrom d entries [lit "/"]).2.1 ++ .scandir (lit "/") :: r.2,
        by simp only [hr, Bool.false_eq_true, if_false]; rfl, ?_⟩
      refine ⟨?_, ?_, ?_, ?_⟩
      · intro x hx
        obtain hx | hx := List.mem_append.1 hx
        · exact .inl (hproblems x hx)
        · obtain ⟨i, hi, hshown, rfl⟩ := (hsaid x).1 ((hr₁ x).1 hx)
          exact .inr ⟨rfl, rfl, i.1, rfl, (hreached.shown_iff hT hL hw hi).1 hshown⟩
      · intro e he hd
        obtain ⟨x, hx, hrest⟩ := hdiffers e he hd
        exact ⟨x, List.mem_append_left _ hx, hrest⟩
      · intro _ p hp
        obtain ⟨y, hy⟩ := hp.1
        have hshown := (hreached.shown_iff hT hL hw hy).2 hp
        exact ⟨_, List.mem_append_right _ ((hr₁ _).2 ((hsaid _).2 ⟨_, hy, hshown, rfl⟩)), rfl, rfl⟩
      · intro c hc
        obtain hc | hc := List.mem_append.1 hc
        · exact hcalls c hc
        obtain rfl | hc := List.mem_cons.1 hc
        · refine ⟨[], rfl, ?_, fun _ => .inl rfl⟩
          intro q hq hne
          exact absurd (List.prefix_nil.1 hq) hne
        · obtain ⟨q, rfl, hne, hreal⟩ := hcalled c ((hr₂ c).1 hc)
          exact ⟨q, (spellDir_of_ne_nil hne).symm, fun q' hq' _ => hreal.above hq', fun _ => hreal⟩

theorem Disk.Exact.unchanged {calls : List Call} (h : d.Exact entries allowExtra [] calls) :
    ∀ e ∈ entries, ¬ d.Differs e := by
  intro e he hd
  obtain ⟨x, hx, -⟩ := h.differs e he hd
  cases hx

theorem Disk.Exact.nil_iff {problems : List Problem} {calls : List Call} (h : d.Exact entries false problems calls) :
    problems = [] ↔ (∀ e ∈ entries, ¬ d.Differs e) ∧ ∀ p, ¬ d.Extra entries p := by
  constructor
  · rintro rfl
    refine ⟨h.unchanged, ?_⟩
    intro p hp
    obtain ⟨x, hx, -⟩ := h.extra rfl p hp
    cases hx
  · rintro ⟨hsame, hnone⟩
    refine List.eq_nil_iff_forall_not_mem.2 fun x hx => ?_
    obtain ⟨-, e, he, -, hd⟩ | ⟨-, -, p, -, hp⟩ := h.reported x hx
    · exact hsame e he hd
    · exact hnone p hp

/-! ### A tree that is as the manifest -/

/-- The place is as the entry says. -/
def Same (i : Place) (e : Entry) : Prop := e.path = spell i.1 ∧ e.body.Matches i.2

theorem Body.Matches.isRight {body : Body} (h : body.Matches x) : x.isRight = (⟨[], body⟩ : Entry).isDirectory := by
  cases body with
  | directory _ _ =>
      cases x with
      | inl _ => cases h
      | inr _ => rfl
  | file _ _ _ =>
      cases x with
      | inl _ => rfl
      | inr _ => cases h
  | symlink _ =>
      cases x with
      | inl _ => rfl
      | inr _ => cases h

/-- Places that are in order agree if their paths do. -/
theorem walk_paths (hT : OnDisk T) (hL : Good L) (h : ∀ p, (∃ x, (p, x) ∈ T.items []) ↔ ∃ i ∈ L, i.1 = p) :
    (T.walk []).map (·.1) = L.map (·.1) := by
  have hlisted := hT.apart.listed_walk (p := [])
  have hsorted : ((T.walk []).map (·.1)).Pairwise (· < ·) := List.pairwise_map.2 hlisted.sorted
  have hsorted' : (L.map (·.1)).Pairwise (· < ·) := List.pairwise_map.2 hL.listed.sorted
  refine List.Perm.eq_of_pairwise ?_ hsorted hsorted' ?_
  · intro p q _ _ hpq hqp
    exact absurd hpq hqp.asymm
  · rw [List.perm_ext_iff_of_nodup (hsorted.imp ne_of_lt) (hsorted'.imp ne_of_lt)]
    intro p
    rw [List.mem_map, List.mem_map, ← h]
    constructor
    · rintro ⟨i, hi, rfl⟩
      exact ⟨i.2, Forest.walk_perm.mem_iff.1 hi⟩
    · rintro ⟨x, hx⟩
      exact ⟨_, Forest.walk_perm.mem_iff.2 hx, rfl⟩

theorem forall₂_of_paths {W : List Place} {R S : Place → Entry → Prop} (h : List.Forall₂ R L entries)
    (hpaths : W.map (·.1) = L.map (·.1)) (hS : ∀ i ∈ W, ∀ j ∈ L, ∀ e ∈ entries, i.1 = j.1 → R j e → S i e) :
    List.Forall₂ S W entries := by
  induction h generalizing W with
  | nil =>
      obtain rfl := List.map_eq_nil_iff.1 hpaths
      exact .nil
  | cons hj _ ih =>
      obtain ⟨i, W, rfl, hpath, hpaths⟩ := List.map_eq_cons_iff.1 hpaths
      refine .cons (hS i (.head _) _ (.head _) _ (.head _) hpath hj) (ih hpaths ?_)
      intro i hi j hj e he
      exact hS i (.tail _ hi) j (.tail _ hj) e (.tail _ he)

/-- With nothing different and nothing extra, the disk has what is listed and no more. -/
theorem listed_of_no_extra (hT : OnDisk d.tree) (hL : Good L) (hw : List.Forall₂ Writes L entries)
    (hsame : ∀ e ∈ entries, ¬ d.Differs e) (hextra : ∀ p, ¬ d.Extra entries p) (hp : (p, x) ∈ d.tree.items []) :
    ∃ i ∈ L, i.1 = p := by
  have hlisted : ∃ e ∈ entries, e.path = spell p := by
    induction p using List.reverseRecOn generalizing x with
    | nil =>
        obtain ⟨n, -, r, hr⟩ := Forest.mem_items_below hp
        cases hr
    | append_singleton p n ih =>
        by_contra hnone
        refine hextra (p ++ [n]) ⟨⟨x, hp⟩, fun e he hpath => hnone ⟨e, he, hpath⟩, ?_⟩
        rw [List.dropLast_concat]
        have hreal := d.real_parent hp
        rw [List.dropLast_concat] at hreal
        obtain hnil | ⟨mode, hmode⟩ := hreal
        · exact .inl hnil
        -- a directory is listed as one
        obtain ⟨e, he, hpath⟩ := ih hmode
        obtain ⟨i, hi, hie, rfl⟩ := place_of_spell hL hw (hT.parts_ok hmode) he hpath
        have hmatch := not_not.1 (mt (d.differs_iff hT (hL.fits i hi) hie).2 (hsame e he))
        obtain ⟨y, hy, hmatch⟩ := hmatch
        have hxy := (d.find_eq hT).2 hy
        rw [(d.find_eq hT).2 hmode] at hxy
        obtain rfl := Option.some.inj hxy
        exact .inr ⟨⟨e, he, hmatch.isRight.symm, hpath⟩, .inr ⟨mode, hmode⟩⟩
  obtain ⟨e, he, hpath⟩ := hlisted
  obtain ⟨i, hi, -, hip⟩ := place_of_spell hL hw (hT.parts_ok hp) he hpath
  exact ⟨i, hi, hip⟩

/-- There is nothing to report if and only if the walk of the disk gives the entries. -/
theorem same_iff (hT : OnDisk d.tree) (hL : Good L) (hw : List.Forall₂ Writes L entries) :
    ((∀ e ∈ entries, ¬ d.Differs e) ∧ ∀ p, ¬ d.Extra entries p) ↔ List.Forall₂ Same (d.tree.walk []) entries := by
  constructor
  · rintro ⟨hsame, hextra⟩
    have hfound : ∀ i e, i ∈ L → e ∈ entries → Writes i e → ∃ x, (i.1, x) ∈ d.tree.items [] ∧ e.body.Matches x :=
      fun i e hi he hie => not_not.1 (mt (d.differs_iff hT (hL.fits i hi) hie).2 (hsame e he))
    have hpaths := walk_paths hT hL fun p => by
      constructor
      · rintro ⟨x, hx⟩
        exact listed_of_no_extra hT hL hw hsame hextra hx
      · rintro ⟨i, hi, rfl⟩
        obtain ⟨e, he, hie⟩ := forall₂_exists hw.flip hi
        obtain ⟨x, hx, -⟩ := hfound i e hi he hie
        exact ⟨x, hx⟩
    refine forall₂_of_paths hw hpaths ?_
    intro i hi j hj e he hij hje
    obtain ⟨x, hx, hmatch⟩ := hfound j e hj he hje
    have hix := (d.find_eq hT).2 (Forest.walk_perm.mem_iff.1 hi)
    rw [hij, (d.find_eq hT).2 hx] at hix
    exact ⟨hje.path.trans (congrArg spell hij.symm), Option.some.inj hix ▸ hmatch⟩
  · intro h
    constructor
    · intro e he hd
      obtain ⟨j, hj, hje⟩ := forall₂_exists hw he
      obtain ⟨i, hi, hpath, hmatch⟩ := forall₂_exists h he
      have hi := Forest.walk_perm.mem_iff.1 hi
      have hij : i.1 = j.1 := by
        rw [← partsOf_spell (hT.parts_ok hi), ← hpath, hje.path, partsOf_spell (hL.fits j hj).parts_ok]
      exact (d.differs_iff hT (hL.fits j hj) hje).1 hd ⟨i.2, hij ▸ hi, hmatch⟩
    · rintro p ⟨⟨x, hx⟩, hnone, -⟩
      obtain ⟨e, he, hpath, -⟩ := forall₂_exists h.flip (Forest.walk_perm.mem_iff.2 hx)
      exact hnone e he hpath

/-! ### What a scan of it lists -/

/-- Without problems every name is one. -/
theorem reports_named {guest : Text} (h : ∀ report ∈ reports false guest T, report.2.2 = []) (hi : i ∈ T.items p) :
    ∃ r, i.1 = p ++ r ∧ ∀ name ∈ r, isName name = true := by
  induction T generalizing p guest with
  | nil => cases hi
  | leaf n b rest ih =>
      obtain rfl | hi := List.mem_cons.1 hi
      · refine ⟨[n], rfl, ?_⟩
        intro name hname
        obtain rfl := List.mem_singleton.1 hname
        by_contra hno
        have := h _ (.head _)
        simp [hno, unprintable] at this
      · exact ih (fun report hreport => h report (.tail _ hreport)) hi
  | node n mode children rest ihc ihr =>
      have hn : isName n = true := by
        by_contra hno
        have := h _ (.head _)
        simp [hno, unprintable] at this
      have hinside := h _ (.head _)
      simp only [hn, if_true] at hinside
      obtain rfl | hi := List.mem_cons.1 hi
      · exact ⟨[n], rfl, by simpa using hn⟩
      obtain hi | hi := List.mem_append.1 hi
      · have hchildren : ∀ report ∈ reports false (pathIn guest n) children, report.2.2 = [] := fun report hreport =>
          List.flatMap_eq_nil_iff.1 hinside report ((byName_perm _).mem_iff.2 hreport)
        obtain ⟨r, hr, hnames⟩ := ihc hchildren hi
        refine ⟨n :: r, by simpa using hr, ?_⟩
        intro name hname
        obtain rfl | hname := List.mem_cons.1 hname
        · exact hn
        · exact hnames name hname
      · exact ihr (fun report hreport => h report (.tail _ hreport)) hi

theorem scan_named (hT : OnDisk T) (h : (scanTree T false).2 = []) (hi : i ∈ T.items []) :
    ∀ part ∈ i.1, isUnsafe part = false := by
  intro part hpart
  have hreports : ∀ report ∈ reports false (lit "/") T, report.2.2 = [] := by
    intro report hreport
    rw [scanTree, inOrder] at h
    exact List.flatMap_eq_nil_iff.1 h report ((byName_perm _).mem_iff.2 hreport)
  obtain ⟨r, hr, hnames⟩ := reports_named hreports hi
  rw [hr] at hpart
  have hparts := hT.names i hi part (hr ▸ hpart)
  exact isUnsafe_iff.2 ⟨hnames part hpart, hparts.2.2⟩

/-- What is reported of a place is the entry if and only if the place is as the entry says. -/
theorem reportAt_iff : reportAt false i = ([e.bare], []) ↔ Same i e := by
  obtain ⟨path, body⟩ := e
  obtain ⟨p, (_ | _ | _) | _⟩ := i
  · cases body <;> simp [reportAt, scanLeaf, Entry.bare, Same, Body.Matches, fileMode, eq_comm]
  · cases body <;> simp [reportAt, scanLeaf, Entry.bare, Same, Body.Matches, eq_comm]
  · cases body <;> simp [reportAt, scanLeaf, Entry.bare, Same, Body.Matches]
  · cases body <;> simp [reportAt, Entry.bare, Same, Body.Matches, directoryMode, eq_comm]

/-- A place is reported as one entry, or as a problem. -/
theorem reportAt_alone (h : (reportAt false i).2 = []) : ∃ e, reportAt false i = ([e], []) := by
  obtain ⟨p, (_ | _ | _) | _⟩ := i
  · exact ⟨_, rfl⟩
  · exact ⟨_, rfl⟩
  · cases h
  · exact ⟨_, rfl⟩

theorem reportsAt_iff {W : List Place} : reportsAt false W = (entries.map Entry.bare, []) ↔ List.Forall₂ Same W entries := by
  induction W generalizing entries with
  | nil => cases entries <;> simp [reportsAt]
  | cons i W ih =>
      have hcons : reportsAt false (i :: W) =
          ((reportAt false i).1 ++ (reportsAt false W).1, (reportAt false i).2 ++ (reportsAt false W).2) := rfl
      rw [hcons, Prod.mk.injEq, List.append_eq_nil_iff]
      constructor
      · rintro ⟨hlisted, hone, hrest⟩
        obtain ⟨e', he'⟩ := reportAt_alone hone
        rw [he', List.singleton_append] at hlisted
        obtain ⟨e, entries, rfl, rfl, htail⟩ := List.map_eq_cons_iff.1 hlisted.symm
        exact .cons (reportAt_iff.1 he') (ih.1 (Prod.ext htail.symm hrest))
      · intro h
        cases h with
        | cons hie h =>
            rw [reportAt_iff.2 hie, ih.2 h]
            exact ⟨rfl, rfl, rfl⟩

theorem scan_iff (hT : OnDisk d.tree) (hL : Good L) (hw : List.Forall₂ Writes L entries) :
    ((scanTree d.tree false).2 = [] ∧ (scanTree d.tree false).1 = entries.map Entry.bare) ↔
      List.Forall₂ Same (d.tree.walk []) entries := by
  have hwalk : (∀ i ∈ d.tree.items [], ∀ part ∈ i.1, isUnsafe part = false) →
      (((scanTree d.tree false).2 = [] ∧ (scanTree d.tree false).1 = entries.map Entry.bare) ↔
        List.Forall₂ Same (d.tree.walk []) entries) := by
    intro hsafe
    rw [scanTree_eq hsafe, ← reportsAt_iff, Prod.ext_iff, and_comm]
  constructor
  · intro h
    exact (hwalk fun i hi => scan_named hT h.1 hi).1 h
  · intro h
    refine (hwalk ?_).2 h
    intro i hi
    obtain ⟨e, he, hpath, -⟩ := forall₂_exists h.flip (Forest.walk_perm.mem_iff.2 hi)
    obtain ⟨j, hj, -, hij⟩ := place_of_spell hL hw (hT.parts_ok hi) he hpath
    exact hij ▸ (hL.fits j hj).safe

/-! ### The comparison -/

/-- **A comparison is exact.** Of a manifest that is loaded, `compare_tree ()` names an entry if and only if the tree
is not as it says, and calls unexpected the paths that the manifest lacks in the directories of both. With nothing
to report the tree scans as the manifest, and the other way. No call is made beneath something that is not a
directory. -/
theorem compare_tree_exact {sha256 : Text → Digest} {raw : ByteArray} {m : Manifest}
    (hm : loadManifest sha256 raw what = .ok m) (hT : OnDisk d.tree) (allowExtra : Bool) :
    ∃ problems calls, compareTree d m.entries allowExtra = some (problems, calls) ∧
      (∀ e ∈ m.entries, (∃ x ∈ problems, x.kind ≠ lit "unexpected" ∧ x.path = e.path) ↔ d.Differs e) ∧
      (∀ path, (∃ x ∈ problems, x.kind = lit "unexpected" ∧ x.path = path) ↔
        allowExtra = false ∧ ∃ p, path = spell p ∧ d.Extra m.entries p) ∧
      (allowExtra = false → (problems = [] ↔
        (scanTree d.tree false).2 = [] ∧ (scanTree d.tree false).1 = m.entries.map Entry.bare)) ∧
      ∀ c ∈ calls, d.Stays c := by
  obtain ⟨L, hL, hw, -⟩ := (loadManifest_ok hm).listing
  have hnodup := (hL.rooted_of_writes hw).nodup
  obtain ⟨problems, calls, hresult, hexact⟩ := compareTree_exact hT hL hw allowExtra
  refine ⟨problems, calls, hresult, fun e he => hexact.named_iff hnodup he, ?_, ?_, hexact.calls⟩
  · intro path
    constructor
    · rintro ⟨x, hx, hkind, rfl⟩
      obtain ⟨hother, -⟩ | ⟨hno, -, hp⟩ := hexact.reported x hx
      · exact absurd hkind hother
      · exact ⟨hno, hp⟩
    · rintro ⟨hno, p, rfl, hp⟩
      exact hexact.extra hno p hp
  · rintro rfl
    rw [scan_iff hT hL hw, ← same_iff hT hL hw]
    exact hexact.nil_iff

/-- The directory has become a link to another, which is not listed and has the file. -/
def movedDisk : Disk where
  tree := .leaf (lit "d") (.symlink (lit "e"))
    (.node (lit "e") 0o755 (.leaf (lit "f") (.file 0o644 2 (tally (lit "ab"))) .nil) .nil)
  beyond _ := none

theorem movedDisk_onDisk : OnDisk movedDisk.tree := ⟨by decide, by simp [movedDisk, Forest.Apart, Forest.names, lit]⟩

theorem moved_compared : (compareTree movedDisk fewListed false).map (fun r => (r.1.map fun x => (x.kind, x.path), r.2)) =
    some ([(lit "wrong-type", lit "/d"), (lit "missing", lit "/d/f"), (lit "unexpected", lit "/e")],
      [.lstat (lit "/d"), .scandir (lit "/")]) := by
  decide +kernel

/-- The directory is of another type, the file is missing and the other directory unexpected; nothing
is called beneath the link. -/
theorem compare_tree_exact_moved : ∃ raw m problems calls, loadManifest tally raw (lit "m") = .ok m ∧
    m.entries = fewListed ∧ compareTree movedDisk m.entries false = some (problems, calls) ∧
    problems.map (fun x => (x.kind, x.path)) =
      [(lit "wrong-type", lit "/d"), (lit "missing", lit "/d/f"), (lit "unexpected", lit "/e")] ∧
    calls = [.lstat (lit "/d"), .scandir (lit "/")] ∧
    (∀ e ∈ m.entries, movedDisk.Differs e) ∧ (∃ p, lit "/e" = spell p ∧ movedDisk.Extra m.entries p) ∧
    ¬ ((scanTree movedDisk.tree false).2 = [] ∧ (scanTree movedDisk.tree false).1 = m.entries.map Entry.bare) ∧
    ∀ c ∈ calls, movedDisk.Stays c := by
  obtain ⟨raw, m, hm, hentries⟩ := few_load
  obtain ⟨problems, calls, hresult, hdiffers, hextra, hempty, hcalls⟩ := compare_tree_exact hm movedDisk_onDisk false
  have hcompared := moved_compared
  rw [← hentries, hresult] at hcompared
  obtain ⟨hproblems, hmade⟩ := Prod.mk.inj (Option.some.inj hcompared)
  have hreported : ∀ x ∈ [(lit "wrong-type", lit "/d"), (lit "missing", lit "/d/f"), (lit "unexpected", lit "/e")],
      ∃ y ∈ problems, (y.kind, y.path) = x := by
    intro x hx
    rw [← hproblems] at hx
    exact List.mem_map.1 hx
  refine ⟨raw, m, problems, calls, hm, hentries, hresult, hproblems, hmade, fun e he => (hdiffers e he).1 ?_,
    ?_, fun hscan => ?_, hcalls⟩
  · rw [hentries] at he
    obtain rfl | he := List.mem_cons.1 he
    · obtain ⟨y, hy, heq⟩ := hreported (lit "wrong-type", lit "/d") (by simp)
      obtain ⟨hkind, hpath⟩ := Prod.mk.inj heq
      exact ⟨y, hy, by rw [hkind]; decide, hpath⟩
    · obtain rfl := List.mem_singleton.1 he
      obtain ⟨y, hy, heq⟩ := hreported (lit "missing", lit "/d/f") (by simp)
      obtain ⟨hkind, hpath⟩ := Prod.mk.inj heq
      exact ⟨y, hy, by rw [hkind]; decide, hpath⟩
  · obtain ⟨y, hy, heq⟩ := hreported (lit "unexpected", lit "/e") (by simp)
    obtain ⟨hkind, hpath⟩ := Prod.mk.inj heq
    exact ((hextra (lit "/e")).1 ⟨y, hy, hkind, hpath⟩).2
  · rw [(hempty rfl).2 hscan] at hproblems
    cases hproblems

end MiniDarwin.Rootfs
