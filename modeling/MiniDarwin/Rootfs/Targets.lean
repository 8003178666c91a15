import MiniDarwin.Rootfs.TreeOrder
import MiniDarwin.Data.Links

/-!
Where the links of a manifest lead.

The entries are read as a tree by their paths, and a link's target as the
kernel reads it. That a walk stays in the tree is `Local` of the entries,
which is what `check_symlink_target ()` says of each link.
-/

namespace MiniDarwin.Rootfs

open Data

variable {entries : List Value} {what : Text} {L : List Place} {i : Place} {value : Value}

/-! ### The tree of a list of entries -/

/-- A component of a path as the kernel reads it. -/
def hopOf (part : Text) : Option (Hop Text) :=
  if part = [] ∨ part = lit "." then none else if part = lit ".." then some .up else some (.name part)

def pathOf (target : Text) : List (Hop Text) := (target.splitOn 47).filterMap hopOf

/-- The target of a symbolic link. -/
def linkTo (target : Text) : Node Text := .link (target.head? = some 47) (pathOf target)

/-- What an entry describes. -/
def nodeOf (entry : Value) : Option (Node Text) :=
  match entry with
  | .map fields =>
      match kindOf (get fields (lit "type")), get fields (lit "target") with
      | some .directory, _ => some .directory
      | some .file, _ => some .leaf
      | some .symlink, .scalar (.str target) => some (linkTo target)
      | _, _ => none
  | _ => none

/-- The entry has this path. -/
def isAt (parts : List Text) (entry : Value) : Bool :=
  match entry with
  | .map fields =>
      match splitPath (get fields (lit "path")) [] with
      | .ok found => found = parts
      | .error _ => false
  | _ => false

/-- The entries, read as a tree. -/
def nodeAt (entries : List Value) (parts : List Text) : Option (Node Text) :=
  (entries.find? (isAt parts)).bind nodeOf

/-! ### The tree of an accepted list -/

/-- What is at a place. -/
def Place.node (i : Place) : Option (Node Text) :=
  match i.2 with
  | .inl (.file _ _ _) => some .leaf
  | .inl (.symlink target) => some (linkTo target)
  | .inl .other => none
  | .inr _ => some .directory

theorem isAt_eq (h : Describes i value) (hi : Fits i) (parts : List Text) : isAt parts value = decide (i.1 = parts) := by
  obtain ⟨p, x⟩ := i
  have hsplit : splitPath (str (spell p)) [] = .ok p := splitPath_ok.2 ⟨rfl, hi.nonempty, hi.safe⟩
  obtain ⟨kind, fields, rfl, hpath, -⟩ := checkBody_of_describes [] h hi.sound
  simp only [isAt, hpath, hsplit]

theorem nodeOf_eq (h : Describes i value) : nodeOf value = Place.node i := by
  obtain ⟨p, x⟩ := i
  obtain ⟨digest, h⟩ := h
  rcases x with (⟨mode, size, sha256⟩ | target | _) | mode
  · obtain rfl := Option.some.inj h
    rfl
  · obtain rfl := Option.some.inj h
    rfl
  · cases h
  · obtain rfl := Option.some.inj h
    rfl

theorem nodeAt_eq (h : List.Forall₂ Describes L entries) (hL : ∀ i ∈ L, Fits i) (parts : List Text) :
    nodeAt entries parts = (L.find? (·.1 = parts)).bind Place.node := by
  induction h with
  | nil => rfl
  | cons hdesc _ ih =>
      have ih := ih fun i hi => hL i (.tail _ hi)
      rw [nodeAt] at ih ⊢
      rw [List.find?_cons, List.find?_cons, isAt_eq hdesc (hL _ (.head _))]
      split
      · exact nodeOf_eq hdesc
      · exact ih

theorem Good.find_eq (h : Good L) (hi : i ∈ L) : L.find? (·.1 = i.1) = some i :=
  find?_of_nodup (List.pairwise_map.2 (h.listed.sorted.imp fun hlt => hlt.ne)) hi

/-! ### Targets -/

theorem count_spell {p : List Text} (h : ∀ part ∈ p, isUnsafe part = false) : (spell p).count 47 = p.length := by
  induction p with
  | nil => rfl
  | cons part p ih =>
      have hpart : part.count 47 = 0 := List.count_eq_zero.2 (not_mem_of_safe (h part (.head _)))
      have ih := ih fun q hq => h q (.tail _ hq)
      rw [spell] at ih ⊢
      rw [List.flatMap_cons, List.cons_append, List.count_cons_self, List.count_append, hpart, ih, List.length_cons]
      omega

/-- A target that passes is relative, climbs no further than the link is deep, and then descends. -/
theorem target_shape {path target : Text} (h : checkSymlinkTarget path (str target) what = .ok ()) :
    target.head? ≠ some 47 ∧ ∃ (ups : Nat) (names : List Text), ups ≤ path.count 47 - 1 ∧
      (∀ name ∈ names, isUnsafe name = false) ∧ target.splitOn 47 = List.replicate ups (lit "..") ++ names := by
  cases target with
  | nil => cases h
  | cons c rest =>
      simp only [checkSymlinkTarget, str, invalid] at h
      split_ifs at h with hslash hnames hunsafe hups
      refine ⟨fun hhead => hslash (Option.some.inj hhead), ?_⟩
      let parts := (c :: rest).splitOn 47
      let ups := parts.takeWhile (· = lit "..")
      refine ⟨ups.length, parts.drop ups.length, Nat.le_of_not_lt hups, ?_, ?_⟩
      · intro part hpart
        by_contra hpart'
        exact hunsafe (List.any_eq_true.2 ⟨part, hpart, by simpa using hpart'⟩)
      · have hdots : ups = List.replicate ups.length (lit "..") :=
          List.eq_replicate_iff.2 ⟨rfl, fun part hpart => by simpa using List.mem_takeWhile_imp hpart⟩
        rw [← hdots]
        exact (List.prefix_iff_eq_append.1 (List.takeWhile_prefix _)).symm

theorem filterMap_names {names : List Text} (h : ∀ name ∈ names, isUnsafe name = false) :
    names.filterMap hopOf = names.map .name := by
  induction names with
  | nil => rfl
  | cons name names ih =>
      have hname := h name (.head _)
      obtain ⟨-, hdot, hdots⟩ := isUnsafe_iff.1 hname
      have hhop : hopOf name = some (.name name) := by simp [hopOf, ne_nil_of_safe hname, hdot, hdots]
      rw [List.filterMap_cons_some hhop, List.map_cons, ih fun q hq => h q (.tail _ hq)]

theorem climbs_of_target {path target : Text} (h : checkSymlinkTarget path (str target) what = .ok ()) :
    Climbs (path.count 47 - 1) (pathOf target) := by
  obtain ⟨-, ups, names, hups, hsafe, hsplit⟩ := target_shape h
  refine ⟨ups, names, hups, ?_⟩
  rw [pathOf, hsplit, List.filterMap_append, filterMap_names hsafe,
    List.filterMap_replicate_of_some (by decide : hopOf (lit "..") = some .up)]

/-! ### The links of an accepted list -/

theorem Good.local (h : Good L) (hdesc : List.Forall₂ Describes L entries) : Local (nodeAt entries) where
  parent := by
    intro dir a hne
    rw [nodeAt_eq hdesc h.fits] at hne
    obtain ⟨i, hi, hpath⟩ : ∃ i ∈ L, i.1 = dir ++ [a] := by
      by_contra hnone
      have hfind : L.find? (·.1 = dir ++ [a]) = none := by
        rw [List.find?_eq_none]
        intro i hi hpath
        exact hnone ⟨i, hi, of_decide_eq_true hpath⟩
      rw [hfind] at hne
      exact hne rfl
    have hclosed := h.listed.closed i hi
    rw [hpath, List.dropLast_concat] at hclosed
    refine hclosed.imp_right ?_
    rintro ⟨mode, hmem⟩
    rw [nodeAt_eq hdesc h.fits, h.find_eq hmem]
    rfl
  target := by
    intro dir a absolute path hlink
    rw [nodeAt_eq hdesc h.fits] at hlink
    obtain ⟨i, hi, hnode⟩ := Option.bind_eq_some_iff.1 hlink
    have hpath : i.1 = dir ++ [a] := by simpa using List.find?_some hi
    have hfits := h.fits i (List.mem_of_find?_eq_some hi)
    have hdepth : (spell i.1).count 47 - 1 = dir.length := by
      rw [count_spell hfits.safe, hpath, List.length_append]
      rfl
    obtain ⟨p, x⟩ := i
    rcases x with (⟨mode, size, sha256⟩ | target | _) | mode
    · cases hnode
    · obtain ⟨rfl, rfl⟩ := Node.link.inj (Option.some.inj hnode)
      have hsound : checkSymlinkTarget (spell p) (str target) [] = .ok () := hfits.sound []
      exact ⟨decide_eq_false (target_shape hsound).1, hdepth ▸ climbs_of_target hsound⟩
    · cases hnode
    · cases hnode

theorem Describes.symlink {fields : List (Text × Value)} (h : Describes i (.map fields))
    (htype : get fields (lit "type") = str (lit "symlink")) :
    get fields (lit "path") = str (spell i.1) ∧ ∃ target, get fields (lit "target") = str target ∧ i.2 = .inl (.symlink target) := by
  obtain ⟨p, x⟩ := i
  obtain ⟨digest, h⟩ := h
  rcases x with (⟨mode, size, sha256⟩ | target | _) | mode
  · obtain rfl := Value.map.inj (Option.some.inj h)
    exact absurd (str_inj.1 htype) (by decide)
  · obtain rfl := Value.map.inj (Option.some.inj h)
    exact ⟨rfl, target, rfl, rfl⟩
  · cases h
  · obtain rfl := Value.map.inj (Option.some.inj h)
    exact absurd (str_inj.1 htype) (by decide)

/-- **Links stay inside.** In a list of entries that is accepted, read as a tree, the walk from any of its links goes
through directories of the tree, climbs at none but these, and meets no absolute target, however many links it follows. -/
theorem links_stay_inside (h : checkEntries entries what = .ok ()) {fields : List (Text × Value)}
    (hentry : .map fields ∈ entries) (htype : get fields (lit "type") = str (lit "symlink")) :
    ∃ dir name target, splitPath (get fields (lit "path")) what = .ok (dir ++ [name]) ∧
      get fields (lit "target") = str target ∧ nodeAt entries (dir ++ [name]) = some (linkTo target) ∧
      ∀ w, Walk.Leads (nodeAt entries) ⟨dir, [.name name]⟩ w → ¬ w.Leaves (nodeAt entries) ∧ Stands (nodeAt entries) w.dir := by
  obtain ⟨L, hL, hdescribes⟩ := checkEntries_ok.1 h
  have hlocal := hL.local hdescribes
  obtain ⟨⟨p, x⟩, hi, hdescribed⟩ := forall₂_exists hdescribes hentry
  have hfits := hL.fits _ hi
  obtain ⟨hpath, target, htarget, rfl⟩ := hdescribed.symlink htype
  obtain ⟨dir, name, rfl⟩ := (List.eq_nil_or_concat p).resolve_left hfits.nonempty
  rw [List.concat_eq_append] at *
  have hnode : nodeAt entries (dir ++ [name]) = some (linkTo target) := by
    rw [nodeAt_eq hdescribes hL.fits, hL.find_eq hi]
    rfl
  refine ⟨dir, name, target, splitPath_ok.2 ⟨hpath, hfits.nonempty, hfits.safe⟩, htarget, hnode, ?_⟩
  intro w hleads
  have hstands : Stands (nodeAt entries) dir := hlocal.parent dir name (by rw [hnode]; exact Option.some_ne_none _)
  have hinside := hlocal.leads ⟨hstands, .names dir.length [name]⟩ hleads
  exact ⟨hlocal.not_leaves hinside, hinside.stands⟩

/-- A link that leads down through another one and climbs back up there. -/
def crossed : List Value :=
  [⟨lit "/a", .directory (lit "0755") (some (default : Digest).text)⟩, ⟨lit "/a/up", .symlink (lit "../b")⟩,
    ⟨lit "/b", .symlink (lit "a/up")⟩].map Entry.value

theorem links_stay_inside_crossed :
    ∃ dir name target, splitPath (str (lit "/b")) (lit "m") = .ok (dir ++ [name]) ∧
      str (lit "a/up") = str target ∧ nodeAt crossed (dir ++ [name]) = some (linkTo target) ∧
      ∀ w, Walk.Leads (nodeAt crossed) ⟨dir, [.name name]⟩ w → ¬ w.Leaves (nodeAt crossed) ∧ Stands (nodeAt crossed) w.dir :=
  links_stay_inside (by rfl : checkEntries crossed (lit "m") = .ok ())
    (by simp [crossed, Entry.value] : .map [(lit "path", str (lit "/b")), (lit "type", str (lit "symlink")),
      (lit "target", str (lit "a/up"))] ∈ crossed) rfl

end MiniDarwin.Rootfs
