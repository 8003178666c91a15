import MiniDarwin.Rootfs.Loaded

/-!
A tree on disk against a manifest (`compare_tree ()`).

The tree is what `lstat ()` shows of it. A path that leads through something
else than directories, such as a link, may lead anywhere; what is found
there is a parameter, and the calls that are made are noted, so that it can
be said that nothing is looked for there.
-/

namespace MiniDarwin.Rootfs

open Data

/-! ### The disk -/

/-- A directory and what is beneath it. -/
structure Disk where
  tree : Tree
  /-- What is found where a path does not go through directories alone. -/
  beyond : Text → Option (Leaf ⊕ Nat)

/-- The components of a path. -/
def partsOf (path : Text) : List Text := (path.splitOn 47).filter (· ≠ [])

def Disk.find (d : Disk) (p : List Text) : Option (Leaf ⊕ Nat) := ((d.tree.items []).find? (·.1 = p)).map (·.2)

def Disk.isDirectory (d : Disk) (p : List Text) : Bool := p = [] ∨ (d.find p).any Sum.isRight

/-- `os.lstat ()`, which may raise `FileNotFoundError`. -/
def Disk.lstat (d : Disk) (path : Text) : Option (Leaf ⊕ Nat) :=
  if d.isDirectory (partsOf path).dropLast then d.find (partsOf path) else d.beyond path

inductive Call where
  | lstat (path : Text)
  | readlink (path : Text)
  /-- `_hash_nofollow ()` -/
  | read (path : Text)
  | scandir (path : Text)
  deriving DecidableEq

def Call.path : Call → Text
  | .lstat path | .readlink path | .read path | .scandir path => path

/-! ### The loop over the manifest -/

/-- What a round reports, what it calls, and whether it enters its path in the directories. -/
structure Round where
  problems : List Problem
  calls : List Call
  entered : Bool

def compareMode (path mode : Text) (found : Nat) : List Problem :=
  if octal found ≠ mode then [⟨lit "mode", path, octal found ++ lit ", expected " ++ mode⟩] else []

def compareContent (path : Text) (size : Nat) (sha256 : Text) (size' : Nat) (sha256' : Text) : List Problem :=
  if size' ≠ size then [⟨lit "modified", path, decimal size' ++ lit " bytes, expected " ++ decimal size⟩]
  else if sha256' ≠ sha256 then [⟨lit "modified", path, lit "content differs"⟩]
  else []

def compareTarget (path target target' : Text) : List Problem :=
  if target' ≠ target then [⟨lit "modified", path, lit "-> " ++ target' ++ lit ", expected -> " ++ target⟩] else []

def wrongType (path detail : Text) : Round := ⟨[⟨lit "wrong-type", path, detail⟩], [], false⟩

/-- What is there against what the entry says. -/
def compareFound (e : Entry) (found : Leaf ⊕ Nat) : Round :=
  match e.body with
  | .directory mode _ =>
      match found with
      | .inr mode' => ⟨compareMode e.path mode mode', [], true⟩
      | .inl _ => wrongType e.path (lit "expected a directory")
  | .file mode size sha256 =>
      match found with
      | .inl (.file mode' size' sha256') =>
          ⟨compareContent e.path size sha256 size' sha256'.text ++ compareMode e.path mode mode',
            if size' ≠ size then [] else [.read e.path], false⟩
      | _ => wrongType e.path (lit "expected a regular file")
  | .symlink target =>
      match found with
      | .inl (.symlink target') => ⟨compareTarget e.path target target', [.readlink e.path], false⟩
      | _ => wrongType e.path (lit "expected a symlink")

def compareEntry (d : Disk) (directories : List Text) (e : Entry) : Round :=
  if parentOf e.path ∉ directories then ⟨[⟨lit "missing", e.path, lit "parent is not a directory"⟩], [], false⟩
  else
    match d.lstat e.path with
    | none => ⟨[⟨lit "missing", e.path, []⟩], [.lstat e.path], false⟩
    | some found =>
        let r := compareFound e found
        ⟨r.problems, .lstat e.path :: r.calls, r.entered⟩

/-- Problems, calls and the directories at the end. -/
def compareFrom (d : Disk) : List Entry → (directories : List Text) → List Problem × List Call × List Text
  | [], directories => ([], [], directories)
  | e :: entries, directories =>
      let r := compareEntry d directories e
      let (problems, calls, directories) :=
        compareFrom d entries (if r.entered then e.path :: directories else directories)
      (r.problems ++ problems, r.calls ++ calls, directories)

/-! ### The walk over the disk -/

/-- What is reported and called for the names of a directory, as they are sorted. -/
def gather (pieces : List (Text × Option (List Problem × List Call))) : Option (List Problem × List Call) := do
  let reports ← (byName pieces).mapM (·.2)
  return (reports.flatMap (·.1), reports.flatMap (·.2))

/-- A round of the loop of `walk ()` for each name, in the order of the tree. There is no result if
something is to be listed that is no directory. -/
def extras (listed directories : List Text) (guest : Text) : Tree → List (Text × Option (List Problem × List Call))
  | .nil => []
  | .leaf name _ rest =>
      let path := pathIn guest name
      (name,
        if path ∉ listed then some ([⟨lit "unexpected", path, []⟩], [])
        else if path ∈ directories then none
        else some ([], [])) :: extras listed directories guest rest
  | .node name _ children rest =>
      let path := pathIn guest name
      let inside := gather (extras listed directories path children)
      (name,
        if path ∉ listed then some ([⟨lit "unexpected", path, []⟩], [])
        else if path ∈ directories then inside.map fun r => (r.1, .scandir path :: r.2)
        else some ([], [])) :: extras listed directories guest rest

/-- `compare_tree ()`: the problems, and the calls that were made. -/
def compareTree (d : Disk) (entries : List Entry) (allowExtra : Bool) : Option (List Problem × List Call) :=
  let (problems, calls, directories) := compareFrom d entries [lit "/"]
  if allowExtra then some (problems, calls)
  else do
    let (problems', calls') ← gather (extras (entries.map (·.path)) directories (lit "/") d.tree)
    return (problems ++ problems', calls ++ .scandir (lit "/") :: calls')

/-! ### What the manifest says -/

/-- What is there is as the entry says. -/
def Body.Matches : Body → Leaf ⊕ Nat → Prop
  | .directory mode _, .inr mode' => octal mode' = mode
  | .file mode size sha256, .inl (.file mode' size' sha256') =>
      octal mode' = mode ∧ size' = size ∧ sha256'.text = sha256
  | .symlink target, .inl (.symlink target') => target' = target
  | _, _ => False

/-- The root, or a directory of the tree. -/
def Disk.Real (d : Disk) (p : List Text) : Prop := p = [] ∨ ∃ mode, (p, Sum.inr mode) ∈ d.tree.items []

/-- The tree is not as the entry says: something above its path is no directory, or nothing is there, or
something else. -/
def Disk.Differs (d : Disk) (e : Entry) : Prop :=
  (∃ q, q <+: partsOf e.path ∧ q ≠ partsOf e.path ∧ ¬ d.Real q) ∨ (∀ x, (partsOf e.path, x) ∉ d.tree.items []) ∨
    ∃ x, (partsOf e.path, x) ∈ d.tree.items [] ∧ ¬ e.body.Matches x

/-- A tree as it can be on a disk. -/
structure OnDisk (T : Tree) : Prop where
  names : ∀ i ∈ T.items [], ∀ name ∈ i.1, name ≠ [] ∧ 47 ∉ name ∧ name ≠ lit "." ∧ name ≠ lit ".."
  apart : T.Apart (· ≠ ·)

variable {d : Disk} {T : Tree} {p q : List Text} {x y : Leaf ⊕ Nat} {path : Text} {e : Entry} {i : Place}

theorem partsOf_spell (h : ∀ part ∈ p, part ≠ [] ∧ 47 ∉ part) : partsOf (spell p) = p := by
  obtain rfl | hp := eq_or_ne p []
  · rfl
  have hsplit : (47 :: [47].intercalate p).splitOn 47 = [] :: p := by
    have hjoin : ([47].intercalate ([] :: p)).splitOn 47 = [] :: p :=
      List.splitOn_intercalate 47 ?_ (List.cons_ne_nil _ _)
    · rwa [List.intercalate_cons_of_ne_nil hp] at hjoin
    · intro part hpart
      obtain rfl | hpart := List.mem_cons.1 hpart
      · exact List.not_mem_nil
      · exact (h part hpart).2
  rw [partsOf, spell_eq_intercalate hp, hsplit, List.filter_cons_of_neg (by simp), List.filter_eq_self]
  intro part hpart
  simpa using (h part hpart).1

theorem Fits.parts_ok (h : Fits i) : ∀ part ∈ i.1, part ≠ [] ∧ 47 ∉ part := fun part hpart =>
  ⟨ne_nil_of_safe (h.safe part hpart), not_mem_of_safe (h.safe part hpart)⟩

theorem OnDisk.nodup (h : OnDisk T) : ((T.items []).map (·.1)).Nodup := by
  rw [← (Forest.walk_perm.map (·.1)).nodup_iff]
  exact List.pairwise_map.2 (h.apart.listed_walk.sorted.imp ne_of_lt)

theorem Disk.find_eq (h : OnDisk d.tree) : d.find p = some x ↔ (p, x) ∈ d.tree.items [] := by
  rw [Disk.find, Option.map_eq_some_iff]
  constructor
  · rintro ⟨⟨q, y⟩, hfind, rfl⟩
    have hq : q = p := by simpa using List.find?_some hfind
    exact hq ▸ List.mem_of_find?_eq_some hfind
  · intro hx
    exact ⟨_, find?_of_nodup h.nodup hx, rfl⟩

theorem Disk.find_eq_none (h : OnDisk d.tree) : d.find p = none ↔ ∀ x, (p, x) ∉ d.tree.items [] := by
  simp only [Option.eq_none_iff_forall_ne_some, ne_eq, d.find_eq h]

theorem Disk.isDirectory_iff (h : OnDisk d.tree) : d.isDirectory p = true ↔ d.Real p := by
  rw [Disk.isDirectory, decide_eq_true_iff, Disk.Real]
  refine or_congr_right ?_
  constructor
  · intro hany
    obtain ⟨x, hx, hright⟩ := (Option.any_eq_true _ _).1 hany
    obtain ⟨mode, rfl⟩ := Sum.isRight_iff.1 hright
    exact ⟨mode, (d.find_eq h).1 hx⟩
  · rintro ⟨mode, hmode⟩
    rw [(d.find_eq h).2 hmode]
    rfl

/-- Whatever is in the tree is beneath directories. -/
theorem Disk.real_parent (h : (p, x) ∈ d.tree.items []) : d.Real p.dropLast := Forest.parent_mem_items h

theorem Disk.Real.above (h : d.Real p) (hq : q <+: p) : d.Real q := by
  induction p using List.reverseRecOn with
  | nil => exact .inl (List.prefix_nil.1 hq)
  | append_singleton p n ih =>
      obtain rfl | hq := List.prefix_concat_iff.1 hq
      · exact h
      · obtain hnil | ⟨mode, hmode⟩ := h
        · simp at hnil
        · have hparent := d.real_parent hmode
          rw [List.dropLast_concat] at hparent
          exact ih hparent hq

/-- What differs, where all above is as it should be. -/
theorem Disk.differs_iff (h : OnDisk d.tree) (hi : Fits i) (hw : Writes i e) :
    d.Differs e ↔ ¬ ∃ x, (i.1, x) ∈ d.tree.items [] ∧ e.body.Matches x := by
  rw [Disk.Differs, hw.path, partsOf_spell hi.parts_ok]
  constructor
  · rintro (⟨q, hq, hne, hreal⟩ | hnone | ⟨x, hx, hnot⟩) ⟨y, hy, hmatch⟩
    · exact hreal ((d.real_parent hy).above (prefix_dropLast hq hne))
    · exact hnone y hy
    · have hxy := (d.find_eq h).2 hx
      rw [(d.find_eq h).2 hy] at hxy
      exact hnot (Option.some.inj hxy ▸ hmatch)
  · intro hnot
    by_cases hsome : ∃ x, (i.1, x) ∈ d.tree.items []
    · obtain ⟨x, hx⟩ := hsome
      exact .inr (.inr ⟨x, hx, fun hmatch => hnot ⟨x, hx, hmatch⟩⟩)
    · exact .inr (.inl (not_exists.1 hsome))

/-! ### One round -/

/-- Everything that is reported is at the path, and no name is unexpected. -/
def Reports (path : Text) (problems : List Problem) : Prop :=
  ∀ x ∈ problems, x.path = path ∧ x.kind ≠ lit "unexpected"

theorem reports_singleton {kind detail : Text} (hkind : kind ≠ lit "unexpected") :
    Reports path [⟨kind, path, detail⟩] := by
  intro x hx
  obtain rfl := List.mem_singleton.1 hx
  exact ⟨rfl, hkind⟩

theorem Reports.append {problems problems' : List Problem} (h : Reports path problems) (h' : Reports path problems') :
    Reports path (problems ++ problems') := by
  intro x hx
  exact (List.mem_append.1 hx).elim (h x) (h' x)

theorem reports_nil : Reports path [] := by simp [Reports]

theorem compareMode_spec (path mode : Text) (found : Nat) :
    Reports path (compareMode path mode found) ∧ (compareMode path mode found = [] ↔ octal found = mode) := by
  rw [compareMode]
  split
  next hne => exact ⟨reports_singleton (by decide), by simp [hne]⟩
  next heq => exact ⟨reports_nil, by simpa using heq⟩

theorem compareContent_spec (path : Text) (size : Nat) (sha256 : Text) (size' : Nat) (sha256' : Text) :
    Reports path (compareContent path size sha256 size' sha256') ∧
      (compareContent path size sha256 size' sha256' = [] ↔ size' = size ∧ sha256' = sha256) := by
  rw [compareContent]
  split
  next hne => exact ⟨reports_singleton (by decide), by simp [hne]⟩
  next hsize =>
    split
    next hne => exact ⟨reports_singleton (by decide), by simp [hne]⟩
    next hsha => exact ⟨reports_nil, by simp [not_not.1 hsize, not_not.1 hsha]⟩

theorem compareTarget_spec (path target target' : Text) :
    Reports path (compareTarget path target target') ∧ (compareTarget path target target' = [] ↔ target' = target) := by
  rw [compareTarget]
  split
  next hne => exact ⟨reports_singleton (by decide), by simp [hne]⟩
  next heq => exact ⟨reports_nil, by simpa using heq⟩

/-- What a round finds, against what the entry says. -/
structure Faithful (e : Entry) (found : Leaf ⊕ Nat) (r : Round) : Prop where
  reports : Reports e.path r.problems
  exact : r.problems = [] ↔ e.body.Matches found
  calls : ∀ c ∈ r.calls, c = .readlink e.path ∨ c = .read e.path
  entered : r.entered = true ↔ e.isDirectory = true ∧ found.isRight = true

theorem faithful_wrongType {found : Leaf ⊕ Nat} (detail : Text) (hnot : ¬ e.body.Matches found)
    (hdir : ¬ (e.isDirectory = true ∧ found.isRight = true)) : Faithful e found (wrongType e.path detail) where
  reports := reports_singleton (by decide)
  exact := by simp [wrongType, hnot]
  calls := by simp [wrongType]
  entered := by simpa [wrongType] using hdir

theorem compareFound_faithful (e : Entry) (found : Leaf ⊕ Nat) : Faithful e found (compareFound e found) := by
  obtain ⟨path, body⟩ := e
  cases body with
  | directory mode digest =>
      cases found with
      | inl leaf => exact faithful_wrongType _ id (by simp)
      | inr mode' =>
          obtain ⟨hreports, hexact⟩ := compareMode_spec path mode mode'
          exact ⟨hreports, hexact, by simp [compareFound], by simp [compareFound, Entry.isDirectory]⟩
  | file mode size sha256 =>
      rcases found with (⟨mode', size', sha256'⟩ | target | _) | mode'
      · obtain ⟨hreports, hexact⟩ := compareMode_spec path mode mode'
        obtain ⟨hreports', hexact'⟩ := compareContent_spec path size sha256 size' sha256'.text
        refine ⟨hreports'.append hreports, ?_, ?_, by simp [compareFound, Entry.isDirectory]⟩
        · show compareContent path size sha256 size' sha256'.text ++ compareMode path mode mode' = [] ↔ _
          rw [List.append_eq_nil_iff, hexact, hexact']
          exact and_comm
        · intro c hc
          have hc : c ∈ if size' ≠ size then [] else [Call.read path] := hc
          split at hc
          · cases hc
          · exact .inr (List.mem_singleton.1 hc)
      · exact faithful_wrongType _ id (by simp)
      · exact faithful_wrongType _ id (by simp)
      · exact faithful_wrongType _ id (by simp [Entry.isDirectory])
  | symlink target =>
      rcases found with (⟨mode', size', sha256'⟩ | target' | _) | mode'
      · exact faithful_wrongType _ id (by simp)
      · obtain ⟨hreports, hexact⟩ := compareTarget_spec path target target'
        exact ⟨hreports, hexact, by simp [compareFound], by simp [compareFound, Entry.isDirectory]⟩
      · exact faithful_wrongType _ id (by simp)
      · exact faithful_wrongType _ id (by simp [Entry.isDirectory])

/-- Where a call is made: beneath directories, and a directory itself where one is listed. -/
def Disk.Stays (d : Disk) (c : Call) : Prop :=
  ∃ p, c.path = spellDir p ∧ (∀ q, q <+: p → q ≠ p → d.Real q) ∧ (c = .scandir c.path → d.Real p)

/-- The directories of the loop are those of the places so far, as far as the disk has them. -/
def Disk.Reached (d : Disk) (L : List Place) (directories : List Text) : Prop :=
  ∀ q, (∀ part ∈ q, isUnsafe part = false) →
    (spellDir q ∈ directories ↔ q = [] ∨ (∃ c, (q, Sum.inr c) ∈ L) ∧ d.Real q)

/-- What a round comes to. -/
structure Disk.RoundSpec (d : Disk) (i : Place) (e : Entry) (r : Round) : Prop where
  reports : Reports e.path r.problems
  exact : r.problems ≠ [] ↔ d.Differs e
  calls : ∀ c ∈ r.calls, d.Stays c
  entered : r.entered = true ↔ isDir i = true ∧ d.Real i.1

/-- A path is beneath directories if its parent is one. -/
theorem Disk.Real.strictly_above (h : d.Real p.dropLast) : ∀ q, q <+: p → q ≠ p → d.Real q :=
  fun _ hq hne => h.above (prefix_dropLast hq hne)

theorem compareEntry_spec {directories : List Text} (hT : OnDisk d.tree) (hi : Fits i) (hw : Writes i e)
    (hparent : spellDir i.1.dropLast ∈ directories ↔ d.Real i.1.dropLast) :
    d.RoundSpec i e (compareEntry d directories e) := by
  rw [compareEntry, hw.path, hi.parentOf]
  have hdiffers := d.differs_iff hT hi hw
  split
  next hnot =>
    have hreal : ¬ d.Real i.1.dropLast := fun h => hnot (hparent.2 h)
    refine ⟨hw.path ▸ reports_singleton (by decide), ?_, by simp, ?_⟩
    · refine iff_of_true (by simp) (hdiffers.2 ?_)
      rintro ⟨x, hx, -⟩
      exact hreal (d.real_parent hx)
    · refine iff_of_false (by simp) ?_
      rintro ⟨-, hreal'⟩
      exact hreal (hreal'.above (List.dropLast_prefix _))
  next hin =>
    have hreal : d.Real i.1.dropLast := hparent.1 (not_not.1 hin)
    have hstays : ∀ c : Call, c.path = spell i.1 → c ≠ .scandir c.path → d.Stays c := fun c hc hne =>
      ⟨i.1, by rw [hc, spellDir_of_ne_nil hi.nonempty], hreal.strictly_above, fun h => absurd h hne⟩
    have hlstat : d.lstat (spell i.1) = d.find i.1 := by
      rw [Disk.lstat, partsOf_spell hi.parts_ok, if_pos ((d.isDirectory_iff hT).2 hreal)]
    rw [hlstat]
    cases hfound : d.find i.1 with
    | none =>
        have hnone := (d.find_eq_none hT).1 hfound
        refine ⟨hw.path ▸ reports_singleton (by decide), ?_, ?_, ?_⟩
        · refine iff_of_true (by simp) (hdiffers.2 ?_)
          rintro ⟨x, hx, -⟩
          exact hnone x hx
        · intro c hc
          obtain rfl := List.mem_singleton.1 hc
          exact hstays _ rfl (by simp)
        · refine iff_of_false (by simp) ?_
          rintro ⟨-, hnil | ⟨mode, hmode⟩⟩
          · exact hi.nonempty hnil
          · exact hnone _ hmode
    | some found =>
        have hmem := (d.find_eq hT).1 hfound
        have hunique : ∀ x, (i.1, x) ∈ d.tree.items [] → x = found := fun x hx =>
          Option.some.inj (((d.find_eq hT).2 hx).symm.trans hfound)
        obtain ⟨hreports, hexact, hcalls, hentered⟩ := compareFound_faithful e found
        refine ⟨hreports, ?_, ?_, ?_⟩
        · rw [hdiffers, not_iff_not]
          refine hexact.trans ⟨fun h => ⟨found, hmem, h⟩, ?_⟩
          rintro ⟨x, hx, hmatch⟩
          exact hunique x hx ▸ hmatch
        · intro c hc
          obtain rfl | hc := List.mem_cons.1 hc
          · exact hstays _ rfl (by simp)
          · obtain rfl | rfl := hcalls c hc
            · exact hstays _ hw.path (by simp)
            · exact hstays _ hw.path (by simp)
        · refine hentered.trans ?_
          rw [hw.isDirectory]
          refine and_congr_right fun _ => ?_
          constructor
          · intro hright
            obtain ⟨mode, rfl⟩ := Sum.isRight_iff.1 hright
            exact .inr ⟨mode, hmem⟩
          · rintro (hnil | ⟨mode, hmode⟩)
            · exact absurd hnil hi.nonempty
            · rw [← hunique _ hmode]
              rfl

/-- The loop enters a directory that is one on the disk as well. -/
theorem Disk.Reached.next {L : List Place} {directories : List Text} {r : Round} (h : d.Reached L directories)
    (hi : Fits i) (hentered : r.entered = true ↔ isDir i = true ∧ d.Real i.1) :
    d.Reached (L ++ [i]) (if r.entered then spell i.1 :: directories else directories) := by
  intro q hq
  have hself : spellDir q = spell i.1 ↔ q = i.1 := by
    rw [← spellDir_of_ne_nil hi.nonempty]
    exact ⟨spellDir_injective hq hi.safe, congrArg spellDir⟩
  have hlast : (∃ c, (q, Sum.inr c) ∈ L ++ [i]) ↔ (∃ c, (q, Sum.inr c) ∈ L) ∨ q = i.1 ∧ isDir i = true := by
    obtain ⟨p, x⟩ := i
    cases x with
    | inl _ => simp [isDir]
    | inr _ => simp [isDir, exists_or]
  have hmem : spellDir q ∈ (if r.entered then spell i.1 :: directories else directories) ↔
      (q = i.1 ∧ r.entered = true) ∨ spellDir q ∈ directories := by
    split
    next hyes => simp [hself, hyes]
    next hno => simp [hno]
  rw [hmem, h q hq, hlast, hentered]
  constructor
  · rintro (⟨rfl, hdir, hreal⟩ | hnil | ⟨hold, hreal⟩)
    · exact .inr ⟨.inr ⟨rfl, hdir⟩, hreal⟩
    · exact .inl hnil
    · exact .inr ⟨.inl hold, hreal⟩
  · rintro (hnil | ⟨hold | ⟨rfl, hdir⟩, hreal⟩)
    · exact .inr (.inl hnil)
    · exact .inr (.inr ⟨hold, hreal⟩)
    · exact .inl ⟨rfl, hdir, hreal⟩

/-- The loop, from the middle on. -/
theorem compareFrom_spec (hT : OnDisk d.tree) {L₁ L₂ : List Place} {entries : List Entry} {directories : List Text}
    (hL : Good (L₁ ++ L₂)) (hw : List.Forall₂ Writes L₂ entries) (hreached : d.Reached L₁ directories) :
    (∀ x ∈ (compareFrom d entries directories).1, x.kind ≠ lit "unexpected" ∧
        ∃ e ∈ entries, x.path = e.path ∧ d.Differs e) ∧
      (∀ e ∈ entries, d.Differs e → ∃ x ∈ (compareFrom d entries directories).1, x.path = e.path) ∧
      (∀ c ∈ (compareFrom d entries directories).2.1, d.Stays c) ∧
      d.Reached (L₁ ++ L₂) (compareFrom d entries directories).2.2 := by
  induction hw generalizing L₁ directories with
  | nil => exact ⟨by simp [compareFrom], by simp, by simp [compareFrom], by simpa [compareFrom] using hreached⟩
  | @cons i e L₂ entries hi _ ih =>
      have hconcat : L₁ ++ i :: L₂ = (L₁ ++ [i]) ++ L₂ := by simp
      rw [hconcat] at hL ⊢
      obtain ⟨hgood, hfits, hfollows⟩ := good_concat.1 hL.of_append
      have hsafe : ∀ part ∈ i.1.dropLast, isUnsafe part = false := fun part hpart =>
        hfits.safe part (List.dropLast_subset _ hpart)
      have hparent : spellDir i.1.dropLast ∈ directories ↔ d.Real i.1.dropLast := by
        rw [hreached _ hsafe]
        constructor
        · rintro (hnil | ⟨-, hreal⟩)
          · exact .inl hnil
          · exact hreal
        · intro hreal
          exact hfollows.parent.imp_right fun hc => ⟨hc, hreal⟩
      have hround := compareEntry_spec hT hfits hi hparent
      have hnext := hreached.next hfits hround.entered
      rw [← hi.path] at hnext
      obtain ⟨hproblems, hdiffers, hcalls, hreached'⟩ := ih hL hnext
      refine ⟨?_, ?_, ?_, hreached'⟩
      · intro x hx
        obtain hx | hx := List.mem_append.1 hx
        · obtain ⟨hpath, hkind⟩ := hround.reports x hx
          exact ⟨hkind, e, .head _, hpath, hround.exact.1 (List.ne_nil_of_mem hx)⟩
        · obtain ⟨hkind, e', he', hrest⟩ := hproblems x hx
          exact ⟨hkind, e', .tail _ he', hrest⟩
      · intro e' he' hd
        obtain rfl | he' := List.mem_cons.1 he'
        · obtain ⟨x, hx⟩ := List.exists_mem_of_ne_nil _ (hround.exact.2 hd)
          exact ⟨x, List.mem_append_left _ hx, (hround.reports x hx).1⟩
        · obtain ⟨x, hx, hpath⟩ := hdiffers e' he' hd
          exact ⟨x, List.mem_append_right _ hx, hpath⟩
      · intro c hc
        obtain hc | hc := List.mem_append.1 hc
        · exact hround.calls c hc
        · exact hcalls c hc

/-! ### The walk -/

/-- Something is reported of one of the names, or called for it. -/
def Said {α : Type} (pieces : List (Text × Option (List Problem × List Call)))
    (part : List Problem × List Call → List α) (x : α) : Prop :=
  ∃ piece ∈ pieces, ∃ r, piece.2 = some r ∧ x ∈ part r

theorem said_cons {α : Type} {piece : Text × Option (List Problem × List Call)}
    {pieces : List (Text × Option (List Problem × List Call))} {part : List Problem × List Call → List α} {x : α} :
    Said (piece :: pieces) part x ↔ (∃ r, piece.2 = some r ∧ x ∈ part r) ∨ Said pieces part x := by
  simp only [Said, List.mem_cons, exists_eq_or_imp]

theorem mapM_option {α β : Type} {f : α → Option β} {l : List α} (h : ∀ a ∈ l, f a ≠ none) :
    ∃ l', l.mapM f = some l' ∧ ∀ b, b ∈ l' ↔ ∃ a ∈ l, f a = some b := by
  induction l with
  | nil => exact ⟨[], rfl, by simp⟩
  | cons a l ih =>
      obtain ⟨l', hl', hmem⟩ := ih fun a ha => h a (.tail _ ha)
      obtain ⟨b, hb⟩ := Option.ne_none_iff_exists'.1 (h a (.head _))
      refine ⟨b :: l', by rw [List.mapM_cons, hb, hl']; rfl, ?_⟩
      intro b'
      simp [hmem, hb, eq_comm]

/-- All that is said of the names is gathered. -/
theorem gather_spec {pieces : List (Text × Option (List Problem × List Call))} (h : ∀ piece ∈ pieces, piece.2 ≠ none) :
    ∃ r, gather pieces = some r ∧ (∀ x, x ∈ r.1 ↔ Said pieces Prod.fst x) ∧ ∀ c, c ∈ r.2 ↔ Said pieces Prod.snd c := by
  have hperm := byName_perm pieces
  obtain ⟨reports, hreports, hmem⟩ := mapM_option (f := Prod.snd) fun piece hpiece => h piece (hperm.mem_iff.1 hpiece)
  have hsaid : ∀ {α : Type} (part : List Problem × List Call → List α) (x : α),
      x ∈ reports.flatMap part ↔ Said pieces part x := by
    intro α part x
    rw [List.mem_flatMap, Said]
    constructor
    · rintro ⟨r, hr, hx⟩
      obtain ⟨piece, hpiece, hsome⟩ := (hmem r).1 hr
      exact ⟨piece, hperm.mem_iff.1 hpiece, r, hsome, hx⟩
    · rintro ⟨piece, hpiece, r, hsome, hx⟩
      exact ⟨r, (hmem r).2 ⟨piece, hperm.mem_iff.2 hpiece, hsome⟩, hx⟩
  exact ⟨(reports.flatMap (·.1), reports.flatMap (·.2)), by rw [gather, hreports]; rfl, hsaid _, hsaid _⟩

/-- The walk comes to the place from `p`, and does not know it. -/
structure Shown (listed directories : List Text) (p : List Text) (i : Place) : Prop where
  unlisted : spell i.1 ∉ listed
  entered : ∀ q, p <+: q → q ≠ p → q <+: i.1.dropLast → spell q ∈ listed ∧ spell q ∈ directories

variable {listed directories : List Text}

theorem shown_top {n : Text} : Shown listed directories p (p ++ [n], x) ↔ spell (p ++ [n]) ∉ listed := by
  constructor
  · exact Shown.unlisted
  · intro h
    refine ⟨h, ?_⟩
    intro q hp hne hq
    rw [List.dropLast_concat] at hq
    exact absurd (hq.eq_of_length_le hp.length_le) hne

theorem shown_below {n : Text} (hi : p ++ [n] <+: i.1.dropLast) : Shown listed directories p i ↔
    (spell (p ++ [n]) ∈ listed ∧ spell (p ++ [n]) ∈ directories) ∧ Shown listed directories (p ++ [n]) i := by
  constructor
  · rintro ⟨hunlisted, hentered⟩
    refine ⟨hentered _ (List.prefix_append _ _) (by simp) hi, hunlisted, ?_⟩
    intro q hp hne hq
    refine hentered q ((List.prefix_append _ _).trans hp) ?_ hq
    rintro rfl
    have := hp.length_le
    simp at this
  · rintro ⟨hself, hunlisted, hentered⟩
    refine ⟨hunlisted, ?_⟩
    intro q hp hne hq
    obtain hle | hle := List.prefix_or_prefix_of_prefix hi hq
    · obtain rfl | hne' := eq_or_ne q (p ++ [n])
      · exact hself
      · exact hentered q hle hne' hq
    · obtain rfl | hle := List.prefix_concat_iff.1 hle
      · exact hself
      · exact absurd (hle.eq_of_length_le hp.length_le) hne

/-- What the walk is to know: what is listed and entered is a directory of the disk, with a safe path. -/
def Disk.Known (d : Disk) (listed directories : List Text) : Prop :=
  ∀ q, (∀ part ∈ q, part ≠ [] ∧ 47 ∉ part) → spell q ∈ listed → spell q ∈ directories →
    (∀ part ∈ q, isUnsafe part = false) ∧ d.Real q

/-- What is reported of a name that is not entered. -/
def notEntered (listed : List Text) (path : Text) : List Problem × List Call :=
  if path ∉ listed then ([⟨lit "unexpected", path, []⟩], []) else ([], [])

theorem mem_notEntered {n : Text} {y : Problem} (x : Leaf ⊕ Nat) (directories : List Text) :
    y ∈ (notEntered listed (spell (p ++ [n]))).1 ↔
      Shown listed directories p (p ++ [n], x) ∧ y = ⟨lit "unexpected", spell (p ++ [n]), []⟩ := by
  rw [shown_top, notEntered]
  split
  next hnot => simp [hnot]
  next hin => simp [hin]

theorem notEntered_calls : (notEntered listed path).2 = [] := by
  rw [notEntered]
  split
  · rfl
  · rfl

/-- The walk reports all that is shown to it, and lists directories only. -/
theorem extras_spec (hT : OnDisk d.tree) (hknown : d.Known listed directories) (hp : ∀ part ∈ p, isUnsafe part = false)
    (hsub : ∀ i ∈ T.items p, i ∈ d.tree.items []) :
    (∀ piece ∈ extras listed directories (spellDir p) T, piece.2 ≠ none) ∧
      (∀ x, Said (extras listed directories (spellDir p) T) Prod.fst x ↔
        ∃ i ∈ T.items p, Shown listed directories p i ∧ x = ⟨lit "unexpected", spell i.1, []⟩) ∧
      ∀ c, Said (extras listed directories (spellDir p) T) Prod.snd c →
        ∃ q, c = .scandir (spell q) ∧ q ≠ [] ∧ d.Real q := by
  induction T generalizing p with
  | nil => exact ⟨by simp [extras], by simp [extras, Said, Forest.items], by simp [extras, Said]⟩
  | leaf n b rest ih =>
      obtain ⟨hok, hproblems, hcalls⟩ := ih hp fun i hi => hsub i (.tail _ hi)
      have hmem := hsub _ (.head _)
      have hnot : ¬ (spell (p ++ [n]) ∈ listed ∧ spell (p ++ [n]) ∈ directories) := by
        rintro ⟨hlisted, hdir⟩
        have hparts : ∀ part ∈ p ++ [n], part ≠ [] ∧ 47 ∉ part := fun part hpart =>
          ⟨(hT.names _ hmem part hpart).1, (hT.names _ hmem part hpart).2.1⟩
        obtain ⟨-, hnil | ⟨mode, hmode⟩⟩ := hknown _ hparts hlisted hdir
        · simp at hnil
        · have hboth := (d.find_eq hT).2 hmode
          rw [(d.find_eq hT).2 hmem] at hboth
          cases hboth
      have hpiece : extras listed directories (spellDir p) (.leaf n b rest) =
          (n, some (notEntered listed (spell (p ++ [n])))) :: extras listed directories (spellDir p) rest := by
        rw [extras, pathIn_spellDir hp, notEntered]
        split
        · rfl
        next hlisted => rw [if_neg fun hdir => hnot ⟨not_not.1 hlisted, hdir⟩]
      rw [hpiece]
      refine ⟨List.forall_mem_cons.2 ⟨by simp, hok⟩, ?_, ?_⟩
      · intro y
        rw [said_cons, hproblems, Forest.items]
        simp only [Option.some.injEq, exists_eq_left', List.mem_cons, exists_eq_or_imp, mem_notEntered (.inl b) directories]
      · intro c hc
        obtain ⟨r, hr, hc⟩ | hc := said_cons.1 hc
        · obtain rfl := Option.some.inj hr
          rw [notEntered_calls] at hc
          cases hc
        · exact hcalls c hc
  | node n mode children rest ihc ihr =>
      obtain ⟨hok, hproblems, hcalls⟩ := ihr hp fun i hi => hsub i (.tail _ (List.mem_append_right _ hi))
      have hmem := hsub _ (.head _)
      have hbelow : ∀ i ∈ children.items (p ++ [n]), p ++ [n] <+: i.1.dropLast := by
        intro i hi
        obtain ⟨m, -, r, hr⟩ := Forest.mem_items_below hi
        rw [hr, List.dropLast_append_of_ne_nil (List.cons_ne_nil _ _)]
        exact List.prefix_append _ _
      by_cases hinside : spell (p ++ [n]) ∈ listed ∧ spell (p ++ [n]) ∈ directories
      · have hparts : ∀ part ∈ p ++ [n], part ≠ [] ∧ 47 ∉ part := fun part hpart =>
          ⟨(hT.names _ hmem part hpart).1, (hT.names _ hmem part hpart).2.1⟩
        obtain ⟨hsafe, hreal⟩ := hknown _ hparts hinside.1 hinside.2
        obtain ⟨hok', hproblems', hcalls'⟩ := ihc hsafe fun i hi => hsub i (.tail _ (List.mem_append_left _ hi))
        obtain ⟨r, hr, hr₁, hr₂⟩ := gather_spec hok'
        have hpiece : extras listed directories (spellDir p) (.node n mode children rest) =
            (n, some (r.1, .scandir (spell (p ++ [n])) :: r.2)) :: extras listed directories (spellDir p) rest := by
          rw [spellDir_of_ne_nil (by simp)] at hr
          rw [extras, pathIn_spellDir hp, if_neg (not_not.2 hinside.1), if_pos hinside.2, hr]
          rfl
        rw [hpiece]
        refine ⟨List.forall_mem_cons.2 ⟨by simp, hok⟩, ?_, ?_⟩
        · intro y
          have hchildren : (∃ i ∈ children.items (p ++ [n]), Shown listed directories p i ∧
              y = ⟨lit "unexpected", spell i.1, []⟩) ↔ y ∈ r.1 := by
            rw [hr₁, hproblems']
            refine exists_congr fun i => and_congr_right fun hi => ?_
            rw [shown_below (hbelow i hi), and_iff_right hinside]
          have hself : ¬ Shown listed directories p (p ++ [n], .inr mode) := fun h => h.unlisted hinside.1
          rw [said_cons, hproblems, Forest.items]
          simp only [Option.some.injEq, exists_eq_left', List.mem_cons, List.mem_append, or_and_right, exists_or,
            exists_eq_left, hchildren, hself, false_and, false_or]
        · intro c hc
          obtain ⟨r', hr', hc⟩ | hc := said_cons.1 hc
          · obtain rfl := Option.some.inj hr'
            obtain rfl | hc := List.mem_cons.1 hc
            · exact ⟨_, rfl, by simp, hreal⟩
            · exact hcalls' c ((hr₂ c).1 hc)
          · exact hcalls c hc
      · have hpiece : extras listed directories (spellDir p) (.node n mode children rest) =
            (n, some (notEntered listed (spell (p ++ [n])))) :: extras listed directories (spellDir p) rest := by
          rw [extras, pathIn_spellDir hp, notEntered]
          split
          · rfl
          next hlisted => rw [if_neg fun hdir => hinside ⟨not_not.1 hlisted, hdir⟩]
        rw [hpiece]
        refine ⟨List.forall_mem_cons.2 ⟨by simp, hok⟩, ?_, ?_⟩
        · intro y
          have hchildren : ¬ ∃ i ∈ children.items (p ++ [n]), Shown listed directories p i ∧
              y = ⟨lit "unexpected", spell i.1, []⟩ := by
            rintro ⟨i, hi, hshown, -⟩
            exact hinside ((shown_below (hbelow i hi)).1 hshown).1
          rw [said_cons, hproblems, Forest.items]
          simp only [Option.some.injEq, exists_eq_left', List.mem_cons, mem_notEntered (.inr mode) directories,
            List.mem_append, or_and_right, exists_or, exists_eq_left, hchildren, false_or]
        · intro c hc
          obtain ⟨r, hr, hc⟩ | hc := said_cons.1 hc
          · obtain rfl := Option.some.inj hr
            rw [notEntered_calls] at hc
            cases hc
          · exact hcalls c hc

end MiniDarwin.Rootfs
