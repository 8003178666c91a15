import MiniDarwin.Rootfs.Manifest

/-!
What `check_entries ()` accepts.

An entry is read as an item of a tree, its path as the list of its
components. What the loop knows when it comes to an entry is what the items
before it are, so that it accepts a list just if the items are in the order
of a tree (`Good`).
-/

namespace MiniDarwin.Rootfs

open Data

/-- A place in a tree and what is there. -/
abbrev Place := Item Text Leaf Nat

/-- The entry of a place, with the digest of a directory. -/
def entryOf (normalize : Bool) (digest : Option Digest) (i : Place) : Option Entry :=
  match i.2 with
  | .inl (.file mode size sha256) => some ⟨spell i.1, .file (fileMode normalize mode) size sha256.text⟩
  | .inl (.symlink target) => some ⟨spell i.1, .symlink target⟩
  | .inl .other => none
  | .inr mode => some ⟨spell i.1, .directory (directoryMode normalize mode) (digest.map Digest.text)⟩

/-- Names that are not told apart by their case alone. -/
def Differ (a b : Text) : Prop := lower a ≠ lower b

def isDir (i : Place) : Bool := i.2.isRight

/-- What is there can be listed. -/
def Sound (i : Place) : Prop :=
  match i.2 with
  | .inl (.symlink target) => ∀ what, checkSymlinkTarget (spell i.1) (str target) what = .ok ()
  | .inl .other => False
  | _ => True

/-- The entry can stand in a manifest. -/
structure Fits (i : Place) : Prop where
  nonempty : i.1 ≠ []
  safe : ∀ part ∈ i.1, isUnsafe part = false
  sound : Sound i

/-- The value is the entry of the place, with some digest. -/
def Describes (i : Place) (value : Value) : Prop :=
  ∃ digest : Digest, (entryOf true (some digest) i).map Entry.value = some value

/-! ### One round -/

/-- The parent of a place, spelled, and its name in lower case. -/
def siblingKey (i : Place) : Text × Text := (spellDir i.1.dropLast, lower (i.1.getLastD []))

/-- The loop takes the place from its locals. -/
structure Allowed (s : Checked) (i : Place) : Prop where
  later : ∀ parts ∈ s.previous, parts < i.1
  parent : spellDir i.1.dropLast ∈ s.directories
  fresh : s.siblings.lookup (siblingKey i) = none

/-- The locals afterwards. -/
def Checked.after (s : Checked) (i : Place) : Checked where
  directories := if isDir i then spell i.1 :: s.directories else s.directories
  siblings := (siblingKey i, spell i.1) :: s.siblings
  previous := some i.1

theorem checkSymlinkTarget_congr {path target what : Text} (what' : Text)
    (h : checkSymlinkTarget path (str target) what = .ok ()) :
    checkSymlinkTarget path (str target) what' = .ok () := by
  cases target with
  | nil => cases h
  | cons c rest =>
      simp only [checkSymlinkTarget, str, invalid] at h ⊢
      split_ifs at h ⊢
      rfl

theorem symlink_target {path : Text} {target : Value} {what : Text}
    (h : checkSymlinkTarget path target what = .ok ()) : ∃ t, target = str t := by
  unfold checkSymlinkTarget at h
  simp only at h
  split at h
  case h_1 c rest => exact ⟨c :: rest, rfl⟩
  case h_2 => cases h

theorem isOneOf_iff {value : Value} {texts : List Text} : isOneOf value texts = true ↔ ∃ t ∈ texts, value = str t := by
  cases value with
  | scalar c =>
      cases c with
      | str s => simp [isOneOf, str]
      | _ => simp [isOneOf, str]
  | _ => simp [isOneOf, str]

theorem kindOf_eq_some {value : Value} {kind : Kind} (h : kindOf value = some kind) : value = str kind.text := by
  cases value with
  | scalar c =>
      cases c with
      | str s =>
          have ht := List.find?_some h
          rw [str, of_decide_eq_true ht]
      | _ => cases h
  | _ => cases h

theorem kindOf_text (kind : Kind) : kindOf (str kind.text) = some kind := by
  cases kind <;> rfl

theorem checkPlace_ok {s s' : Checked} {kind : Kind} {fields : List (Text × Value)} {what : Text} :
    checkPlace s kind fields what = .ok s' ↔ ∃ (p : List Text) (n : Text),
      get fields (lit "path") = str (spell (p ++ [n])) ∧ (∀ part ∈ p ++ [n], isUnsafe part = false) ∧
      (∀ parts ∈ s.previous, parts < p ++ [n]) ∧ spellDir p ∈ s.directories ∧
      s.siblings.lookup (spellDir p, lower n) = none ∧
      checkBody kind (spell (p ++ [n])) fields what = .ok () ∧
      s' = {
        directories := if kind = .directory then spell (p ++ [n]) :: s.directories else s.directories
        siblings := ((spellDir p, lower n), spell (p ++ [n])) :: s.siblings
        previous := some (p ++ [n]) } := by
  have hprev : ∀ parts : List Text, s.previous.any (parts ≤ ·) = true ↔ ¬ ∀ q ∈ s.previous, q < parts := by
    intro parts
    cases s.previous with
    | none => simp
    | some q => simp
  constructor
  · intro h
    rw [checkPlace, bind_ok] at h
    obtain ⟨parts, hparts, h⟩ := h
    obtain ⟨hpath, hne, hsafe⟩ := splitPath_ok.1 hparts
    obtain ⟨p, n, rfl⟩ := (List.eq_nil_or_concat parts).resolve_left hne
    rw [List.concat_eq_append] at *
    have hn : 47 ∉ n := not_mem_of_safe (hsafe n (by simp))
    rw [hpath, show shown (str (spell (p ++ [n]))) = spell (p ++ [n]) from rfl, parentOf_spell hn,
      List.getLastD_concat] at h
    split at h
    · cases h
    next hlater =>
      split at h
      · cases h
      next hdir =>
        simp only at h
        split at h
        · cases h
        next hfresh =>
          rw [bind_ok] at h
          obtain ⟨⟨⟩, hbody, h⟩ := h
          cases h
          exact ⟨p, n, hpath, hsafe, not_not.1 fun hnot => hlater ((hprev _).2 hnot), not_not.1 hdir, hfresh,
            hbody, rfl⟩
  · rintro ⟨p, n, hpath, hsafe, hlater, hdir, hfresh, hbody, rfl⟩
    have hn : 47 ∉ n := not_mem_of_safe (hsafe n (by simp))
    have hparts : splitPath (get fields (lit "path")) what = .ok (p ++ [n]) :=
      splitPath_ok.2 ⟨hpath, by simp, hsafe⟩
    rw [checkPlace, hparts, hpath, show shown (str (spell (p ++ [n]))) = spell (p ++ [n]) from rfl,
      parentOf_spell hn]
    change (if _ then _ else _) = _
    rw [if_neg fun hnot => (hprev _).1 hnot hlater, if_neg (not_not.2 hdir), List.getLastD_concat]
    simp only [hfresh, hbody]
    rfl

/-- Fields with different keys are told by what is found under the keys. -/
theorem fields_eq {fields : List (Text × Value)} (h : (fields.map (·.1)).Nodup) :
    fields = (fields.map (·.1)).map fun key => (key, get fields key) := by
  induction fields with
  | nil => rfl
  | cons field rest ih =>
      obtain ⟨hnot, hrest⟩ := List.nodup_cons.1 h
      have hhead : get (field :: rest) field.1 = field.2 := by
        rw [get, List.lookup_cons, beq_self_eq_true]
        rfl
      have htail : ∀ key ∈ rest.map (·.1), get (field :: rest) key = get rest key := by
        intro key hkey
        have hne : (key == field.1) = false := by
          refine beq_false_of_ne ?_
          rintro rfl
          exact hnot hkey
        rw [get, List.lookup_cons, hne, get]
      rw [List.map_cons, List.map_cons, hhead, List.map_congr_left fun key hkey => by rw [htail key hkey]]
      exact congrArg (field :: ·) (ih hrest)

theorem fileMode_mem {t : Text} : t ∈ [lit "0644", lit "0755"] ↔ ∃ mode, t = fileMode true mode := by
  constructor
  · intro h
    obtain rfl | h := List.mem_cons.1 h
    · exact ⟨0o644, rfl⟩
    · obtain rfl := List.mem_singleton.1 h
      exact ⟨0o755, rfl⟩
  · rintro ⟨mode, rfl⟩
    rw [fileMode, if_pos rfl]
    split
    · exact .tail _ (.head _)
    · exact .head _

variable {path what : Text} {fields : List (Text × Value)}

theorem checkBody_file :
    checkBody .file path fields what = .ok () ↔ ∃ (mode size : Nat) (sha256 : Digest),
      get fields (lit "mode") = str (fileMode true mode) ∧ get fields (lit "size") = .scalar (.int size) ∧
      get fields (lit "sha256") = str sha256.text := by
  have hmode : isOneOf (get fields (lit "mode")) [lit "0644", lit "0755"] = true ↔
      ∃ mode, get fields (lit "mode") = str (fileMode true mode) := by
    rw [isOneOf_iff]
    constructor
    · rintro ⟨t, ht, hmode⟩
      obtain ⟨mode, rfl⟩ := fileMode_mem.1 ht
      exact ⟨mode, hmode⟩
    · rintro ⟨mode, hmode⟩
      exact ⟨_, fileMode_mem.2 ⟨mode, rfl⟩, hmode⟩
  constructor
  · intro h
    unfold checkBody at h
    simp only at h
    split at h
    · cases h
    next hone =>
      rw [Bool.not_eq_true', Bool.not_eq_false, hmode] at hone
      obtain ⟨_, hsize, h⟩ := bind_ok.1 h
      obtain ⟨_, hsha, -⟩ := bind_ok.1 h
      obtain ⟨mode, hmode⟩ := hone
      obtain ⟨size, -, hsize⟩ := checkInt_ok.1 hsize
      obtain ⟨sha256, -, hsha⟩ := checkHex_ok.1 hsha
      exact ⟨mode, size, sha256, hmode, hsize, hsha⟩
  · rintro ⟨mode, size, sha256, hm, hsize, hsha⟩
    unfold checkBody
    simp only [hmode.2 ⟨mode, hm⟩, hsize, hsha]
    exact bind_ok.2 ⟨_, checkInt_ok.2 ⟨size, rfl, rfl⟩, bind_ok.2 ⟨_, checkHex_ok.2 ⟨sha256, rfl, rfl⟩, rfl⟩⟩

theorem checkBody_directory :
    checkBody .directory path fields what = .ok () ↔ ∃ digest : Digest,
      get fields (lit "mode") = str (lit "0755") ∧ get fields (lit "digest") = str digest.text := by
  constructor
  · intro h
    unfold checkBody at h
    simp only at h
    split at h
    · cases h
    next hone =>
      rw [Bool.not_eq_true', Bool.not_eq_false, isOneOf_iff] at hone
      obtain ⟨t, ht, hmode⟩ := hone
      obtain rfl := List.mem_singleton.1 ht
      obtain ⟨_, hdigest, -⟩ := bind_ok.1 h
      obtain ⟨digest, -, hdigest⟩ := checkHex_ok.1 hdigest
      exact ⟨digest, hmode, hdigest⟩
  · rintro ⟨digest, hmode, hdigest⟩
    unfold checkBody
    simp only [hmode, hdigest]
    exact bind_ok.2 ⟨_, checkHex_ok.2 ⟨digest, rfl, rfl⟩, rfl⟩

theorem checkBody_symlink :
    checkBody .symlink path fields what = .ok () ↔ ∃ target,
      get fields (lit "target") = str target ∧ ∀ what, checkSymlinkTarget path (str target) what = .ok () := by
  constructor
  · intro h
    have h : checkSymlinkTarget path (get fields (lit "target")) what = .ok () := h
    obtain ⟨target, htarget⟩ := symlink_target h
    rw [htarget] at h
    exact ⟨target, htarget, fun what' => checkSymlinkTarget_congr what' h⟩
  · rintro ⟨target, htarget, h⟩
    rw [checkBody, htarget]
    exact h what

theorem checkEntry_ok_fields {s s' : Checked} {value : Value} :
    checkEntry s value what = .ok s' ↔ ∃ kind fields, value = .map fields ∧
      get fields (lit "type") = str kind.text ∧ fields.map (·.1) = Kind.keys kind ∧
      checkPlace s kind fields what = .ok s' := by
  constructor
  · intro h
    rw [checkEntry, bind_ok] at h
    obtain ⟨fields, hfields, h⟩ := h
    split at h
    · cases h
    next kind hkind =>
      split at h
      · cases h
      next hkeys => exact ⟨kind, fields, mapping_ok.1 hfields, kindOf_eq_some hkind, not_not.1 hkeys, h⟩
  · rintro ⟨kind, fields, rfl, htype, hkeys, h⟩
    refine bind_ok.2 ⟨fields, rfl, ?_⟩
    rw [htype, kindOf_text]
    exact (if_neg (not_not.2 hkeys)).trans h

/-- Fields that pass are those of an entry. -/
theorem describes_of_checkBody {kind : Kind} {p : List Text} (hkeys : fields.map (·.1) = kind.keys)
    (hpath : get fields (lit "path") = str (spell p)) (htype : get fields (lit "type") = str kind.text)
    (hbody : checkBody kind (spell p) fields what = .ok ()) :
    ∃ x, Describes (p, x) (.map fields) ∧ Sound (p, x) ∧ (x.isRight ↔ kind = .directory) := by
  have hfields := fields_eq (hkeys ▸ by cases kind <;> decide : (fields.map (·.1)).Nodup)
  rw [hkeys] at hfields
  rw [hfields]
  cases kind with
  | file =>
      obtain ⟨mode, size, sha256, hmode, hsize, hsha⟩ := checkBody_file.1 hbody
      refine ⟨.inl (.file mode size sha256), ⟨sha256, ?_⟩, trivial, by simp⟩
      simp only [Kind.keys, List.map_cons, List.map_nil, hpath, htype, hmode, hsize, hsha]
      rfl
  | symlink =>
      obtain ⟨target, htarget, hlink⟩ := checkBody_symlink.1 hbody
      refine ⟨.inl (.symlink target), ⟨default, ?_⟩, hlink, by simp⟩
      simp only [Kind.keys, List.map_cons, List.map_nil, hpath, htype, htarget]
      rfl
  | directory =>
      obtain ⟨digest, hmode, hdigest⟩ := checkBody_directory.1 hbody
      refine ⟨.inr 0o755, ⟨digest, ?_⟩, trivial, by simp⟩
      simp only [Kind.keys, List.map_cons, List.map_nil, hpath, htype, hmode, hdigest]
      rfl

/-- The fields of an entry pass. -/
theorem checkBody_of_describes (what : Text) {p : List Text} {x : Leaf ⊕ Nat} {value : Value} (h : Describes (p, x) value)
    (hsound : Sound (p, x)) : ∃ kind fields, value = .map fields ∧ get fields (lit "path") = str (spell p) ∧
      get fields (lit "type") = str kind.text ∧ fields.map (·.1) = Kind.keys kind ∧
      checkBody kind (spell p) fields what = .ok () ∧ (x.isRight ↔ kind = .directory) := by
  obtain ⟨digest, h⟩ := h
  rcases x with (⟨mode, size, sha256⟩ | target | _) | mode
  · obtain rfl := Option.some.inj h
    exact ⟨.file, _, rfl, rfl, rfl, rfl, checkBody_file.2 ⟨mode, size, sha256, rfl, rfl, rfl⟩, by simp⟩
  · obtain rfl := Option.some.inj h
    exact ⟨.symlink, _, rfl, rfl, rfl, rfl, checkBody_symlink.2 ⟨target, rfl, hsound⟩, by simp⟩
  · cases h
  · obtain rfl := Option.some.inj h
    exact ⟨.directory, _, rfl, rfl, rfl, rfl, checkBody_directory.2 ⟨digest, rfl, rfl⟩, by simp⟩

/-- A round accepts the entry of a place that its locals allow, and notes the place. -/
theorem checkEntry_ok {s s' : Checked} {value : Value} :
    checkEntry s value what = .ok s' ↔ ∃ i, Describes i value ∧ Fits i ∧ Allowed s i ∧ s' = s.after i := by
  rw [checkEntry_ok_fields]
  constructor
  · rintro ⟨kind, fields, rfl, htype, hkeys, h⟩
    obtain ⟨p, n, hpath, hsafe, hlater, hparent, hfresh, hbody, rfl⟩ := checkPlace_ok.1 h
    obtain ⟨x, hx, hsound, hright⟩ := describes_of_checkBody hkeys hpath htype hbody
    refine ⟨(p ++ [n], x), hx, ⟨by simp, hsafe, hsound⟩, ⟨hlater, ?_, ?_⟩, ?_⟩
    · rwa [List.dropLast_concat]
    · rwa [siblingKey, List.dropLast_concat, List.getLastD_concat]
    · simp only [Checked.after, siblingKey, isDir, hright, List.dropLast_concat, List.getLastD_concat]
  · rintro ⟨⟨parts, x⟩, hx, ⟨hne, hsafe, hsound⟩, ⟨hlater, hparent, hfresh⟩, rfl⟩
    obtain ⟨p, n, rfl⟩ := (List.eq_nil_or_concat parts).resolve_left hne
    rw [List.concat_eq_append] at *
    obtain ⟨kind, fields, rfl, hpath, htype, hkeys, hbody, hright⟩ := checkBody_of_describes what hx hsound
    simp only [siblingKey, List.dropLast_concat, List.getLastD_concat] at hparent hfresh
    refine ⟨kind, fields, rfl, htype, hkeys, checkPlace_ok.2 ⟨p, n, hpath, hsafe, hlater, hparent, hfresh, hbody, ?_⟩⟩
    simp only [Checked.after, siblingKey, isDir, hright, List.dropLast_concat, List.getLastD_concat]

/-! ### The whole list -/

/-- Places in the order of a tree. -/
structure Good (L : List Place) : Prop where
  listed : Listed [] L
  beside : L.Pairwise fun i j => Forest.Beside Differ i.1 j.1
  fits : ∀ i ∈ L, Fits i

/-- The place can come next. -/
structure Follows (L : List Place) (i : Place) : Prop where
  later : ∀ j ∈ L.getLast?, j.1 < i.1
  parent : i.1.dropLast = [] ∨ ∃ c, (i.1.dropLast, Sum.inr c) ∈ L
  beside : ∀ j ∈ L, Forest.Beside Differ j.1 i.1

variable {L : List Place} {i : Place}

theorem Good.nil : Good [] := ⟨⟨.nil, by simp, by simp⟩, .nil, by simp⟩

theorem good_concat : Good (L ++ [i]) ↔ Good L ∧ Fits i ∧ Follows L i := by
  constructor
  · intro h
    obtain ⟨hsorted, -, hlast⟩ := List.pairwise_append.1 h.listed.sorted
    obtain ⟨hbeside, -, hlast'⟩ := List.pairwise_append.1 h.beside
    have hfits := h.fits i (by simp)
    have hbefore := (listed_iff_before.1 h.listed).2
    refine ⟨⟨⟨hsorted, ?_, ?_⟩, hbeside, fun j hj => h.fits j (by simp [hj])⟩, hfits, ?_, ?_, ?_⟩
    · exact fun j hj => h.listed.below j (by simp [hj])
    · intro j hj
      obtain ⟨L₁, L₂, rfl⟩ := List.append_of_mem hj
      refine (hbefore L₁ j (L₂ ++ [i]) (by simp)).2.imp_right ?_
      rintro ⟨c, hc⟩
      exact ⟨c, by simp [hc]⟩
    · exact fun j hj => hlast j (List.mem_of_getLast? hj) i (by simp)
    · exact (hbefore L i [] rfl).2
    · exact fun j hj => hlast' j hj i (by simp)
  · rintro ⟨hL, hfits, hfollows⟩
    have hlast : ∀ j ∈ L, j.1 < i.1 := by
      intro j hj
      obtain ⟨L', k, rfl⟩ := (List.eq_nil_or_concat L).resolve_left (List.ne_nil_of_mem hj)
      rw [List.concat_eq_append] at *
      have hk : k.1 < i.1 := hfollows.later k (by simp)
      obtain hj | hj := List.mem_append.1 hj
      · exact ((List.pairwise_append.1 hL.listed.sorted).2.2 j hj k (by simp)).trans hk
      · rwa [List.mem_singleton.1 hj]
    refine ⟨⟨?_, ?_, ?_⟩, ?_, ?_⟩
    · refine List.pairwise_append.2 ⟨hL.listed.sorted, List.pairwise_singleton _ _, ?_⟩
      intro j hj k hk
      rw [List.mem_singleton.1 hk]
      exact hlast j hj
    · intro j hj
      obtain hj | hj := List.mem_append.1 hj
      · exact hL.listed.below j hj
      · obtain ⟨n, r, hr⟩ := List.exists_cons_of_ne_nil hfits.nonempty
        rw [List.mem_singleton.1 hj]
        exact ⟨n, r, hr⟩
    · intro j hj
      have hparent : j.1.dropLast = [] ∨ ∃ c, (j.1.dropLast, Sum.inr c) ∈ L := by
        obtain hj | hj := List.mem_append.1 hj
        · exact hL.listed.closed j hj
        · rw [List.mem_singleton.1 hj]
          exact hfollows.parent
      refine hparent.imp_right ?_
      rintro ⟨c, hc⟩
      exact ⟨c, List.mem_append_left _ hc⟩
    · refine List.pairwise_append.2 ⟨hL.beside, List.pairwise_singleton _ _, ?_⟩
      intro j hj k hk
      rw [List.mem_singleton.1 hk]
      exact hfollows.beside j hj
    · intro j hj
      obtain hj | hj := List.mem_append.1 hj
      · exact hL.fits j hj
      · rwa [List.mem_singleton.1 hj]

theorem Good.of_append {L' : List Place} (h : Good (L ++ L')) : Good L := by
  induction L' using List.reverseRecOn with
  | nil => rwa [List.append_nil] at h
  | append_singleton L' i ih =>
      rw [← List.append_assoc] at h
      exact ih (good_concat.1 h).1

/-- The locals of the loop are those of the places so far. -/
structure Reflects (s : Checked) (L : List Place) : Prop where
  previous : s.previous = L.getLast?.map (·.1)
  directories : ∀ q, (∀ part ∈ q, isUnsafe part = false) →
    (spellDir q ∈ s.directories ↔ q = [] ∨ ∃ c, (q, Sum.inr c) ∈ L)
  siblings : ∀ q n, (∀ part ∈ q, isUnsafe part = false) →
    (s.siblings.lookup (spellDir q, lower n) = none ↔ ∀ m x, (q ++ [m], x) ∈ L → Differ m n)

theorem Reflects.nil : Reflects {} [] := by
  refine ⟨rfl, ?_, ?_⟩
  · intro q hq
    rw [show spellDir q ∈ ({} : Checked).directories ↔ spellDir q = spellDir [] from List.mem_singleton]
    constructor
    · intro h
      exact .inl (spellDir_injective hq (by simp) h)
    · rintro (rfl | ⟨c, hc⟩)
      · rfl
      · cases hc
  · intro q n _
    simp

variable {s : Checked}

theorem Reflects.allowed_iff (h : Reflects s L) (hi : Fits i) : Allowed s i ↔ Follows L i := by
  obtain ⟨q, n, hq⟩ := (List.eq_nil_or_concat i.1).resolve_left hi.nonempty
  rw [List.concat_eq_append] at hq
  have hsafe : ∀ part ∈ q, isUnsafe part = false := fun part hpart => hi.safe part (by simp [hq, hpart])
  have hdrop : i.1.dropLast = q := by rw [hq, List.dropLast_concat]
  have hkey : siblingKey i = (spellDir q, lower n) := by
    rw [siblingKey, hdrop, hq, List.getLastD_concat]
  have hbeside : (∀ m x, (q ++ [m], x) ∈ L → Differ m n) ↔ ∀ j ∈ L, Forest.Beside Differ j.1 i.1 := by
    constructor
    · intro hm j hj q' a b hja hib
      obtain ⟨rfl, hb⟩ := List.append_inj' (hq.symm.trans hib) rfl
      obtain rfl := (List.cons.inj hb).1
      exact hm a j.2 (hja ▸ hj)
    · intro hj m x hm
      exact hj _ hm q m n rfl hq
  constructor
  · rintro ⟨hlater, hparent, hfresh⟩
    refine ⟨?_, ?_, ?_⟩
    · intro j hj
      exact hlater j.1 (by rw [h.previous, Option.mem_def.1 hj]; rfl)
    · rw [hdrop] at hparent ⊢
      exact (h.directories q hsafe).1 hparent
    · rw [hkey, h.siblings q n hsafe] at hfresh
      exact hbeside.1 hfresh
  · rintro ⟨hlater, hparent, hbeside'⟩
    refine ⟨?_, ?_, ?_⟩
    · intro parts hparts
      rw [h.previous] at hparts
      obtain ⟨j, hj, rfl⟩ := Option.map_eq_some_iff.1 hparts
      exact hlater j hj
    · rw [hdrop] at hparent ⊢
      exact (h.directories q hsafe).2 hparent
    · rw [hkey, h.siblings q n hsafe]
      exact hbeside.2 hbeside'

theorem Reflects.after (h : Reflects s L) (hi : Fits i) : Reflects (s.after i) (L ++ [i]) := by
  obtain ⟨q, n, hq⟩ := (List.eq_nil_or_concat i.1).resolve_left hi.nonempty
  rw [List.concat_eq_append] at hq
  refine ⟨by simp [Checked.after], ?_, ?_⟩
  · intro r hr
    have hdir : spellDir r = spell i.1 ↔ r = i.1 := by
      rw [← spellDir_of_ne_nil hi.nonempty]
      exact ⟨spellDir_injective hr hi.safe, congrArg spellDir⟩
    have hmem : (∃ c, (r, Sum.inr c) ∈ L ++ [i]) ↔ (∃ c, (r, Sum.inr c) ∈ L) ∨ r = i.1 ∧ isDir i = true := by
      obtain ⟨p, x⟩ := i
      cases x with
      | inl _ => simp [isDir]
      | inr _ => simp [isDir, exists_or]
    rw [hmem, Checked.after]
    cases hd : isDir i with
    | false => simp [h.directories r hr]
    | true =>
        simp only [if_true, List.mem_cons, h.directories r hr, hdir, and_true]
        tauto
  · intro r m hr
    have hkey : siblingKey i = (spellDir q, lower n) := by
      rw [siblingKey, hq, List.dropLast_concat, List.getLastD_concat]
    have hsafe : ∀ part ∈ q, isUnsafe part = false := fun part hpart => hi.safe part (by simp [hq, hpart])
    have hmem : (∀ m' x, (r ++ [m'], x) ∈ L ++ [i] → Differ m' m) ↔
        (∀ m' x, (r ++ [m'], x) ∈ L → Differ m' m) ∧ (r = q → Differ n m) := by
      constructor
      · intro hall
        refine ⟨fun m' x hx => hall m' x (List.mem_append_left _ hx), ?_⟩
        rintro rfl
        exact hall n i.2 (List.mem_append_right _ (by rw [← hq]; exact .head _))
      · rintro ⟨hL, hlast⟩ m' x hx
        obtain hx | hx := List.mem_append.1 hx
        · exact hL m' x hx
        · have hp : r ++ [m'] = q ++ [n] := (congrArg Prod.fst (List.mem_singleton.1 hx)).trans hq
          obtain ⟨rfl, hm'⟩ := List.append_inj' hp rfl
          rw [(List.cons.inj hm').1]
          exact hlast rfl
    rw [hmem, Checked.after, List.lookup_cons, hkey, ← h.siblings r m hr]
    by_cases heq : (spellDir r, lower m) = (spellDir q, lower n)
    · obtain ⟨hr', hm⟩ := Prod.mk.inj heq
      obtain rfl := spellDir_injective hr hsafe hr'
      simp [Differ, hm]
    · rw [beq_false_of_ne heq]
      refine ⟨fun hL => ⟨hL, ?_⟩, And.left⟩
      rintro rfl hn
      exact heq (by rw [hn])

/-- `check_entries ()`, from the middle on. -/
theorem checkFrom_ok (hs : Reflects s L) (hL : Good L) {values : List Value} {k : Nat} :
    (∃ s', checkFrom what k s values = .ok s') ↔ ∃ L', Good (L ++ L') ∧ List.Forall₂ Describes L' values := by
  induction values generalizing s L k with
  | nil =>
      constructor
      · intro _
        exact ⟨[], by rwa [List.append_nil], .nil⟩
      · intro _
        exact ⟨s, rfl⟩
  | cons value values ih =>
      constructor
      · rintro ⟨s', h⟩
        obtain ⟨s₁, h₁, h⟩ := bind_ok.1 h
        obtain ⟨i, hdesc, hfits, hallowed, rfl⟩ := checkEntry_ok.1 h₁
        have hgood := good_concat.2 ⟨hL, hfits, (hs.allowed_iff hfits).1 hallowed⟩
        obtain ⟨L', hL', hdescs⟩ := (ih (hs.after hfits) hgood).1 ⟨s', h⟩
        exact ⟨i :: L', by rwa [List.append_assoc] at hL', .cons hdesc hdescs⟩
      · rintro ⟨_, hL', hall⟩
        obtain ⟨i, L', hdesc, hdescs, rfl⟩ := List.forall₂_cons_right_iff.1 hall
        rw [← List.singleton_append, ← List.append_assoc] at hL'
        obtain ⟨-, hfits, hfollows⟩ := good_concat.1 hL'.of_append
        have h₁ : ∀ what, checkEntry s value what = .ok (s.after i) := fun what =>
          checkEntry_ok.2 ⟨i, hdesc, hfits, (hs.allowed_iff hfits).2 hfollows, rfl⟩
        obtain ⟨s', h⟩ := (ih (hs.after hfits) hL'.of_append).2 ⟨L', hL', hdescs⟩
        exact ⟨s', bind_ok.2 ⟨_, h₁ _, h⟩⟩

/-- `check_entries ()` accepts the lists that describe places in the order of a tree. -/
theorem checkEntries_ok {values : List Value} :
    checkEntries values what = .ok () ↔ ∃ L, Good L ∧ List.Forall₂ Describes L values := by
  have h : (∃ s', checkFrom what 0 {} values = .ok s') ↔ ∃ L, Good L ∧ List.Forall₂ Describes L values :=
    checkFrom_ok Reflects.nil Good.nil
  rw [checkEntries, bind_ok, ← h]
  constructor
  · rintro ⟨s', hs', -⟩
    exact ⟨s', hs'⟩
  · rintro ⟨s', hs'⟩
    exact ⟨s', hs', rfl⟩

end MiniDarwin.Rootfs
