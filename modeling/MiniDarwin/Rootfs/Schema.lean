import MiniDarwin.Rootfs.Yaml

/-!
The checks that `mdrootfs.py` makes on single values of a document, and on
the paths in it.

`what` is where the value stands, for messages. A value that is missing is
null to all of them, as `dict.get ()` returns it.
-/

namespace MiniDarwin.Rootfs

/-- What an f-string makes of a value. What is in a list or a mapping is left out. -/
def shown : Value → Text
  | .scalar .null => lit "None"
  | .scalar (.bool true) => lit "True"
  | .scalar (.bool false) => lit "False"
  | .scalar (.int n) => scalar (.int n)
  | .scalar (.str s) => s
  | .list _ => lit "[...]"
  | .map _ => lit "\x7b...\x7d"

def str (s : Text) : Value := .scalar (.str s)

def null : Value := .scalar .null

/-- `entries.get (key)` -/
def get (entries : List (Text × Value)) (key : Text) : Value := (entries.lookup key).getD null

/-- `HEX64.match (text)`, or `COMMIT.match (text)`. -/
def isHex (length : Nat) (text : Text) : Bool :=
  text.length = length ∧ ∀ c ∈ text, 48 ≤ c ∧ c ≤ 57 ∨ 97 ≤ c ∧ c ≤ 102

/-- `NAME.match (text)` -/
def isName (text : Text) : Bool := text ≠ [] ∧ ∀ c ∈ text, 0x20 ≤ c ∧ c ≤ 0x7e ∧ c ≠ 0x2f

/-- What `hexdigest ()` returns of SHA-256. -/
structure Digest where
  text : Text
  wellFormed : isHex 64 text = true

instance : Inhabited Digest := ⟨⟨List.replicate 64 48, by decide⟩⟩

/-! ### Single values -/

/-- `_mapping ()` -/
def mapping (value : Value) (what : Text) : Result (List (Text × Value)) :=
  match value with
  | .map entries => .ok entries
  | _ => invalid (what ++ lit ": expected a mapping")

/-- `_keys ()` -/
def checkKeys (entries : List (Text × Value)) (allowed : List Text) (what : Text) (required : List Text) :
    Result Unit :=
  match (entries.map (·.1)).find? (· ∉ allowed) with
  | some key => invalid (what ++ lit ": unknown key '" ++ key ++ lit "'")
  | none =>
      match required.find? (!hasKey entries ·) with
      | some key => invalid (what ++ lit ": missing '" ++ key ++ lit "'")
      | none => .ok ()

/-- `_str ()` -/
def checkStr (value : Value) (what : Text) (optional : Bool) : Result (Option Text) :=
  match value, optional with
  | .scalar .null, true => .ok none
  | .scalar (.str (c :: s)), _ => .ok (some (c :: s))
  | _, _ => invalid (what ++ lit ": expected a non-empty string")

/-- `_int ()` -/
def checkInt (value : Value) (what : Text) (optional : Bool) : Result (Option Nat) :=
  match value, optional with
  | .scalar .null, true => .ok none
  | .scalar (.int (.ofNat n)), _ => .ok (some n)
  | _, _ => invalid (what ++ lit ": expected a non-negative integer")

/-- `_hex ()` -/
def checkHex (value : Value) (what : Text) (optional : Bool) : Result (Option Text) :=
  match value, optional with
  | .scalar .null, true => .ok none
  | .scalar (.str s), _ =>
      if isHex 64 s then .ok (some s) else invalid (what ++ lit ": expected 64 lowercase hex digits")
  | _, _ => invalid (what ++ lit ": expected 64 lowercase hex digits")

/-! ### Paths -/

/-- A component that no path may have. -/
def isUnsafe (part : Text) : Bool := part ∈ [[], lit ".", lit ".."] ∨ !isName part

/-- `split_path ()` -/
def splitPath (path : Value) (what : Text) : Result (List Text) :=
  match path with
  | .scalar (.str (47 :: c :: rest)) =>
      let parts := (c :: rest).splitOn 47
      match parts.find? isUnsafe with
      | some part => invalid (what ++ lit ": '" ++ shown path ++ lit "' has an unsafe component '" ++ part ++ lit "'")
      | none => .ok parts
  | _ => invalid (what ++ lit ": '" ++ shown path ++ lit "' is not an absolute path below /")

/-- What stands before the last slash of a path that has one. -/
def parentOf (path : Text) : Text :=
  match (path.rdropWhile (· ≠ 47)).dropLast with
  | [] => lit "/"
  | parent => parent

/-- What stands behind the last slash. -/
def nameOf (path : Text) : Text := path.rtakeWhile (· ≠ 47)

/-- `str.lower ()`, of a text of ASCII characters. -/
def lower (text : Text) : Text := text.map fun c => if 65 ≤ c ∧ c ≤ 90 then c + 32 else c

/-- `check_symlink_target ()` -/
def checkSymlinkTarget (path : Text) (target : Value) (what : Text) : Result Unit :=
  let link := what ++ lit ": symlink '" ++ path ++ lit "'"
  let arrow := link ++ lit " -> '" ++ shown target ++ lit "'"
  match target with
  | .scalar (.str (c :: rest)) =>
      if c = 47 then invalid (arrow ++ lit " is absolute")
      else
        let parts := (c :: rest).splitOn 47
        let ups := (parts.takeWhile (· = lit "..")).length
        let names := parts.drop ups
        if names = [] then invalid (arrow ++ lit " names no file")
        else if names.any isUnsafe then invalid (arrow ++ lit " is not (../)*name(/name)*")
        else if ups > path.count 47 - 1 then invalid (arrow ++ lit " leaves the tree")
        else .ok ()
  | _ => invalid (link ++ lit " has no target")

theorem bind_ok {ε α β : Type} {x : Except ε α} {f : α → Except ε β} {b : β} :
    x >>= f = .ok b ↔ ∃ a, x = .ok a ∧ f a = .ok b := by
  constructor
  · intro h
    cases x with
    | error e => cases h
    | ok a => exact ⟨a, rfl, h⟩
  · rintro ⟨a, rfl, h⟩
    exact h

theorem mapping_ok {value : Value} {what : Text} {entries : List (Text × Value)} :
    mapping value what = .ok entries ↔ value = .map entries := by
  cases value with
  | map _ => simp [mapping]
  | _ => simp [mapping, invalid]

theorem checkInt_ok {value : Value} {what : Text} {n : Option Nat} :
    checkInt value what false = .ok n ↔ ∃ k : Nat, n = some k ∧ value = .scalar (.int k) := by
  constructor
  · intro h
    unfold checkInt at h
    split at h
    case h_1 heq => cases heq
    case h_2 k =>
      cases h
      exact ⟨k, rfl, rfl⟩
    case h_3 => cases h
  · rintro ⟨k, rfl, rfl⟩
    rfl

theorem checkHex_ok {value : Value} {what : Text} {s : Option Text} :
    checkHex value what false = .ok s ↔ ∃ d : Digest, s = some d.text ∧ value = str d.text := by
  constructor
  · intro h
    unfold checkHex at h
    split at h
    case h_1 heq => cases heq
    case h_2 t =>
      split at h
      next ht =>
        cases h
        exact ⟨⟨t, ht⟩, rfl, rfl⟩
      · cases h
    case h_3 => cases h
  · rintro ⟨d, rfl, rfl⟩
    exact if_pos d.wellFormed

/-! ### Paths as lists of components -/

/-- The path with these components. -/
def spell (parts : List Text) : Text := parts.flatMap (47 :: ·)

/-- The path of a directory, the root included. -/
def spellDir (parts : List Text) : Text := if parts = [] then lit "/" else spell parts

variable {parts p q : List Text} {name : Text}

theorem spell_append (p q : List Text) : spell (p ++ q) = spell p ++ spell q := List.flatMap_append

theorem spell_concat (p : List Text) (name : Text) : spell (p ++ [name]) = spell p ++ 47 :: name := by
  rw [spell_append]
  simp [spell]

theorem spell_eq_intercalate (h : parts ≠ []) : spell parts = 47 :: [47].intercalate parts := by
  induction parts with
  | nil => exact absurd rfl h
  | cons part parts ih =>
      obtain rfl | hparts := eq_or_ne parts []
      · simp [spell]
      · rw [List.intercalate_cons_of_ne_nil hparts, spell, List.flatMap_cons, ← spell, ih hparts]
        simp

theorem spell_ne_nil (h : parts ≠ []) : spell parts ≠ [] := by
  rw [spell_eq_intercalate h]
  exact List.cons_ne_nil _ _

theorem not_mem_of_safe (h : isUnsafe name = false) : 47 ∉ name := by
  intro hmem
  have hname : isName name = true := by
    simp only [isUnsafe, decide_eq_false_iff_not, not_or, Bool.not_eq_true', Bool.not_eq_false] at h
    exact h.2
  simp only [isName, decide_eq_true_eq] at hname
  exact (hname.2 47 hmem).2.2 rfl

theorem ne_nil_of_safe (h : isUnsafe name = false) : name ≠ [] := by
  rintro rfl
  cases h

/-- `split_path ()` accepts the spelling of safe components. -/
theorem splitPath_ok {path : Value} {what : Text} :
    splitPath path what = .ok parts ↔
      path = str (spell parts) ∧ parts ≠ [] ∧ ∀ part ∈ parts, isUnsafe part = false := by
  constructor
  · intro h
    unfold splitPath at h
    split at h
    case h_2 => cases h
    case h_1 c rest =>
      simp only at h
      split at h
      · cases h
      next hfind =>
        cases h
        have hne := List.splitOn_ne_nil 47 (c :: rest)
        refine ⟨?_, hne, ?_⟩
        · rw [str, spell_eq_intercalate hne, List.intercalate_splitOn]
        · intro part hpart
          exact Bool.eq_false_iff.2 (List.find?_eq_none.1 hfind part hpart)
  · rintro ⟨rfl, hne, hsafe⟩
    have hsplit := List.splitOn_intercalate 47 (fun part hpart => not_mem_of_safe (hsafe part hpart)) hne
    have hcons : [47].intercalate parts ≠ [] := by
      intro h
      rw [h] at hsplit
      exact ne_nil_of_safe (hsafe [] (hsplit ▸ .head _)) rfl
    obtain ⟨c, rest, hrest⟩ := List.exists_cons_of_ne_nil hcons
    have hfind : parts.find? isUnsafe = none := by
      rw [List.find?_eq_none]
      intro part hpart
      exact Bool.eq_false_iff.1 (hsafe part hpart)
    rw [str, spell_eq_intercalate hne, hrest, splitPath]
    simp only [← hrest, hsplit, hfind]

theorem spell_injective (hp : ∀ part ∈ p, isUnsafe part = false) (hq : ∀ part ∈ q, isUnsafe part = false)
    (h : spell p = spell q) : p = q := by
  obtain rfl | hp' := eq_or_ne p []
  · by_contra hne
    exact spell_ne_nil (Ne.symm hne) h.symm
  obtain rfl | hq' := eq_or_ne q []
  · exact absurd h (spell_ne_nil hp')
  have hp : splitPath (str (spell p)) [] = .ok p := splitPath_ok.2 ⟨rfl, hp', hp⟩
  rw [h, splitPath_ok.2 ⟨rfl, hq', hq⟩] at hp
  cases hp
  rfl

theorem spellDir_of_ne_nil (h : parts ≠ []) : spellDir parts = spell parts := if_neg h

theorem spellDir_injective (hp : ∀ part ∈ p, isUnsafe part = false) (hq : ∀ part ∈ q, isUnsafe part = false)
    (h : spellDir p = spellDir q) : p = q := by
  -- the root is the one directory whose path ends in a slash
  have hroot : ∀ {q : List Text}, (∀ part ∈ q, isUnsafe part = false) → q ≠ [] → spellDir q ≠ lit "/" := by
    intro q hq hne heq
    obtain ⟨r, n, rfl⟩ := (List.eq_nil_or_concat q).resolve_left hne
    rw [List.concat_eq_append] at *
    have hlen := congrArg List.length heq
    rw [spellDir_of_ne_nil hne, spell_concat, List.length_append, List.length_cons] at hlen
    have hn := List.length_pos_of_ne_nil (ne_nil_of_safe (hq n (by simp)))
    have hroot : (lit "/").length = 1 := rfl
    omega
  obtain rfl | hp' := eq_or_ne p []
  · by_contra hne
    exact hroot hq (Ne.symm hne) h.symm
  obtain rfl | hq' := eq_or_ne q []
  · exact absurd h (hroot hp hp')
  rw [spellDir_of_ne_nil hp', spellDir_of_ne_nil hq'] at h
  exact spell_injective hp hq h

theorem parentOf_spell (h : 47 ∉ name) : parentOf (spell (p ++ [name])) = spellDir p := by
  have hdrop : (spell (p ++ [name])).rdropWhile (· ≠ 47) = spell p ++ [47] := by
    rw [spell_concat]
    induction name using List.reverseRecOn with
    | nil => exact List.rdropWhile_concat_neg _ _ _ (by simp)
    | append_singleton name c ih =>
        have hc : c ≠ 47 := by
          rintro rfl
          exact h (List.mem_append_right _ (.head _))
        rw [← List.cons_append, ← List.append_assoc, List.rdropWhile_concat_pos _ _ _ (by simpa using hc)]
        exact ih fun hmem => h (List.mem_append_left _ hmem)
  rw [parentOf, hdrop, List.dropLast_concat, spellDir]
  obtain rfl | hp := eq_or_ne p []
  · rfl
  · rw [if_neg hp]
    obtain ⟨c, rest, hrest⟩ := List.exists_cons_of_ne_nil (spell_ne_nil hp)
    rw [hrest]

theorem nameOf_spell (h : 47 ∉ name) : nameOf (spell (p ++ [name])) = name := by
  rw [nameOf, spell_concat]
  induction name using List.reverseRecOn with
  | nil => exact List.rtakeWhile_concat_neg _ _ _ (by simp)
  | append_singleton name c ih =>
      have hc : c ≠ 47 := by
        rintro rfl
        exact h (List.mem_append_right _ (.head _))
      rw [← List.cons_append, ← List.append_assoc, List.rtakeWhile_concat_pos _ _ _ (by simpa using hc),
        ih fun hmem => h (List.mem_append_left _ hmem)]

end MiniDarwin.Rootfs
