import MiniDarwin.Effects.Loop
import MiniDarwin.Rootfs.Loaded

/-!
Unpacking a tarball (`extract ()`).

The tarball is what the `tarfile` module makes of it: members, whatever
they are, and an end that may be an error. Every call that makes something
may fail as well, so that a run can stop anywhere. What is said of a run is
said of the record of its calls.
-/

namespace MiniDarwin.Rootfs

open Data Effects

/-! ### The tarball -/

inductive MemberKind where
  | directory
  | regular
  | symlink
  | other
  deriving DecidableEq

structure Member where
  name : Text
  kind : MemberKind
  mode : Int
  size : Int
  linkname : Text
  /-- What there is to read, a block at a time, or an error. After the last one nothing is left. -/
  blocks : List (Option Text)

/-- What is read in one go. -/
def readLimit : Nat := 1 <<< 20

structure Tarball where
  /-- `tarfile.open ()` returns. -/
  opens : Bool
  members : List Member
  /-- The last member is followed by the end, and not by an error. -/
  ends : Bool

/-! ### The calls -/

inductive Making where
  | mkdir (path : Text) (mode : Nat)
  /-- `os.open ()` with `O_WRONLY | O_CREAT | O_EXCL | O_NOFOLLOW` -/
  | create (path : Text) (mode : Nat)
  | write (path block : Text)
  | fchmod (path : Text) (mode : Nat)
  | symlink (target path : Text)
  | chmod (path : Text) (mode : Nat)
  deriving DecidableEq

/-- A call returns, or raises `OSError`. -/
def makings : Sig := ⟨Making, fun _ => Bool⟩

inductive Raised where
  | failure (f : Failure)
  | system

/-- The variables of `extract ()`. -/
structure Locals where
  made : List Text
  modes : List (Text × Nat)
  seen : List Text
  count : Nat

abbrev Extracting := Proc makings Locals Raised

def make (c : Making) : Extracting Unit := do
  let returned : Bool ← (Proc.sys c : Extracting Bool)
  if returned then pure () else Proc.fail .system

def lift {α : Type} : Result α → Extracting α
  | .ok a => pure a
  | .error f => Proc.fail (.failure f)

def refuse {α : Type} (message : Text) : Extracting α := Proc.fail (.failure (.invalid (lit "tarball: " ++ message)))

/-! ### Unpacking -/

/-- `_tar_path ()` -/
def tarPath (name : Text) : Result Text :=
  if 0 ∈ name then invalid (lit "tarball: entry name contains NUL")
  else if name ∈ [lit ".", lit "./"] then .ok (lit "/")
  else
    let name := (if lit "./" <+: name then name.drop 2 else name).rdropWhile (· = 47)
    if name = [] ∨ name.head? = some 47 then invalid (lit "tarball: entry '" ++ name ++ lit "' is absolute or empty")
    else do
      let _ ← splitPath (str (47 :: name)) (lit "tarball")
      return 47 :: name

/-- `entry["type"]` -/
def Body.type : Body → Text
  | .directory _ _ => lit "directory"
  | .file _ _ _ => lit "file"
  | .symlink _ => lit "symlink"

/-- The loop that copies what remains of a file. -/
def copyBlocks (path host : Text) : List (Option Text) → (remaining : Nat) → Extracting Unit
  | _, 0 => pure ()
  | [], _ + 1 => refuse (lit "'" ++ path ++ lit "' is truncated")
  | none :: _, _ + 1 => Proc.fail .system
  | some block :: blocks, remaining + 1 => do
      let block := block.take (min (remaining + 1) readLimit)
      if block = [] then refuse (lit "'" ++ path ++ lit "' is truncated")
      else do
        make (.write host block)
        copyBlocks path host blocks (remaining + 1 - block.length)

/-- What a member is made into. -/
def makeMember (dest path : Text) (mode : Nat) (body : Body) (member : Member) : Extracting Unit :=
  let host := dest ++ path
  let differs (what : Text) : Extracting Unit :=
    refuse (lit "'" ++ path ++ lit "' is a " ++ what ++ lit ", manifest says " ++ body.type)
  match member.kind with
  | .directory =>
      match body with
      | .directory _ _ => do
          make (.mkdir host 0o700)
          Proc.modify fun l => { l with modes := (host, mode) :: l.modes, made := path :: l.made }
      | _ => differs (lit "directory")
  | .regular =>
      match body with
      | .file _ size _ =>
          if member.size ≠ size then
            refuse (lit "'" ++ path ++ lit "' is " ++ scalar (.int member.size) ++ lit " bytes, manifest says " ++ decimal size)
          else do
            make (.create host 0o600)
            copyBlocks path host member.blocks size
            make (.fchmod host mode)
      | _ => differs (lit "file")
  | .symlink =>
      match body with
      | .symlink _ => do
          lift (checkSymlinkTarget path (str member.linkname) (lit "tarball"))
          make (.symlink member.linkname host)
      | _ => differs (lit "symlink")
  | .other => refuse (lit "'" ++ path ++ lit "' is not a file, directory or symlink")

/-- `manifest.by_path` -/
def byPath (entries : List Entry) (path : Text) : Option Entry := entries.reverse.find? (·.path = path)

/-- A round of the loop over the members. -/
def extractMember (dest : Text) (entries : List Entry) (member : Member) : Extracting Unit := do
  let path ← lift (tarPath member.name)
  if path = lit "/" then
    if member.kind ≠ .directory then refuse (lit "root entry is not a directory") else pure ()
  else do
    let l ← Proc.get
    if path ∈ l.seen then refuse (lit "'" ++ path ++ lit "' appears twice")
    else do
      Proc.modify fun l => { l with seen := path :: l.seen }
      match byPath entries path with
      | none => refuse (lit "'" ++ path ++ lit "' is not in the manifest")
      | some entry =>
          if parentOf path ∉ l.made then refuse (lit "'" ++ path ++ lit "' comes before its parent directory")
          -- `member.mode & 0o7000`
          else if member.mode / 0o1000 % 8 ≠ 0 then refuse (lit "'" ++ path ++ lit "' is set-id or sticky")
          else do
            makeMember dest path (member.mode % 0o1000).toNat entry.body member
            Proc.modify fun l => { l with count := l.count + 1 }

/-- `extract ()` -/
def extract (dest : Text) (entries : List Entry) (tarball : Tarball) : Extracting Nat := do
  make (.mkdir dest 0o755)
  if tarball.opens = false then Proc.fail .system
  else do
    Proc.each (extractMember dest entries) tarball.members
    if tarball.ends = false then Proc.fail .system
    else do
      let l ← Proc.get
      -- the latest one first
      Proc.each (fun x => make (.chmod x.1 x.2)) l.modes
      return l.count

/-- The variables before the loop. -/
def Locals.start : Locals := ⟨[lit "/"], [], [], 0⟩

/-! ### What a run may do -/

abbrev Record := List (Σ c, makings.Ans c)

/-- The path that a call creates, and what there is then. -/
def Making.creates : Making → Option (Text × Text)
  | .mkdir path _ => some (path, lit "directory")
  | .create path _ => some (path, lit "file")
  | .symlink _ path => some (path, lit "symlink")
  | _ => none

def Making.mode : Making → Option Nat
  | .mkdir _ mode | .create _ mode | .fchmod _ mode | .chmod _ mode => some mode
  | _ => none

/-- The bytes that a file was given. -/
def written (host : Text) (t : Record) : Nat :=
  (t.map fun c => match c.1 with
    | .write path block => if path = host then block.length else 0
    | _ => 0).sum

/-- The run has made this directory. -/
def IsMade (dest : Text) (t : Record) (q : List Text) : Prop :=
  ∃ mode, (⟨.mkdir (dest ++ spell q) mode, true⟩ : Σ c, makings.Ans c) ∈ t

/-- What a call keeps to, given what the run has done before it. -/
structure Confined (dest : Text) (entries : List Entry) (c : Making) (t : Record) : Prop where
  /-- The first call makes `dest`. Everything else is an entry, of its own type, with all above it made before. -/
  created : ∀ host type, c.creates = some (host, type) → (t = [] ∧ host = dest ∧ type = lit "directory") ∨
    ∃ e ∈ entries, ∃ p, (∀ part ∈ p, isUnsafe part = false) ∧ e.path = spell p ∧ host = dest ++ spell p ∧
      e.body.type = type ∧ ∀ q, q <+: p → q ≠ p → IsMade dest t q
  once : ∀ host type, c.creates = some (host, type) → ∀ c' ∈ t, ∀ type', c'.1.creates ≠ some (host, type')
  bytes : ∀ host block, c = .write host block → ∃ e ∈ entries, ∃ mode size sha256, host = dest ++ e.path ∧
    e.body = .file mode size sha256 ∧ written host t + block.length ≤ size
  mode : ∀ mode, c.mode = some mode → mode < 0o1000
  link : ∀ target host, c = .symlink target host → ∃ e ∈ entries, host = dest ++ e.path ∧
    ∀ what, checkSymlinkTarget e.path (str target) what = .ok ()

variable {dest path host : Text} {entries : List Entry} {l : Locals} {t : Record} {p : List Text} {e : Entry}
  {c : Making} {r : Bool}

/-! ### What the loop keeps -/

/-- What a call creates or writes. -/
def Making.touches : Making → Option Text
  | .mkdir path _ | .create path _ | .write path _ | .symlink _ path => some path
  | _ => none

theorem Making.touches_of_creates {type : Text} (h : c.creates = some (host, type)) : c.touches = some host := by
  cases c <;> cases h <;> rfl

structure Held (dest : Text) (l : Locals) (t : Record) : Prop where
  made : ∀ p, (∀ part ∈ p, isUnsafe part = false) → spellDir p ∈ l.made → ∀ q, q <+: p → IsMade dest t q
  seen : ∀ c ∈ t, ∀ host, c.1.touches = some host → host = dest ∨ ∃ path ∈ l.seen, host = dest ++ path
  modes : ∀ x ∈ l.modes, x.2 < 0o1000

theorem IsMade.later {q : List Text} (h : IsMade dest t q) (e : Σ c, makings.Ans c) : IsMade dest (e :: t) q :=
  h.imp fun _ hmem => .tail _ hmem

theorem Held.add (h : Held dest l t)
    (hc : ∀ host, c.touches = some host → host = dest ∨ ∃ path ∈ l.seen, host = dest ++ path) :
    Held dest l (⟨c, r⟩ :: t) where
  made := fun p hp hmem q hq => (h.made p hp hmem q hq).later _
  seen := List.forall_mem_cons.2 ⟨hc, h.seen⟩
  modes := h.modes

theorem Held.see (h : Held dest l t) (path : Text) : Held dest { l with seen := path :: l.seen } t where
  made := h.made
  seen := by
    intro c hc host hhost
    exact (h.seen c hc host hhost).imp_right fun ⟨path', hpath', heq⟩ => ⟨path', .tail _ hpath', heq⟩
  modes := h.modes

/-- A path that was not seen was not touched. -/
theorem Held.untouched (h : Held dest l t) (hne : path ≠ []) (hseen : path ∉ l.seen) :
    ∀ c ∈ t, c.1.touches ≠ some (dest ++ path) := by
  intro c hc htouches
  obtain heq | ⟨path', hpath', heq⟩ := h.seen c hc _ htouches
  · exact hne (List.self_eq_append_right.1 heq.symm)
  · exact hseen (List.append_cancel_left heq ▸ hpath')

/-- A directory is entered whose parent was. -/
theorem Held.enter (h : Held dest l t) {mode : Nat} (hp : ∀ part ∈ p, isUnsafe part = false) (hne : p ≠ [])
    (hparent : spellDir p.dropLast ∈ l.made) (hmade : IsMade dest t p) (hmode : mode < 0o1000) :
    Held dest { l with modes := (dest ++ spell p, mode) :: l.modes, made := spell p :: l.made } t where
  made := by
    intro p' hp' hmem q hq
    obtain heq | hmem := List.mem_cons.1 hmem
    · rw [← spellDir_of_ne_nil hne] at heq
      obtain rfl := spellDir_injective hp' hp heq
      obtain rfl | hqp := eq_or_ne q p'
      · exact hmade
      · exact h.made _ (fun part hpart => hp part (List.dropLast_subset _ hpart)) hparent q (prefix_dropLast hq hqp)
    · exact h.made p' hp' hmem q hq
  seen := h.seen
  modes := List.forall_mem_cons.2 ⟨hmode, h.modes⟩

/-! ### One member -/

/-- Every call of a run is confined, and a run that returns has `Q`. -/
abbrev Confines {α : Type} (dest : Text) (entries : List Entry) (m : Extracting α) (Q : α → Locals → Record → Prop)
    (l : Locals) (t : Record) : Prop :=
  Proc.wp (recorded makings) (Confined dest entries) m Q (fun _ _ _ => True) l t

theorem confines_make {Q : Unit → Locals → Record → Prop} (hc : Confined dest entries c t) (hQ : Q () l (⟨c, true⟩ :: t)) :
    Confines dest entries (make c) Q l t := by
  refine Proc.wp_bind.2 (Proc.wp_sys.2 ⟨hc, ?_⟩)
  rintro (_ | _) _ rfl
  · trivial
  · exact hQ

theorem confines_lift {α : Type} {Q : α → Locals → Record → Prop} {x : Result α} (h : ∀ a, x = .ok a → Q a l t) :
    Confines dest entries (lift x) Q l t := by
  cases x with
  | error f => trivial
  | ok a => exact h a rfl

theorem confined_chmod {mode : Nat} (hc : c = .chmod host mode ∨ c = .fchmod host mode) (hmode : mode < 0o1000) :
    Confined dest entries c t := by
  obtain rfl | rfl := hc <;>
    exact ⟨by simp [Making.creates], by simp [Making.creates], by simp, by simpa [Making.mode] using hmode, by simp⟩

/-- A member whose turn it is: its entry is found, its parent is there and nothing is at its path. -/
structure Due (dest : Text) (entries : List Entry) (e : Entry) (p : List Text) (l : Locals) (t : Record) : Prop where
  held : Held dest l t
  entry : e ∈ entries
  safe : ∀ part ∈ p, isUnsafe part = false
  nonempty : p ≠ []
  path : e.path = spell p
  seen : spell p ∈ l.seen
  parent : spellDir p.dropLast ∈ l.made
  untouched : ∀ c ∈ t, c.1.touches ≠ some (dest ++ spell p)

theorem Due.above (h : Due dest entries e p l t) {q : List Text} (hq : q <+: p) (hne : q ≠ p) : IsMade dest t q :=
  h.held.made _ (fun part hpart => h.safe part (List.dropLast_subset _ hpart)) h.parent q (prefix_dropLast hq hne)

theorem Due.confined (h : Due dest entries e p l t) (hc : c.creates = some (dest ++ spell p, e.body.type))
    (hmode : ∀ mode, c.mode = some mode → mode < 0o1000)
    (hlink : ∀ target host, c = .symlink target host → ∀ what, checkSymlinkTarget e.path (str target) what = .ok ()) :
    Confined dest entries c t where
  created := by
    intro host type hcreates
    obtain ⟨rfl, rfl⟩ := Prod.mk.inj (Option.some.inj (hc.symm.trans hcreates))
    exact .inr ⟨e, h.entry, p, h.safe, h.path, rfl, rfl, fun q hq hne => h.above hq hne⟩
  once := by
    intro host type hcreates c' hc' type' hcreates'
    obtain ⟨rfl, rfl⟩ := Prod.mk.inj (Option.some.inj (hc.symm.trans hcreates))
    exact h.untouched c' hc' (Making.touches_of_creates hcreates')
  bytes := by
    rintro host block rfl
    cases hc
  mode := hmode
  link := by
    rintro target host rfl
    obtain ⟨rfl, -⟩ := Prod.mk.inj (Option.some.inj hc)
    exact ⟨e, h.entry, congrArg (dest ++ ·) h.path.symm, hlink target _ rfl⟩

theorem written_eq_zero (h : ∀ c ∈ t, c.1.touches ≠ some host) : written host t = 0 := by
  rw [written, List.sum_eq_zero_iff]
  intro n hn
  obtain ⟨⟨c, r⟩, hc, rfl⟩ := List.mem_map.1 hn
  have hne := h _ hc
  cases c with
  | write path block => exact if_neg fun heq => hne (congrArg some heq)
  | _ => rfl

/-- What is copied stays within what remains. -/
theorem confines_copyBlocks {size remaining : Nat} {mode sha256 : Text} {blocks : List (Option Text)} (he : e ∈ entries)
    (hpath : e.path = path) (hbody : e.body = .file mode size sha256) (hseen : path ∈ l.seen) (h : Held dest l t)
    (hle : written (dest ++ path) t + remaining ≤ size) :
    Confines dest entries (copyBlocks path (dest ++ path) blocks remaining) (fun _ l' t' => Held dest l' t') l t := by
  induction blocks generalizing remaining t with
  | nil =>
      cases remaining with
      | zero => exact h
      | succ remaining => trivial
  | cons block blocks ih =>
      cases remaining with
      | zero => exact h
      | succ remaining =>
          cases block with
          | none => trivial
          | some block =>
              rw [copyBlocks]
              split
              · trivial
              · have hlen := List.length_take_le (min (remaining + 1) readLimit) block
                refine Proc.wp_bind.2 (confines_make ?_ (ih ?_ ?_))
                · refine ⟨by simp [Making.creates], by simp [Making.creates], ?_, by simp [Making.mode], by simp⟩
                  intro host block' heq
                  obtain ⟨rfl, rfl⟩ := Making.write.inj heq
                  exact ⟨e, he, mode, size, sha256, by rw [hpath], hbody, by omega⟩
                · refine h.add ?_
                  intro host htouches
                  exact .inr ⟨path, hseen, (Option.some.inj htouches).symm⟩
                · rw [written, List.map_cons, List.sum_cons, ← written]
                  simp only [if_true]
                  omega

theorem confines_makeMember {mode : Nat} (member : Member) (h : Due dest entries e p l t) (hmode : mode < 0o1000) :
    Confines dest entries (makeMember dest (spell p) mode e.body member) (fun _ l' t' => Held dest l' t') l t := by
  obtain ⟨name, kind, memberMode, memberSize, linkname, blocks⟩ := member
  have hheld : ∀ {c : Making} {r : Bool}, c.touches = some (dest ++ spell p) → Held dest l (⟨c, r⟩ :: t) := by
    intro c r hc
    refine h.held.add ?_
    intro host htouches
    exact .inr ⟨_, h.seen, Option.some.inj (htouches.symm.trans hc)⟩
  cases kind with
  | other => trivial
  | directory =>
      cases hbody : e.body with
      | file _ _ _ => trivial
      | symlink _ => trivial
      | directory _ _ =>
          refine Proc.wp_bind.2 (confines_make ?_ ?_)
          · exact h.confined (by rw [hbody]; rfl) (by simp [Making.mode]) (by simp)
          · exact (hheld rfl).enter h.safe h.nonempty h.parent ⟨_, .head _⟩ hmode
  | regular =>
      cases hbody : e.body with
      | directory _ _ => trivial
      | symlink _ => trivial
      | file entryMode size sha256 =>
          rw [makeMember]
          simp only
          split
          · trivial
          · have hnone : written (dest ++ spell p) (⟨.create (dest ++ spell p) 0o600, true⟩ :: t) = 0 := by
              rw [written, List.map_cons, List.sum_cons, ← written, written_eq_zero h.untouched]
            refine Proc.wp_bind.2 (confines_make ?_ (Proc.wp_bind.2 ?_))
            · exact h.confined (by rw [hbody]; rfl) (by simp [Making.mode]) (by simp)
            · refine (confines_copyBlocks h.entry h.path hbody h.seen (hheld rfl) (by omega)).post ?_ fun _ _ _ => id
              intro _ l' t' hheld'
              exact confines_make (confined_chmod (.inr rfl) hmode) (hheld'.add (by simp [Making.touches]))
  | symlink =>
      cases hbody : e.body with
      | directory _ _ => trivial
      | file _ _ _ => trivial
      | symlink _ =>
          refine Proc.wp_bind.2 (confines_lift ?_)
          intro _ hcheck
          refine confines_make ?_ (hheld rfl)
          refine h.confined (by rw [hbody]; rfl) (by simp [Making.mode]) ?_
          intro target host heq what
          obtain ⟨rfl, -⟩ := Making.symlink.inj heq
          rw [h.path]
          exact checkSymlinkTarget_congr what hcheck

/-! ### A whole run -/

/-- A member's path is the root, or safe. -/
theorem tarPath_ok {name : Text} (h : tarPath name = .ok path) :
    path = lit "/" ∨ ∃ p, path = spell p ∧ p ≠ [] ∧ ∀ part ∈ p, isUnsafe part = false := by
  unfold tarPath at h
  split at h
  · cases h
  split at h
  · exact .inl (Except.ok.inj h).symm
  generalize (if lit "./" <+: name then name.drop 2 else name).rdropWhile (· = 47) = name at h
  simp only at h
  split at h
  · cases h
  · obtain ⟨parts, hparts, h⟩ := bind_ok.1 h
    obtain ⟨hspell, hne, hsafe⟩ := splitPath_ok.1 hparts
    obtain rfl := Except.ok.inj h
    exact .inr ⟨parts, by simpa [str] using hspell, hne, hsafe⟩

theorem byPath_ok (h : byPath entries path = some e) : e ∈ entries ∧ e.path = path :=
  ⟨List.mem_reverse.1 (List.mem_of_find?_eq_some h), by simpa using List.find?_some h⟩

theorem parentOf_safe (hne : p ≠ []) (hp : ∀ part ∈ p, isUnsafe part = false) : parentOf (spell p) = spellDir p.dropLast := by
  obtain ⟨q, n, rfl⟩ := (List.eq_nil_or_concat p).resolve_left hne
  rw [List.concat_eq_append] at *
  rw [parentOf_spell (not_mem_of_safe (hp n (by simp))), List.dropLast_concat]

theorem confines_extractMember (member : Member) (h : Held dest l t) :
    Confines dest entries (extractMember dest entries member) (fun _ l' t' => Held dest l' t') l t := by
  refine Proc.wp_bind.2 (confines_lift ?_)
  intro path hpath
  by_cases hroot : path = lit "/"
  · rw [if_pos hroot]
    split
    · trivial
    · exact h
  rw [if_neg hroot]
  refine Proc.wp_bind.2 (Proc.wp_get.2 ?_)
  split
  · trivial
  next hseen =>
    obtain ⟨p, rfl, hne, hsafe⟩ := (tarPath_ok hpath).resolve_left hroot
    refine Proc.wp_bind.2 (Proc.wp_modify.2 ?_)
    cases hentry : byPath entries (spell p) with
    | none => trivial
    | some e =>
        simp only
        split
        · trivial
        split
        · trivial
        next hparent _ =>
          obtain ⟨hmem, hepath⟩ := byPath_ok hentry
          rw [parentOf_safe hne hsafe] at hparent
          have hdue : Due dest entries e p { l with seen := spell p :: l.seen } t :=
            ⟨h.see _, hmem, hsafe, hne, hepath, .head _, not_not.1 hparent, h.untouched (spell_ne_nil hne) hseen⟩
          refine Proc.wp_bind.2 ((confines_makeMember member hdue (by omega)).post ?_ fun _ _ _ => id)
          intro _ l' t' hheld
          exact ⟨hheld.made, hheld.seen, hheld.modes⟩

theorem confined_dest : Confined dest entries (.mkdir dest 0o755) [] where
  created := by
    intro host type hcreates
    obtain ⟨rfl, rfl⟩ := Prod.mk.inj (Option.some.inj hcreates)
    exact .inl ⟨rfl, rfl, rfl⟩
  once := by simp
  bytes := by simp
  mode := by simp [Making.mode]
  link := by simp

theorem held_start : Held dest .start [⟨.mkdir dest 0o755, true⟩] where
  made := by
    intro p hp hmem q hq
    have hroot : spellDir p = spellDir [] := List.mem_singleton.1 hmem
    obtain rfl := spellDir_injective hp (by simp) hroot
    obtain rfl := List.prefix_nil.1 hq
    exact ⟨0o755, by rw [show spell [] = [] from rfl, List.append_nil]; exact .head _⟩
  seen := by
    intro c hc host htouches
    obtain rfl := List.mem_singleton.1 hc
    exact .inl (Option.some.inj htouches).symm
  modes := by simp [Locals.start]

theorem confines_members (members : List Member) (h : Held dest l t) :
    Confines dest entries (Proc.each (extractMember dest entries) members) (fun _ l' t' => Held dest l' t') l t :=
  Proc.wp_each (fun _ l t => Held dest l t) (fun member _ _ _ h => confines_extractMember member h) h

theorem confines_chmods {modes : List (Text × Nat)} (h : ∀ x ∈ modes, x.2 < 0o1000) :
    Confines dest entries (Proc.each (fun x => make (.chmod x.1 x.2)) modes) (fun _ _ _ => True) l t := by
  refine Proc.wp.post (Proc.wp_each (fun rest _ _ => ∀ x ∈ rest, (x : Text × Nat).2 < 0o1000) ?_ h) (fun _ _ _ _ => trivial)
    fun _ _ _ => id
  intro x rest _ _ hx
  exact confines_make (confined_chmod (.inl rfl) (hx x (.head _))) fun y hy => hx y (.tail _ hy)

theorem confines_extract (dest : Text) (entries : List Entry) (tarball : Tarball) :
    Confines dest entries (extract dest entries tarball) (fun _ _ _ => True) .start [] := by
  refine Proc.wp_bind.2 (confines_make confined_dest ?_)
  split
  · trivial
  refine Proc.wp_bind.2 ((confines_members tarball.members held_start).post ?_ fun _ _ _ => id)
  intro _ l t h
  split
  · trivial
  refine Proc.wp_bind.2 (Proc.wp_get.2 (Proc.wp_bind.2 ?_))
  exact (confines_chmods h.modes).post (fun _ _ _ _ => trivial) fun _ _ _ => id

/-- **Extraction is confined**, whatever the tarball says and wherever the run stops: what it has done so far
keeps to the entries, call by call. -/
theorem extract_confined (dest : Text) (entries : List Entry) (tarball : Tarball)
    {q : Prog makings (Except Raised Nat × Locals)} {t : Record}
    (h : Prog.Reach (recorded makings) (extract dest entries tarball .start) [] q t) :
    Always (fun c => Confined dest entries c.1) t :=
  (confines_extract dest entries tarball).always h always_nil

/-! A directory, and a file in it. -/

def fewEntries : List Entry :=
  [⟨lit "/d", .directory (lit "0755") none⟩, ⟨lit "/d/f", .file (lit "0644") 2 (default : Digest).text⟩]

def fewMembers : Tarball where
  opens := true
  members := [⟨lit "./d/", .directory, 0o755, 0, [], []⟩, ⟨lit "d/f", .regular, 0o644, 2, [], [some (lit "ab")]⟩]
  ends := true

/-- Every call returns. -/
def allReturn (c : Making) (t : Record) : Bool × Record := (true, ⟨c, true⟩ :: t)

theorem extract_confined_few : Always (fun c => Confined (lit "/r") fewEntries c.1)
    ((extract (lit "/r") fewEntries fewMembers .start).exec allReturn []).2 :=
  extract_confined (lit "/r") fewEntries fewMembers (Prog.reach_exec (fun _ _ => rfl) _ _)

example : ((extract (lit "/r") fewEntries fewMembers .start).exec allReturn []).2.map (fun c => (c.1 : Making)) =
    [.chmod (lit "/r/d") 0o755, .fchmod (lit "/r/d/f") 0o644, .write (lit "/r/d/f") (lit "ab"),
      .create (lit "/r/d/f") 0o600, .mkdir (lit "/r/d") 0o700, .mkdir (lit "/r") 0o755] := by
  decide

end MiniDarwin.Rootfs
