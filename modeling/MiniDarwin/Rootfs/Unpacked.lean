import MiniDarwin.Rootfs.Extract

/-!
What `extract ()` makes of a tarball.

The destination is what there is at each path beneath it, and a call that
returns changes what is at its own path. A member is taken or refused by
what it is and by the members before it, so that a whole run is known from
the tarball: whether it returns, and what it leaves.
-/

namespace MiniDarwin.Rootfs

open Data Effects

/-! ### The destination -/

/-- What a call leaves at a path. -/
inductive Made where
  | directory (mode : Nat)
  | file (mode : Nat) (content : Text)
  | symlink (target : Text)
  deriving DecidableEq

/-- What there is beneath the destination. -/
abbrev Dest : Type := List Text → Option Made

def Dest.IsDir (s : Dest) (p : List Text) : Prop := ∃ mode, s p = some (.directory mode)

def Making.path : Making → Text
  | .mkdir path _ | .create path _ | .write path _ | .fchmod path _ | .symlink _ path | .chmod path _ => path

/-- What a call that returns makes of what is at its path. The umask may be any. -/
def Making.Makes : Making → Option Made → Option Made → Prop
  | .mkdir _ _, none, some (.directory _) => True
  | .create _ _, none, some (.file _ []) => True
  | .write _ block, some (.file mode content), new => new = some (.file mode (content ++ block))
  | .fchmod _ mode, some (.file _ content), new => new = some (.file mode content)
  | .symlink target _, none, new => new = some (.symlink target)
  | .chmod _ mode, some (.directory _), new => new = some (.directory mode)
  | .chmod _ mode, some (.file _ content), new => new = some (.file mode content)
  | _, _, _ => False

/-- The path leads through directories, and a link there is not followed. -/
structure Straight (s : Dest) (c : Making) (p : List Text) : Prop where
  above : ∀ q, q <+: p → q ≠ p → s.IsDir q
  link : ∀ path mode, c = .chmod path mode → ∀ target, s p ≠ some (.symlink target)

/-- What calls do at a path that does not lead elsewhere. One that could return fails only where that is
admitted, and whatever fails may leave anything. -/
def unpacking (flaky : Making → Dest → Prop) (dest : Text) : Sem makings Dest := fun c r_before r s' =>
  ∀ p, (∀ part ∈ p, isUnsafe part = false) → c.path = dest ++ spell p → Straight r_before c p →
    (r = true → c.Makes (r_before p) (s' p) ∧ ∀ q, q ≠ p → s' q = r_before q) ∧
      (r = false → flaky c r_before ∨ ∀ new, ¬ c.Makes (r_before p) new)

/-! ### Members -/

/-- The bytes that are copied, if there are enough of them. -/
def readBlocks : List (Option Text) → (remaining : Nat) → Option Text
  | _, 0 => some []
  | [], _ + 1 => none
  | none :: _, _ + 1 => none
  | some block :: blocks, remaining + 1 =>
      let block := block.take (min (remaining + 1) readLimit)
      if block = [] then none else (readBlocks blocks (remaining + 1 - block.length)).map (block ++ ·)

/-- `member.mode & 0o777` -/
def Member.bits (member : Member) : Nat := (member.mode % 0o1000).toNat

/-- The path of a member that is not the root. -/
def Member.place (member : Member) : Option Text :=
  match tarPath member.name with
  | .ok path => if path = lit "/" then none else some path
  | .error _ => none

/-- What a member is unpacked to. -/
def Member.unpacked (member : Member) : Made :=
  match member.kind with
  | .directory => .directory member.bits
  | .regular => .file member.bits ((readBlocks member.blocks member.size.toNat).getD [])
  | .symlink | .other => .symlink member.linkname

/-- The member is what the entry says, and all of it can be read. -/
def Member.Comes (member : Member) (path : Text) : Body → Prop
  | .directory _ _ => member.kind = .directory
  | .file _ size _ => member.kind = .regular ∧ member.size = size ∧ (readBlocks member.blocks size).isSome
  | .symlink _ =>
      member.kind = .symlink ∧ checkSymlinkTarget path (str member.linkname) (lit "tarball") = .ok ()

/-- The member is taken when those in `done` have been. -/
def Member.Taken (entries : List Entry) (done : List Member) (member : Member) : Prop :=
  ∃ path, tarPath member.name = .ok path ∧
    (path = lit "/" ∧ member.kind = .directory ∨
      path ≠ lit "/" ∧ (∀ earlier ∈ done, earlier.place ≠ some path) ∧
        (∃ e, byPath entries path = some e ∧ member.Comes path e.body) ∧
        (parentOf path = lit "/" ∨
          ∃ earlier ∈ done, earlier.place = some (parentOf path) ∧ earlier.kind = .directory) ∧
        member.mode / 0o1000 % 8 = 0)

/-- Each member is taken in its turn. -/
def AllTaken (entries : List Entry) (members : List Member) : Prop :=
  ∀ l member l', members = l ++ member :: l' → member.Taken entries l

variable {flaky : Making → Dest → Prop} {dest path host : Text} {entries : List Entry} {l l' : Locals} {s s' : Dest}
  {p q : List Text} {e : Entry} {c : Making} {done members : List Member} {member : Member} {pending : List (Text × Nat)}
  {body : Body} {F : Prop}

/-! ### Calls -/

/-- A run that returns has `Q`, and one that raises has a reason. -/
abbrev Unpacks {α : Type} (flaky : Making → Dest → Prop) (dest : Text) (m : Extracting α)
    (Q : α → Locals → Dest → Prop) (F : Prop) (l : Locals) (s : Dest) : Prop :=
  Proc.wp (unpacking flaky dest) (fun _ _ => True) m Q (fun _ _ _ => F) l s

/-- Calls fail only where they cannot return. -/
def Calm (flaky : Making → Dest → Prop) : Prop := ∀ c s, ¬ flaky c s

theorem unpacks_make {Q : Unit → Locals → Dest → Prop} {n : Option Made} (hp : ∀ part ∈ p, isUnsafe part = false)
    (hpath : c.path = dest ++ spell p) (hs : Straight s c p) (hcan : c.Makes (s p) n) (hF : ¬ Calm flaky → F)
    (hQ : ∀ s', c.Makes (s p) (s' p) → (∀ q, q ≠ p → s' q = s q) → Q () l s') :
    Unpacks flaky dest (make c) Q F l s := by
  refine Proc.wp_bind.2 (Proc.wp_sys.2 ⟨trivial, ?_⟩)
  intro r s' hr
  obtain ⟨htrue, hfalse⟩ := hr p hp hpath hs
  cases r with
  | true =>
      obtain ⟨hmakes, hrest⟩ := htrue rfl
      exact hQ s' hmakes hrest
  | false =>
      refine hF fun hcalm => ?_
      obtain hflaky | hno := hfalse rfl
      · exact hcalm c s hflaky
      · exact hno n hcan

/-- What is above a path is not touched at it. -/
theorem above_of_rest (h : ∀ q, q <+: p → q ≠ p → s.IsDir q) (hrest : ∀ q, q ≠ p → s' q = s q) :
    ∀ q, q <+: p → q ≠ p → s'.IsDir q := by
  intro q hq hne
  obtain ⟨m, hm⟩ := h q hq hne
  exact ⟨m, (hrest q hne).trans hm⟩

/-- What is copied are the bytes that can be read. -/
theorem unpacks_copyBlocks {Q : Unit → Locals → Dest → Prop} {blocks : List (Option Text)} {remaining mode : Nat}
    {content : Text} (hp : ∀ part ∈ p, isUnsafe part = false) (hs : s p = some (.file mode content))
    (habove : ∀ q, q <+: p → q ≠ p → s.IsDir q) (hF : ¬ Calm flaky → F)
    (hbad : readBlocks blocks remaining = none → F)
    (hQ : ∀ bytes s', readBlocks blocks remaining = some bytes → s' p = some (.file mode (content ++ bytes)) →
      (∀ q, q ≠ p → s' q = s q) → Q () l s') :
    Unpacks flaky dest (copyBlocks (spell p) (dest ++ spell p) blocks remaining) Q F l s := by
  induction blocks generalizing remaining content s with
  | nil =>
      cases remaining with
      | zero => exact hQ [] s rfl (by simpa using hs) fun _ _ => rfl
      | succ remaining => exact hbad rfl
  | cons block blocks ih =>
      cases remaining with
      | zero => exact hQ [] s rfl (by simpa using hs) fun _ _ => rfl
      | succ remaining =>
          cases block with
          | none => exact hbad rfl
          | some block =>
              rw [copyBlocks]
              rw [readBlocks] at hbad
              simp only [readBlocks] at hQ
              generalize block.take (min (remaining + 1) readLimit) = block at hbad hQ ⊢
              by_cases hnil : block = []
              · rw [if_pos hnil]
                exact hbad (if_pos hnil)
              rw [if_neg hnil]
              simp only [if_neg hnil] at hbad hQ
              refine Proc.wp_bind.2 (unpacks_make (n := some (.file mode (content ++ block))) hp rfl
                ⟨habove, by simp⟩ (by rw [hs]; rfl) hF ?_)
              intro s1 hmakes hrest
              have hs1 : s1 p = some (.file mode (content ++ block)) := by
                rw [hs] at hmakes
                exact hmakes
              refine ih hs1 (above_of_rest habove hrest) (fun hnone => hbad (by rw [hnone]; rfl)) ?_
              intro bytes s2 hread hs2 hrest2
              refine hQ (block ++ bytes) s2 (by rw [hread]; rfl) ?_ fun q hq => (hrest2 q hq).trans (hrest q hq)
              rw [hs2, List.append_assoc]

/-! ### One member -/

/-- The variables when a member has been made. -/
def Locals.enter (dest : Text) (l : Locals) (member : Member) (path : Text) : Locals :=
  { l with
    modes := if member.kind = .directory then (dest ++ path, member.bits) :: l.modes else l.modes
    made := if member.kind = .directory then path :: l.made else l.made }

/-- A directory has its mode in the end only. -/
def Member.MadeAt (member : Member) (s : Dest) (p : List Text) : Prop :=
  if member.kind = .directory then s.IsDir p else s p = some member.unpacked

theorem unpacks_makeMember {Q : Unit → Locals → Dest → Prop} (hp : ∀ part ∈ p, isUnsafe part = false)
    (hs : s p = none) (habove : ∀ q, q <+: p → q ≠ p → s.IsDir q) (hF : ¬ Calm flaky → F)
    (hbad : ¬ member.Comes (spell p) body → F)
    (hQ : ∀ s', member.Comes (spell p) body → member.MadeAt s' p → (∀ q, q ≠ p → s' q = s q) →
      Q () (l.enter dest member (spell p)) s') :
    Unpacks flaky dest (makeMember dest (spell p) member.bits body member) Q F l s := by
  obtain ⟨name, kind, memberMode, memberSize, linkname, blocks⟩ := member
  cases kind with
  | other => exact hbad (by cases body <;> simp [Member.Comes])
  | directory =>
      cases body with
      | file _ _ _ => exact hbad (by simp [Member.Comes])
      | symlink _ => exact hbad (by simp [Member.Comes])
      | directory _ _ =>
          refine Proc.wp_bind.2 (unpacks_make (n := some (.directory 0)) hp rfl ⟨habove, by simp⟩ (by rw [hs]; trivial)
            hF ?_)
          intro s1 hmakes hrest
          have hs1 : s1.IsDir p := by
            rw [hs] at hmakes
            unfold Making.Makes at hmakes
            split at hmakes <;> simp_all [Dest.IsDir]
          exact hQ s1 rfl hs1 hrest
  | regular =>
      cases body with
      | directory _ _ => exact hbad (by simp [Member.Comes])
      | symlink _ => exact hbad (by simp [Member.Comes])
      | file entryMode size sha256 =>
          rw [makeMember]
          simp only
          split
          next hsize => exact hbad fun h => hsize h.2.1
          next hsize =>
            obtain rfl := not_not.1 hsize
            refine Proc.wp_bind.2 (unpacks_make (n := some (.file 0 [])) hp rfl ⟨habove, by simp⟩ (by rw [hs]; trivial)
              hF ?_)
            intro s1 hmakes hrest
            obtain ⟨m, hs1⟩ : ∃ m, s1 p = some (.file m []) := by
              rw [hs] at hmakes
              unfold Making.Makes at hmakes
              split at hmakes <;> simp_all
            have habove1 := above_of_rest habove hrest
            refine Proc.wp_bind.2 (unpacks_copyBlocks hp hs1 habove1 hF
              (fun hnone => hbad fun h => by simpa [hnone] using h.2.2) ?_)
            intro bytes s2 hread hs2 hrest2
            refine unpacks_make (n := some (.file _ bytes)) hp rfl ⟨above_of_rest habove1 hrest2, by simp⟩
              (by rw [hs2]; rfl) hF ?_
            intro s3 hmakes3 hrest3
            rw [hs2] at hmakes3
            refine hQ s3 ⟨rfl, rfl, by rw [hread]; rfl⟩ ?_ fun q hq =>
              (hrest3 q hq).trans ((hrest2 q hq).trans (hrest q hq))
            show s3 p = some _
            rw [show s3 p = _ from hmakes3]
            simp [Member.unpacked, hread]
  | symlink =>
      cases body with
      | directory _ _ => exact hbad (by simp [Member.Comes])
      | file _ _ _ => exact hbad (by simp [Member.Comes])
      | symlink target =>
          rw [makeMember]
          simp only
          cases hcheck : checkSymlinkTarget (spell p) (str linkname) (lit "tarball") with
          | error f => exact hbad fun h => by cases hcheck.symm.trans h.2
          | ok x =>
              refine unpacks_make (n := some (.symlink linkname)) hp rfl ⟨habove, by simp⟩ (by rw [hs]; rfl) hF ?_
              intro s1 hmakes hrest
              rw [hs] at hmakes
              exact hQ s1 ⟨rfl, hcheck⟩ hmakes hrest

/-! ### The members that were taken -/

/-- What the variables know of the members that were taken. -/
structure Locals.Knows (dest : Text) (l : Locals) (done : List Member) : Prop where
  seen : ∀ path, path ∈ l.seen ↔ ∃ member ∈ done, member.place = some path
  made : ∀ path, path ∈ l.made ↔
    path = lit "/" ∨ ∃ member ∈ done, member.place = some path ∧ member.kind = .directory
  modes : ∀ x ∈ l.modes, ∃ p, (∀ part ∈ p, isUnsafe part = false) ∧ ∃ member ∈ done,
    member.place = some (spell p) ∧ member.kind = .directory ∧ x = (dest ++ spell p, member.bits)
  count : l.count = (done.filterMap Member.place).length
  nodup : (done.filterMap Member.place).Nodup

/-- What the members that were taken have left, and the modes that are still to be set. -/
structure Leaves (dest : Text) (done : List Member) (pending : List (Text × Nat)) (s : Dest) : Prop where
  root : s.IsDir []
  there : ∀ p, p ≠ [] → s p ≠ none →
    (∀ part ∈ p, isUnsafe part = false) ∧ ∃ member ∈ done, member.place = some (spell p)
  above : ∀ p, s p ≠ none → ∀ q, q <+: p → q ≠ p → s.IsDir q
  found : ∀ member ∈ done, ∀ p, (∀ part ∈ p, isUnsafe part = false) → member.place = some (spell p) →
    member.MadeAt s p ∧ (s p = some member.unpacked ∨ (dest ++ spell p, member.bits) ∈ pending)

theorem place_eq_some : member.place = some path ↔ tarPath member.name = .ok path ∧ path ≠ lit "/" := by
  unfold Member.place
  cases tarPath member.name with
  | error f => simp
  | ok path' =>
      by_cases hroot : path' = lit "/"
      · simp only [if_pos hroot, reduceCtorEq, Except.ok.injEq, false_iff, not_and, not_not]
        exact fun h => h ▸ hroot
      · simp only [if_neg hroot, Option.some.injEq, Except.ok.injEq]
        exact ⟨fun h => ⟨h, h ▸ hroot⟩, fun h => h.1⟩

/-- A member that stands for the root leaves everything as it is. -/
theorem Locals.Knows.skip (h : l.Knows dest done) (hplace : member.place = none) : l.Knows dest (done ++ [member]) where
  seen := by simpa [hplace] using h.seen
  made := by simpa [hplace] using h.made
  modes := by simpa [hplace] using h.modes
  count := by simpa [hplace] using h.count
  nodup := by simpa [hplace] using h.nodup

theorem Leaves.skip (h : Leaves dest done pending s) (hplace : member.place = none) :
    Leaves dest (done ++ [member]) pending s where
  root := h.root
  there := by simpa [hplace] using h.there
  above := h.above
  found := by
    intro member' hmem p hp hplace'
    obtain hmem | hmem := List.mem_append.1 hmem
    · exact h.found member' hmem p hp hplace'
    · obtain rfl := List.mem_singleton.1 hmem
      rw [hplace] at hplace'
      cases hplace'

/-- The variables when a member has been taken. -/
def Locals.take (dest : Text) (l : Locals) (member : Member) (path : Text) : Locals :=
  { ({ l with seen := path :: l.seen } : Locals).enter dest member path with count := l.count + 1 }

theorem Locals.Knows.take (h : l.Knows dest done) (hp : ∀ part ∈ p, isUnsafe part = false)
    (hplace : member.place = some (spell p)) (hseen : spell p ∉ l.seen) :
    (l.take dest member (spell p)).Knows dest (done ++ [member]) where
  seen := by
    intro path
    show path ∈ spell p :: l.seen ↔ _
    rw [List.mem_cons, h.seen path]
    simp only [List.mem_append, List.mem_singleton]
    constructor
    · rintro (rfl | ⟨m, hm, hpath⟩)
      · exact ⟨member, .inr rfl, hplace⟩
      · exact ⟨m, .inl hm, hpath⟩
    · rintro ⟨m, hm | rfl, hpath⟩
      · exact .inr ⟨m, hm, hpath⟩
      · exact .inl (Option.some.inj (hpath.symm.trans hplace))
  made := by
    intro path
    have hmem : path ∈ (l.take dest member (spell p)).made ↔
        (member.kind = .directory ∧ path = spell p) ∨ path ∈ l.made := by
      unfold Locals.take Locals.enter
      by_cases hkind : member.kind = .directory <;> simp [hkind]
    rw [hmem, h.made path]
    simp only [List.mem_append, List.mem_singleton]
    constructor
    · rintro (⟨hkind, rfl⟩ | hroot | ⟨m, hm, hpath⟩)
      · exact .inr ⟨member, .inr rfl, hplace, hkind⟩
      · exact .inl hroot
      · exact .inr ⟨m, .inl hm, hpath⟩
    · rintro (hroot | ⟨m, hm | rfl, hpath, hkind⟩)
      · exact .inr (.inl hroot)
      · exact .inr (.inr ⟨m, hm, hpath, hkind⟩)
      · exact .inl ⟨hkind, Option.some.inj (hpath.symm.trans hplace)⟩
  modes := by
    intro x hx
    have hmem : (member.kind = .directory ∧ x = (dest ++ spell p, member.bits)) ∨ x ∈ l.modes := by
      unfold Locals.take Locals.enter at hx
      by_cases hkind : member.kind = .directory
      · simpa [hkind] using hx
      · simpa [hkind] using hx
    obtain ⟨hkind, rfl⟩ | hx := hmem
    · exact ⟨p, hp, member, by simp, hplace, hkind, rfl⟩
    · obtain ⟨q, hq, m, hm, hrest⟩ := h.modes x hx
      exact ⟨q, hq, m, List.mem_append_left _ hm, hrest⟩
  count := by
    simp only [Locals.take, h.count, List.filterMap_append, List.filterMap_cons, hplace, List.filterMap_nil,
      List.length_append, List.length_singleton]
  nodup := by
    rw [List.filterMap_append, List.filterMap_cons, hplace]
    refine List.nodup_append.2 ⟨h.nodup, by simp, ?_⟩
    intro path hpath path' hpath'
    obtain rfl := List.mem_singleton.1 hpath'
    rintro rfl
    exact hseen ((h.seen _).2 (List.mem_filterMap.1 hpath))

theorem Leaves.take (h : Leaves dest done l.modes s) (hp : ∀ part ∈ p, isUnsafe part = false) (hne : p ≠ [])
    (hplace : member.place = some (spell p)) (hseen : ∀ earlier ∈ done, earlier.place ≠ some (spell p))
    (habove : ∀ q, q <+: p → q ≠ p → s.IsDir q) (hmade : member.MadeAt s' p) (hrest : ∀ q, q ≠ p → s' q = s q) :
    Leaves dest (done ++ [member]) (l.take dest member (spell p)).modes s' := by
  have hnone : s p = none := by
    by_contra hsome
    obtain ⟨-, earlier, hmem, hpath⟩ := h.there p hne hsome
    exact hseen earlier hmem hpath
  have hdir : ∀ q, s.IsDir q → s'.IsDir q := by
    rintro q ⟨m, hm⟩
    refine ⟨m, (hrest q ?_).trans hm⟩
    rintro rfl
    rw [hnone] at hm
    cases hm
  refine ⟨hdir [] h.root, ?_, ?_, ?_⟩
  · intro q hq hsome
    obtain rfl | hqp := eq_or_ne q p
    · exact ⟨hp, member, by simp, hplace⟩
    · rw [hrest q hqp] at hsome
      obtain ⟨hsafe, earlier, hmem, hpath⟩ := h.there q hq hsome
      exact ⟨hsafe, earlier, List.mem_append_left _ hmem, hpath⟩
  · intro q hsome r hr hrq
    obtain rfl | hqp := eq_or_ne q p
    · exact hdir r (habove r hr hrq)
    · rw [hrest q hqp] at hsome
      exact hdir r (h.above q hsome r hr hrq)
  · intro m hm q hq hpath
    obtain hm | hm := List.mem_append.1 hm
    · have hqp : q ≠ p := by
        rintro rfl
        exact hseen m hm hpath
      obtain ⟨hat, hset⟩ := h.found m hm q hq hpath
      rw [Member.MadeAt, Dest.IsDir, hrest q hqp]
      refine ⟨hat, hset.imp_right fun hpending => ?_⟩
      unfold Locals.take Locals.enter
      by_cases hkind : member.kind = .directory <;> simp [hkind, hpending]
    · obtain rfl := List.mem_singleton.1 hm
      obtain rfl := spell_injective hq hp (Option.some.inj (hpath.symm.trans hplace))
      refine ⟨hmade, ?_⟩
      unfold Member.MadeAt at hmade
      by_cases hkind : m.kind = .directory
      · exact .inr (by simp [Locals.take, Locals.enter, hkind])
      · rw [if_neg hkind] at hmade
        exact .inl hmade

/-- Directories that were made are there, with all above them. -/
theorem Leaves.entered (h : Leaves dest done pending s) (hk : l.Knows dest done) (hp : ∀ part ∈ p, isUnsafe part = false)
    (hmade : spellDir p ∈ l.made) : s.IsDir p := by
  obtain hroot | ⟨member, hmem, hplace, hkind⟩ := (hk.made _).1 hmade
  · obtain rfl : p = [] := spellDir_injective hp (by simp) hroot
    exact h.root
  · obtain rfl | hne := eq_or_ne p []
    · exact h.root
    · rw [spellDir_of_ne_nil hne] at hplace
      have hat := (h.found member hmem p hp hplace).1
      rwa [Member.MadeAt, if_pos hkind] at hat

theorem Dest.IsDir.ne_none (h : s.IsDir p) : s p ≠ none := by
  obtain ⟨m, hm⟩ := h
  rw [hm]
  simp

/-- **One member** is taken if and only if it may be, but for a call that fails for reasons of its own. -/
theorem unpacks_extractMember {Q : Unit → Locals → Dest → Prop} (hk : l.Knows dest done)
    (hl : Leaves dest done l.modes s) (hF : ¬ Calm flaky → F) (hbad : ¬ member.Taken entries done → F)
    (hQ : ∀ l' s', member.Taken entries done → l'.Knows dest (done ++ [member]) →
      Leaves dest (done ++ [member]) l'.modes s' → Q () l' s') :
    Unpacks flaky dest (extractMember dest entries member) Q F l s := by
  unfold extractMember
  cases hpath : tarPath member.name with
  | error f =>
      refine Proc.wp_bind.2 (hbad ?_)
      rintro ⟨path, hok, -⟩
      cases hpath.symm.trans hok
  | ok path =>
      refine Proc.wp_bind.2 ?_
      show Unpacks flaky dest (if path = lit "/" then _ else _) Q F l s
      by_cases hroot : path = lit "/"
      · rw [if_pos hroot]
        have hplace : member.place = none := by
          rw [Member.place, hpath]
          exact if_pos hroot
        split
        next hkind =>
          refine hbad ?_
          rintro ⟨path', hok, ⟨-, hdir⟩ | ⟨hne, -⟩⟩
          · exact hkind hdir
          · exact hne ((Except.ok.inj (hok.symm.trans hpath)).trans hroot)
        next hkind =>
          exact hQ l s ⟨path, hpath, .inl ⟨hroot, not_not.1 hkind⟩⟩ (hk.skip hplace) (hl.skip hplace)
      rw [if_neg hroot]
      have hplace : member.place = some path := place_eq_some.2 ⟨hpath, hroot⟩
      -- what follows of a member that is taken
      have hturn : member.Taken entries done → (∀ earlier ∈ done, earlier.place ≠ some path) ∧
          (∃ e, byPath entries path = some e ∧ member.Comes path e.body) ∧
          (parentOf path = lit "/" ∨
            ∃ earlier ∈ done, earlier.place = some (parentOf path) ∧ earlier.kind = .directory) ∧
          member.mode / 0o1000 % 8 = 0 := by
        rintro ⟨path', hok, hcase⟩
        obtain rfl := Except.ok.inj (hok.symm.trans hpath)
        exact (hcase.resolve_left fun h => hroot h.1).2
      refine Proc.wp_bind.2 (Proc.wp_get.2 ?_)
      split
      next hseen =>
        obtain ⟨earlier, hmem, hearlier⟩ := (hk.seen path).1 hseen
        exact hbad fun h => (hturn h).1 earlier hmem hearlier
      next hseen =>
        have hfirst : ∀ earlier ∈ done, earlier.place ≠ some path := fun earlier hmem hearlier =>
          hseen ((hk.seen path).2 ⟨earlier, hmem, hearlier⟩)
        refine Proc.wp_bind.2 (Proc.wp_modify.2 ?_)
        cases hentry : byPath entries path with
        | none =>
            refine hbad fun h => ?_
            obtain ⟨e, he, -⟩ := (hturn h).2.1
            cases hentry.symm.trans he
        | some e =>
            simp only
            split
            next hparent => exact hbad fun h => hparent ((hk.made _).2 (hturn h).2.2.1)
            next hparent =>
              split
              next hmode => exact hbad fun h => hmode (hturn h).2.2.2
              next hmode =>
                obtain ⟨p, rfl, hne, hsafe⟩ := (tarPath_ok hpath).resolve_left hroot
                have hup := not_not.1 hparent
                have hsafe' : ∀ part ∈ p.dropLast, isUnsafe part = false := fun part hpart =>
                  hsafe part (List.dropLast_subset _ hpart)
                have hdir : s.IsDir p.dropLast := hl.entered hk hsafe' (by rwa [← parentOf_safe hne hsafe])
                have habove : ∀ q, q <+: p → q ≠ p → s.IsDir q := by
                  intro q hq hqp
                  obtain rfl | hqd := eq_or_ne q p.dropLast
                  · exact hdir
                  · exact hl.above _ hdir.ne_none q (prefix_dropLast hq hqp) hqd
                have hnone : s p = none := by
                  by_contra hsome
                  obtain ⟨-, earlier, hmem, hearlier⟩ := hl.there p hne hsome
                  exact hfirst earlier hmem hearlier
                refine Proc.wp_bind.2 (unpacks_makeMember hsafe hnone habove hF (fun hno => hbad fun h => ?_) ?_)
                · obtain ⟨e', he', hcomes⟩ := (hturn h).2.1
                  obtain rfl := Option.some.inj (hentry.symm.trans he')
                  exact hno hcomes
                · intro s' hcomes hmade hrest
                  exact hQ (l.take dest member (spell p)) s'
                    ⟨_, hpath, .inr ⟨hroot, hfirst, ⟨e, hentry, hcomes⟩, (hk.made _).1 hup, not_not.1 hmode⟩⟩
                    (hk.take hsafe hplace hseen) (hl.take hsafe hne hplace hfirst habove hmade hrest)

/-! ### A whole run -/

theorem AllTaken.concat (h : AllTaken entries done) (hm : member.Taken entries done) :
    AllTaken entries (done ++ [member]) := by
  intro l m l' heq
  obtain rfl | ⟨l'', x, rfl⟩ := List.eq_nil_or_concat l'
  · obtain ⟨rfl, hlast⟩ := List.append_inj' heq rfl
    obtain rfl := List.singleton_inj.1 hlast
    exact hm
  · rw [List.concat_eq_append, ← List.cons_append, ← List.append_assoc] at heq
    exact h l m l'' (List.append_inj' heq rfl).1

/-- All members are taken, or the run ends at the first that is not. -/
theorem unpacks_members {Q : Unit → Locals → Dest → Prop} (hk : l.Knows dest []) (hl : Leaves dest [] l.modes s)
    (hF : ¬ Calm flaky → F) (hbad : ¬ AllTaken entries members → F)
    (hQ : ∀ l' s', AllTaken entries members → l'.Knows dest members → Leaves dest members l'.modes s' → Q () l' s') :
    Unpacks flaky dest (Proc.each (extractMember dest entries) members) Q F l s := by
  refine (Proc.wp_each (fun rest l s => ∃ done, members = done ++ rest ∧ AllTaken entries done ∧ l.Knows dest done ∧
    Leaves dest done l.modes s) ?_ ⟨[], rfl, by simp [AllTaken], hk, hl⟩).post ?_ fun _ _ _ => id
  · rintro member rest l s ⟨done, heq, htaken, hk, hl⟩
    refine unpacks_extractMember hk hl hF (fun hno => hbad fun h => hno (h done member rest heq)) ?_
    intro l' s' hmember hk' hl'
    exact ⟨done ++ [member], by simp [heq], htaken.concat hmember, hk', hl'⟩
  · rintro _ l' s' ⟨done, heq, htaken, hk', hl'⟩
    rw [List.append_nil] at heq
    subst heq
    exact hQ l' s' htaken hk' hl'

theorem eq_of_place (hnodup : (done.filterMap Member.place).Nodup) {m m' : Member} (hm : m ∈ done) (hm' : m' ∈ done)
    (hplace : m.place = some path) (hplace' : m'.place = some path) : m = m' := by
  by_contra hne
  have hsymm : Std.Symm fun m m' : Member => ∀ b, m.place = some b → ∀ b', m'.place = some b' → b ≠ b' :=
    ⟨fun _ _ h b hb b' hb' heq => h b' hb' b hb heq.symm⟩
  exact (List.pairwise_filterMap.1 hnodup).forall hm hm' hne path hplace path hplace' rfl

/-- A directory gets its mode, which no other member has set. -/
theorem Leaves.settle {x : Text × Nat} (h : Leaves dest done (x :: pending) s)
    (hnodup : (done.filterMap Member.place).Nodup) (hp : ∀ part ∈ p, isUnsafe part = false) (hmem : member ∈ done)
    (hplace : member.place = some (spell p)) (hkind : member.kind = .directory) (hx : x = (dest ++ spell p, member.bits))
    (hset : s' p = some (.directory member.bits)) (hrest : ∀ q, q ≠ p → s' q = s q) : Leaves dest done pending s' := by
  have hold : s.IsDir p := by
    have hat := (h.found member hmem p hp hplace).1
    rwa [Member.MadeAt, if_pos hkind] at hat
  have hdir : ∀ q, s.IsDir q → s'.IsDir q := by
    rintro q ⟨m, hm⟩
    obtain rfl | hqp := eq_or_ne q p
    · exact ⟨_, hset⟩
    · exact ⟨m, (hrest q hqp).trans hm⟩
  have hsome : ∀ q, s' q ≠ none → s q ≠ none := by
    intro q hq
    obtain rfl | hqp := eq_or_ne q p
    · exact hold.ne_none
    · rwa [← hrest q hqp]
  refine ⟨hdir [] h.root, fun q hq hq' => h.there q hq (hsome q hq'),
    fun q hq r hr hrq => hdir r (h.above q (hsome q hq) r hr hrq), ?_⟩
  intro m hm q hq hpath
  obtain rfl | hqp := eq_or_ne q p
  · obtain rfl := eq_of_place hnodup hm hmem hpath hplace
    refine ⟨?_, .inl ?_⟩
    · rw [Member.MadeAt, if_pos hkind]
      exact ⟨_, hset⟩
    · rw [hset, Member.unpacked, hkind]
  · obtain ⟨hat, hor⟩ := h.found m hm q hq hpath
    rw [Member.MadeAt, Dest.IsDir, hrest q hqp]
    refine ⟨hat, hor.imp_right fun hpending => ?_⟩
    refine (List.mem_cons.1 hpending).resolve_left fun heq => ?_
    rw [hx] at heq
    exact hqp (spell_injective hq hp (List.append_cancel_left (Prod.mk.inj heq).1))

theorem unpacks_chmods {Q : Unit → Locals → Dest → Prop} (hnodup : (done.filterMap Member.place).Nodup)
    (hmodes : ∀ x ∈ pending, ∃ p, (∀ part ∈ p, isUnsafe part = false) ∧ ∃ member ∈ done,
      member.place = some (spell p) ∧ member.kind = .directory ∧ x = (dest ++ spell p, member.bits))
    (hl : Leaves dest done pending s) (hF : ¬ Calm flaky → F) (hQ : ∀ s', Leaves dest done [] s' → Q () l s') :
    Unpacks flaky dest (Proc.each (fun x => make (.chmod x.1 x.2)) pending) Q F l s := by
  refine (Proc.wp_each (fun rest l' s => l' = l ∧ (∀ x ∈ rest, x ∈ pending) ∧ Leaves dest done rest s) ?_
    ⟨rfl, fun _ => id, hl⟩).post ?_ fun _ _ _ => id
  · rintro x rest _ s ⟨rfl, hsub, hl⟩
    obtain ⟨p, hp, member, hmem, hplace, hkind, rfl⟩ := hmodes x (hsub x (.head _))
    have hdir : s.IsDir p := by
      have hat := (hl.found member hmem p hp hplace).1
      rwa [Member.MadeAt, if_pos hkind] at hat
    obtain ⟨mode, hmode⟩ := hdir
    refine unpacks_make (n := some (.directory member.bits)) hp rfl ⟨hl.above p (by simp [hmode]), by simp [hmode]⟩
      (by rw [hmode]; rfl) hF ?_
    intro s' hmakes hrest
    rw [hmode] at hmakes
    exact ⟨rfl, fun y hy => hsub y (.tail _ hy), hl.settle hnodup hp hmem hplace hkind rfl hmakes hrest⟩
  · rintro _ _ s' ⟨rfl, -, hl'⟩
    exact hQ s' hl'

/-- Nothing is there, the destination neither. -/
def bareDest : Dest := fun _ => none

/-- **A run of `extract ()`** returns if the tarball can be read and each member is taken in its turn, and then
everything is there as the members say. It raises otherwise. -/
theorem unpacks_extract {Q : Nat → Locals → Dest → Prop} (tarball : Tarball) (hF : ¬ Calm flaky → F)
    (hbad : ¬ (tarball.opens = true ∧ AllTaken entries tarball.members ∧ tarball.ends = true) → F)
    (hQ : ∀ l' s', tarball.opens = true → AllTaken entries tarball.members → tarball.ends = true →
      (tarball.members.filterMap Member.place).Nodup → Leaves dest tarball.members [] s' →
      Q (tarball.members.filterMap Member.place).length l' s') :
    Unpacks flaky dest (extract dest entries tarball) Q F .start bareDest := by
  unfold extract
  refine Proc.wp_bind.2 (unpacks_make (p := []) (n := some (.directory 0)) (by simp) (by simp [Making.path, spell])
    ⟨by simp, by simp⟩ trivial hF ?_)
  intro s1 hmakes hrest
  have hroot : s1.IsDir [] := by
    unfold Making.Makes bareDest at hmakes
    split at hmakes <;> simp_all [Dest.IsDir]
  split
  next hopens => exact hbad fun h => by simp [hopens] at h
  next hopens =>
    have hk : Locals.Knows dest .start [] :=
      ⟨by simp [Locals.start], by simp [Locals.start], by simp [Locals.start], rfl, by simp⟩
    have hl : Leaves dest [] Locals.start.modes s1 := by
      refine ⟨hroot, fun p hp hsome => absurd (hrest p hp) hsome, ?_, by simp⟩
      intro p hsome q hq hne
      by_contra
      obtain rfl | hp := eq_or_ne p []
      · exact hne (List.prefix_nil.1 hq)
      · exact hsome (hrest p hp)
    refine Proc.wp_bind.2 (unpacks_members hk hl hF (fun hno => hbad fun h => hno h.2.1) ?_)
    intro l2 s2 htaken hk2 hl2
    split
    next hends => exact hbad fun h => by simp [hends] at h
    next hends =>
      refine Proc.wp_bind.2 (Proc.wp_get.2 (Proc.wp_bind.2 ?_))
      refine unpacks_chmods hk2.nodup hk2.modes hl2 hF ?_
      intro s3 hl3
      have h := hQ l2 s3 (by simpa using hopens) htaken (by simpa using hends) hk2.nodup hl3
      rwa [← hk2.count] at h

end MiniDarwin.Rootfs
