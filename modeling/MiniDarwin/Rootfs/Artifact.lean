import MiniDarwin.Rootfs.Exact
import MiniDarwin.Rootfs.Unpacked

/-!
An artifact against its manifest.

What `extract ()` unpacks is compared by `compare_tree ()`. Together they
accept exactly the tarballs that hold the tree of the manifest, however
their members are ordered beneath their directories and whatever they say
besides.
-/

namespace MiniDarwin.Rootfs

open Data Effects

/-! ### What a tarball holds -/

/-- The member is unpacked to what the entry says. -/
def Member.Suits (sha256 : Text → Digest) (member : Member) : Body → Prop
  | .directory mode _ => member.kind = .directory ∧ octal member.bits = mode
  | .file mode size hash =>
      member.kind = .regular ∧ octal member.bits = mode ∧ member.size = size ∧
        ∃ content, readBlocks member.blocks size = some content ∧ (sha256 content).text = hash
  | .symlink target => member.kind = .symlink ∧ member.linkname = target

/-- The tarball can be read and has each entry once, as the manifest says it is and after its directory, and nothing
else but the root. -/
structure Tarball.Holds (sha256 : Text → Digest) (entries : List Entry) (tarball : Tarball) : Prop where
  opens : tarball.opens = true
  ends : tarball.ends = true
  named : ∀ member ∈ tarball.members, ∃ path, tarPath member.name = .ok path ∧
    (path = lit "/" → member.kind = .directory)
  listed : (tarball.members.filterMap Member.place).Perm (entries.map (·.path))
  plain : ∀ member ∈ tarball.members, member.place ≠ none → member.mode / 0o1000 % 8 = 0
  suits : ∀ member ∈ tarball.members, ∀ e ∈ entries, member.place = some e.path → member.Suits sha256 e.body
  order : ∀ l member l' path, tarball.members = l ++ member :: l' → member.place = some path →
    parentOf path = lit "/" ∨ ∃ earlier ∈ l, earlier.place = some (parentOf path)

/-- What `lstat ()` and a look inside show of what was made. -/
def Made.view (sha256 : Text → Digest) : Made → Leaf ⊕ Nat
  | .directory mode => .inr mode
  | .file mode content => .inl (.file mode content.length (sha256 content))
  | .symlink target => .inl (.symlink target)

/-- The disk has what there is beneath the destination. -/
structure Dest.Shown (sha256 : Text → Digest) (s : Dest) (d : Disk) : Prop where
  onDisk : OnDisk d.tree
  items : ∀ p x, (p, x) ∈ d.tree.items [] ↔ p ≠ [] ∧ ∃ v, s p = some v ∧ v.view sha256 = x

variable {flaky : Making → Dest → Prop} {dest path : Text} {entries : List Entry} {s : Dest} {p : List Text} {e : Entry}
  {done members : List Member} {member : Member} {sha256 : Text → Digest} {d : Disk} {L : List Place} {tarball : Tarball}
  {raw : ByteArray} {what : Text} {m : Manifest}

theorem length_readBlocks {blocks : List (Option Text)} {n : Nat} {content : Text}
    (h : readBlocks blocks n = some content) : content.length = n := by
  induction blocks generalizing n content with
  | nil =>
      cases n with
      | zero =>
          obtain rfl := Option.some.inj h
          rfl
      | succ n => cases h
  | cons block blocks ih =>
      cases n with
      | zero =>
          obtain rfl := Option.some.inj h
          rfl
      | succ n =>
          cases block with
          | none => cases h
          | some block =>
              simp only [readBlocks] at h
              split at h
              · cases h
              · obtain ⟨rest, hrest, rfl⟩ := Option.map_eq_some_iff.1 h
                have hlen := ih hrest
                have hle : (block.take (min (n + 1) readLimit)).length ≤ n + 1 :=
                  (List.length_take_le _ _).trans (min_le_left _ _)
                rw [List.length_append, hlen]
                omega

/-- The comparison looks at what the member was unpacked to. -/
theorem suits_iff {body : Body} (h : member.Comes path body) :
    body.Matches (member.unpacked.view sha256) ↔ member.Suits sha256 body := by
  obtain ⟨name, kind, mode, size, linkname, blocks⟩ := member
  cases body with
  | directory mode' digest =>
      obtain rfl : kind = .directory := h
      simp [Member.unpacked, Made.view, Body.Matches, Member.Suits]
  | symlink target =>
      obtain ⟨hkind, -⟩ := h
      obtain rfl : kind = .symlink := hkind
      simp [Member.unpacked, Made.view, Body.Matches, Member.Suits]
  | file mode' size' hash =>
      obtain ⟨hkind, hsize, hread⟩ := h
      obtain rfl : kind = .regular := hkind
      obtain rfl : size = size' := hsize
      obtain ⟨content, hcontent⟩ := Option.isSome_iff_exists.1 hread
      have hcontent : readBlocks blocks size' = some content := hcontent
      simp [Member.unpacked, Made.view, Body.Matches, Member.Suits, hcontent, length_readBlocks hcontent]

theorem Member.Suits.comes {body : Body} (h : member.Suits sha256 body)
    (hlink : ∀ target, body = .symlink target → ∀ what, checkSymlinkTarget path (str target) what = .ok ()) :
    member.Comes path body := by
  cases body with
  | directory mode digest => exact h.1
  | file mode size hash =>
      obtain ⟨hkind, -, hsize, content, hcontent, -⟩ := h
      exact ⟨hkind, hsize, by rw [hcontent]; rfl⟩
  | symlink target =>
      obtain ⟨hkind, rfl⟩ := h
      exact ⟨hkind, hlink _ rfl (lit "tarball")⟩

/-- The links of a manifest are good. -/
theorem Good.links_of_writes (hL : Good L) (hw : List.Forall₂ Writes L entries) :
    ∀ e ∈ entries, ∀ target, e.body = .symlink target → ∀ what, checkSymlinkTarget e.path (str target) what = .ok () := by
  intro e he target hbody
  obtain ⟨i, hi, digest, hie⟩ := forall₂_exists hw he
  have hfits := hL.fits i hi
  obtain ⟨q, (⟨mode, size, sha⟩ | target' | _) | mode⟩ := i
  · obtain rfl := Option.some.inj hie
    cases hbody
  · obtain rfl := Option.some.inj hie
    obtain rfl := Body.symlink.inj hbody
    exact hfits.sound
  · cases hie
  · obtain rfl := Option.some.inj hie
    cases hbody

theorem byPath_of_mem (hnodup : (entries.map (·.path)).Nodup) (he : e ∈ entries) : byPath entries e.path = some e := by
  obtain ⟨e', he'⟩ : ∃ e', byPath entries e.path = some e' :=
    Option.isSome_iff_exists.1 (List.find?_isSome.2 ⟨e, List.mem_reverse.2 he, by simp⟩)
  obtain ⟨hmem, hpath⟩ := byPath_ok he'
  rw [he', List.inj_on_of_nodup_map hnodup hmem he hpath]

/-- A member that is taken is an entry, or the root. -/
theorem Member.Taken.entry (h : member.Taken entries done) (hplace : member.place = some path) :
    ∃ e ∈ entries, e.path = path ∧ member.Comes path e.body := by
  obtain ⟨path', hpath, hcase⟩ := h
  obtain ⟨hpath', hroot⟩ := place_eq_some.1 hplace
  obtain rfl := Except.ok.inj (hpath'.symm.trans hpath)
  obtain ⟨-, -, ⟨e, he, hcomes⟩, -⟩ := hcase.resolve_left fun hcase => hroot hcase.1
  obtain ⟨hmem, rfl⟩ := byPath_ok he
  exact ⟨e, hmem, rfl, hcomes⟩

theorem AllTaken.of_mem (h : AllTaken entries members) (hm : member ∈ members) : ∃ done, member.Taken entries done := by
  obtain ⟨l, l', heq⟩ := List.append_of_mem hm
  exact ⟨l, h l member l' heq⟩

/-- Members that are taken, one for each entry, are the entries. -/
theorem holds_of_taken (hentries : Rooted entries) (hopens : tarball.opens = true) (hends : tarball.ends = true)
    (htaken : AllTaken entries tarball.members) (hnodup : (tarball.members.filterMap Member.place).Nodup)
    (hall : ∀ e ∈ entries, ∃ member ∈ tarball.members, member.place = some e.path ∧ member.Suits sha256 e.body) :
    tarball.Holds sha256 entries where
  opens := hopens
  ends := hends
  named := by
    intro member hmem
    obtain ⟨done, path, hpath, hcase⟩ := htaken.of_mem hmem
    refine ⟨path, hpath, fun hroot => ?_⟩
    obtain ⟨-, hkind⟩ | ⟨hne, -⟩ := hcase
    · exact hkind
    · exact absurd hroot hne
  listed := by
    refine (List.perm_ext_iff_of_nodup hnodup hentries.nodup).2 fun path => ?_
    constructor
    · intro hpath
      obtain ⟨member, hmem, hplace⟩ := List.mem_filterMap.1 hpath
      obtain ⟨done, hdone⟩ := htaken.of_mem hmem
      obtain ⟨e, he, rfl, -⟩ := hdone.entry hplace
      exact List.mem_map_of_mem he
    · intro hpath
      obtain ⟨e, he, rfl⟩ := List.mem_map.1 hpath
      obtain ⟨member, hmem, hplace, -⟩ := hall e he
      exact List.mem_filterMap.2 ⟨member, hmem, hplace⟩
  plain := by
    intro member hmem hsome
    obtain ⟨path, hplace⟩ := Option.ne_none_iff_exists'.1 hsome
    obtain ⟨hpath, hroot⟩ := place_eq_some.1 hplace
    obtain ⟨done, path', hpath', hcase⟩ := htaken.of_mem hmem
    obtain rfl := Except.ok.inj (hpath.symm.trans hpath')
    exact (hcase.resolve_left fun hcase => hroot hcase.1).2.2.2.2
  suits := by
    intro member hmem e he hplace
    obtain ⟨member', hmem', hplace', hsuits⟩ := hall e he
    rwa [eq_of_place hnodup hmem hmem' hplace hplace']
  order := by
    intro l member l' path heq hplace
    obtain ⟨hpath, hroot⟩ := place_eq_some.1 hplace
    obtain ⟨path', hpath', hcase⟩ := htaken l member l' heq
    obtain rfl := Except.ok.inj (hpath.symm.trans hpath')
    obtain ⟨-, -, -, hparent, -⟩ := hcase.resolve_left fun hcase => hroot hcase.1
    exact hparent.imp_right fun ⟨earlier, hmem, hearlier, _⟩ => ⟨earlier, hmem, hearlier⟩

/-- What a tarball holds is taken. -/
theorem Tarball.Holds.taken (h : tarball.Holds sha256 entries) (hentries : Rooted entries)
    (hlinks : ∀ e ∈ entries, ∀ target, e.body = .symlink target →
      ∀ what, checkSymlinkTarget e.path (str target) what = .ok ()) : AllTaken entries tarball.members := by
  intro l member l' heq
  have hmem : member ∈ tarball.members := by rw [heq]; simp
  obtain ⟨path, hpath, hdir⟩ := h.named member hmem
  refine ⟨path, hpath, ?_⟩
  by_cases hroot : path = lit "/"
  · exact .inl ⟨hroot, hdir hroot⟩
  have hplace : member.place = some path := place_eq_some.2 ⟨hpath, hroot⟩
  obtain ⟨e, he, rfl⟩ := List.mem_map.1 (h.listed.mem_iff.1 (List.mem_filterMap.2 ⟨member, hmem, hplace⟩))
  refine .inr ⟨hroot, ?_, ⟨e, byPath_of_mem hentries.nodup he, (h.suits member hmem e he hplace).comes (hlinks e he)⟩, ?_,
    h.plain member hmem (by simp [hplace])⟩
  · intro earlier hearlier hsame
    have hnodup := h.listed.nodup_iff.2 hentries.nodup
    rw [heq, List.filterMap_append, List.filterMap_cons, hplace] at hnodup
    exact (List.nodup_append.1 hnodup).2.2 e.path (List.mem_filterMap.2 ⟨earlier, hearlier, hsame⟩) e.path (.head _) rfl
  · refine (h.order l member l' _ heq hplace).imp_right fun ⟨earlier, hearlier, hup⟩ => ⟨earlier, hearlier, hup, ?_⟩
    -- the parent is a directory in the manifest
    have hmem' : earlier ∈ tarball.members := by
      rw [heq]
      exact List.mem_append_left _ hearlier
    obtain ⟨es₁, es₂, hsplit⟩ := List.append_of_mem he
    obtain hroot' | hparent := hentries.parents es₁ e es₂ hsplit
    · exact absurd hroot' (place_eq_some.1 hup).2
    · obtain ⟨e', he', hdirectory, hpath'⟩ := mem_directoriesOf.1 hparent
      have hsuits := h.suits earlier hmem' e' (by rw [hsplit]; exact List.mem_append_left _ he') (by rw [hup, hpath'])
      unfold Entry.isDirectory at hdirectory
      split at hdirectory
      next hbody =>
        rw [hbody] at hsuits
        exact hsuits.1
      · cases hdirectory

/-! ### The tree that is left -/

/-- What is found at a path are its member's contents. -/
theorem Leaves.shown (h : Leaves dest members [] s) (hd : s.Shown sha256 d) {x : Leaf ⊕ Nat} :
    (p, x) ∈ d.tree.items [] ↔ p ≠ [] ∧ (∀ part ∈ p, isUnsafe part = false) ∧
      ∃ member ∈ members, member.place = some (spell p) ∧ member.unpacked.view sha256 = x := by
  rw [hd.items]
  constructor
  · rintro ⟨hne, v, hv, rfl⟩
    obtain ⟨hp, member, hmem, hplace⟩ := h.there p hne (by simp [hv])
    have hset := (h.found member hmem p hp hplace).2.resolve_right List.not_mem_nil
    exact ⟨hne, hp, member, hmem, hplace, by rw [Option.some.inj (hv.symm.trans hset)]⟩
  · rintro ⟨hne, hp, member, hmem, hplace, rfl⟩
    exact ⟨hne, _, (h.found member hmem p hp hplace).2.resolve_right List.not_mem_nil, rfl⟩

/-- An entry is missed or found different if and only if no member is unpacked to it. -/
theorem Leaves.differs_iff (h : Leaves dest members [] s) (hd : s.Shown sha256 d) (hL : Good L)
    (hw : List.Forall₂ Writes L entries) (htaken : AllTaken entries members) (he : e ∈ entries) :
    d.Differs e ↔ ∀ member ∈ members, member.place = some e.path → ¬ member.Suits sha256 e.body := by
  have hnodup := (hL.rooted_of_writes hw).nodup
  obtain ⟨i, hi, hie⟩ := forall₂_exists hw he
  have hfits := hL.fits i hi
  rw [d.differs_iff hd.onDisk hfits hie, not_iff_comm]
  push Not
  have hsuits : ∀ member ∈ members, member.place = some e.path →
      (e.body.Matches (member.unpacked.view sha256) ↔ member.Suits sha256 e.body) := by
    intro member hmem hplace
    obtain ⟨done, hdone⟩ := htaken.of_mem hmem
    obtain ⟨e', he', hpath, hcomes⟩ := hdone.entry hplace
    obtain rfl := List.inj_on_of_nodup_map hnodup he' he hpath
    exact suits_iff hcomes
  constructor
  · rintro ⟨member, hmem, hplace, hsuit⟩
    refine ⟨_, (h.shown hd).2 ⟨hfits.nonempty, hfits.safe, member, hmem, ?_, rfl⟩, (hsuits member hmem hplace).2 hsuit⟩
    rw [hplace, hie.path]
  · rintro ⟨x, hx, hmatch⟩
    obtain ⟨-, -, member, hmem, hplace, rfl⟩ := (h.shown hd).1 hx
    rw [← hie.path] at hplace
    exact ⟨member, hmem, hplace, (hsuits member hmem hplace).1 hmatch⟩

/-- Nothing is there that is not an entry. -/
theorem Leaves.no_extra (h : Leaves dest members [] s) (hd : s.Shown sha256 d) (htaken : AllTaken entries members) :
    ¬ d.Extra entries p := by
  rintro ⟨⟨x, hx⟩, hnone, -⟩
  obtain ⟨-, -, member, hmem, hplace, -⟩ := (h.shown hd).1 hx
  obtain ⟨done, hdone⟩ := htaken.of_mem hmem
  obtain ⟨e, he, hpath, -⟩ := hdone.entry hplace
  exact hnone e he hpath

/-- Nothing is named if and only if the tarball holds the tree. -/
theorem Leaves.clean_iff (h : Leaves dest tarball.members [] s) (hd : s.Shown sha256 d) (hL : Good L)
    (hw : List.Forall₂ Writes L entries) (hopens : tarball.opens = true) (hends : tarball.ends = true)
    (htaken : AllTaken entries tarball.members) (hnodup : (tarball.members.filterMap Member.place).Nodup) :
    (∃ calls, compareTree d entries false = some ([], calls)) ↔ tarball.Holds sha256 entries := by
  obtain ⟨problems, calls, hresult, hexact⟩ := compareTree_exact hd.onDisk hL hw false
  have hclean : (∃ calls, compareTree d entries false = some ([], calls)) ↔ ∀ e ∈ entries, ¬ d.Differs e := by
    constructor
    · rintro ⟨calls', hnil⟩
      obtain ⟨rfl, -⟩ := Prod.mk.inj (Option.some.inj (hresult.symm.trans hnil))
      exact hexact.unchanged
    · intro hsame
      obtain rfl := hexact.nil_iff.2 ⟨hsame, fun p => h.no_extra hd htaken⟩
      exact ⟨calls, hresult⟩
  rw [hclean]
  constructor
  · intro hsame
    refine holds_of_taken (hL.rooted_of_writes hw) hopens hends htaken hnodup fun e he => ?_
    have hmember := mt (h.differs_iff hd hL hw htaken he).2 (hsame e he)
    push Not at hmember
    exact hmember
  · intro hholds e he hdiffer
    obtain ⟨member, hmem, hplace⟩ := List.mem_filterMap.1 (hholds.listed.mem_iff.2 (List.mem_map_of_mem he))
    exact (h.differs_iff hd hL hw htaken he).1 hdiffer member hmem hplace (hholds.suits member hmem e he hplace)

/-- What is known of a run that returns. -/
structure Returned (dest : Text) (entries : List Entry) (tarball : Tarball) (n : Nat) (s : Dest) : Prop where
  opens : tarball.opens = true
  taken : AllTaken entries tarball.members
  ends : tarball.ends = true
  nodup : (tarball.members.filterMap Member.place).Nodup
  leaves : Leaves dest tarball.members [] s
  count : n = (tarball.members.filterMap Member.place).length

/-- A run returns, or something was not as it should be. -/
theorem reach_extract {r : Except Raised Nat} {l : Locals}
    (hrun : Prog.Reach (unpacking flaky dest) (extract dest entries tarball .start) bareDest (.ret (r, l)) s) :
    (∀ n, r = .ok n → Returned dest entries tarball n s) ∧
      (Calm flaky → tarball.opens = true → AllTaken entries tarball.members → tarball.ends = true → ∃ n, r = .ok n) := by
  have hspec := unpacks_extract tarball
    (Q := fun n _ s => Returned dest entries tarball n s)
    (F := ¬ (Calm flaky ∧ tarball.opens = true ∧ AllTaken entries tarball.members ∧ tarball.ends = true))
    (fun hno h => hno h.1) (fun hno h => hno h.2) fun _ _ h₁ h₂ h₃ h₄ h₅ => ⟨h₁, h₂, h₃, h₄, h₅, rfl⟩
  have hend := Prog.Spec.reach hspec hrun
  cases r with
  | ok n =>
      refine ⟨fun n' hn => ?_, fun _ _ _ _ => ⟨n, rfl⟩⟩
      obtain rfl := Except.ok.inj hn
      exact hend
  | error f => exact ⟨by rintro n ⟨⟩, fun hcalm hopens htaken hends => absurd ⟨hcalm, hopens, htaken, hends⟩ hend⟩

/-- **An artifact verifies exactly if it holds the tree of its manifest.** Of a run of `extract ()` with a manifest that
is loaded: if it returns, `compare_tree ()` names the entries that no member is unpacked to; if it returns and nothing is
named, the tarball holds the tree, and its members were counted. And where no call fails for reasons of its own, a tarball
that holds the tree is unpacked. -/
theorem artifact_exact {flaky : Making → Dest → Prop} {dest : Text} {r : Except Raised Nat} {l : Locals} {s : Dest}
    (hm : loadManifest sha256 raw what = .ok m)
    (hrun : Prog.Reach (unpacking flaky dest) (extract dest m.entries tarball .start) bareDest (.ret (r, l)) s)
    (hd : s.Shown sha256 d) :
    (∀ n, r = .ok n →
      (∃ problems calls, compareTree d m.entries false = some (problems, calls) ∧
        ∀ e ∈ m.entries, ((∃ x ∈ problems, x.kind ≠ lit "unexpected" ∧ x.path = e.path) ↔ d.Differs e) ∧
          (d.Differs e ↔
            ∀ member ∈ tarball.members, member.place = some e.path → ¬ member.Suits sha256 e.body)) ∧
      ((∃ calls, compareTree d m.entries false = some ([], calls)) ↔ tarball.Holds sha256 m.entries) ∧
      (tarball.Holds sha256 m.entries → n = m.entries.length)) ∧
    (Calm flaky → tarball.Holds sha256 m.entries → ∃ n, r = .ok n) := by
  obtain ⟨L, hL, hw, -⟩ := (loadManifest_ok hm).listing
  obtain ⟨hreturned, hreturns⟩ := reach_extract hrun
  constructor
  · intro n hn
    have h := hreturned n hn
    obtain ⟨problems, calls, hresult, hexact⟩ := compareTree_exact hd.onDisk hL hw false
    refine ⟨⟨problems, calls, hresult, fun e he => ⟨?_, h.leaves.differs_iff hd hL hw h.taken he⟩⟩,
      h.leaves.clean_iff hd hL hw h.opens h.ends h.taken h.nodup, fun hholds => ?_⟩
    · exact hexact.named_iff (hL.rooted_of_writes hw).nodup he
    rw [h.count, hholds.listed.length_eq, List.length_map]
  · intro hcalm h
    exact hreturns hcalm h.opens (h.taken (hL.rooted_of_writes hw) (hL.links_of_writes hw)) h.ends

/-! A directory, and a file in it, where every call returns that can. -/

/-- What a call makes of what is at its path, if it can. -/
def Making.apply : Making → Option Made → Option Made
  | .mkdir _ mode, none => some (.directory mode)
  | .create _ mode, none => some (.file mode [])
  | .write _ block, some (.file mode content) => some (.file mode (content ++ block))
  | .fchmod _ mode, some (.file _ content) => some (.file mode content)
  | .symlink target _, none => some (.symlink target)
  | .chmod _ mode, some (.directory _) => some (.directory mode)
  | .chmod _ mode, some (.file _ content) => some (.file mode content)
  | _, _ => none

/-- What is there is listed, the latest first. -/
def Making.answer (dest : Text) (c : Making) (l : List (List Text × Made)) : Bool × List (List Text × Made) :=
  let p := partsOf (c.path.drop dest.length)
  match c.apply (l.lookup p) with
  | some v => (true, (p, v) :: l)
  | none => (false, l)

theorem apply_spec (c : Making) (old : Option Made) :
    (∀ v, c.apply old = some v → c.Makes old (some v)) ∧ (c.apply old = none → ∀ new, ¬ c.Makes old new) := by
  cases c <;> obtain _ | (_ | _ | _) := old <;> simp [Making.apply, Making.Makes]

theorem answer_unpacking (c : Making) (l : List (List Text × Made)) :
    unpacking (fun _ _ => False) dest c (l.lookup ·) (c.answer dest l).1 ((c.answer dest l).2.lookup ·) := by
  intro p hp hpath hs
  have hparts : partsOf (c.path.drop dest.length) = p := by
    rw [hpath, List.drop_left]
    exact partsOf_spell fun part hpart => ⟨ne_nil_of_safe (hp part hpart), not_mem_of_safe (hp part hpart)⟩
  obtain ⟨hcan, hcannot⟩ := apply_spec c (l.lookup p)
  unfold Making.answer
  rw [hparts]
  cases happly : c.apply (l.lookup p) with
  | some v =>
      simp only [happly]
      refine ⟨fun _ => ⟨?_, fun q hq => ?_⟩, by simp⟩
      · simpa using hcan v happly
      · rw [List.lookup_cons, beq_eq_false_iff_ne.2 hq]
  | none =>
      simp only [happly]
      exact ⟨by simp, fun _ => .inr (hcannot happly)⟩

/-- What the calls have left, the latest first. -/
def fewLeft : List (List Text × Made) :=
  [([lit "d"], .directory 0o755), ([lit "d", lit "f"], .file 0o644 (lit "ab")),
    ([lit "d", lit "f"], .file 0o600 (lit "ab")), ([lit "d", lit "f"], .file 0o600 []),
    ([lit "d"], .directory 0o700), ([], .directory 0o755)]

def fewDisk : Disk where
  tree := fewTree
  beyond _ := none

theorem fewDisk_shown : Dest.Shown tally (fewLeft.lookup ·) fewDisk where
  onDisk := ⟨by decide, by simp [fewDisk, fewTree, Forest.Apart, Forest.names]⟩
  items := by
    intro p x
    rw [show fewDisk.tree.items [] =
      [([lit "d"], .inr 0o755), ([lit "d", lit "f"], .inl (.file 0o644 2 (tally (lit "ab"))))] from rfl]
    by_cases hd : p = [lit "d"]
    · subst hd
      rw [show fewLeft.lookup [lit "d"] = some (.directory 0o755) from rfl]
      simp [Made.view, eq_comm (a := x)]
    by_cases hf : p = [lit "d", lit "f"]
    · subst hf
      rw [show fewLeft.lookup [lit "d", lit "f"] = some (.file 0o644 (lit "ab")) from rfl]
      simp [Made.view, eq_comm (a := x), show (lit "ab").length = 2 from rfl]
    by_cases hroot : p = []
    · simp [hroot]
    · have hnone : fewLeft.lookup p = none := by
        simp only [fewLeft, List.lookup_cons, beq_eq_false_iff_ne.2 hd, beq_eq_false_iff_ne.2 hf,
          beq_eq_false_iff_ne.2 hroot, List.lookup_nil]
      simp [hnone, hd, hf]

/-- The calls, where what is there is listed. -/
def answering (dest : Text) : Sem makings (List (List Text × Made)) := fun c l r l' => (r, l') = c.answer dest l

@[irreducible] def fewRun : (Except Raised Nat × Locals) × List (List Text × Made) :=
  (extract (lit "/r") fewListed fewMembers .start).exec (Making.answer (lit "/r")) []

theorem reach_few : ∃ l, Prog.Reach (unpacking (fun _ _ => False) (lit "/r"))
    (extract (lit "/r") fewListed fewMembers .start) bareDest (.ret (.ok 2, l)) (fewLeft.lookup ·) := by
  have hrun : Prog.Reach (unpacking (fun _ _ => False) (lit "/r"))
      (extract (lit "/r") fewListed fewMembers .start) bareDest (.ret fewRun.1) (fewRun.2.lookup ·) := by
    unfold fewRun
    refine Prog.Reach.along (t := answering (lit "/r")) (π := fun l p => l.lookup p) ?_
      (Prog.reach_exec (fun _ _ => rfl) (extract (lit "/r") fewListed fewMembers .start) [])
    rintro c l r l' h
    obtain ⟨rfl, rfl⟩ := Prod.mk.inj h
    exact answer_unpacking c l
  have hresult : fewRun.1.1 = .ok 2 := by
    unfold fewRun
    rfl
  have hleft : fewRun.2 = fewLeft := by
    unfold fewRun
    rfl
  generalize fewRun = x at hrun hresult hleft
  obtain ⟨⟨r, l⟩, left⟩ := x
  obtain rfl := hresult
  obtain rfl := hleft
  exact ⟨l, hrun⟩

theorem few_clean : ∃ calls, compareTree fewDisk fewListed false = some ([], calls) := ⟨_, rfl⟩

theorem artifact_exact_few : ∃ raw m l s, loadManifest tally raw (lit "m") = .ok m ∧
    Prog.Reach (unpacking (fun _ _ => False) (lit "/r")) (extract (lit "/r") m.entries fewMembers .start) bareDest
      (.ret (.ok 2, l)) s ∧ Dest.Shown tally s fewDisk ∧ fewMembers.Holds tally m.entries := by
  obtain ⟨raw, m, hm, hentries⟩ := few_load
  obtain ⟨l, hrun⟩ := reach_few
  have hclean := few_clean
  rw [← hentries] at hrun hclean
  obtain ⟨hreturned, -⟩ := artifact_exact hm hrun fewDisk_shown
  obtain ⟨-, hholds, -⟩ := hreturned 2 rfl
  exact ⟨raw, m, l, _, hm, hrun, fewDisk_shown, hholds.1 hclean⟩

end MiniDarwin.Rootfs
