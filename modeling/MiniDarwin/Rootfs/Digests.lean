import MiniDarwin.Rootfs.TreeOrder
import MiniDarwin.Rootfs.Load

/-!
The tree digest identifies the tree.

When `merkle ()` is done, the digest of a directory is the hash of its
children's records with the final digests (`Sealed`). If two trees have one
digest and no two of the strings hashed collide, the records of their roots
are the same, and from there on down those of every directory.
-/

namespace MiniDarwin.Rootfs

open Data

section Hashing

variable (sha256 : Text → Digest)

/-! ### What is hashed -/

/-- The records of a directory, one after another. -/
def directoryBytes (children : Text → Option (List Entry)) (digests : Text → Option Digest) (path : Text) :
    Result Text :=
  match children path with
  | none => .error .keyError
  | some entries => do
      let sorted := entries.insertionSort fun a b => nameOf a.path ≤ nameOf b.path
      return (← sorted.mapM (record sha256 · digests)).flatten

/-- What the loop hashes for the directories among the entries, which are given in reverse. -/
def hashedFrom (children : Text → Option (List Entry)) : List Entry → (Text → Option Digest) → Result (List Text)
  | [], _ => .ok []
  | e :: entries, digests =>
      if e.isDirectory then do
        let bytes ← directoryBytes sha256 children digests e.path
        return bytes :: (← hashedFrom children entries (Function.update digests e.path (some (sha256 bytes))))
      else hashedFrom children entries digests

def targetsOf (entries : List Entry) : List Text :=
  entries.filterMap fun e => match e.body with
    | .symlink target => some target
    | _ => none

/-- All that `merkle ()` hashes: the targets of the links, and the records of every directory and of the root. -/
def hashed (entries : List Entry) : Result (List Text) := do
  let children ← childrenFrom entries (Function.update (fun _ => none) (lit "/") (some []))
  let loop ← hashedFrom sha256 children entries.reverse fun _ => none
  let digests ← digestsFrom sha256 children entries.reverse fun _ => none
  let root ← directoryBytes sha256 children digests (lit "/")
  return root :: loop ++ targetsOf entries

variable {sha256} {entries es : List Entry} {e : Entry} {children : Text → Option (List Entry)}
  {digests digests' : Text → Option Digest} {path : Text} {d : Digest}

theorem directoryDigest_ok_iff :
    directoryDigest sha256 children digests path = .ok d ↔
      ∃ bytes, directoryBytes sha256 children digests path = .ok bytes ∧ d = sha256 bytes := by
  rw [directoryDigest, directoryBytes]
  cases children path with
  | none => simp
  | some entries =>
      simp only
      constructor
      · intro h
        obtain ⟨rs, hrs, h⟩ := bind_ok.1 h
        exact ⟨rs.flatten, bind_ok.2 ⟨rs, hrs, rfl⟩, (Except.ok.inj h).symm⟩
      · rintro ⟨bytes, h, rfl⟩
        obtain ⟨rs, hrs, h⟩ := bind_ok.1 h
        exact bind_ok.2 ⟨rs, hrs, congrArg (fun bytes => Except.ok (sha256 bytes)) (Except.ok.inj h)⟩

theorem mapM_congr {α β : Type} {f g : α → Result β} {l : List α} (h : ∀ a ∈ l, f a = g a) : l.mapM f = l.mapM g := by
  induction l with
  | nil => rfl
  | cons a l ih => rw [List.mapM_cons, List.mapM_cons, h a (.head _), ih fun b hb => h b (.tail _ hb)]

/-- A record needs no digest but that of its own directory. -/
theorem record_congr (h : e.isDirectory = true → digests e.path = digests' e.path) :
    record sha256 e digests = record sha256 e digests' := by
  obtain ⟨path, body⟩ := e
  cases body with
  | directory mode digest => simp only [record, recordLine, h rfl]
  | _ => rfl

theorem directoryBytes_congr
    (h : ∀ e ∈ entries, parentOf e.path = path → e.isDirectory = true → digests e.path = digests' e.path) :
    directoryBytes sha256 (childrenOf entries) digests path = directoryBytes sha256 (childrenOf entries) digests' path := by
  rw [directoryBytes, directoryBytes, childrenOf]
  split
  · rfl
  next hsome =>
    split at hsome
    · cases hsome
      simp only
      rw [mapM_congr]
      intro e he
      rw [List.mem_insertionSort, List.mem_filter] at he
      exact record_congr (h e he.1 (of_decide_eq_true he.2))
    · cases hsome

/-- The digest of a directory is that of its records, with the digests of all. -/
structure Sealed (sha256 : Text → Digest) (entries : List Entry) (digests : Text → Option Digest) (strings : List Text)
    (e : Entry) (bytes : Text) : Prop where
  records : directoryBytes sha256 (childrenOf entries) digests e.path = .ok bytes
  digest : digests e.path = some (sha256 bytes)
  hashed : bytes ∈ strings

theorem Rooted.digestsFrom_final (h : Rooted entries) {es₁ es₂ : List Entry} (hes : entries = es₁ ++ es₂)
    (hdigests : digestsFrom sha256 (childrenOf entries) es₁.reverse digests = .ok digests') :
    ∃ strings, hashedFrom sha256 (childrenOf entries) es₁.reverse digests = .ok strings ∧
      (∀ e ∈ es₂, digests' e.path = digests e.path) ∧
      ∀ e ∈ es₁, e.isDirectory = true → ∃ bytes, Sealed sha256 entries digests' strings e bytes := by
  induction es₁ using List.reverseRecOn generalizing es₂ digests with
  | nil =>
      cases hdigests
      exact ⟨[], rfl, fun _ _ => rfl, by simp⟩
  | append_singleton es₁ e ih =>
      have hes' : entries = es₁ ++ e :: es₂ := by rw [hes, List.append_assoc, List.singleton_append]
      rw [List.reverse_append, List.reverse_singleton, List.singleton_append] at hdigests ⊢
      rw [digestsFrom] at hdigests
      rw [hashedFrom]
      split at hdigests
      next hdir =>
        obtain ⟨d, hd, hdigests⟩ := bind_ok.1 hdigests
        obtain ⟨bytes, hbytes, rfl⟩ := directoryDigest_ok_iff.1 hd
        obtain ⟨strings, hstrings, hkept, hsealed⟩ := ih hes' hdigests
        have hother : ∀ c ∈ es₂, c.path ≠ e.path := by
          intro c hc heq
          have hnodup := h.nodup
          rw [hes', List.map_append, List.map_cons] at hnodup
          exact (List.nodup_cons.1 (List.nodup_append.1 hnodup).2.1).1 (heq ▸ List.mem_map_of_mem hc)
        have hlater : ∀ c ∈ es₂, digests' c.path = digests c.path := by
          intro c hc
          rw [hkept c (.tail _ hc), Function.update_of_ne (hother c hc)]
        refine ⟨bytes :: strings, ?_, hlater, ?_⟩
        · rw [if_pos hdir]
          exact bind_ok.2 ⟨bytes, hbytes, bind_ok.2 ⟨strings, hstrings, rfl⟩⟩
        · intro c hc hcdir
          obtain hc | hc := List.mem_append.1 hc
          · obtain ⟨bytes', hbytes'⟩ := hsealed c hc hcdir
            exact ⟨bytes', hbytes'.records, hbytes'.digest, .tail _ hbytes'.hashed⟩
          · obtain rfl := List.mem_singleton.1 hc
            refine ⟨bytes, ?_, ?_, .head _⟩
            · rw [← hbytes]
              refine directoryBytes_congr ?_
              intro child hchild hparent _
              exact hlater child ((hes' ▸ h).child_mem (hes' ▸ hchild) hparent)
            · rw [hkept c (.head _), Function.update_self]
      next hdir =>
        obtain ⟨strings, hstrings, hkept, hsealed⟩ := ih hes' hdigests
        refine ⟨strings, by rwa [if_neg hdir], fun c hc => hkept c (.tail _ hc), ?_⟩
        intro c hc hcdir
        obtain hc | hc := List.mem_append.1 hc
        · exact hsealed c hc hcdir
        · obtain rfl := List.mem_singleton.1 hc
          exact absurd hcdir hdir

/-- What `merkle ()` returns. -/
structure Digested (sha256 : Text → Digest) (entries : List Entry) (tree : Digest) (digests : Text → Option Digest)
    (strings : List Text) : Prop where
  root : ∃ bytes ∈ strings, directoryBytes sha256 (childrenOf entries) digests (lit "/") = .ok bytes ∧ tree = sha256 bytes
  directories : ∀ e ∈ entries, e.isDirectory = true → ∃ bytes, Sealed sha256 entries digests strings e bytes
  targets : ∀ e ∈ entries, ∀ target, e.body = .symlink target → target ∈ strings

theorem Rooted.digested (h : Rooted entries) (hplain : ∀ e ∈ entries, e.Plain) :
    ∃ tree digests strings, merkle sha256 entries = .ok (tree, digests) ∧ hashed sha256 entries = .ok strings ∧
      Digested sha256 entries tree digests strings := by
  obtain ⟨tree, digests, hmerkle, -⟩ := h.merkle_ok sha256 hplain
  have hrun := hmerkle
  rw [merkle, h.childrenFrom_ok] at hrun
  obtain ⟨children, hchildren, hrun⟩ := bind_ok.1 hrun
  obtain rfl := Except.ok.inj hchildren
  obtain ⟨final, hfinal, hrun⟩ := bind_ok.1 hrun
  obtain ⟨root, hroot, hrun⟩ := bind_ok.1 hrun
  cases hrun
  obtain ⟨bytes, hbytes, rfl⟩ := directoryDigest_ok_iff.1 hroot
  obtain ⟨strings, hstrings, -, hsealed⟩ := h.digestsFrom_final (List.append_nil entries).symm hfinal
  refine ⟨sha256 bytes, digests, bytes :: strings ++ targetsOf entries, hmerkle, ?_, ?_, ?_, ?_⟩
  · rw [hashed, h.childrenFrom_ok]
    exact bind_ok.2 ⟨_, rfl, bind_ok.2 ⟨_, hstrings, bind_ok.2 ⟨_, hfinal, bind_ok.2 ⟨_, hbytes, rfl⟩⟩⟩⟩
  · exact ⟨bytes, by simp, hbytes, rfl⟩
  · intro e he hdir
    obtain ⟨bytes', hbytes'⟩ := hsealed e he hdir
    exact ⟨bytes', hbytes'.records, hbytes'.digest, List.mem_append_left _ (.tail _ hbytes'.hashed)⟩
  · intro e he target htarget
    refine List.mem_append_right _ (List.mem_filterMap.2 ⟨e, he, ?_⟩)
    simp only [htarget]

end Hashing

section Identity

variable {sha256 : Text → Digest} {entries es : List Entry} {e : Entry} {digests digests' : Text → Option Digest}

/-! ### Records -/

/-- The entry stands in a manifest for the place. -/
def Writes (i : Place) (e : Entry) : Prop := ∃ digest, entryOf true (some digest) i = some e

/-- What a record says before the name. -/
def columns (sha256 : Text → Digest) (digests : Text → Option Digest) (i : Place) : Text × Text × Text :=
  match i.2 with
  | .inl (.file mode _ sha) => (lit "file", fileMode true mode, sha.text)
  | .inl (.symlink target) => (lit "symlink", lit "-", (sha256 target).text)
  | .inl .other => ([], [], [])
  | .inr _ => (lit "directory", lit "0755", ((digests (spell i.1)).map Digest.text).getD [])

/-- The record of a place, without its end. -/
def lineOf (sha256 : Text → Digest) (digests : Text → Option Digest) (i : Place) : Text :=
  let c := columns sha256 digests i
  c.1 ++ 32 :: (c.2.1 ++ 32 :: (c.2.2 ++ 32 :: i.1.getLastD []))

/-- Text without blanks. -/
def Solid (text : Text) : Prop := ∀ c ∈ text, 32 < c

instance (text : Text) : Decidable (Solid text) := inferInstanceAs (Decidable (∀ c ∈ text, 32 < c))

variable {i i' : Place} {L L' : List Place} {r : Text}

theorem Solid.not_mem {text : Text} (h : Solid text) {c : Nat} (hc : c ≤ 32) : c ∉ text := fun hmem =>
  absurd (h c hmem) (Nat.not_lt.2 hc)

theorem Digest.solid (d : Digest) : Solid d.text := by
  intro c hc
  have h := d.wellFormed
  simp only [isHex, decide_eq_true_eq] at h
  have := h.2 c hc
  omega

theorem solid_fileMode (mode : Nat) : Solid (fileMode true mode) := by
  rw [fileMode, if_pos rfl]
  split <;> decide

theorem columns_solid (sha256 : Text → Digest) (digests : Text → Option Digest) (i : Place) :
    Solid (columns sha256 digests i).1 ∧ Solid (columns sha256 digests i).2.1 ∧ Solid (columns sha256 digests i).2.2 := by
  obtain ⟨p, (⟨mode, size, sha⟩ | target | _) | mode⟩ := i
  · exact ⟨(by decide : Solid (lit "file")), solid_fileMode mode, sha.solid⟩
  · exact ⟨(by decide : Solid (lit "symlink")), (by decide : Solid (lit "-")), (sha256 target).solid⟩
  · exact ⟨(by decide : Solid []), (by decide : Solid []), (by decide : Solid [])⟩
  · refine ⟨(by decide : Solid (lit "directory")), (by decide : Solid (lit "0755")), ?_⟩
    simp only [columns]
    cases digests (spell p) with
    | none => exact (by decide : Solid [])
    | some d => exact d.solid

theorem recordLine_eq {line : Text} (hi : Fits i) (he : Writes i e) (h : recordLine sha256 e digests = .ok line) :
    line = lineOf sha256 digests i := by
  obtain ⟨q, n, hq⟩ := (List.eq_nil_or_concat i.1).resolve_left hi.nonempty
  rw [List.concat_eq_append] at hq
  have hname : nameOf e.path = i.1.getLastD [] := by
    obtain ⟨digest, he⟩ := he
    rw [Lists.path ⟨true, some digest, he⟩, hq, nameOf_spell (not_mem_of_safe (hi.safe n (by simp [hq]))),
      List.getLastD_concat]
  obtain ⟨digest, he⟩ := he
  obtain ⟨p, (⟨mode, size, sha⟩ | target | _) | mode⟩ := i
  · obtain rfl := Option.some.inj he
    obtain rfl := Except.ok.inj h
    rw [hname]
    simp [lineOf, columns, lit]
  · obtain rfl := Option.some.inj he
    obtain ⟨t, ht, h⟩ := bind_ok.1 h
    obtain rfl := Except.ok.inj h
    rw [hname, encode_eq ht]
    simp [lineOf, columns, lit]
  · cases he
  · obtain rfl := Option.some.inj he
    simp only [recordLine] at h
    split at h
    next d hd =>
      obtain rfl := Except.ok.inj h
      rw [hname]
      simp [lineOf, columns, lit, hd, directoryMode]
    · cases h

theorem record_eq (hi : Fits i) (he : Writes i e) (h : record sha256 e digests = .ok r) :
    r = lineOf sha256 digests i ++ [0] := by
  obtain ⟨line, hline, h⟩ := bind_ok.1 h
  obtain ⟨encoded, hencoded, h⟩ := bind_ok.1 h
  obtain rfl := Except.ok.inj h
  rw [encode_eq hencoded, recordLine_eq hi he hline]

theorem cut_injective {c : Nat} {a a' b b' : Text} (ha : c ∉ a) (ha' : c ∉ a') (h : a ++ c :: b = a' ++ c :: b') :
    a = a' ∧ b = b' := by
  have hsplit := congrArg (List.splitOn c) h
  rw [List.splitOn_append_cons_self_of_not_mem ha, List.splitOn_append_cons_self_of_not_mem ha'] at hsplit
  obtain ⟨hab, hrest⟩ := List.cons.inj hsplit
  have hjoin : ∀ text : Text, [c].intercalate (text.splitOn c) = text := fun _ => List.intercalate_splitOn c
  exact ⟨hab, by rw [← hjoin b, hrest, hjoin]⟩

theorem lineOf_injective (h : lineOf sha256 digests i = lineOf sha256 digests' i') :
    columns sha256 digests i = columns sha256 digests' i' ∧ i.1.getLastD [] = i'.1.getLastD [] := by
  obtain ⟨ha, hb, hc⟩ := columns_solid sha256 digests i
  obtain ⟨ha', hb', hc'⟩ := columns_solid sha256 digests' i'
  obtain ⟨hword, h⟩ := cut_injective (ha.not_mem le_rfl) (ha'.not_mem le_rfl) h
  obtain ⟨hmode, h⟩ := cut_injective (hb.not_mem le_rfl) (hb'.not_mem le_rfl) h
  obtain ⟨hhash, hname⟩ := cut_injective (hc.not_mem le_rfl) (hc'.not_mem le_rfl) h
  exact ⟨Prod.ext hword (Prod.ext hmode hhash), hname⟩

theorem zero_not_mem_lineOf (hi : Fits i) : 0 ∉ lineOf sha256 digests i := by
  obtain ⟨ha, hb, hc⟩ := columns_solid sha256 digests i
  have hname : 0 ∉ i.1.getLastD [] := by
    obtain ⟨q, n, hq⟩ := (List.eq_nil_or_concat i.1).resolve_left hi.nonempty
    rw [List.concat_eq_append] at hq
    rw [hq, List.getLastD_concat]
    intro hmem
    have hn := isName_of_safe (hi.safe n (by simp [hq]))
    simp only [isName, decide_eq_true_eq] at hn
    exact absurd (hn.2 0 hmem).1 (by decide)
  simp only [lineOf, List.mem_append, List.mem_cons, not_or]
  exact ⟨ha.not_mem (by decide), by decide, hb.not_mem (by decide), by decide, hc.not_mem (by decide), by decide, hname⟩

/-! ### Directories -/

theorem mapM_mem {α β : Type} {f : α → Result β} {as : List α} {bs : List β} (h : as.mapM f = .ok bs) {b : β} :
    b ∈ bs ↔ ∃ a ∈ as, f a = .ok b := by
  induction as generalizing bs with
  | nil =>
      cases h
      simp
  | cons a as ih =>
      rw [List.mapM_cons] at h
      obtain ⟨b', hb', h⟩ := bind_ok.1 h
      obtain ⟨bs', hbs', h⟩ := bind_ok.1 h
      obtain rfl := Except.ok.inj h
      rw [List.mem_cons, ih hbs']
      simp [hb', eq_comm]

theorem exists_of_mapM {α β : Type} {f : α → Result β} {as : List α} {bs : List β} (h : as.mapM f = .ok bs) {a : α}
    (ha : a ∈ as) : ∃ b ∈ bs, f a = .ok b := by
  induction as generalizing bs with
  | nil => cases ha
  | cons a' as ih =>
      rw [List.mapM_cons] at h
      obtain ⟨b', hb', h⟩ := bind_ok.1 h
      obtain ⟨bs', hbs', h⟩ := bind_ok.1 h
      obtain rfl := Except.ok.inj h
      obtain rfl | ha := List.mem_cons.1 ha
      · exact ⟨b', .head _, hb'⟩
      · obtain ⟨b, hb, hab⟩ := ih hbs' ha
        exact ⟨b, .tail _ hb, hab⟩

/-- A tree as it stands in a manifest, with what `merkle ()` makes of it. -/
structure Listing (sha256 : Text → Digest) (L : List Place) (entries : List Entry) (tree : Digest)
    (digests : Text → Option Digest) (strings : List Text) : Prop where
  good : Good L
  writes : List.Forall₂ Writes L entries
  digested : Digested sha256 entries tree digests strings

variable {tree tree' : Digest} {strings strings' : List Text} {q : List Text} {bytes : Text}

theorem Writes.path (h : Writes i e) : e.path = spell i.1 := by
  obtain ⟨digest, h⟩ := h
  exact Lists.path ⟨true, some digest, h⟩

theorem Writes.isDirectory (h : Writes i e) : e.isDirectory = isDir i := by
  obtain ⟨digest, h⟩ := h
  exact Lists.isDirectory ⟨true, some digest, h⟩

theorem Fits.parentOf (h : Fits i) : Rootfs.parentOf (spell i.1) = spellDir i.1.dropLast := by
  obtain ⟨q, n, hq⟩ := (List.eq_nil_or_concat i.1).resolve_left h.nonempty
  rw [List.concat_eq_append] at hq
  rw [hq, parentOf_spell (not_mem_of_safe (h.safe n (by simp [hq]))), List.dropLast_concat]

/-- In a directory, as its path says. -/
theorem Writes.child_iff (h : Writes i e) (hi : Fits i) (hq : ∀ part ∈ q, isUnsafe part = false) :
    Rootfs.parentOf e.path = spellDir q ↔ i.1.dropLast = q := by
  have hsafe : ∀ part ∈ i.1.dropLast, isUnsafe part = false := fun part hpart =>
    hi.safe part (List.dropLast_subset _ hpart)
  rw [h.path, hi.parentOf]
  exact ⟨spellDir_injective hsafe hq, congrArg spellDir⟩

/-- The records of a directory are those of the places in it. -/
theorem Listing.lines (h : Listing sha256 L entries tree digests strings) (hq : ∀ part ∈ q, isUnsafe part = false)
    (hbytes : directoryBytes sha256 (childrenOf entries) digests (spellDir q) = .ok bytes) :
    ∃ lines : List Text, bytes = lines.flatMap (· ++ [0]) ∧ (∀ l ∈ lines, 0 ∉ l) ∧
      ∀ l, l ∈ lines ↔ ∃ i ∈ L, i.1.dropLast = q ∧ lineOf sha256 digests i = l := by
  rw [directoryBytes, childrenOf] at hbytes
  split at hbytes
  · cases hbytes
  next children hchildren =>
    split at hchildren
    · cases hchildren
      obtain ⟨rs, hrs, hbytes⟩ := bind_ok.1 hbytes
      obtain rfl := Except.ok.inj hbytes
      have hrecord : ∀ r, r ∈ rs ↔ ∃ i ∈ L, i.1.dropLast = q ∧ lineOf sha256 digests i ++ [0] = r := by
        intro r
        rw [mapM_mem hrs]
        constructor
        · rintro ⟨e, he, hr⟩
          rw [List.mem_insertionSort, List.mem_filter] at he
          obtain ⟨i, hi, hie⟩ := forall₂_exists h.writes he.1
          have hfits := h.good.fits i hi
          exact ⟨i, hi, (hie.child_iff hfits hq).1 (of_decide_eq_true he.2), (record_eq hfits hie hr).symm⟩
        · rintro ⟨i, hi, hparent, rfl⟩
          have hfits := h.good.fits i hi
          obtain ⟨e, he, hie⟩ := forall₂_exists h.writes.flip hi
          have hie : Writes i e := hie
          have hchild : e ∈ (entries.filter (Rootfs.parentOf ·.path = spellDir q)).insertionSort
              fun a b => nameOf a.path ≤ nameOf b.path := by
            rw [List.mem_insertionSort, List.mem_filter]
            exact ⟨he, decide_eq_true ((hie.child_iff hfits hq).2 hparent)⟩
          obtain ⟨r, -, hr⟩ := exists_of_mapM hrs hchild
          exact ⟨e, hchild, hr.trans (congrArg Except.ok (record_eq hfits hie hr))⟩
      have hends : ∀ r ∈ rs, r.dropLast ++ [0] = r := by
        intro r hr
        obtain ⟨i, -, -, rfl⟩ := (hrecord r).1 hr
        rw [List.dropLast_concat]
      refine ⟨rs.map List.dropLast, ?_, ?_, ?_⟩
      · rw [List.flatMap_map, List.flatMap_def, List.map_congr_left hends, List.map_id']
      · intro l hl
        obtain ⟨r, hr, rfl⟩ := List.mem_map.1 hl
        obtain ⟨i, hi, -, rfl⟩ := (hrecord r).1 hr
        rw [List.dropLast_concat]
        exact zero_not_mem_lineOf (h.good.fits i hi)
      · intro l
        constructor
        · intro hl
          obtain ⟨r, hr, rfl⟩ := List.mem_map.1 hl
          obtain ⟨i, hi, hparent, rfl⟩ := (hrecord r).1 hr
          exact ⟨i, hi, hparent, by rw [List.dropLast_concat]⟩
        · rintro ⟨i, hi, hparent, rfl⟩
          exact List.mem_map.2 ⟨_, (hrecord _).2 ⟨i, hi, hparent, rfl⟩, List.dropLast_concat⟩
    · cases hchildren

/-! ### The same digest, the same tree -/

/-- No two of the strings that are hashed have one digest. -/
def CollisionFree (sha256 : Text → Digest) (strings : List Text) : Prop :=
  ∀ a ∈ strings, ∀ b ∈ strings, sha256 a = sha256 b → a = b

/-- What a digest says of a place. -/
def outline (i : Place) : Place :=
  (i.1, match i.2 with
    | .inl (.file mode _ sha256) => .inl (.file (seenMode mode) 0 sha256)
    | .inl what => .inl what
    | .inr _ => .inr 0o755)

theorem isDir_outline (i : Place) : isDir (outline i) = isDir i := by
  obtain ⟨p, (_ | _ | _) | _⟩ := i <;> rfl

theorem Good.outlines_sorted (hL : Good L) : (L.map outline).Pairwise fun i j => i.1 < j.1 :=
  List.pairwise_map.2 hL.listed.sorted

/-- A place and its counterpart, where a directory's digests are the same too. -/
structure Matches (digests digests' : Text → Option Digest) (i i' : Place) : Prop where
  outline : outline i = outline i'
  digest : isDir i = true → digests (spell i.1) = digests' (spell i.1)

/-- The directory, or the root, has records that are hashed. -/
theorem Listing.sealed (h : Listing sha256 L entries tree digests strings) (hi : i ∈ L) (hdir : isDir i = true) :
    ∃ bytes ∈ strings, directoryBytes sha256 (childrenOf entries) digests (spell i.1) = .ok bytes ∧
      digests (spell i.1) = some (sha256 bytes) := by
  obtain ⟨e, he, hie⟩ := forall₂_exists h.writes.flip hi
  have hie : Writes i e := hie
  obtain ⟨bytes, hrecords, hdigest, hhashed⟩ := h.digested.directories e he (hie.isDirectory.trans hdir)
  rw [hie.path] at hrecords hdigest
  exact ⟨bytes, hhashed, hrecords, hdigest⟩

theorem Listing.target_mem (h : Listing sha256 L entries tree digests strings) {p : List Text} {target : Text}
    (hi : (p, .inl (.symlink target)) ∈ L) : target ∈ strings := by
  obtain ⟨e, he, digest, hie⟩ := forall₂_exists h.writes.flip hi
  obtain rfl := Option.some.inj hie
  exact h.digested.targets _ he target rfl

variable (h : Listing sha256 L entries tree digests strings)
  {entries' : List Entry} (h' : Listing sha256 L' entries' tree' digests' strings')
  (hfree : CollisionFree sha256 (strings ++ strings'))

include h h' hfree

/-- One record, for two places. -/
theorem Listing.matches_of_columns (hi : i ∈ L) (hi' : i' ∈ L') (hpath : i.1 = i'.1)
    (hcolumns : columns sha256 digests i = columns sha256 digests' i') : Matches digests digests' i i' := by
  have hsound := (h.good.fits i hi).sound
  have hsound' := (h'.good.fits i' hi').sound
  have hwords : [lit "file", lit "symlink", lit "directory"].Nodup := by decide
  simp only [List.nodup_cons, List.mem_cons, List.not_mem_nil, or_false, not_or] at hwords
  obtain ⟨⟨hfs, hfd⟩, hsd, -⟩ := hwords
  obtain ⟨p, x⟩ := i
  obtain ⟨p', y⟩ := i'
  obtain rfl : p = p' := hpath
  rcases x with (⟨mode, size, sha⟩ | target | _) | mode
  · rcases y with (⟨mode', size', sha'⟩ | target' | _) | mode'
    · have hmode : fileMode true mode = fileMode true mode' := congrArg (·.2.1) hcolumns
      have hsha : sha.text = sha'.text := congrArg (·.2.2) hcolumns
      obtain rfl := Digest.text_injective hsha
      refine ⟨?_, by simp [isDir]⟩
      simp only [outline, fileMode_eq.1 hmode]
    · exact absurd (congrArg Prod.fst hcolumns) hfs
    · exact hsound'.elim
    · exact absurd (congrArg Prod.fst hcolumns) hfd
  · rcases y with (⟨mode', size', sha'⟩ | target' | _) | mode'
    · exact absurd (congrArg Prod.fst hcolumns) (Ne.symm hfs)
    · have hhash : (sha256 target).text = (sha256 target').text := congrArg (·.2.2) hcolumns
      obtain rfl := hfree target (List.mem_append_left _ (h.target_mem hi)) target'
        (List.mem_append_right _ (h'.target_mem hi')) (Digest.text_injective hhash)
      exact ⟨rfl, by simp [isDir]⟩
    · exact hsound'.elim
    · exact absurd (congrArg Prod.fst hcolumns) hsd
  · exact hsound.elim
  · rcases y with (⟨mode', size', sha'⟩ | target' | _) | mode'
    · exact absurd (congrArg Prod.fst hcolumns) (Ne.symm hfd)
    · exact absurd (congrArg Prod.fst hcolumns) (Ne.symm hsd)
    · exact hsound'.elim
    · refine ⟨rfl, fun _ => ?_⟩
      obtain ⟨bytes, -, -, hdigest⟩ := h.sealed hi rfl
      obtain ⟨bytes', -, -, hdigest'⟩ := h'.sealed hi' rfl
      have hhash := congrArg (·.2.2) hcolumns
      simp only [columns, hdigest, hdigest', Option.map_some, Option.getD_some] at hhash
      rw [hdigest, hdigest', Digest.text_injective hhash]

/-- Directories with one digest have the same places in them. -/
theorem Listing.match_children (hq : ∀ part ∈ q, isUnsafe part = false) {bytes' : Text} (hmem : bytes ∈ strings)
    (hmem' : bytes' ∈ strings') (hhash : sha256 bytes = sha256 bytes')
    (hbytes : directoryBytes sha256 (childrenOf entries) digests (spellDir q) = .ok bytes)
    (hbytes' : directoryBytes sha256 (childrenOf entries') digests' (spellDir q) = .ok bytes') (hi : i ∈ L)
    (hparent : i.1.dropLast = q) : ∃ i' ∈ L', Matches digests digests' i i' := by
  obtain rfl := hfree bytes (List.mem_append_left _ hmem) bytes' (List.mem_append_right _ hmem') hhash
  obtain ⟨lines, hlines, hclean, hall⟩ := h.lines hq hbytes
  obtain ⟨lines', hlines', hclean', hall'⟩ := h'.lines hq hbytes'
  have hsame : lines = lines' := by
    have hsplit := splitOn_lines hclean
    rw [← hlines, hlines', splitOn_lines hclean'] at hsplit
    exact (List.append_cancel_right hsplit).symm
  obtain ⟨i', hi', hparent', hline⟩ := (hall' _).1 (hsame ▸ (hall _).2 ⟨i, hi, hparent, rfl⟩)
  obtain ⟨hcolumns, hname⟩ := lineOf_injective hline.symm
  refine ⟨i', hi', h.matches_of_columns h' hfree hi hi' ?_ hcolumns⟩
  obtain ⟨p, n, hp⟩ := (List.eq_nil_or_concat i.1).resolve_left (h.good.fits i hi).nonempty
  obtain ⟨p', n', hp'⟩ := (List.eq_nil_or_concat i'.1).resolve_left (h'.good.fits i' hi').nonempty
  rw [List.concat_eq_append] at hp hp'
  rw [hp, hp', List.getLastD_concat, List.getLastD_concat] at hname
  rw [hp, List.dropLast_concat] at hparent
  rw [hp', List.dropLast_concat] at hparent'
  rw [hp, hp', hparent, hparent', hname]

/-- From the root down. -/
theorem Listing.matches_of_tree (htree : tree = tree') (hi : i ∈ L) : ∃ i' ∈ L', Matches digests digests' i i' := by
  -- by the length of the path: the parent is the root, or has a counterpart
  obtain ⟨n, hn⟩ : ∃ n, i.1.length = n := ⟨_, rfl⟩
  induction n using Nat.strong_induction_on generalizing i with
  | _ n ih =>
      obtain hroot | ⟨mode, hparent⟩ := h.good.listed.closed i hi
      · obtain ⟨bytes, hmem, hbytes, rfl⟩ := h.digested.root
        obtain ⟨bytes', hmem', hbytes', rfl⟩ := h'.digested.root
        exact h.match_children (q := []) h' hfree (by simp) hmem hmem' htree hbytes hbytes' hi hroot
      · have hne := (h.good.fits i hi).nonempty
        have hlt : i.1.dropLast.length < n := by
          rw [List.length_dropLast, ← hn]
          exact Nat.sub_lt (List.length_pos_of_ne_nil hne) Nat.one_pos
        obtain ⟨j, hj, hjmatch⟩ := ih _ hlt hparent rfl
        have hpath : i.1.dropLast = j.1 := congrArg Prod.fst hjmatch.outline
        have hdir : isDir j = true := by rw [← isDir_outline, ← hjmatch.outline, isDir_outline, isDir, Sum.isRight_inr]
        obtain ⟨bytes, hmem, hbytes, hdigest⟩ := h.sealed hparent rfl
        obtain ⟨bytes', hmem', hbytes', hdigest'⟩ := h'.sealed hj hdir
        rw [← hpath] at hbytes' hdigest'
        have hhash : sha256 bytes = sha256 bytes' := by
          have hsame := hjmatch.digest rfl
          rw [hdigest, hdigest'] at hsame
          exact Option.some.inj hsame
        have hfits := h.good.fits _ hparent
        rw [← spellDir_of_ne_nil hfits.nonempty] at hbytes hbytes'
        exact h.match_children h' hfree hfits.safe hmem hmem' hhash hbytes hbytes' hi rfl

/-- Listings with one tree digest agree, place by place. -/
theorem Listing.outlines_eq (htree : tree = tree') : L.map outline = L'.map outline := by
  have hnodup : ∀ {L : List Place}, Good L → (L.map outline).Nodup := fun hL =>
    hL.outlines_sorted.imp fun hlt heq => absurd (congrArg Prod.fst heq) hlt.ne
  have hfree' : CollisionFree sha256 (strings' ++ strings) := by
    intro a ha b hb
    rw [List.mem_append, or_comm, ← List.mem_append] at ha hb
    exact hfree a ha b hb
  refine eq_of_perm_of_sorted h.good.outlines_sorted h'.good.outlines_sorted ?_
  rw [List.perm_ext_iff_of_nodup (hnodup h.good) (hnodup h'.good)]
  intro o
  rw [List.mem_map, List.mem_map]
  constructor
  · rintro ⟨i, hi, rfl⟩
    obtain ⟨i', hi', hmatch⟩ := h.matches_of_tree h' hfree htree hi
    exact ⟨i', hi', hmatch.outline.symm⟩
  · rintro ⟨i', hi', rfl⟩
    obtain ⟨i, hi, hmatch⟩ := h'.matches_of_tree h hfree' htree.symm hi'
    exact ⟨i, hi, hmatch.outline.symm⟩

end Identity

end MiniDarwin.Rootfs
