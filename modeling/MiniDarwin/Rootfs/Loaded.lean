import MiniDarwin.Rootfs.Rebuilt

/-!
What `load_manifest ()` has found out of a manifest that it returns.
-/

namespace MiniDarwin.Rootfs

open Data

variable {sha256 : Text → Digest} {L : List Place} {i : Place} {e e' : Entry} {entries : List Entry} {value : Value}
  {values : List Value} {what : Text} {digests : Text → Option Digest}

/-! ### Entries and their mappings -/

theorem Describes.writes (h : Describes i value) : ∃ e, Writes i e ∧ value = e.value := by
  obtain ⟨digest, h⟩ := h
  obtain ⟨e, he, rfl⟩ := Option.map_eq_some_iff.1 h
  exact ⟨e, ⟨digest, he⟩, rfl⟩

theorem Writes.describes (h : Writes i e) : Describes i e.value := by
  obtain ⟨digest, h⟩ := h
  exact ⟨digest, congrArg (Option.map Entry.value) h⟩

theorem Good.checkEntries_ok (hL : Good L) (h : List.Forall₂ Writes L entries) :
    checkEntries (entries.map Entry.value) what = .ok () :=
  Rootfs.checkEntries_ok.2 ⟨L, hL, List.forall₂_map_right_iff.2 (h.imp fun _ _ hi => hi.describes)⟩

theorem Writes.entryFrom (h : Writes i e) : entryFrom e.value = some e := by
  obtain ⟨digest, h⟩ := h
  obtain ⟨p, (⟨mode, size, sha⟩ | target | _) | mode⟩ := i
  · obtain rfl := Option.some.inj h
    rfl
  · obtain rfl := Option.some.inj h
    rfl
  · cases h
  · obtain rfl := Option.some.inj h
    rfl

theorem entriesFrom_ok (h : List.Forall₂ Writes L entries) : entriesFrom (entries.map Entry.value) = .ok entries := by
  have hall : (entries.map Entry.value).mapM entryFrom = some entries := by
    induction h with
    | nil => rfl
    | cons hi _ ih => rw [List.map_cons, List.mapM_cons, hi.entryFrom, ih]; rfl
  rw [entriesFrom, hall]

theorem listedIn_ok {document : List (Text × Value)} (hlisted : get document (lit "entries") = .list (entries.map Entry.value))
    (h : List.Forall₂ Writes L entries) : listedIn document = .ok entries := by
  simp only [listedIn, hlisted, entriesFrom_ok h]

/-- A list that is accepted stands for places in the order of a tree. -/
theorem exists_writes (h : checkEntries values what = .ok ()) :
    ∃ L entries, Good L ∧ List.Forall₂ Writes L entries ∧ values = entries.map Entry.value ∧
      entriesFrom values = .ok entries := by
  obtain ⟨L, hL, hdesc⟩ := checkEntries_ok.1 h
  obtain ⟨entries, hwrites, rfl⟩ : ∃ entries, List.Forall₂ Writes L entries ∧ values = entries.map Entry.value := by
    clear hL h
    induction hdesc with
    | nil => exact ⟨[], .nil, rfl⟩
    | cons hi _ ih =>
        obtain ⟨e, he, rfl⟩ := hi.writes
        obtain ⟨entries, hentries, rfl⟩ := ih
        exact ⟨e :: entries, .cons he hentries, rfl⟩
  exact ⟨L, entries, hL, hwrites, rfl, entriesFrom_ok hwrites⟩

theorem Good.plain_of_writes (hL : Good L) (h : List.Forall₂ Writes L entries) : ∀ e ∈ entries, e.Plain := by
  intro e he
  obtain ⟨i, hi, digest, hie⟩ := forall₂_exists h he
  exact (hL.fits i hi).plain hie

theorem Good.rooted_of_writes (hL : Good L) (h : List.Forall₂ Writes L entries) : Rooted entries := by
  refine hL.rooted (h.imp ?_)
  rintro i e ⟨digest, he⟩
  exact ⟨true, some digest, he⟩

theorem Good.listing (sha256 : Text → Digest) (hL : Good L) (h : List.Forall₂ Writes L entries) :
    ∃ tree digests strings, merkle sha256 entries = .ok (tree, digests) ∧ hashed sha256 entries = .ok strings ∧
      Listing sha256 L entries tree digests strings := by
  have hrooted := hL.rooted_of_writes h
  have hdigested : ∃ tree digests strings, merkle sha256 entries = .ok (tree, digests) ∧ hashed sha256 entries = .ok strings ∧
      Digested sha256 entries tree digests strings := hrooted.digested (hL.plain_of_writes h)
  obtain ⟨tree, digests, strings, hmerkle, hhashed, hdigested⟩ := hdigested
  exact ⟨tree, digests, strings, hmerkle, hhashed, hL, h, hdigested⟩

/-- What a tree digest says of an entry. -/
def Entry.outline (e : Entry) : Entry :=
  match e.body with
  | .file mode _ sha256 => ⟨e.path, .file mode 0 sha256⟩
  | .directory mode _ => ⟨e.path, .directory mode none⟩
  | .symlink target => ⟨e.path, .symlink target⟩

theorem Writes.outline (h : Writes i e) : entryOf true none (outline i) = some e.outline := by
  obtain ⟨digest, h⟩ := h
  obtain ⟨p, (⟨mode, size, sha⟩ | target | _) | mode⟩ := i
  · obtain rfl := Option.some.inj h
    have hmode : fileMode true (seenMode mode) = fileMode true mode := by
      rw [fileMode_eq]
      simp only [seenMode]
      split <;> decide
    simp only [Rootfs.outline, entryOf, Entry.outline, hmode]
  · obtain rfl := Option.some.inj h
    rfl
  · cases h
  · obtain rfl := Option.some.inj h
    rfl

theorem outlines_of_places {L' : List Place} {entries' : List Entry} (h : List.Forall₂ Writes L entries)
    (h' : List.Forall₂ Writes L' entries') (hL : L.map outline = L'.map outline) :
    entries.map Entry.outline = entries'.map Entry.outline := by
  have hmap : ∀ {L : List Place} {entries}, List.Forall₂ Writes L entries →
      (L.map outline).map (entryOf true none) = (entries.map Entry.outline).map some := by
    intro L entries h
    induction h with
    | nil => rfl
    | cons hi _ ih => rw [List.map_cons, List.map_cons, List.map_cons, List.map_cons, hi.outline, ih]
  refine List.map_injective_iff.2 (Option.some_injective Entry) ?_
  rw [← hmap h, ← hmap h', hL]

/-! ### A manifest that has been loaded -/

/-- The digests of the directories are theirs. -/
theorem finish_eq (h : finish digests e = .ok e') :
    e'.path = e.path ∧ e'.isDirectory = e.isDirectory ∧ (finish digests e' = .ok e') := by
  obtain ⟨path, body⟩ := e
  cases body with
  | directory mode digest =>
      simp only [finish] at h
      split at h
      next d hd =>
        obtain rfl := Except.ok.inj h
        refine ⟨rfl, rfl, ?_⟩
        simp only [finish, hd]
      · cases h
  | file mode size sha =>
      obtain rfl := Except.ok.inj h
      exact ⟨rfl, rfl, rfl⟩
  | symlink target =>
      obtain rfl := Except.ok.inj h
      exact ⟨rfl, rfl, rfl⟩

theorem Writes.finish (h : Writes i e) (he : Rootfs.finish digests e = .ok e') : Writes i e' := by
  obtain ⟨digest, h⟩ := h
  obtain ⟨p, (⟨mode, size, sha⟩ | target | _) | mode⟩ := i
  · obtain rfl := Option.some.inj h
    obtain rfl := Except.ok.inj he
    exact ⟨digest, rfl⟩
  · obtain rfl := Option.some.inj h
    obtain rfl := Except.ok.inj he
    exact ⟨digest, rfl⟩
  · cases h
  · obtain rfl := Option.some.inj h
    simp only [Rootfs.finish] at he
    split at he
    next d hd =>
      obtain rfl := Except.ok.inj he
      exact ⟨d, rfl⟩
    · cases he

theorem finished_writes (h : List.Forall₂ Writes L entries) {finished : List Entry}
    (hfinished : entries.mapM (finish digests) = .ok finished) :
    List.Forall₂ Writes L finished ∧ ∀ e ∈ finished, finish digests e = .ok e := by
  induction h generalizing finished with
  | nil =>
      cases hfinished
      exact ⟨.nil, by simp⟩
  | cons hi _ ih =>
      rw [List.mapM_cons] at hfinished
      obtain ⟨e', he', hfinished⟩ := bind_ok.1 hfinished
      obtain ⟨rest, hrest, hfinished⟩ := bind_ok.1 hfinished
      obtain rfl := Except.ok.inj hfinished
      obtain ⟨hwrites, hsame⟩ := ih hrest
      exact ⟨.cons (hi.finish he') hwrites, List.forall_mem_cons.2 ⟨(finish_eq he').2.2, hsame⟩⟩

theorem eq_of_zip {α : Type} [DecidableEq α] {as bs : List α} (hlen : as.length = bs.length)
    (h : (as.zip bs).find? (fun both => both.1 ≠ both.2) = none) : as = bs := by
  refine List.forall₂_eq_eq_eq ▸ List.forall₂_iff_zip.2 ⟨hlen, ?_⟩
  intro a b hab
  simpa using List.find?_eq_none.1 h (a, b) hab

/-- What `load_manifest ()` has found out. -/
structure Loaded (sha256 : Text → Digest) (raw : ByteArray) (what : Text) (m : Manifest) : Prop where
  size : raw.size ≤ manifestLimit
  text : decodeAscii raw what = .ok m.text
  read : ∃ data, parseYaml m.text what = .ok (.map data) ∧ readHead data what = .ok m.head
  entries : checkEntries (m.entries.map Entry.value) what = .ok ()
  document : manifestDocument sha256 (identityValue m.head.identity) (m.head.build.map Build.value) m.entries = .ok m.document
  written : dumpYaml manifestHeader m.document = .ok m.text
  digests : ∃ tree digests, merkle sha256 m.entries = .ok (tree, digests) ∧ tree.text = m.head.tree ∧
    ∀ e ∈ m.entries, finish digests e = .ok e

theorem compareRebuilt_ok {head : Head} {summary : Value} {rebuilt : List (Text × Value)} {mine theirs : List Entry}
    {text : Text} {m : Manifest} (hlen : mine.length = theirs.length) :
    compareRebuilt head summary rebuilt mine theirs text what = .ok m ↔
      mine = theirs ∧ sameScalars (get rebuilt (lit "summary")) summary = true ∧
        dumpYaml manifestHeader rebuilt = .ok text ∧ m = ⟨head, mine, rebuilt, text⟩ := by
  constructor
  · intro h
    rw [compareRebuilt] at h
    split at h
    · cases h
    next hzip =>
      split at h
      · cases h
      next hsummary =>
        obtain ⟨written, hwritten, h⟩ := bind_ok.1 h
        split at h
        · cases h
        next hsame =>
          obtain rfl := not_not.1 hsame
          exact ⟨eq_of_zip hlen hzip, by simpa using hsummary, hwritten, (Except.ok.inj h).symm⟩
  · rintro ⟨rfl, hsummary, hwritten, rfl⟩
    have hzip : (mine.zip mine).find? (fun both => both.1 ≠ both.2) = none := by
      rw [List.find?_eq_none]
      rintro ⟨a, b⟩ hab
      have hsame : List.Forall₂ (· = ·) mine mine := List.forall₂_eq_eq_eq ▸ rfl
      simpa using List.forall₂_zip hsame hab
    rw [compareRebuilt, hzip]
    simp only [hsummary, Bool.not_true, Bool.false_eq_true, if_false]
    exact bind_ok.2 ⟨text, hwritten, if_neg (not_not.2 rfl)⟩

theorem loadManifest_ok {raw : ByteArray} {m : Manifest} (h : loadManifest sha256 raw what = .ok m) :
    Loaded sha256 raw what m := by
  rw [loadManifest] at h
  split at h
  · cases h
  next hsize =>
    obtain ⟨text, htext, h⟩ := bind_ok.1 h
    obtain ⟨value, hvalue, h⟩ := bind_ok.1 h
    obtain ⟨data, hdata, h⟩ := bind_ok.1 h
    rw [mapping_ok.1 hdata] at hvalue
    obtain ⟨head, hhead, h⟩ := bind_ok.1 h
    split at h
    next values hvalues =>
      obtain ⟨_, hcheck, h⟩ := bind_ok.1 h
      obtain ⟨L, entries, hL, hwrites, rfl, hentries⟩ := exists_writes hcheck
      rw [rebuild, hentries] at h
      obtain ⟨_, hrefl, h⟩ := bind_ok.1 h
      cases hrefl
      obtain ⟨rebuilt, hrebuilt, h⟩ := bind_ok.1 h
      obtain ⟨tree, digests, finished, hmerkle, hfinished, rfl⟩ := manifestDocument_ok.1 hrebuilt
      obtain ⟨hwrites', hsame⟩ := finished_writes hwrites hfinished
      rw [get_tree] at h
      obtain ⟨_, hrefl, h⟩ := bind_ok.1 h
      cases hrefl
      split at h
      · cases h
      next hdigest =>
        obtain ⟨mine, hmine, h⟩ := bind_ok.1 h
        rw [listedIn_ok (get_entries _ _ _ _ _) hwrites'] at hmine
        obtain rfl := Except.ok.inj hmine
        obtain ⟨rfl, -, hwritten, rfl⟩ := (compareRebuilt_ok (hwrites'.length_eq.symm.trans hwrites.length_eq)).1 h
        have hdigest : some tree.text = some head.tree := not_not.1 hdigest
        exact {
          size := Nat.le_of_not_lt hsize
          text := htext
          read := ⟨data, hvalue, hhead⟩
          entries := hcheck
          document := hrebuilt
          written := hwritten
          digests := ⟨tree, digests, hmerkle, Option.some.inj hdigest, hsame⟩ }
    · cases h

/-- The tree of a manifest that has been loaded. -/
theorem Loaded.listing {raw : ByteArray} {m : Manifest} (h : Loaded sha256 raw what m) :
    ∃ L, Good L ∧ List.Forall₂ Writes L m.entries ∧ ∃ tree digests strings, hashed sha256 m.entries = .ok strings ∧
      Listing sha256 L m.entries tree digests strings ∧ tree.text = m.head.tree ∧
      ∀ e ∈ m.entries, finish digests e = .ok e := by
  obtain ⟨L, entries, hL, hwrites, hvalues, -⟩ := exists_writes h.entries
  obtain rfl := Entry.value_injective.list_map hvalues
  obtain ⟨tree, digests, strings, hmerkle, hhashed, hlisting⟩ := hL.listing sha256 hwrites
  obtain ⟨tree', digests', hmerkle', htree, hfinish⟩ := h.digests
  cases hmerkle.symm.trans hmerkle'
  exact ⟨L, hL, hwrites, tree, digests, strings, hhashed, hlisting, htree, hfinish⟩

theorem decodeAscii_injective {raw raw' : ByteArray} {what' text : Text} (h : decodeAscii raw what = .ok text)
    (h' : decodeAscii raw' what' = .ok text) : raw = raw' := by
  have hbytes : ∀ {raw what}, decodeAscii raw what = .ok text → raw.data.toList.map UInt8.toNat = text := by
    intro raw what h
    rw [decodeAscii] at h
    split at h
    · exact Except.ok.inj h
    · cases h
  have hinj : Function.Injective UInt8.toNat := fun _ _ => UInt8.toNat_inj.1
  have hlist := hinj.list_map ((hbytes h).trans (hbytes h').symm)
  exact ByteArray.ext (Array.toList_inj.1 hlist)

/-- The document lists the entries. -/
theorem Loaded.listed {raw : ByteArray} {m : Manifest} (h : Loaded sha256 raw what m) :
    get m.document (lit "entries") = .list (m.entries.map Entry.value) := by
  obtain ⟨tree, digests, finished, hmerkle, hfinished, hparts⟩ := manifestDocument_ok.1 h.document
  obtain ⟨tree', digests', hmerkle', -, hfixed⟩ := h.digests
  obtain ⟨rfl, rfl⟩ := Prod.mk.inj (Except.ok.inj (hmerkle.symm.trans hmerkle'))
  have hself : ∀ entries : List Entry, (∀ e ∈ entries, finish digests e = .ok e) →
      entries.mapM (finish digests) = .ok entries := by
    intro entries
    induction entries with
    | nil => exact fun _ => rfl
    | cons e entries ih =>
        intro hfixed
        rw [List.mapM_cons]
        exact bind_ok.2 ⟨e, hfixed e (.head _), bind_ok.2 ⟨entries, ih fun e he => hfixed e (.tail _ he), rfl⟩⟩
  rw [hparts, get_entries, Except.ok.inj (hfinished.symm.trans (hself _ hfixed))]

end MiniDarwin.Rootfs
