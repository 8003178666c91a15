import MiniDarwin.Rootfs.Written

/-!
A tree digest stands for one manifest.
-/

namespace MiniDarwin.Rootfs

open Data

variable {sha256 : Text → Digest} {L : List Place} {i : Place} {e e' : Entry} {entries : List Entry} {value : Value}
  {values : List Value} {what : Text} {digests : Text → Option Digest}

/-! ### One digest, one manifest -/

/-- The sizes of the files, in their order. -/
def sizesOf (entries : List Entry) : List Nat :=
  entries.filterMap fun e => match e.body with
    | .file _ size _ => some size
    | _ => none

/-- Two of the strings have one digest. -/
def Collides (sha256 : Text → Digest) (strings : List Text) : Prop :=
  ∃ a ∈ strings, ∃ b ∈ strings, a ≠ b ∧ sha256 a = sha256 b

theorem collisionFree_of_not {strings : List Text} (h : ¬ Collides sha256 strings) : CollisionFree sha256 strings := by
  intro a ha b hb heq
  by_contra hne
  exact h ⟨a, ha, b, hb, hne, heq⟩

theorem length_sizesOf (h : e.outline = e'.outline) : (sizesOf [e]).length = (sizesOf [e']).length := by
  obtain ⟨path, body⟩ := e
  obtain ⟨path', body'⟩ := e'
  cases body <;> cases body' <;>
    simp only [Entry.outline, Entry.mk.injEq, reduceCtorEq, and_false] at h <;> rfl

theorem entry_eq {digests' : Text → Option Digest} (houtline : e.outline = e'.outline) (hsizes : sizesOf [e] = sizesOf [e'])
    (h : finish digests e = .ok e) (h' : finish digests' e' = .ok e')
    (hdigests : e.isDirectory = true → digests e.path = digests' e.path) : e = e' := by
  obtain ⟨path, body⟩ := e
  obtain ⟨path', body'⟩ := e'
  cases body with
  | file mode size sha =>
      cases body' with
      | file mode' size' sha' =>
          simp only [Entry.outline, Entry.mk.injEq, Body.file.injEq, true_and] at houtline
          obtain ⟨rfl, rfl, rfl⟩ := houtline
          obtain rfl : size = size' := by simpa [sizesOf] using hsizes
          rfl
      | _ => simp [Entry.outline] at houtline
  | symlink target =>
      cases body' with
      | symlink target' => exact houtline
      | _ => simp [Entry.outline] at houtline
  | directory mode digest =>
      cases body' with
      | directory mode' digest' =>
          simp only [Entry.outline, Entry.mk.injEq, Body.directory.injEq, and_true] at houtline
          obtain ⟨rfl, rfl⟩ := houtline
          have hsame := hdigests rfl
          simp only [finish] at h h'
          split at h
          next d hd =>
            rw [← hsame, hd] at h'
            exact (Except.ok.inj h).symm.trans (Except.ok.inj h')
          · cases h
      | _ => simp [Entry.outline] at houtline

/-- What is left open of a list of entries by what a tree digest says of it are the sizes, once its digests are
those of its directories. -/
theorem entries_eq {entries' : List Entry} {digests' : Text → Option Digest}
    (houtline : entries.map Entry.outline = entries'.map Entry.outline) (hsizes : sizesOf entries = sizesOf entries')
    (h : ∀ e ∈ entries, finish digests e = .ok e) (h' : ∀ e ∈ entries', finish digests' e = .ok e)
    (hdigests : ∀ e ∈ entries, e.isDirectory = true → digests e.path = digests' e.path) : entries = entries' := by
  induction entries generalizing entries' with
  | nil =>
      rw [List.map_nil, eq_comm, List.map_eq_nil_iff] at houtline
      exact houtline.symm
  | cons e entries ih =>
      obtain ⟨e', entries', rfl, hhead, htail⟩ := List.map_eq_cons_iff.1 houtline.symm
      have hcons : ∀ (e : Entry) entries, sizesOf (e :: entries) = sizesOf [e] ++ sizesOf entries := fun e entries =>
        List.filterMap_append (l := [e])
      rw [hcons e, hcons e'] at hsizes
      obtain ⟨hsize, hsizes⟩ := List.append_inj hsizes (length_sizesOf hhead.symm)
      rw [entry_eq hhead.symm hsize (h _ (.head _)) (h' _ (.head _)) (hdigests _ (.head _)),
        ih htail.symm hsizes (fun e he => h e (.tail _ he)) (fun e he => h' e (.tail _ he))
          fun e he => hdigests e (.tail _ he)]

/-- **The tree digest identifies the tree.** Of two lists of entries that are accepted, `merkle ()` gives digests; if
these are the same, the lists agree in all but the sizes of files, or two of the strings hashed collide. And two
manifests that load with the same identity, build section, tree digest and sizes are the same file, or there is
such a collision. -/
theorem tree_digest_identifies (sha256 : Text → Digest) :
    (∀ values values' what what', checkEntries values what = .ok () → checkEntries values' what' = .ok () →
      ∃ entries entries' tree tree' digests digests' strings strings',
        entriesFrom values = .ok entries ∧ entriesFrom values' = .ok entries' ∧
        merkle sha256 entries = .ok (tree, digests) ∧ merkle sha256 entries' = .ok (tree', digests') ∧
        hashed sha256 entries = .ok strings ∧ hashed sha256 entries' = .ok strings' ∧
        (tree = tree' → entries.map Entry.outline = entries'.map Entry.outline ∨ Collides sha256 (strings ++ strings'))) ∧
    ∀ raw raw' what what' m m', loadManifest sha256 raw what = .ok m → loadManifest sha256 raw' what' = .ok m' →
      m.head = m'.head → sizesOf m.entries = sizesOf m'.entries →
      ∃ strings strings', hashed sha256 m.entries = .ok strings ∧ hashed sha256 m'.entries = .ok strings' ∧
        (raw = raw' ∨ Collides sha256 (strings ++ strings')) := by
  constructor
  · intro values values' what what' h h'
    obtain ⟨L, entries, hL, hwrites, rfl, hentries⟩ := exists_writes h
    obtain ⟨L', entries', hL', hwrites', rfl, hentries'⟩ := exists_writes h'
    obtain ⟨tree, digests, strings, hmerkle, hhashed, hlisting⟩ := hL.listing sha256 hwrites
    obtain ⟨tree', digests', strings', hmerkle', hhashed', hlisting'⟩ := hL'.listing sha256 hwrites'
    refine ⟨entries, entries', tree, tree', digests, digests', strings, strings', hentries, hentries', hmerkle, hmerkle',
      hhashed, hhashed', ?_⟩
    intro htree
    by_cases hcollides : Collides sha256 (strings ++ strings')
    · exact .inr hcollides
    · exact .inl (outlines_of_places hwrites hwrites'
        (hlisting.outlines_eq hlisting' (collisionFree_of_not hcollides) htree))
  · intro raw raw' what what' m m' h h' hhead hsizes
    have hloaded := loadManifest_ok h
    have hloaded' := loadManifest_ok h'
    obtain ⟨L, hL, hwrites, tree, digests, strings, hhashed, hlisting, htree, hfinish⟩ := hloaded.listing
    obtain ⟨L', hL', hwrites', tree', digests', strings', hhashed', hlisting', htree', hfinish'⟩ := hloaded'.listing
    refine ⟨strings, strings', hhashed, hhashed', ?_⟩
    by_cases hcollides : Collides sha256 (strings ++ strings')
    · exact .inr hcollides
    left
    have hfree := collisionFree_of_not hcollides
    obtain rfl : tree = tree' := Digest.text_injective (by rw [htree, htree', hhead])
    have hsame := outlines_of_places hwrites hwrites' (hlisting.outlines_eq hlisting' hfree rfl)
    have hentries : m.entries = m'.entries := by
      refine entries_eq hsame hsizes hfinish hfinish' ?_
      intro e he hdir
      obtain ⟨i, hi, hie⟩ := forall₂_exists hwrites he
      obtain ⟨i', -, hmatch⟩ := hlisting.matches_of_tree hlisting' hfree rfl hi
      rw [hie.path]
      exact hmatch.digest (hie.isDirectory ▸ hdir)
    have hdocument := hloaded.document
    rw [hentries, hhead, hloaded'.document] at hdocument
    have hwritten := hloaded.written
    rw [← Except.ok.inj hdocument, hloaded'.written] at hwritten
    exact decodeAscii_injective hloaded.text (Except.ok.inj hwritten ▸ hloaded'.text)

/-- One file, of some size. -/
def fileOf (size : Nat) : List Value := [(⟨lit "/f", .file (lit "0644") size (default : Digest).text⟩ : Entry).value]

theorem tree_digest_identifies_files :
    (∃ entries entries' tree tree' digests digests' strings strings',
        entriesFrom (fileOf 1) = .ok entries ∧ entriesFrom (fileOf 2) = .ok entries' ∧
        merkle tally entries = .ok (tree, digests) ∧ merkle tally entries' = .ok (tree', digests') ∧
        hashed tally entries = .ok strings ∧ hashed tally entries' = .ok strings' ∧
        (tree = tree' → entries.map Entry.outline = entries'.map Entry.outline ∨
          Collides tally (strings ++ strings'))) ∧
      ∃ raw m, loadManifest tally raw (lit "m") = .ok m ∧ m.entries = fewListed ∧ ∃ strings strings',
        hashed tally m.entries = .ok strings ∧ hashed tally m.entries = .ok strings' ∧
        (raw = raw ∨ Collides tally (strings ++ strings')) := by
  have hfile : ∀ size, checkEntries (fileOf size) (lit "m") = .ok () := fun _ => rfl
  obtain ⟨raw, m, hm, hentries⟩ := few_load
  refine ⟨(tree_digest_identifies _).1 _ _ _ _ (hfile 1) (hfile 2), raw, m, hm, hentries, ?_⟩
  exact (tree_digest_identifies _).2 _ _ _ _ _ _ hm hm rfl rfl

end MiniDarwin.Rootfs
