import MiniDarwin.Rootfs.Loaded
import MiniDarwin.Rootfs.Stamp

/-!
What the commands write, the tool reads.

A document that can be written is read back as it is (`exists_file`), and so
a file is loaded just if its document passes. The checks that the writers
leave out are the exceptions: names of sources that are given twice, a
sequence below zero, and the address of a manifest.
-/

namespace MiniDarwin.Rootfs

open Data

variable {sha256 : Text → Digest} {what : Text} {raw out : ByteArray}

/-! ### The build section -/

structure AppleSource.Normal (s : AppleSource) : Prop where
  name : Filled s.name
  rev : Filled s.rev
  hash : Filled s.hash

structure Build.Normal (b : Build) : Prop where
  llvm : ∀ s ∈ b.llvm, Filled s
  sources : ∀ sources ∈ b.sources, ∀ s ∈ sources, s.Normal

/-- No source is given twice, and they are in order. -/
def Build.Ordered (b : Build) : Prop :=
  ∀ sources ∈ b.sources, sources.map (·.name) = (sources.map (·.name)).dedup.insertionSort (· ≤ ·)

theorem checkStr_filled {s : Text} (h : s ≠ []) : checkStr (str s) what false = .ok (some s) :=
  checkStr_ok.2 ⟨s, rfl, rfl, h⟩

theorem readSourcesFrom_value {sources : List AppleSource} (h : ∀ s ∈ sources, s.Normal) (k : Nat) :
    readSourcesFrom what k (sources.map AppleSource.value) = .ok sources := by
  induction sources generalizing k with
  | nil => rfl
  | cons s sources ih =>
      have hs := h s (.head _)
      rw [List.map_cons, readSourcesFrom]
      refine bind_ok.2 ⟨s, ?_, bind_ok.2 ⟨sources, ih (fun s hs => h s (.tail _ hs)) (k + 1), rfl⟩⟩
      refine bind_ok.2 ⟨_, mapping_ok.2 rfl, ?_⟩
      refine bind_ok.2 ⟨some s.name, checkStr_filled hs.name.nonempty, ?_⟩
      refine bind_ok.2 ⟨some s.rev, checkStr_filled hs.rev.nonempty, ?_⟩
      exact bind_ok.2 ⟨some s.hash, checkStr_filled hs.hash.nonempty, rfl⟩

theorem readSources_value {sources clean : List AppleSource} (h : ∀ s ∈ sources, s.Normal) :
    readSources (.list (sources.map AppleSource.value)) what = .ok clean ↔
      clean = sources ∧ sources.map (·.name) = (sources.map (·.name)).dedup.insertionSort (· ≤ ·) := by
  rw [readSources, readSourcesFrom_value h]
  change (if sources.map (·.name) ≠ (sources.map (·.name)).dedup.insertionSort (· ≤ ·) then invalid _
    else Except.ok sources) = _ ↔ _
  split
  next hne =>
    constructor
    · intro h
      cases h
    · intro h
      exact absurd h.2 hne
  next heq =>
    constructor
    · intro h
      exact ⟨(Except.ok.inj h).symm, not_not.1 heq⟩
    · intro h
      exact congrArg Except.ok h.1.symm

theorem perhapsKey_ok {α : Type} {entries : List (Text × Value)} {key : Text} {read : Value → Result α} {o : Option α} :
    perhapsKey entries key read = .ok o ↔
      (entries.lookup key = none ∧ o = none) ∨ ∃ v a, entries.lookup key = some v ∧ read v = .ok a ∧ o = some a := by
  rw [perhapsKey]
  cases entries.lookup key with
  | none => simp [eq_comm]
  | some v =>
      simp only [reduceCtorEq, false_and, false_or, Option.some.injEq, exists_and_left, exists_eq_left']
      constructor
      · intro h
        obtain ⟨a, ha, h⟩ := bind_ok.1 h
        exact ⟨a, ha, (Except.ok.inj h).symm⟩
      · rintro ⟨a, ha, rfl⟩
        exact bind_ok.2 ⟨a, ha, rfl⟩

def Build.fields (b : Build) : List (Text × Value) :=
  (b.llvm.map fun llvm => (lit "llvm", str llvm)).toList ++
    (b.sources.map fun sources => (lit "apple_sources", Value.list (sources.map AppleSource.value))).toList

theorem Build.lookup_llvm (b : Build) : b.fields.lookup (lit "llvm") = b.llvm.map str := by
  obtain ⟨_ | _, _ | _⟩ := b <;> rfl

theorem Build.lookup_sources (b : Build) :
    b.fields.lookup (lit "apple_sources") = b.sources.map fun sources => .list (sources.map AppleSource.value) := by
  obtain ⟨_ | _, _ | _⟩ := b <;> rfl

theorem Build.checkKeys_fields (b : Build) :
    checkKeys b.fields [lit "llvm", lit "apple_sources"] what [] = .ok () := by
  obtain ⟨_ | _, _ | _⟩ := b <;> rfl

theorem Build.Normal.readLlvm {b : Build} (h : b.Normal) {o : Option Text} :
    perhapsKey b.fields (lit "llvm") (fun value => do
      return (← checkStr value (what ++ lit ".llvm") false).getD []) = .ok o ↔ o = b.llvm := by
  rw [perhapsKey_ok, b.lookup_llvm]
  cases hb : b.llvm with
  | none => simp
  | some s =>
      have hs : (do return (← checkStr (str s) (what ++ lit ".llvm") false).getD []) = (.ok s : Result Text) :=
        bind_ok.2 ⟨some s, checkStr_filled (h.llvm s hb).nonempty, rfl⟩
      constructor
      · rintro (⟨hnone, -⟩ | ⟨v, a, hv, ha, rfl⟩)
        · cases hnone
        · obtain rfl := Option.some.inj hv
          rw [← Except.ok.inj (hs.symm.trans ha)]
      · rintro rfl
        exact .inr ⟨str s, s, rfl, hs, rfl⟩

theorem Build.Normal.readSources {b : Build} (h : b.Normal) {o : Option (List AppleSource)} :
    perhapsKey b.fields (lit "apple_sources") (fun value => Rootfs.readSources value (what ++ lit ".apple_sources")) = .ok o ↔
      o = b.sources ∧ b.Ordered := by
  rw [perhapsKey_ok, b.lookup_sources, Build.Ordered]
  cases hb : b.sources with
  | none => simp
  | some sources => simp [readSources_value (h.sources sources hb), and_comm, and_assoc]

/-- A build section is read as itself, if it passes. -/
theorem buildSection_value {b b' : Build} (h : b.Normal) :
    buildSection b.value what = .ok b' ↔ b' = b ∧ b.Ordered := by
  constructor
  · intro hread
    obtain ⟨fields, hfields, hread⟩ := bind_ok.1 hread
    obtain rfl := Except.ok.inj hfields
    obtain ⟨_, -, hread⟩ := bind_ok.1 hread
    obtain ⟨llvm, hllvm, hread⟩ := bind_ok.1 hread
    obtain ⟨sources, hsources, hread⟩ := bind_ok.1 hread
    obtain rfl := Except.ok.inj hread
    obtain rfl := h.readLlvm.1 hllvm
    obtain ⟨rfl, hordered⟩ := h.readSources.1 hsources
    exact ⟨rfl, hordered⟩
  · rintro ⟨rfl, hordered⟩
    refine bind_ok.2 ⟨b'.fields, rfl, bind_ok.2 ⟨(), b'.checkKeys_fields, ?_⟩⟩
    exact bind_ok.2 ⟨_, h.readLlvm.2 rfl, bind_ok.2 ⟨_, h.readSources.2 ⟨rfl, hordered⟩, rfl⟩⟩

/-! ### The head of a manifest -/

/-- What `cmd_manifest ()` puts at the head. -/
structure Head.Normal (head : Head) : Prop where
  identity : NormalIdentity head.identity
  keys : ∀ key ∈ [lit "project", lit "arch"], key ∈ head.identity.map (·.1)
  build : ∀ b ∈ head.build, b.Normal

def Head.Ordered (head : Head) : Prop := ∀ b ∈ head.build, b.Ordered

theorem readTree_value (tree : Digest) :
    readTree (.map [(lit "algorithm", str (lit "sha256-merkle-v1")), (lit "digest", str tree.text)]) what = .ok tree.text := by
  refine bind_ok.2 ⟨_, mapping_ok.2 rfl, bind_ok.2 ⟨(), rfl, ?_⟩⟩
  exact bind_ok.2 ⟨some tree.text, if_pos tree.wellFormed, rfl⟩

variable {tree : Digest} {summary : List (Text × Nat)} {finished : List Entry} {identity : List (Text × Text)}
  {build : Option Build}

theorem documentOf_lookup_build (head : Head) :
    (documentOf (identityValue head.identity) (head.build.map Build.value) tree summary finished).lookup (lit "build") =
      head.build.map Build.value := by
  obtain ⟨identity, _ | build, digest⟩ := head <;> rfl

/-- The head is read as itself, if the build section passes. -/
theorem readHead_value {head head' : Head} (h : head.Normal) (htree : head.tree = tree.text) :
    readHead (documentOf (identityValue head.identity) (head.build.map Build.value) tree summary finished) what = .ok head' ↔
      head' = head ∧ head.Ordered := by
  let document := documentOf (identityValue head.identity) (head.build.map Build.value) tree summary finished
  have hkeys : checkKeys document [lit "format", lit "owner", lit "identity", lit "build", lit "tree", lit "summary", lit "entries"]
      what [lit "format", lit "owner", lit "identity", lit "tree", lit "summary", lit "entries"] = .ok () := by
    obtain ⟨identity, _ | build, digest⟩ := head <;> rfl
  have hformat : isOne (get document (lit "format")) = true := by
    obtain ⟨identity, _ | build, digest⟩ := head <;> rfl
  have howner : isOneOf (get document (lit "owner")) [lit "minidarwin"] = true := by
    obtain ⟨identity, _ | build, digest⟩ := head <;> rfl
  have hidentity : get document (lit "identity") = identityValue head.identity := by
    obtain ⟨identity, _ | build, digest⟩ := head <;> rfl
  have hfound : [lit "project", lit "arch"].find? (· ∉ head.identity.map (·.1)) = none := by
    rw [List.find?_eq_none]
    intro key hkey
    simpa using h.keys key hkey
  have hbuild : ∀ o, perhapsKey document (lit "build") (fun value => buildSection value (what ++ lit ".build")) = .ok o ↔
      o = head.build ∧ head.Ordered := by
    intro o
    rw [perhapsKey_ok, documentOf_lookup_build, Head.Ordered]
    cases hb : head.build with
    | none => simp
    | some b => simp [buildSection_value (h.build b hb), and_comm, and_assoc]
  have hread : readHead document what = (do
      let build ← perhapsKey document (lit "build") fun value => buildSection value (what ++ lit ".build")
      let digest ← readTree (get document (lit "tree")) (what ++ lit ".tree")
      return ⟨head.identity, build, digest⟩) := by
    have hmap : stringMap (identityValue head.identity) (what ++ lit ".identity") = .ok head.identity :=
      stringMap_value h.identity
    rw [readHead, hkeys]
    simp only [bind, Except.bind, hformat, howner, hidentity, hmap, hfound, Bool.not_true, Bool.false_eq_true, if_false]
  rw [hread, get_tree]
  constructor
  · intro hok
    obtain ⟨b, hb, hok⟩ := bind_ok.1 hok
    obtain ⟨rfl, hordered⟩ := (hbuild b).1 hb
    rw [readTree_value] at hok
    obtain rfl := Except.ok.inj hok
    exact ⟨by rw [← htree], hordered⟩
  · rintro ⟨rfl, hordered⟩
    refine bind_ok.2 ⟨_, (hbuild _).2 ⟨rfl, hordered⟩, bind_ok.2 ⟨_, readTree_value tree, ?_⟩⟩
    rw [← htree]
    rfl

/-! ### The document can be written -/

theorem Ascii.writable {text : Text} (h : Ascii text) : Rootfs.Writable text := by
  refine writable_of_unicode fun c hc => ?_
  have := h c hc
  omega

/-- A mapping of scalars under keys that are known. -/
theorem short_map (fields : List (Text × Scalar)) (keys : List Text) (hkeys : fields.map (·.1) = keys)
    (h : (∀ key ∈ keys, IsKey key) ∧ keys.Nodup) (hs : ∀ f ∈ fields, f.2.Writable) :
    (Value.map (fields.map asValue)).Short := by
  subst hkeys
  exact ⟨fields, rfl, fun f hf => h.1 f.1 (List.mem_map_of_mem hf), h.2, hs⟩

theorem short_entry {i : Place} {e : Entry} (hi : Fits i) (h : Writes i e) : e.value.Short := by
  obtain ⟨digest, he⟩ := h
  obtain ⟨hpath, hbody⟩ := hi.plain he
  have hword : ∀ s : String, Ascii (lit s) → Rootfs.Writable (lit s) := fun _ hs => hs.writable
  obtain ⟨p, (⟨mode, size, sha⟩ | target | _) | mode⟩ := i
  · obtain rfl := Option.some.inj he
    refine short_map [(lit "path", .str (spell p)), (lit "type", .str (lit "file")), (lit "mode", .str (fileMode true mode)),
      (lit "size", .int size), (lit "sha256", .str sha.text)] Kind.file.keys rfl (by decide) ?_
    simp only [List.forall_mem_cons, List.not_mem_nil, false_implies, implies_true, and_true]
    exact ⟨hpath.writable, hword _ (by decide), ascii_fileMode.writable, trivial, sha.ascii.writable⟩
  · obtain rfl := Option.some.inj he
    refine short_map [(lit "path", .str (spell p)), (lit "type", .str (lit "symlink")), (lit "target", .str target)]
      Kind.symlink.keys rfl (by decide) ?_
    simp only [List.forall_mem_cons, List.not_mem_nil, false_implies, implies_true, and_true]
    exact ⟨hpath.writable, hword _ (by decide), Ascii.writable hbody⟩
  · cases he
  · obtain rfl := Option.some.inj he
    refine short_map [(lit "path", .str (spell p)), (lit "type", .str (lit "directory")), (lit "mode", .str (lit "0755")),
      (lit "digest", .str digest.text)] Kind.directory.keys rfl (by decide) ?_
    simp only [List.forall_mem_cons, List.not_mem_nil, false_implies, implies_true, and_true]
    exact ⟨hpath.writable, hword _ (by decide), hword _ (by decide), digest.ascii.writable⟩

theorem AppleSource.Normal.short {s : AppleSource} (h : s.Normal) : s.value.Short := by
  refine short_map [(lit "name", .str s.name), (lit "rev", .str s.rev), (lit "hash", .str s.hash)]
    [lit "name", lit "rev", lit "hash"] rfl (by decide) ?_
  simp only [List.forall_mem_cons, List.not_mem_nil, false_implies, implies_true, and_true]
  exact ⟨h.name.writable, h.rev.writable, h.hash.writable⟩

theorem Build.Normal.writable {b : Build} (h : b.Normal) : b.value.Writable := by
  refine .map ?_ ?_ ?_
  · obtain ⟨_ | _, _ | _⟩ := b <;> simp <;> decide
  · obtain ⟨_ | _, _ | _⟩ := b <;> simp; decide
  · intro e he
    obtain he | he := List.mem_append.1 he
    · obtain ⟨s, hs, rfl⟩ : ∃ s, b.llvm = some s ∧ e = (lit "llvm", str s) := by
        cases hb : b.llvm <;> simp_all
      exact .scalar (h.llvm s hs).writable
    · obtain ⟨sources, hs, rfl⟩ : ∃ sources, b.sources = some sources ∧
          e = (lit "apple_sources", Value.list (sources.map AppleSource.value)) := by
        cases hb : b.sources <;> simp_all
      refine .list ?_
      intro item hitem
      obtain ⟨s, hs', rfl⟩ := List.mem_map.1 hitem
      exact (h.sources sources hs s hs').short

theorem writable_summary (entries : List Entry) : (summaryValue (summaryOf entries)).Writable := by
  refine writable_map [lit "files", lit "symlinks", lit "directories", lit "bytes"] rfl (by decide) ?_
  intro e he
  obtain ⟨field, -, rfl⟩ := List.mem_map.1 he
  exact .scalar trivial

theorem Head.Normal.writable {head : Head} (h : head.Normal) (entries : List Entry) (hfinished : ∀ e ∈ finished, e.value.Short) :
    (Value.map (documentOf (identityValue head.identity) (head.build.map Build.value) tree (summaryOf entries)
      finished)).Writable := by
  have hword : ∀ s : String, Ascii (lit s) → (str (lit s)).Writable := fun _ hs => .scalar hs.writable
  have htree : (Value.map [(lit "algorithm", str (lit "sha256-merkle-v1")), (lit "digest", str tree.text)]).Writable := by
    refine writable_map [lit "algorithm", lit "digest"] rfl (by decide) ?_
    simp only [List.forall_mem_cons, List.not_mem_nil, false_implies, implies_true, and_true]
    exact ⟨hword _ (by decide), .scalar tree.ascii.writable⟩
  have hentries : (Value.list (finished.map Entry.value)).Writable := by
    refine .list fun item hitem => ?_
    obtain ⟨e, he, rfl⟩ := List.mem_map.1 hitem
    exact hfinished e he
  obtain ⟨identity, build, digest⟩ := head
  cases build with
  | none =>
      refine writable_map [lit "format", lit "owner", lit "identity", lit "tree", lit "summary", lit "entries"] rfl
        (by decide) ?_
      simp only [documentOf, Option.map_none, Option.toList_none, List.append_nil, List.cons_append, List.nil_append,
        List.forall_mem_cons, List.not_mem_nil, false_implies, implies_true, and_true]
      exact ⟨.scalar trivial, hword _ (by decide), h.identity.writable, htree, writable_summary entries, hentries⟩
  | some b =>
      refine writable_map [lit "format", lit "owner", lit "identity", lit "build", lit "tree", lit "summary", lit "entries"] rfl
        (by decide) ?_
      simp only [documentOf, Option.map_some, Option.toList_some, List.cons_append, List.nil_append,
        List.forall_mem_cons, List.not_mem_nil, false_implies, implies_true, and_true]
      exact ⟨.scalar trivial, hword _ (by decide), h.identity.writable, (h.build b rfl).writable, htree,
        writable_summary entries, hentries⟩

/-! ### Loading a manifest that has been written -/

theorem sameScalars_refl (entries : List Entry) :
    sameScalars (summaryValue (summaryOf entries)) (summaryValue (summaryOf entries)) = true := by
  simp [sameScalars, summaryValue, summaryOf, sameScalar, List.lookup, lit]

/-- A manifest with a head and entries as the command makes them is loaded just if the build section passes. -/
theorem loadManifest_written {head : Head} {L : List Place} {entries : List Entry}
    {document : List (Text × Value)} (hhead : head.Normal) (htree : head.tree = tree.text) (hL : Good L)
    (hwrites : List.Forall₂ Writes L finished)
    (hdocument : document = documentOf (identityValue head.identity) (head.build.map Build.value) tree (summaryOf entries) finished)
    (hrebuilt : manifestDocument sha256 (identityValue head.identity) (head.build.map Build.value) finished = .ok document)
    (hraw : (do asciiBytes (← dumpYaml manifestHeader document)) = .ok raw) (hsize : raw.size ≤ manifestLimit) :
    (∃ m, loadManifest sha256 raw what = .ok m ∧ m.document = document) ↔ head.Ordered := by
  have hshort : ∀ e ∈ finished, e.value.Short := by
    intro e he
    obtain ⟨i, hi, hie⟩ := forall₂_exists hwrites he
    exact short_entry (hL.fits i hi) hie
  have hwritable : (Value.map document).Writable := hdocument ▸ hhead.writable entries hshort
  have hne : document ≠ [] := hdocument ▸ List.cons_ne_nil _ _
  obtain ⟨raw', hholds⟩ := holds_manifest hwritable hne
  obtain rfl : raw' = raw := Except.ok.inj (hholds.written.symm.trans hraw)
  obtain ⟨text, hdump, hread⟩ := hholds.text
  obtain ⟨-, hdecode, hparse⟩ := hread what
  rw [loadManifest, if_neg (Nat.not_lt.2 hsize)]
  constructor
  · rintro ⟨m, hm, -⟩
    obtain ⟨_, htext, hm⟩ := bind_ok.1 hm
    obtain rfl := Except.ok.inj (hdecode.symm.trans htext)
    obtain ⟨_, hvalue, hm⟩ := bind_ok.1 hm
    obtain rfl := Except.ok.inj (hparse.symm.trans hvalue)
    obtain ⟨_, hmap, hm⟩ := bind_ok.1 hm
    obtain rfl := Except.ok.inj hmap
    obtain ⟨head', hhead', hm⟩ := bind_ok.1 hm
    rw [hdocument] at hhead'
    exact ((readHead_value hhead htree).1 hhead').2
  · intro hordered
    have hlisted : get document (lit "entries") = .list (finished.map Entry.value) := hdocument ▸ get_entries _ _ _ _ _
    have hsummary : get document (lit "summary") = summaryValue (summaryOf entries) := hdocument ▸ get_summary _ _ _ _ _
    refine ⟨⟨head, finished, document, text⟩, ?_, rfl⟩
    refine bind_ok.2 ⟨text, hdecode, bind_ok.2 ⟨_, hparse, bind_ok.2 ⟨_, rfl, bind_ok.2 ⟨head, ?_, ?_⟩⟩⟩⟩
    · rw [hdocument]
      exact (readHead_value hhead htree).2 ⟨rfl, hordered⟩
    · simp only [hlisted]
      refine bind_ok.2 ⟨(), hL.checkEntries_ok hwrites, ?_⟩
      refine bind_ok.2 ⟨finished, entriesFrom_ok hwrites, bind_ok.2 ⟨document, hrebuilt, ?_⟩⟩
      refine bind_ok.2 ⟨[(lit "algorithm", str (lit "sha256-merkle-v1")), (lit "digest", str tree.text)], ?_, ?_⟩
      · rw [hdocument, get_tree]
        rfl
      · have hdigest : textIn (get [(lit "algorithm", str (lit "sha256-merkle-v1")), (lit "digest", str tree.text)]
            (lit "digest")) = some head.tree := congrArg some htree.symm
        rw [if_neg (not_not.2 hdigest)]
        refine bind_ok.2 ⟨finished, listedIn_ok hlisted hwrites, (compareRebuilt_ok rfl).2 ⟨rfl, ?_, hdump, rfl⟩⟩
        rw [hsummary]
        exact sameScalars_refl entries

/-! ### `mdrootfs manifest` -/

/-- What stands in a text after its first `=`. -/
theorem filled_of_argument {a : Argument} {t : Text} (ht : ∀ c ∈ t, c ∈ a.text) (hne : t ≠ []) : Filled t :=
  ⟨hne, Plain.writable fun c hc => a.plain c (ht c hc)⟩

theorem after_subset (text : Text) : ∀ c ∈ (text.dropWhile (· ≠ 61)).tail, c ∈ text := fun _ hc =>
  (List.dropWhile_sublist _).subset (List.mem_of_mem_tail hc)

theorem before_subset (text : Text) : ∀ c ∈ text.takeWhile (· ≠ 61), c ∈ text := fun _ hc =>
  (List.takeWhile_sublist _).subset hc

/-- What `_pairs ()` has collected. -/
structure Pairs (pairs : List (Text × Text)) : Prop where
  keys : ∀ e ∈ pairs, IsKey e.1
  values : ∀ e ∈ pairs, Filled e.2
  nodup : (pairs.map (·.1)).Nodup

theorem pairsFrom_ok {values : List Argument} {acc pairs : List (Text × Text)} (hacc : Pairs acc)
    (h : pairsFrom what (values.map (·.text)) acc = .ok pairs) : Pairs pairs := by
  induction values generalizing acc with
  | nil =>
      obtain rfl := Except.ok.inj h
      exact hacc
  | cons a values ih =>
      rw [List.map_cons, pairsFrom] at h
      split at h
      · cases h
      next hform =>
        split at h
        · cases h
        next hnew =>
          rw [not_or, not_not] at hform
          refine ih ⟨?_, ?_, ?_⟩ h
          · intro e he
            obtain he | he := List.mem_append.1 he
            · exact hacc.keys e he
            · obtain rfl := List.mem_singleton.1 he
              exact hform.1
          · intro e he
            obtain he | he := List.mem_append.1 he
            · exact hacc.values e he
            · obtain rfl := List.mem_singleton.1 he
              exact filled_of_argument (after_subset a.text) hform.2
          · rw [List.map_append, List.map_singleton]
            exact hacc.nodup.append (List.nodup_singleton _) (by simpa using hnew)

theorem Pairs.normal {pairs : List (Text × Text)} (h : Pairs pairs) : NormalIdentity (byName pairs) where
  keys := fun e he => h.keys e ((byName_perm pairs).mem_iff.1 he)
  values := fun e he => h.values e ((byName_perm pairs).mem_iff.1 he)
  sorted := pairwise_byName h.nodup

/-- The names of the sources on the command line. -/
def ManifestArgs.sourceNames (args : ManifestArgs) : List Text := args.appleSources.map fun a => a.text.takeWhile (· ≠ 61)

theorem given_ok {o : Option Argument} {s : Text} (h : given o = some s) : Filled s := by
  rw [given.eq_def] at h
  split at h
  next c text hwell =>
    obtain rfl := Option.some.inj h
    exact Argument.filled (a := ⟨c :: text, hwell⟩) (List.cons_ne_nil _ _)
  · cases h

theorem appleSource_ok {a : Argument} {s : AppleSource} (h : appleSource a.text = .ok s) :
    s.Normal ∧ s.name = a.text.takeWhile (· ≠ 61) := by
  simp only [appleSource] at h
  split at h
  · cases h
  next hne =>
    simp only [not_or] at hne
    obtain rfl := Except.ok.inj h
    refine ⟨⟨?_, ?_, ?_⟩, rfl⟩
    · exact filled_of_argument (before_subset a.text) hne.1
    · exact filled_of_argument (fun c hc => after_subset a.text c (before_subset _ c hc)) hne.2.1
    · exact filled_of_argument (fun c hc => after_subset a.text c (after_subset _ c hc)) hne.2.2

theorem appleSources_ok {values : List Argument} {sources : List AppleSource}
    (h : values.mapM (fun value => appleSource value.text) = .ok sources) :
    (∀ s ∈ sources, s.Normal) ∧ sources.map (·.name) = values.map fun a => a.text.takeWhile (· ≠ 61) := by
  induction values generalizing sources with
  | nil =>
      cases h
      exact ⟨by simp, rfl⟩
  | cons a values ih =>
      rw [List.mapM_cons] at h
      obtain ⟨s, hs, h⟩ := bind_ok.1 h
      obtain ⟨rest, hrest, h⟩ := bind_ok.1 h
      obtain rfl := Except.ok.inj h
      obtain ⟨hnormal, hname⟩ := appleSource_ok hs
      obtain ⟨hall, hnames⟩ := ih hrest
      exact ⟨List.forall_mem_cons.2 ⟨hnormal, hall⟩, by rw [List.map_cons, List.map_cons, hname, hnames]⟩

/-- Sorted names are those of a set just if none is there twice. -/
theorem sorted_eq_iff {names : List Text} :
    names.insertionSort (· ≤ ·) = (names.insertionSort (· ≤ ·)).dedup.insertionSort (· ≤ ·) ↔ names.Nodup := by
  have hperm := List.perm_insertionSort (· ≤ ·) names
  constructor
  · intro h
    rw [← hperm.nodup_iff, h, (List.perm_insertionSort (· ≤ ·) _).nodup_iff]
    exact List.nodup_dedup _
  · intro h
    rw [(hperm.nodup_iff.2 h).dedup]
    exact (List.Pairwise.insertionSort_eq (List.pairwise_insertionSort (· ≤ ·) names)).symm

theorem ManifestArgs.build_ok {args : ManifestArgs} {build : Option Build} (h : args.build = .ok build) :
    (∀ b ∈ build, b.Normal) ∧ ((∀ b ∈ build, b.Ordered) ↔ args.sourceNames.Nodup) := by
  rw [ManifestArgs.build] at h
  rw [ManifestArgs.sourceNames]
  split at h
  next hsources =>
    obtain rfl := Except.ok.inj h
    simp [hsources]
  next hsources _ =>
    obtain rfl := Except.ok.inj h
    refine ⟨?_, by simp [hsources, Build.Ordered]⟩
    intro b hb
    obtain rfl := Option.some.inj hb
    exact ⟨fun s hs => given_ok hs, by simp⟩
  next values _ _ =>
    obtain ⟨sources, hsources, h⟩ := bind_ok.1 h
    obtain rfl := Except.ok.inj h
    obtain ⟨hnormal, hnames⟩ := appleSources_ok hsources
    have hsorted : (sources.insertionSort fun a b => a.name ≤ b.name).map (·.name) =
        (sources.map (·.name)).insertionSort (· ≤ ·) := List.map_insertionSort _ _ _ _ fun _ _ _ _ => Iff.rfl
    constructor
    · intro b hb
      obtain rfl := Option.some.inj hb
      refine ⟨fun s hs => given_ok hs, ?_⟩
      intro sorted hs s hmem
      obtain rfl := Option.some.inj hs
      exact hnormal s ((List.mem_insertionSort _).1 hmem)
    · rw [← hnames, ← sorted_eq_iff, ← hsorted]
      simp [Build.Ordered]

/-- What goes into a manifest. -/
theorem manifestOf_ok {lands : Text → Bool} {args : ManifestArgs} {document : List (Text × Value)}
    (h : manifestOf sha256 lands args = .ok document) :
    ∃ pairs build, pairsFrom (lit "--identity") (args.identity.map (·.text)) [] = .ok pairs ∧
      [lit "project", lit "arch"].find? (· ∉ pairs.map (·.1)) = none ∧ args.build = .ok build ∧
      manifestDocument sha256 (identityValue (byName pairs)) (build.map Build.value) (scanTree args.tree true).1 = .ok document ∧
      checkEntries (itemsOf (get document (lit "entries"))) (lit "tree") = .ok () := by
  obtain ⟨pairs, hpairs, h⟩ := bind_ok.1 h
  split at h
  · cases h
  next hfound =>
    obtain ⟨build, hbuild, h⟩ := bind_ok.1 h
    simp only at h
    split at h
    · cases h
    obtain ⟨written, hdocument, h⟩ := bind_ok.1 h
    obtain ⟨_, hcheck, h⟩ := bind_ok.1 h
    split at h
    · cases h
    obtain rfl := Except.ok.inj h
    exact ⟨pairs, build, hpairs, hfound, hbuild, hdocument, hcheck⟩

/-- A manifest that is written is loaded, unless a source is given twice. -/
theorem cmdManifest_reads {lands : Text → Bool} {args : ManifestArgs} {document : List (Text × Value)}
    (h : manifestOf sha256 lands args = .ok document) (hraw : (do asciiBytes (← dumpYaml manifestHeader document)) = .ok raw)
    (hsize : raw.size ≤ manifestLimit) :
    (∃ m, loadManifest sha256 raw what = .ok m ∧ m.document = document) ↔ args.sourceNames.Nodup := by
  obtain ⟨pairs, build, hpairs, hfound, hbuild, hdocument, hcheck⟩ := manifestOf_ok h
  obtain ⟨hnormal, hordered⟩ := ManifestArgs.build_ok hbuild
  obtain ⟨tree, digests, finished, hmerkle, hfinished, hparts⟩ := manifestDocument_ok.1 hdocument
  rw [hparts, get_entries] at hcheck
  obtain ⟨L, entries', hL, hwrites, hvalues, -⟩ := exists_writes hcheck
  obtain rfl := Entry.value_injective.list_map hvalues
  have hpairs : Pairs pairs := pairsFrom_ok ⟨by simp, by simp, by simp⟩ hpairs
  have hhead : Head.Normal ⟨byName pairs, build, tree.text⟩ := by
    refine ⟨hpairs.normal, ?_, hnormal⟩
    intro key hkey
    have hmem := List.find?_eq_none.1 hfound key hkey
    rw [((byName_perm pairs).map _).mem_iff]
    simpa using hmem
  have hrebuilt := (manifestDocument_finished (hL.rooted_of_writes hwrites) hfinished).trans hdocument
  exact (loadManifest_written hhead rfl hL hwrites hparts hrebuilt hraw hsize).trans hordered

/-! ### `mdrootfs spec` -/

/-- What passes in a spec that is loaded, in its parts. -/
theorem specFrom_ok {data : List (Text × Value)} {spec : Spec} (h : specFrom (.map data) what = .ok spec) :
    readRelease (get data (lit "release")) what = .ok spec.document.release ∧
      ∃ strict, readManifest (get data (lit "manifest")) what strict = .ok spec.document.manifest := by
  obtain ⟨_, hdata, h⟩ := bind_ok.1 h
  obtain rfl := Except.ok.inj hdata
  split at h
  · cases h
  split at h
  · cases h
  obtain ⟨_, _, h⟩ := bind_ok.1 h
  obtain ⟨_, _, h⟩ := bind_ok.1 h
  obtain ⟨policy, _, h⟩ := bind_ok.1 h
  obtain ⟨identity, _, h⟩ := bind_ok.1 h
  obtain ⟨release, hrelease, h⟩ := bind_ok.1 h
  obtain ⟨artifact, _, h⟩ := bind_ok.1 h
  obtain ⟨manifest, hmanifest, h⟩ := bind_ok.1 h
  obtain rfl := Except.ok.inj h
  exact ⟨hrelease, _, hmanifest⟩

theorem loadManifest_identity {m : Manifest} (h : loadManifest sha256 raw what = .ok m) : NormalIdentity m.head.identity := by
  obtain ⟨-, htext, ⟨data, hparse, hhead⟩, -⟩ := loadManifest_ok h
  have hascii : Ascii m.text := by
    rw [decodeAscii] at htext
    split at htext
    next hascii => exact Except.ok.inj htext ▸ hascii
    · cases htext
  have hunicode : Unicode m.text := fun c hc => by
    have := hascii c hc
    omega
  have hdata : (Value.map data).Readable := parseYaml_readable hunicode hparse
  obtain ⟨_, _, hhead⟩ := bind_ok.1 hhead
  split at hhead
  · cases hhead
  split at hhead
  · cases hhead
  obtain ⟨identity, hidentity, hhead⟩ := bind_ok.1 hhead
  split at hhead
  · cases hhead
  obtain ⟨_, _, hhead⟩ := bind_ok.1 hhead
  obtain ⟨_, _, hhead⟩ := bind_ok.1 hhead
  rw [← Except.ok.inj hhead]
  have hread : readIdentity (get data (lit "identity")) what = .ok (some identity) := by
    obtain ⟨fields, hfields, -⟩ := bind_ok.1 hidentity
    rw [mapping_ok.1 hfields] at hidentity ⊢
    exact bind_ok.2 ⟨identity, hidentity, rfl⟩
  exact readIdentity_normal (hdata.get _) hread identity rfl

/-- The document, were the sequence a natural number. -/
def SpecArgs.spec (sha256 : Text → Digest) (args : SpecArgs) (m : Manifest) (sequence : Nat) : Document where
  identity := some m.head.identity
  release := ⟨some sequence, none, none, none⟩
  artifact := ⟨some (nameOf args.artifact.path.text), some args.artifactContent.size,
    some (sha256 (bytesOf args.artifactContent)).text, []⟩
  manifest := ⟨some (nameOf args.manifest.path.text), some args.manifestContent.size,
    some (sha256 (bytesOf args.manifestContent)).text, some m.head.tree, []⟩
  policy := .strict

theorem FilePath.filled (p : FilePath) : Filled (nameOf p.path.text) :=
  filled_of_argument (fun _ hc => (List.rtakeWhile_suffix _ _).subset hc) p.named

theorem SpecArgs.spec_normal (args : SpecArgs) {m : Manifest} (h : loadManifest sha256 raw what = .ok m) (sequence : Nat) :
    (args.spec sha256 m sequence).Normal := by
  have htree : isHex 64 m.head.tree = true := by
    obtain ⟨tree, digests, -, htree, -⟩ := (loadManifest_ok h).digests
    exact htree ▸ tree.wellFormed
  refine ⟨?_, ⟨by simp [SpecArgs.spec], by simp [SpecArgs.spec], by simp [SpecArgs.spec]⟩, ⟨?_, ?_, ?_, ?_⟩, ⟨?_, ?_, ?_, ?_, ?_⟩⟩
  · intro identity hidentity
    exact Option.some.inj hidentity ▸ loadManifest_identity h
  · intro s hs
    exact Option.some.inj hs ▸ args.artifact.filled
  · intro s hs
    exact Option.some.inj hs ▸ (sha256 (bytesOf args.artifactContent)).wellFormed
  · intro _
    exact Option.some_ne_none _
  · simp [SpecArgs.spec]
  · intro s hs
    exact Option.some.inj hs ▸ args.manifest.filled
  · intro s hs
    exact Option.some.inj hs ▸ (sha256 (bytesOf args.manifestContent)).wellFormed
  · intro _
    exact Option.some_ne_none _
  · intro s hs
    exact Option.some.inj hs ▸ htree
  · simp [SpecArgs.spec]

theorem SpecArgs.writable (args : SpecArgs) {m : Manifest} (h : loadManifest sha256 raw what = .ok m) :
    (Value.map (args.document sha256 m)).Writable := by
  have hnormal := args.spec_normal h 0
  have hword : ∀ s : String, Ascii (lit s) → (str (lit s)).Writable := fun _ hs => .scalar hs.writable
  have hrelease : (Value.map [(lit "sequence", .scalar (.int args.sequence)), (lit "tag", null), (lit "commit", null),
      (lit "repository", null)]).Writable := by
    refine writable_map [lit "sequence", lit "tag", lit "commit", lit "repository"] rfl (by decide) ?_
    simp only [List.forall_mem_cons, List.not_mem_nil, false_implies, implies_true, and_true]
    exact ⟨.scalar trivial, .scalar trivial, .scalar trivial, .scalar trivial⟩
  have hpolicy : (Value.map [(lit "policy", str (lit "strict"))]).Writable := by
    refine writable_map [lit "policy"] rfl (by decide) ?_
    simp only [List.forall_mem_cons, List.not_mem_nil, false_implies, implies_true, and_true]
    exact hword _ (by decide)
  refine writable_map specKeys rfl (by decide) ?_
  simp only [SpecArgs.document, List.forall_mem_cons, List.not_mem_nil, false_implies, implies_true, and_true]
  exact ⟨.scalar trivial, (hnormal.identity _ rfl).writable, hrelease, hnormal.artifact.writable, hnormal.manifest.writable,
    hpolicy⟩

/-- A spec that is written is loaded, unless its sequence is below zero. -/
theorem cmdSpec_reads {args : SpecArgs} {m : Manifest} {what' : Text} (h : loadManifest sha256 raw what' = .ok m)
    (hout : (do asciiBytes (← dumpYaml specHeader (args.document sha256 m))) = .ok out) (hsize : out.size ≤ specLimit) :
    (∃ spec, loadSpec out what = .ok spec ∧ spec.document.value = args.document sha256 m ∧ spec.ignored = []) ↔
      0 ≤ args.sequence := by
  obtain ⟨out', hholds⟩ := holds_spec (args.writable h) (List.cons_ne_nil _ _)
  obtain rfl : out' = out := Except.ok.inj (hholds.written.symm.trans hout)
  rw [hholds.loadSpec hsize]
  constructor
  · rintro ⟨spec, hspec, -⟩
    obtain ⟨_, hfields, hrelease⟩ := bind_ok.1 (specFrom_ok hspec).1
    obtain rfl := Except.ok.inj hfields
    obtain ⟨_, _, hrelease⟩ := bind_ok.1 hrelease
    obtain ⟨sequence, hsequence, -⟩ := bind_ok.1 hrelease
    have hvalue : Value.scalar (.int args.sequence) = number sequence := checkInt_optional.1 hsequence
    cases sequence with
    | none => cases hvalue
    | some n =>
        rw [Scalar.int.inj (Value.scalar.inj hvalue)]
        exact Int.natCast_nonneg n
  · intro hnonneg
    obtain ⟨n, hn⟩ := Int.eq_ofNat_of_zero_le hnonneg
    have hdocument : args.document sha256 m = (args.spec sha256 m n).value := by
      rw [SpecArgs.document, hn]
      rfl
    refine ⟨⟨args.spec sha256 m n, []⟩, ?_, hdocument.symm, rfl⟩
    rw [hdocument]
    exact specFrom_value (args.spec_normal h n)

/-! ### `mdrootfs stamp` -/

/-- Two slashes behind a scheme, in a text and a slash and a name. -/
theorem scheme_prefix {scheme base name : Text} (hscheme : 47 ∉ scheme) (hbase : base.getLast? ≠ some 47) :
    scheme ++ [47, 47] <+: base ++ 47 :: name ↔
      scheme ++ [47, 47] <+: base ∨ base = scheme ∧ name.head? = some 47 := by
  constructor
  · rintro ⟨u, hu⟩
    obtain ⟨a, rfl, -⟩ | ⟨c, hc, hrest⟩ := List.append_eq_append_iff.1 hu
    · exact .inl (List.prefix_append _ _)
    · -- the base ends within the two slashes
      cases c with
      | nil =>
          rw [List.append_nil] at hc
          exact .inl (hc ▸ List.prefix_rfl)
      | cons x c =>
          obtain ⟨rfl, rfl⟩ := List.cons.inj hrest
          obtain rfl | ⟨c, y, rfl⟩ := List.eq_nil_or_concat c
          · have hbase' : scheme ++ [47] = base := (List.append_inj' (by simpa using hc) rfl).1
            rw [← hbase'] at hbase
            exact absurd List.getLast?_concat hbase
          · rw [List.concat_eq_append] at *
            have hinit : (scheme ++ [47]) ++ [47] = (base ++ 47 :: c) ++ [y] := by simpa using hc
            obtain ⟨hinit, hy⟩ := List.append_inj' hinit rfl
            obtain rfl | ⟨c, z, rfl⟩ := List.eq_nil_or_concat c
            · obtain rfl := (List.append_inj' hinit rfl).1
              obtain rfl := List.singleton_inj.1 hy
              exact .inr ⟨rfl, rfl⟩
            · rw [List.concat_eq_append, ← List.cons_append, ← List.append_assoc] at hinit
              have hmem : 47 ∈ scheme := by
                rw [(List.append_inj' hinit rfl).1]
                simp
              exact absurd hmem hscheme
  · rintro (hpre | ⟨rfl, hname⟩)
    · exact hpre.trans (List.prefix_append _ _)
    · obtain ⟨rest, rfl⟩ := List.head?_eq_some_iff.1 hname
      exact ⟨rest, by simp⟩

theorem getLast?_rdropWhile (s : Text) : (s.rdropWhile (· = 47)).getLast? ≠ some 47 := by
  intro h
  have hne : s.rdropWhile (· = 47) ≠ [] := by
    intro hnil
    rw [hnil] at h
    cases h
  have hlast := List.rdropWhile_last_not (· = 47) s hne
  rw [List.getLast?_eq_some_getLast hne] at h
  exact hlast (by simpa using h)

/-- Nothing but a scheme is left of the base without its slashes. -/
def StampArgs.Bare (args : StampArgs) : Prop := args.base.rdropWhile (· = 47) ∈ [lit "https:", lit "file:"]

theorem isSource_iff {url : Text} :
    isSource url = true ↔ lit "https:" ++ [47, 47] <+: url ∨ lit "file:" ++ [47, 47] <+: url := decide_eq_true_iff

theorem isSource_sourceOf_iff {args : StampArgs} {name : Text} :
    isSource (sourceOf args.base name) = true ↔ isSource (args.base.rdropWhile (· = 47)) = true ∨
      args.Bare ∧ name.head? = some 47 := by
  have hlast := getLast?_rdropWhile args.base
  have hname : sourceOf args.base name = args.base.rdropWhile (· = 47) ++ 47 :: name := by
    rw [sourceOf, List.append_assoc]
    rfl
  rw [isSource_iff, isSource_iff, hname, scheme_prefix (by decide) hlast, scheme_prefix (by decide) hlast,
    or_or_or_comm, ← or_and_right, StampArgs.Bare, List.mem_pair]

theorem StampArgs.Bare.not_isSource {args : StampArgs} (h : args.Bare) :
    ¬ isSource (args.base.rdropWhile (· = 47)) = true := by
  obtain h | h := List.mem_pair.1 h
  · rw [h]
    decide
  · rw [h]
    decide

/-- The address of the artifact is checked before anything is written. -/
theorem Stamps.source {args : StampArgs} {spec : Spec} {seq : Nat} {artifactName manifestName : Text}
    (hs : Stamps args spec seq artifactName manifestName) (h : cmdStamp args = .ok out) :
    isSource (sourceOf args.base artifactName) = true := by
  obtain ⟨spec', hspec, h⟩ := bind_ok.1 h
  obtain rfl : spec = spec' := Except.ok.inj (hs.loaded.symm.trans hspec)
  simp only at h
  split at h
  · cases h
  simp only [hs.unstamped, hs.sequence, hs.commit, hs.repository, hs.artifact, hs.manifest, hs.previous,
    if_neg hs.tag] at h
  obtain ⟨_, -, h⟩ := bind_ok.1 h
  obtain ⟨urls, hurls, -⟩ := bind_ok.1 h
  obtain ⟨hvalues, hsource⟩ := sourcesFrom_ok.1 hurls
  refine hsource _ ?_
  obtain ⟨url, rest, rfl, hurl, -⟩ := List.map_eq_cons_iff.1 hvalues.symm
  rw [← str_inj.1 hurl]
  exact .head _

/-- The document can be written, whatever the address of its manifest is. -/
theorem stamped_writable {args : StampArgs} {spec : Spec} {seq : Nat} {artifactName manifestName : Text}
    (hs : Stamps args spec seq artifactName manifestName) (hartifact : isSource (sourceOf args.base artifactName) = true) :
    (Value.map (stamped spec.document args artifactName manifestName).value).Writable := by
  have hread := loadSpec_normal hs.loaded
  refine Document.writable_of_parts hread.identity hs.release_normal.writable (hs.artifact_normal hartifact).writable ?_
  refine hread.manifest.writable_sources ?_
  intro url hurl
  obtain rfl := List.mem_singleton.1 hurl
  exact writable_sourceOf (hread.manifest.name _ hs.manifest)

/-- What is loaded has an address that passes. -/
theorem specFrom_source {d : Document} {name : Text} (h : specFrom (.map d.value) what = .ok ⟨d, []⟩)
    (hname : name ∈ d.manifest.sources) : isSource name = true := by
  obtain ⟨-, strict, hmanifest⟩ := specFrom_ok h
  obtain ⟨_, _, hmanifest⟩ := bind_ok.1 hmanifest
  obtain ⟨_, _, hmanifest⟩ := bind_ok.1 hmanifest
  obtain ⟨_, _, hmanifest⟩ := bind_ok.1 hmanifest
  obtain ⟨_, _, hmanifest⟩ := bind_ok.1 hmanifest
  obtain ⟨_, _, hmanifest⟩ := bind_ok.1 hmanifest
  obtain ⟨_, _, hmanifest⟩ := bind_ok.1 hmanifest
  obtain ⟨urls, hurls, hmanifest⟩ := bind_ok.1 hmanifest
  have heq : urls = d.manifest.sources := congrArg ManifestPin.sources (Except.ok.inj hmanifest)
  exact (sources_ok hurls).1 name (heq ▸ hname)

/-- The address of the manifest is cut short: nothing but a scheme is left before its name. -/
def StampArgs.Cut (args : StampArgs) (name : Text) : Prop := args.Bare ∧ name.head? ≠ some 47

/-- A spec that is stamped is loaded, unless the address of its manifest is cut short. -/
theorem cmdStamp_reads {args : StampArgs} (h : cmdStamp args = .ok out) (hsize : out.size ≤ specLimit) :
    ∃ spec seq artifactName manifestName, Stamps args spec seq artifactName manifestName ∧
      (do asciiBytes (← dumpYaml specHeader (stamped spec.document args artifactName manifestName).value)) = .ok out ∧
      ∀ what, (loadSpec out what = .ok ⟨stamped spec.document args artifactName manifestName, []⟩ ↔
        ¬ args.Cut manifestName) := by
  obtain ⟨spec, seq, artifactName, manifestName, hs, hout⟩ := cmdStamp_ok h
  refine ⟨spec, seq, artifactName, manifestName, hs, hout, ?_⟩
  intro what
  have hartifact := hs.source h
  constructor
  · intro hload hcut
    obtain ⟨raw, hholds⟩ := holds_spec (stamped_writable hs hartifact) (List.cons_ne_nil _ _)
    obtain rfl : raw = out := Except.ok.inj (hholds.written.symm.trans hout)
    rw [hholds.loadSpec hsize] at hload
    have hmanifest := specFrom_source hload (List.mem_singleton_self _)
    obtain hbase | ⟨-, hname⟩ := isSource_sourceOf_iff.1 hmanifest
    · exact hcut.1.not_isSource hbase
    · exact hcut.2 hname
  · intro hcut
    have hmanifest : isSource (sourceOf args.base manifestName) = true := by
      obtain hbase | ⟨hbare, -⟩ := isSource_sourceOf_iff.1 hartifact
      · exact isSource_sourceOf_iff.2 (.inl hbase)
      · exact isSource_sourceOf_iff.2 (.inr ⟨hbare, by_contra fun hname => hcut ⟨hbare, hname⟩⟩)
    obtain ⟨raw, hraw, hloads⟩ := (hs.normal_of_sources hartifact hmanifest).written
    obtain rfl : raw = out := Except.ok.inj (hraw.symm.trans hout)
    exact hloads hsize what

/-! ### All three -/

theorem cmdManifest_ok {lands : Text → Bool} {args : ManifestArgs} (h : cmdManifest sha256 lands args = .ok raw) :
    ∃ document, manifestOf sha256 lands args = .ok document ∧
      (do asciiBytes (← dumpYaml manifestHeader document)) = .ok raw := bind_ok.1 h

theorem cmdSpec_ok {args : SpecArgs} (h : cmdSpec sha256 args = .ok out) :
    ∃ m, loadManifest sha256 args.manifestContent (nameOf args.manifest.path.text) = .ok m ∧
      (do asciiBytes (← dumpYaml specHeader (args.document sha256 m))) = .ok out := bind_ok.1 h

/-- **The tool reads what it writes** just if no source is given twice, the sequence is not below zero and
nothing is cut off the address of the manifest. -/
theorem written_reads_iff (sha256 : Text → Digest) :
    (∀ lands args raw, cmdManifest sha256 lands args = .ok raw → raw.size ≤ manifestLimit →
      ∃ document, manifestOf sha256 lands args = .ok document ∧
        ∀ what, (∃ m, loadManifest sha256 raw what = .ok m ∧ m.document = document) ↔ args.sourceNames.Nodup) ∧
    (∀ args out, cmdSpec sha256 args = .ok out → out.size ≤ specLimit →
      ∃ m, loadManifest sha256 args.manifestContent (nameOf args.manifest.path.text) = .ok m ∧
        ∀ what, (∃ spec, loadSpec out what = .ok spec ∧ spec.document.value = args.document sha256 m ∧ spec.ignored = []) ↔
          0 ≤ args.sequence) ∧
    ∀ args out, cmdStamp args = .ok out → out.size ≤ specLimit →
      ∃ spec seq artifactName manifestName, Stamps args spec seq artifactName manifestName ∧
        ∀ what, loadSpec out what = .ok ⟨stamped spec.document args artifactName manifestName, []⟩ ↔
          ¬ args.Cut manifestName := by
  refine ⟨?_, ?_, ?_⟩
  · intro lands args raw h hsize
    obtain ⟨document, hdocument, hraw⟩ := cmdManifest_ok h
    exact ⟨document, hdocument, fun what => cmdManifest_reads hdocument hraw hsize⟩
  · intro args out h hsize
    obtain ⟨m, hm, hout⟩ := cmdSpec_ok h
    exact ⟨m, hm, fun what => cmdSpec_reads hm hout hsize⟩
  · intro args out h hsize
    obtain ⟨spec, seq, artifactName, manifestName, hs, -, hreads⟩ := cmdStamp_reads h hsize
    exact ⟨spec, seq, artifactName, manifestName, hs, hreads⟩

/-! An empty tree, with a source that is given twice. -/

def emptyTree (sources : List Argument) : ManifestArgs where
  tree := .nil
  identity := [⟨lit "project=p", by decide⟩, ⟨lit "arch=a", by decide⟩]
  llvm := none
  appleSources := sources

def twice : ManifestArgs := emptyTree [⟨lit "s=1=1", by decide⟩, ⟨lit "s=2=2", by decide⟩]

/-- A file is written that is small enough to be read again. -/
def isRead (limit : Nat) (file : Result ByteArray) : Bool :=
  match file with
  | .ok raw => raw.size ≤ limit
  | .error _ => false

theorem exists_of_isRead {limit : Nat} {file : Result ByteArray} (h : isRead limit file = true) :
    ∃ raw, file = .ok raw ∧ raw.size ≤ limit := by
  cases file with
  | ok raw => exact ⟨raw, rfl, of_decide_eq_true h⟩
  | error e => cases h

theorem twice_isRead : isRead manifestLimit (cmdManifest (fun _ => default) (fun _ => true) twice) = true := by
  decide +kernel

theorem twice_not_nodup : ¬ twice.sourceNames.Nodup := by decide

theorem written_reads_iff_twice : ∃ raw document, cmdManifest (fun _ => default) (fun _ => true) twice = .ok raw ∧
    ∀ what, (∃ m, loadManifest (fun _ => default) raw what = .ok m ∧ m.document = document) ↔ twice.sourceNames.Nodup := by
  obtain ⟨raw, hraw, hsize⟩ := exists_of_isRead twice_isRead
  obtain ⟨document, -, hreads⟩ := (written_reads_iff _).1 _ _ _ hraw hsize
  exact ⟨raw, document, hraw, hreads⟩

/-- Its manifest is written, and not read back. -/
theorem twice_not_read : ∃ raw document, manifestOf (fun _ => default) (fun _ => true) twice = .ok document ∧
    cmdManifest (fun _ => default) (fun _ => true) twice = .ok raw ∧ raw.size ≤ manifestLimit ∧
    ∀ what, ¬ ∃ m, loadManifest (fun _ => default) raw what = .ok m ∧ m.document = document := by
  obtain ⟨raw, hraw, hsize⟩ := exists_of_isRead twice_isRead
  obtain ⟨document, hdocument, hwritten⟩ := cmdManifest_ok hraw
  refine ⟨raw, document, hdocument, hraw, hsize, ?_⟩
  intro what hread
  exact twice_not_nodup ((cmdManifest_reads hdocument hwritten hsize).1 hread)

/-! A directory, and a file in it. -/

theorem isHex_hexLetter {α : Type} (l : List α) (f : α → Nat) :
    isHex l.length (l.map fun x => hexLetter (f x % 16)) = true := by
  have hletter : ∀ k < 16, 48 ≤ hexLetter k ∧ hexLetter k ≤ 57 ∨ 97 ≤ hexLetter k ∧ hexLetter k ≤ 102 := by decide
  refine decide_eq_true ⟨List.length_map _, fun c hc => ?_⟩
  obtain ⟨x, -, rfl⟩ := List.mem_map.1 hc
  exact hletter _ (Nat.mod_lt _ (by decide))

/-- A digest that is easily computed: the last of the bytes, as a number. -/
def tally (bytes : Text) : Digest where
  text := (List.range 64).map fun i => hexLetter (bytes.foldl (fun n c => n * 257 + c) 0 / 16 ^ i % 16)
  wellFormed := isHex_hexLetter (List.range 64) _

def fewTree : Tree := .node (lit "d") 0o755 (.leaf (lit "f") (.file 0o644 2 (tally (lit "ab"))) .nil) .nil

def fewArgs : ManifestArgs := { emptyTree [] with tree := fewTree }

/-- What the manifest of the tree lists. -/
def fewListed : List Entry :=
  [⟨lit "/d", .directory (lit "0755") (some (lit "1708e39614534dcf288accb139ee4557ef4f7ff8ba12eafbd430f0f56aea28b2"))⟩,
    ⟨lit "/d/f", .file (lit "0644") 2 (tally (lit "ab")).text⟩]

theorem size_asciiBytes {text : Text} (h : asciiBytes text = .ok raw) : raw.size = text.length := by
  obtain ⟨bytes, hbytes, h⟩ := bind_ok.1 h
  cases h
  rw [encode] at hbytes
  split at hbytes
  · cases hbytes
    simp
  · cases hbytes

theorem bytesOf_asciiBytes {text : Text} (h : asciiBytes text = .ok raw) : bytesOf raw = text := by
  obtain ⟨bytes, hbytes, h⟩ := bind_ok.1 h
  cases h
  rw [encode] at hbytes
  split at hbytes
  · next hascii =>
      cases hbytes
      exact bytesOf_ascii hascii
  · cases hbytes

/-- The manifest of the tree can be written, in so many bytes. -/
theorem few_written : ((manifestOf tally (fun _ => true) fewArgs).bind (dumpYaml manifestHeader)).toOption.map
      (fun text => (text.length, (tally text).text)) =
    some (569, lit "f7b48f1d399d7ca3b033b83480bb3396ca19f0c2a9490624605f5814173a7817") ∧
    (cmdManifest tally (fun _ => true) fewArgs).toOption.isSome = true := by
  decide +kernel

theorem few_finished : (do
      let r ← merkle tally (scanTree fewTree true).1
      (scanTree fewTree true).1.mapM (finish r.2)).toOption = some fewListed := by
  decide +kernel

/-- What the command says of the tree. -/
theorem few_loads : ∃ raw, cmdManifest tally (fun _ => true) fewArgs = .ok raw ∧ raw.size = 569 ∧
    (tally (bytesOf raw)).text = lit "f7b48f1d399d7ca3b033b83480bb3396ca19f0c2a9490624605f5814173a7817" ∧
    ∀ what m, loadManifest tally raw what = .ok m → m.entries = fewListed := by
  obtain ⟨hpins, hsome⟩ := few_written
  cases hraw : cmdManifest tally (fun _ => true) fewArgs with
  | error f => simp [hraw, Except.toOption] at hsome
  | ok raw =>
      obtain ⟨document, hdocument, hwritten⟩ := cmdManifest_ok hraw
      obtain ⟨text, htext, hbytes⟩ := bind_ok.1 hwritten
      rw [hdocument, Except.bind, htext] at hpins
      obtain ⟨hlength, htally⟩ := Prod.mk.inj (Option.some.inj hpins)
      have hsize : raw.size = 569 := (size_asciiBytes hbytes).trans hlength
      refine ⟨raw, rfl, hsize, (bytesOf_asciiBytes hbytes).symm ▸ htally, fun what m hm => ?_⟩
      obtain ⟨m', hm', hsame⟩ : ∃ m, loadManifest tally raw what = .ok m ∧ m.document = document :=
        (cmdManifest_reads hdocument hwritten (by rw [hsize]; decide)).2 List.nodup_nil
      obtain rfl := Except.ok.inj (hm.symm.trans hm')
      obtain ⟨pairs, build, -, -, -, hparts, -⟩ := manifestOf_ok hdocument
      obtain ⟨tree, digests, finished, hmerkle, hfinished, hparts⟩ := manifestDocument_ok.1 hparts
      obtain rfl : finished = fewListed := by
        have hlisted := few_finished
        rw [show fewTree = fewArgs.tree from rfl, hmerkle] at hlisted
        exact Option.some.inj ((congrArg Except.toOption hfinished).symm.trans hlisted)
      have hlisted := (loadManifest_ok hm).listed
      rw [hsame, hparts, get_entries] at hlisted
      exact (Entry.value_injective.list_map (Value.list.inj hlisted)).symm

theorem few_load : ∃ raw m, loadManifest tally raw (lit "m") = .ok m ∧ m.entries = fewListed := by
  obtain ⟨raw, hraw, hsize, -, hlists⟩ := few_loads
  obtain ⟨document, hdocument, hwritten⟩ := cmdManifest_ok hraw
  obtain ⟨m, hm, -⟩ : ∃ m, loadManifest tally raw (lit "m") = .ok m ∧ m.document = document :=
    (cmdManifest_reads hdocument hwritten (by rw [hsize]; decide)).2 List.nodup_nil
  exact ⟨raw, m, hm, hlists _ m hm⟩

end MiniDarwin.Rootfs
