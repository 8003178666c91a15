import MiniDarwin.Rootfs.Spec
import MiniDarwin.Rootfs.Readable

/-!
The normal form of a spec.

Every document that `spec_from ()` returns of a text that has been read is
in it, and a document in it can be written and is read as itself.
-/

namespace MiniDarwin.Rootfs

open Data

variable {v : Value} {what s : Text} {opt : Bool}

/-! ### Single values -/

theorem checkStr_optional {o : Option Text} :
    checkStr v what true = .ok o ↔ v = optional o ∧ ∀ s ∈ o, s ≠ [] := by
  constructor
  · intro h
    rw [checkStr.eq_def] at h
    split at h <;> cases h
    · exact ⟨rfl, by simp⟩
    · exact ⟨rfl, by simp⟩
  · rintro ⟨rfl, hne⟩
    cases o with
    | none => rfl
    | some s =>
        obtain ⟨c, s, rfl⟩ := List.exists_cons_of_ne_nil (hne s rfl)
        rfl

theorem checkStr_ok {o : Option Text} : checkStr v what false = .ok o ↔ ∃ s, o = some s ∧ v = str s ∧ s ≠ [] := by
  constructor
  · intro h
    rw [checkStr.eq_def] at h
    split at h <;> cases h
    · contradiction
    · exact ⟨_, rfl, rfl, List.cons_ne_nil _ _⟩
  · rintro ⟨s, rfl, rfl, hne⟩
    obtain ⟨c, s, rfl⟩ := List.exists_cons_of_ne_nil hne
    rfl

theorem checkInt_optional {o : Option Nat} : checkInt v what true = .ok o ↔ v = number o := by
  constructor
  · intro h
    rw [checkInt.eq_def] at h
    split at h <;> cases h
    · rfl
    · rfl
  · rintro rfl
    cases o <;> rfl

theorem checkHex_optional {o : Option Text} :
    checkHex v what opt = .ok o ↔ v = optional o ∧ (∀ s ∈ o, isHex 64 s = true) ∧ (opt = false → o ≠ none) := by
  constructor
  · intro h
    rw [checkHex.eq_def] at h
    split at h
    · cases h
      exact ⟨rfl, by simp, by simp⟩
    · split at h
      next hs =>
        cases h
        exact ⟨rfl, by simpa using hs, by simp⟩
      · cases h
    · cases h
  · rintro ⟨rfl, hhex, hnone⟩
    cases o with
    | none =>
        cases opt with
        | true => rfl
        | false => exact absurd rfl (hnone rfl)
    | some s =>
        rw [checkHex.eq_def]
        exact if_pos (hhex s rfl)

theorem sourcesFrom_ok {i : Nat} {values : List Value} {urls : List Text} :
    sourcesFrom what i values = .ok urls ↔ values = urls.map str ∧ ∀ url ∈ urls, isSource url = true := by
  induction values generalizing i urls with
  | nil =>
      rw [sourcesFrom]
      cases urls <;> simp
  | cons value values ih =>
      rw [sourcesFrom]
      constructor
      · intro h
        obtain ⟨o, ho, hchecked⟩ := bind_ok.1 h
        obtain ⟨s, rfl, rfl, -⟩ := checkStr_ok.1 ho
        simp only [Option.getD_some] at hchecked
        split at hchecked
        · cases hchecked
        next hs =>
          obtain ⟨urls, hurls, hmore⟩ := bind_ok.1 hchecked
          cases hmore
          obtain ⟨rfl, hall⟩ := ih.1 hurls
          refine ⟨rfl, ?_⟩
          intro url hurl
          obtain rfl | hurl := List.mem_cons.1 hurl
          · simpa using hs
          · exact hall url hurl
      · rintro ⟨heq, hall⟩
        obtain ⟨s, urls, rfl, rfl, rfl⟩ := List.map_eq_cons_iff.1 heq.symm
        have hs := hall s (.head _)
        have hne : s ≠ [] := by
          rintro rfl
          cases hs
        refine bind_ok.2 ⟨some s, checkStr_ok.2 ⟨s, rfl, rfl, hne⟩, ?_⟩
        simp only [Option.getD_some, hs, Bool.not_true, Bool.false_eq_true, if_false]
        exact bind_ok.2 ⟨urls, ih.2 ⟨rfl, fun url hurl => hall url (.tail _ hurl)⟩, rfl⟩

theorem sources_ok {urls : List Text} (h : sources v what = .ok urls) :
    (∀ url ∈ urls, isSource url = true) ∧ (v.Readable → ∀ url ∈ urls, Rootfs.Writable url) := by
  rw [sources.eq_def] at h
  split at h
  · cases h
    simp
  next values =>
    obtain ⟨rfl, hall⟩ := sourcesFrom_ok.1 h
    refine ⟨hall, ?_⟩
    rintro (_ | hitems) url hurl
    cases hitems (str url) (List.mem_map_of_mem hurl) with
    | scalar hw => exact hw
  · cases h

theorem sources_map {urls : List Text} (h : ∀ url ∈ urls, isSource url = true) :
    sources (.list (urls.map str)) what = .ok urls := sourcesFrom_ok.2 ⟨rfl, h⟩

/-! ### What has been read -/

theorem Value.Readable.get {entries : List (Text × Value)} (h : (Value.map entries).Readable) (key : Text) :
    (Rootfs.get entries key).Readable := by
  rw [Rootfs.get]
  cases hlookup : entries.lookup key with
  | none => exact .scalar trivial
  | some value =>
      obtain ⟨before, after, rfl, -⟩ := List.lookup_eq_some_iff.1 hlookup
      cases h with
      | map _ _ values => exact values (key, value) (by simp)

theorem Value.Readable.orEmpty (h : v.Readable) : (Rootfs.orEmpty v).Readable := by
  rw [Rootfs.orEmpty.eq_def]
  split
  iterate 5 exact .map (by simp) (by simp) (by simp)
  exact h

theorem Value.Readable.optional {o : Option Text} (h : (Rootfs.optional o).Readable) : ∀ s ∈ o, Rootfs.Writable s := by
  rintro s rfl
  cases h with
  | scalar hw => exact hw

theorem writable_of_isHex {length : Nat} (h : isHex length s = true) : Rootfs.Writable s := by
  refine writable_of_unicode fun c hc => ?_
  have hhex := of_decide_eq_true h
  have := hhex.2 c hc
  omega

/-- A string that passes `_str ()` and can be written. -/
structure Filled (s : Text) : Prop where
  nonempty : s ≠ []
  writable : Rootfs.Writable s

theorem filled_of_checkStr {o : Option Text} (hv : v.Readable) (h : checkStr v what true = .ok o) :
    ∀ s ∈ o, Filled s := by
  obtain ⟨rfl, hne⟩ := checkStr_optional.1 h
  exact fun s hs => ⟨hne s hs, hv.optional s hs⟩

/-! ### Normal forms -/

structure Release.Normal (r : Release) : Prop where
  tag : ∀ s ∈ r.tag, Filled s
  commit : ∀ s ∈ r.commit, isHex 40 s = true
  repository : ∀ s ∈ r.repository, Filled s

structure Artifact.Normal (a : Artifact) (strict : Bool) : Prop where
  name : ∀ s ∈ a.name, Filled s
  sha256 : ∀ s ∈ a.sha256, isHex 64 s = true
  strict : strict = true → a.sha256 ≠ none
  sources : ∀ url ∈ a.sources, isSource url = true ∧ Rootfs.Writable url

structure ManifestPin.Normal (m : ManifestPin) (strict : Bool) : Prop where
  name : ∀ s ∈ m.name, Filled s
  sha256 : ∀ s ∈ m.sha256, isHex 64 s = true
  strict : strict = true → m.sha256 ≠ none
  tree : ∀ s ∈ m.tree, isHex 64 s = true
  sources : ∀ url ∈ m.sources, isSource url = true ∧ Rootfs.Writable url

/-- An identity: keys in order, and a string for each. -/
structure NormalIdentity (identity : List (Text × Text)) : Prop where
  keys : ∀ e ∈ identity, IsKey e.1
  values : ∀ e ∈ identity, Filled e.2
  sorted : identity.Pairwise fun a b => a.1 < b.1

structure Document.Normal (d : Document) : Prop where
  identity : ∀ identity ∈ d.identity, NormalIdentity identity
  release : d.release.Normal
  artifact : d.artifact.Normal (d.policy = .strict)
  manifest : d.manifest.Normal (d.policy = .strict)

/-! ### What is accepted is in its normal form -/

theorem stringMap_items {entries : List (Text × Value)} {items : List (Text × Text)}
    (h : (entries.mapM fun e => do
      return (e.1, (← checkStr e.2 (what ++ lit "." ++ e.1) false).getD [])) = Except.ok (ε := Failure) items) :
    entries = items.map (fun e => (e.1, str e.2)) ∧ ∀ e ∈ items, e.2 ≠ [] := by
  induction entries generalizing items with
  | nil =>
      cases h
      simp
  | cons e entries ih =>
      rw [List.mapM_cons] at h
      obtain ⟨item, hitem, h⟩ := bind_ok.1 h
      obtain ⟨items, hitems, h⟩ := bind_ok.1 h
      cases h
      obtain ⟨o, ho, hitem⟩ := bind_ok.1 hitem
      cases hitem
      obtain ⟨s, rfl, hs, hne⟩ := checkStr_ok.1 ho
      obtain ⟨rfl, hall⟩ := ih hitems
      obtain ⟨key, value⟩ := e
      obtain rfl : value = str s := hs
      refine ⟨rfl, ?_⟩
      intro e he
      obtain rfl | he := List.mem_cons.1 he
      · exact hne
      · exact hall e he

theorem readIdentity_normal {o : Option (List (Text × Text))} (hv : v.Readable) (h : readIdentity v what = .ok o) :
    ∀ identity ∈ o, NormalIdentity identity := by
  rw [readIdentity.eq_def] at h
  split at h
  · cases h
    simp
  · obtain ⟨identity, hread, h⟩ := bind_ok.1 h
    cases h
    obtain ⟨entries, hentries, hmap⟩ := bind_ok.1 hread
    obtain rfl := mapping_ok.1 hentries
    obtain ⟨items, hitems, hsorted⟩ := bind_ok.1 hmap
    cases hsorted
    obtain ⟨rfl, hne⟩ := stringMap_items hitems
    intro identity hidentity
    obtain rfl := Option.some.inj hidentity
    have hmem : ∀ e ∈ byName items, e ∈ items := fun e he => (byName_perm items).mem_iff.1 he
    cases hv with
    | map keys nodup values =>
        refine ⟨?_, ?_, pairwise_byName ?_⟩
        · intro e he
          exact keys _ (List.mem_map_of_mem (hmem e he))
        · intro e he
          cases values _ (List.mem_map_of_mem (hmem e he)) with
          | scalar hw => exact ⟨hne e (hmem e he), hw⟩
        · rw [List.map_map] at nodup
          exact nodup

theorem readRelease_normal {r : Release} (hv : v.Readable) (h : readRelease v what = .ok r) : r.Normal := by
  obtain ⟨entries, hentries, h⟩ := bind_ok.1 h
  have hmap : (Value.map entries).Readable := mapping_ok.1 hentries ▸ hv.orEmpty
  obtain ⟨_, _, h⟩ := bind_ok.1 h
  obtain ⟨sequence, _, h⟩ := bind_ok.1 h
  obtain ⟨tag, htag, h⟩ := bind_ok.1 h
  obtain ⟨commit, _, h⟩ := bind_ok.1 h
  obtain ⟨repository, hrepository, h⟩ := bind_ok.1 h
  split at h
  · cases h
  next hhex =>
    cases h
    refine ⟨filled_of_checkStr (hmap.get _) htag, ?_, filled_of_checkStr (hmap.get _) hrepository⟩
    rintro s rfl
    simpa using hhex

theorem sources_normal {urls : List Text} (hv : v.Readable) (h : sources v what = .ok urls) :
    ∀ url ∈ urls, isSource url = true ∧ Rootfs.Writable url :=
  fun url hurl => ⟨(sources_ok h).1 url hurl, (sources_ok h).2 hv url hurl⟩

theorem readArtifact_normal {a : Artifact} {strict : Bool} (hv : v.Readable) (h : readArtifact v what strict = .ok a) :
    a.Normal strict := by
  obtain ⟨entries, hentries, h⟩ := bind_ok.1 h
  have hmap : (Value.map entries).Readable := mapping_ok.1 hentries ▸ hv
  obtain ⟨_, _, h⟩ := bind_ok.1 h
  split at h
  · cases h
  obtain ⟨name, hname, h⟩ := bind_ok.1 h
  obtain ⟨size, _, h⟩ := bind_ok.1 h
  obtain ⟨sha256, hsha256, h⟩ := bind_ok.1 h
  obtain ⟨urls, hurls, h⟩ := bind_ok.1 h
  cases h
  obtain ⟨-, hhex, hstrict⟩ := checkHex_optional.1 hsha256
  refine ⟨filled_of_checkStr (hmap.get _) hname, hhex, ?_, sources_normal (hmap.get _) hurls⟩
  rintro rfl
  exact hstrict rfl

theorem readManifest_normal {m : ManifestPin} {strict : Bool} (hv : v.Readable)
    (h : readManifest v what strict = .ok m) : m.Normal strict := by
  obtain ⟨entries, hentries, h⟩ := bind_ok.1 h
  have hmap : (Value.map entries).Readable := mapping_ok.1 hentries ▸ hv
  obtain ⟨_, _, h⟩ := bind_ok.1 h
  obtain ⟨name, hname, h⟩ := bind_ok.1 h
  obtain ⟨size, _, h⟩ := bind_ok.1 h
  obtain ⟨sha256, hsha256, h⟩ := bind_ok.1 h
  obtain ⟨tree, htree, h⟩ := bind_ok.1 h
  obtain ⟨urls, hurls, h⟩ := bind_ok.1 h
  cases h
  obtain ⟨-, hhex, hstrict⟩ := checkHex_optional.1 hsha256
  refine ⟨filled_of_checkStr (hmap.get _) hname, hhex, ?_, (checkHex_optional.1 htree).2.1, sources_normal (hmap.get _) hurls⟩
  rintro rfl
  exact hstrict rfl

/-- The document of a spec that has been read is in its normal form. -/
theorem specFrom_normal {spec : Spec} (hv : v.Readable) (h : specFrom v what = .ok spec) : spec.document.Normal := by
  obtain ⟨data, hdata, h⟩ := bind_ok.1 h
  rw [mapping_ok.1 hdata] at hv
  split at h
  · cases h
  split at h
  · cases h
  obtain ⟨verification, _, h⟩ := bind_ok.1 h
  obtain ⟨_, _, h⟩ := bind_ok.1 h
  obtain ⟨policy, _, h⟩ := bind_ok.1 h
  obtain ⟨identity, hidentity, h⟩ := bind_ok.1 h
  obtain ⟨release, hrelease, h⟩ := bind_ok.1 h
  obtain ⟨artifact, hartifact, h⟩ := bind_ok.1 h
  obtain ⟨manifest, hmanifest, h⟩ := bind_ok.1 h
  cases h
  exact ⟨readIdentity_normal (hv.get _) hidentity, readRelease_normal (hv.get _) hrelease,
    readArtifact_normal (hv.get _) hartifact, readManifest_normal (hv.get _) hmanifest⟩

/-! ### A document in its normal form is read as itself -/

theorem readRelease_value {r : Release} (h : r.Normal) : readRelease r.value what = .ok r := by
  refine bind_ok.2 ⟨_, mapping_ok.2 rfl, ?_⟩
  refine bind_ok.2 ⟨(), rfl, ?_⟩
  refine bind_ok.2 ⟨r.sequence, checkInt_optional.2 rfl, ?_⟩
  refine bind_ok.2 ⟨r.tag, checkStr_optional.2 ⟨rfl, fun s hs => (h.tag s hs).nonempty⟩, ?_⟩
  refine bind_ok.2 ⟨r.commit, checkStr_optional.2 ⟨rfl, ?_⟩, ?_⟩
  · rintro s hs rfl
    cases h.commit [] hs
  refine bind_ok.2 ⟨r.repository, checkStr_optional.2 ⟨rfl, fun s hs => (h.repository s hs).nonempty⟩, ?_⟩
  refine if_neg ?_
  rw [Option.any_eq_true]
  rintro ⟨s, hs, hhex⟩
  rw [h.commit s hs] at hhex
  cases hhex

theorem readArtifact_value {a : Artifact} {strict : Bool} (h : a.Normal strict) :
    readArtifact a.value what strict = .ok a := by
  refine bind_ok.2 ⟨_, mapping_ok.2 rfl, ?_⟩
  refine bind_ok.2 ⟨(), rfl, ?_⟩
  refine bind_ok.2 ⟨a.name, checkStr_optional.2 ⟨rfl, fun s hs => (h.name s hs).nonempty⟩, ?_⟩
  refine bind_ok.2 ⟨a.size, checkInt_optional.2 rfl, ?_⟩
  refine bind_ok.2 ⟨a.sha256, checkHex_optional.2 ⟨rfl, h.sha256, ?_⟩, ?_⟩
  · intro hstrict
    exact h.strict (by simpa using hstrict)
  exact bind_ok.2 ⟨a.sources, sources_map fun url hurl => (h.sources url hurl).1, rfl⟩

theorem readManifest_value {m : ManifestPin} {strict : Bool} (h : m.Normal strict) :
    readManifest m.value what strict = .ok m := by
  refine bind_ok.2 ⟨_, mapping_ok.2 rfl, ?_⟩
  refine bind_ok.2 ⟨(), rfl, ?_⟩
  refine bind_ok.2 ⟨m.name, checkStr_optional.2 ⟨rfl, fun s hs => (h.name s hs).nonempty⟩, ?_⟩
  refine bind_ok.2 ⟨m.size, checkInt_optional.2 rfl, ?_⟩
  refine bind_ok.2 ⟨m.sha256, checkHex_optional.2 ⟨rfl, h.sha256, ?_⟩, ?_⟩
  · intro hstrict
    exact h.strict (by simpa using hstrict)
  refine bind_ok.2 ⟨m.tree, checkHex_optional.2 ⟨rfl, h.tree, by simp⟩, ?_⟩
  exact bind_ok.2 ⟨m.sources, sources_map fun url hurl => (h.sources url hurl).1, rfl⟩

theorem stringMap_value {identity : List (Text × Text)} (h : NormalIdentity identity) :
    stringMap (.map (identity.map fun e => (e.1, str e.2))) what = .ok identity := by
  have hitems : ∀ items : List (Text × Text), (∀ e ∈ items, e.2 ≠ []) →
      ((items.map fun e => (e.1, str e.2)).mapM fun e => do
        return (e.1, (← checkStr e.2 (what ++ lit "." ++ e.1) false).getD [])) = Except.ok (ε := Failure) items := by
    intro items hne
    induction items with
    | nil => rfl
    | cons e items ih =>
        rw [List.map_cons, List.mapM_cons, ih fun e he => hne e (.tail _ he)]
        have hs := hne e (.head _)
        rw [(checkStr_ok (v := str e.2)).2 ⟨e.2, rfl, rfl, hs⟩]
        rfl
  refine bind_ok.2 ⟨_, mapping_ok.2 rfl, ?_⟩
  refine bind_ok.2 ⟨identity, hitems identity fun e he => (h.values e he).nonempty, ?_⟩
  exact congrArg Except.ok (List.Pairwise.insertionSort_eq (h.sorted.imp le_of_lt))

theorem readIdentity_value {identity : List (Text × Text)} (h : NormalIdentity identity) :
    readIdentity (.map (identity.map fun e => (e.1, str e.2))) what = .ok (some identity) :=
  bind_ok.2 ⟨identity, stringMap_value h, rfl⟩

/-- A document in its normal form is read as itself, and nothing in it is passed over. -/
theorem specFrom_value {d : Document} (h : d.Normal) : specFrom (.map d.value) what = .ok ⟨d, []⟩ := by
  obtain ⟨identity, release, artifact, manifest, policy⟩ := d
  have hpolicy : ∀ what, readPolicy [(lit "policy", str policy.text)] what = .ok policy := by
    intro what
    cases policy <;> rfl
  refine bind_ok.2 ⟨_, mapping_ok.2 rfl, ?_⟩
  cases identity with
  | none =>
      refine bind_ok.2 ⟨_, mapping_ok.2 rfl, ?_⟩
      refine bind_ok.2 ⟨(), rfl, ?_⟩
      refine bind_ok.2 ⟨policy, hpolicy what, ?_⟩
      refine bind_ok.2 ⟨none, rfl, ?_⟩
      refine bind_ok.2 ⟨release, readRelease_value h.release, ?_⟩
      refine bind_ok.2 ⟨artifact, readArtifact_value h.artifact, ?_⟩
      exact bind_ok.2 ⟨manifest, readManifest_value h.manifest, rfl⟩
  | some identity =>
      refine bind_ok.2 ⟨_, mapping_ok.2 rfl, ?_⟩
      refine bind_ok.2 ⟨(), rfl, ?_⟩
      refine bind_ok.2 ⟨policy, hpolicy what, ?_⟩
      refine bind_ok.2 ⟨some identity, readIdentity_value (h.identity identity rfl), ?_⟩
      refine bind_ok.2 ⟨release, readRelease_value h.release, ?_⟩
      refine bind_ok.2 ⟨artifact, readArtifact_value h.artifact, ?_⟩
      exact bind_ok.2 ⟨manifest, readManifest_value h.manifest, rfl⟩

/-! ### It can be written -/

theorem writable_map {entries : List (Text × Value)} (keys : List Text) (hkeys : entries.map (·.1) = keys)
    (h : (∀ key ∈ keys, IsKey key) ∧ keys.Nodup) (values : ∀ e ∈ entries, e.2.Writable) :
    (Value.map entries).Writable := by
  subst hkeys
  exact .map (fun e he => h.1 e.1 (List.mem_map_of_mem he)) h.2 values

theorem writable_optional {o : Option Text} (h : ∀ s ∈ o, Rootfs.Writable s) : (optional o).Writable := by
  cases o with
  | none => exact .scalar trivial
  | some s => exact .scalar (h s rfl)

theorem writable_number (n : Option Nat) : (number n).Writable := by
  cases n <;> exact .scalar trivial

theorem writable_urls {urls : List Text} (h : ∀ url ∈ urls, Rootfs.Writable url) :
    (Value.list (urls.map str)).Writable := by
  refine .list ?_
  intro item hitem
  obtain ⟨url, hurl, rfl⟩ := List.mem_map.1 hitem
  exact h url hurl

theorem Release.Normal.writable {r : Release} (h : r.Normal) : r.value.Writable := by
  refine writable_map [lit "sequence", lit "tag", lit "commit", lit "repository"] rfl (by decide) ?_
  simp only [List.forall_mem_cons, List.not_mem_nil, false_implies, implies_true, and_true]
  exact ⟨writable_number _, writable_optional fun s hs => (h.tag s hs).writable,
    writable_optional fun s hs => writable_of_isHex (h.commit s hs),
    writable_optional fun s hs => (h.repository s hs).writable⟩

theorem Artifact.Normal.writable {a : Artifact} {strict : Bool} (h : a.Normal strict) : a.value.Writable := by
  refine writable_map [lit "name", lit "format", lit "size", lit "sha256", lit "sources"] rfl (by decide) ?_
  simp only [List.forall_mem_cons, List.not_mem_nil, false_implies, implies_true, and_true]
  exact ⟨writable_optional fun s hs => (h.name s hs).writable, .scalar (writable_of_unicode (by decide)),
    writable_number _, writable_optional fun s hs => writable_of_isHex (h.sha256 s hs),
    writable_urls fun url hurl => (h.sources url hurl).2⟩

/-- Its sources may be any strings that can be written. -/
theorem ManifestPin.Normal.writable_sources {m : ManifestPin} {strict : Bool} (h : m.Normal strict) {urls : List Text}
    (hurls : ∀ url ∈ urls, Rootfs.Writable url) : ({ m with sources := urls }).value.Writable := by
  refine writable_map [lit "name", lit "size", lit "sha256", lit "tree", lit "sources"] rfl (by decide) ?_
  simp only [List.forall_mem_cons, List.not_mem_nil, false_implies, implies_true, and_true]
  exact ⟨writable_optional fun s hs => (h.name s hs).writable, writable_number _,
    writable_optional fun s hs => writable_of_isHex (h.sha256 s hs),
    writable_optional fun s hs => writable_of_isHex (h.tree s hs), writable_urls hurls⟩

theorem ManifestPin.Normal.writable {m : ManifestPin} {strict : Bool} (h : m.Normal strict) : m.value.Writable :=
  h.writable_sources fun url hurl => (h.sources url hurl).2

theorem NormalIdentity.writable {identity : List (Text × Text)} (h : NormalIdentity identity) :
    (Value.map (identity.map fun e => (e.1, str e.2))).Writable := by
  refine .map ?_ ?_ ?_
  · intro e he
    obtain ⟨e', he', rfl⟩ := List.mem_map.1 he
    exact h.keys e' he'
  · rw [List.map_map]
    exact (List.pairwise_map.2 h.sorted).imp ne_of_lt
  · intro e he
    obtain ⟨e', he', rfl⟩ := List.mem_map.1 he
    exact .scalar (h.values e' he').writable

theorem Document.writable_of_parts {d : Document} (hidentity : ∀ identity ∈ d.identity, NormalIdentity identity)
    (hrelease : d.release.value.Writable) (hartifact : d.artifact.value.Writable) (hmanifest : d.manifest.value.Writable) :
    (Value.map d.value).Writable := by
  obtain ⟨identity, release, artifact, manifest, policy⟩ := d
  have hpolicy : (Value.map [(lit "policy", str policy.text)]).Writable := by
    refine writable_map [lit "policy"] rfl (by decide) ?_
    simp only [List.forall_mem_cons, List.not_mem_nil, false_implies, implies_true, and_true]
    cases policy <;> exact .scalar (writable_of_unicode (by decide))
  cases identity with
  | none =>
      refine writable_map [lit "format", lit "release", lit "artifact", lit "manifest", lit "verification"] rfl
        (by decide) ?_
      simp only [Document.value, Option.map_none, Option.toList_none, List.nil_append, List.forall_mem_cons,
        List.not_mem_nil, false_implies, implies_true, and_true]
      exact ⟨.scalar trivial, hrelease, hartifact, hmanifest, hpolicy⟩
  | some identity =>
      refine writable_map specKeys rfl (by decide) ?_
      simp only [Document.value, Option.map_some, Option.toList_some, List.cons_append, List.nil_append,
        List.forall_mem_cons, List.not_mem_nil, false_implies, implies_true, and_true]
      exact ⟨.scalar trivial, (hidentity identity rfl).writable, hrelease, hartifact, hmanifest, hpolicy⟩

theorem Document.Normal.writable {d : Document} (h : d.Normal) : (Value.map d.value).Writable :=
  d.writable_of_parts h.identity h.release.writable h.artifact.writable h.manifest.writable

end MiniDarwin.Rootfs
