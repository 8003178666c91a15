import MiniDarwin.Rootfs.Exact
import MiniDarwin.Rootfs.Extract

/-!
Verification (`cmd_verify ()`).

What the command finds around it is a parameter: the files, what `zipfile`
and `tarfile` make of them, how the calls of `extract ()` end and the trees
that are there. What is printed is left out.
-/

namespace MiniDarwin.Rootfs

open Data Effects

/-! ### What is given and what is found -/

/-- The options of `mdrootfs verify`. One that is not given is as an empty one. -/
structure VerifyArgs where
  spec : Text
  manifest : Text
  artifact : Text
  bundle : Text
  tree : Text
  allowExtra : Bool
  extractTo : Text

/-- A member of a zip file. -/
structure ZipMember where
  filename : Text
  content : ByteArray
  /-- All of it can be read. -/
  readable : Bool

structure Surroundings where
  /-- The files that can be opened, with their content. -/
  files : Text → Option ByteArray
  /-- `zipfile.ZipFile (path).infolist ()` -/
  bundles : Text → Option (List ZipMember)
  /-- What `tarfile` makes of a file. -/
  tarball : ByteArray → Tarball
  /-- `os.path.lexists ()` -/
  lexists : Text → Bool
  /-- The temporary directory. -/
  temporary : Text
  /-- Whether a call returns, after those that were made. -/
  answer : Making → Record → Bool
  /-- What there is at a path after the calls. -/
  extracted : Text → Record → Disk
  /-- The directory of a path. -/
  tree : Text → Disk

abbrev Verifying := Except Raised

def raising {α : Type} (x : Result α) : Verifying α := x.mapError .failure

/-- `raise Invalid (message)` -/
def rejected {α : Type} (message : Text) : Verifying α := .error (.failure (.invalid message))

/-- `raise Usage (message)` -/
def misused {α : Type} (message : Text) : Verifying α := .error (.failure (.usage message))

/-! ### Bundles -/

/-- `BUNDLE_SPEC` -/
def bundleSpec : Text := lit "spec.yaml"

/-- `BUNDLE_MANIFEST` -/
def bundleManifest : Text := lit "manifest.yaml"

/-- `BUNDLE_ARTIFACT` -/
def bundleArtifact : Text := lit "rootfs.tar.gz"

/-- `BUNDLE_MEMBERS` -/
def bundleMembers : List Text := [bundleSpec, bundleManifest, bundleArtifact]

def sorted (names : List Text) : List Text := names.insertionSort (· ≤ ·)

/-- The limit of a member. -/
def memberLimit (spec : Option Spec) (name : Text) : Option Nat :=
  if name = bundleSpec then some specLimit
  else if name = bundleManifest then some manifestLimit
  else spec.bind (·.document.artifact.size)

/-- A member is copied. -/
def copyMember (spec : Option Spec) (info : ZipMember) : Verifying (Text × ByteArray) :=
  match (memberLimit spec info.filename).filter (info.content.size > ·) with
  | some limit => rejected (lit "bundle: " ++ info.filename ++ lit " is larger than " ++ decimal limit ++ lit " bytes")
  | none => if info.readable then .ok (info.filename, info.content) else .error .system

/-- `open_bundle ()`: the names of the files that it leaves, with their content. -/
def openBundle (infos : List ZipMember) (spec : Option Spec) : Verifying (List (Text × ByteArray)) :=
  let names := infos.map (·.filename)
  if sorted names ≠ sorted bundleMembers then
    rejected (lit "bundle: members must be exactly " ++ (lit ", ").intercalate bundleMembers ++ lit "; found " ++
      (lit ", ").intercalate names)
  else infos.mapM (copyMember spec)

/-! ### What is verified -/

/-- A file of the command line, or of the bundle. -/
inductive Source where
  | file (path : Text)
  | bundled (name : Text)
  deriving DecidableEq

/-- `os.path.basename ()` -/
def Source.name : Source → Text
  | .file path => nameOf path
  | .bundled name => name

/-- The bytes of a file, given what was copied from the bundle. -/
def contentOf (env : Surroundings) (members : List (Text × ByteArray)) (source : Source) : Verifying ByteArray :=
  match (match source with
    | .file path => env.files path
    | .bundled name => members.lookup name) with
  | some raw => .ok raw
  | none => .error .system

/-- The file of an option. -/
def sourceGiven (option : Text) : Option Source := if option = [] then none else some (.file option)

/-- The files that are in force. -/
structure Chosen where
  spec : Option (Source × Spec)
  manifest : Option Source
  artifact : Option Source
  /-- What was copied from the bundle. -/
  members : List (Text × ByteArray)

/-- `load_spec ()` of a file. -/
def specOf (env : Surroundings) (members : List (Text × ByteArray)) (source : Source) : Verifying (Source × Spec) := do
  let raw ← contentOf env members source
  let spec ← raising (loadSpec raw source.name)
  return (source, spec)

/-- The spec of the command line, or else that of the bundle. -/
def specInForce (env : Surroundings) (members : List (Text × ByteArray)) :
    Option (Source × Spec) → Verifying (Source × Spec)
  | some spec => .ok spec
  | none => specOf env members (.bundled bundleSpec)

/-- The first part of `cmd_verify ()`: `spec`, `manifest_path` and `artifact_path`. -/
def choose (env : Surroundings) (args : VerifyArgs) : Verifying Chosen := do
  let spec ← (sourceGiven args.spec).mapM (specOf env [])
  if args.bundle = [] then return ⟨spec, sourceGiven args.manifest, sourceGiven args.artifact, []⟩
  else
    match env.bundles args.bundle with
    | none => .error .system
    | some infos => do
        let members ← openBundle infos (spec.map (·.2))
        let spec ← specInForce env members spec
        return ⟨some spec, (sourceGiven args.manifest).or (some (.bundled bundleManifest)),
          (sourceGiven args.artifact).or (some (.bundled bundleArtifact)), members⟩

section Verifying

variable (sha256 : Text → Digest)

/-- `check_file ()` of a file with that content: whether it has a hash to check. -/
def checkFile (raw : ByteArray) (size : Option Nat) (hash : Option Text) (what : Text) : Verifying Bool :=
  let actual := (sha256 (bytesOf raw)).text
  match size.filter (raw.size ≠ ·), hash with
  | some size, _ => rejected (what ++ lit ": " ++ decimal raw.size ++ lit " bytes, spec says " ++ decimal size)
  | none, none => .ok false
  | none, some hash =>
      if actual ≠ hash then rejected (what ++ lit ": sha256 " ++ actual ++ lit ", spec says " ++ hash) else .ok true

/-- What a spec says of a manifest, besides its hash. -/
def checkHead (spec : Spec) (m : Manifest) : Verifying Unit :=
  match spec.document.manifest.tree.filter (· ≠ m.head.tree), spec.document.identity.filter (· ≠ m.head.identity) with
  | some tree, _ => rejected (lit "manifest: tree " ++ m.head.tree ++ lit ", spec says " ++ tree)
  | none, some identity =>
      rejected (lit "manifest: identity " ++ shown (identityValue m.head.identity) ++ lit " differs from the spec's " ++
        shown (identityValue identity))
  | none, none => .ok ()

/-- The manifest is checked and loaded. -/
def verifyManifest (env : Surroundings) (c : Chosen) (source : Source) : Verifying Manifest := do
  let raw ← contentOf env c.members source
  match c.spec with
  | none => raising (loadManifest sha256 raw source.name)
  | some (_, spec) => do
      let _ ← checkFile sha256 raw spec.document.manifest.size spec.document.manifest.sha256 (lit "manifest")
      let m ← raising (loadManifest sha256 raw source.name)
      checkHead spec m
      return m

/-- The artifact is checked. -/
def verifyArtifact (env : Surroundings) (c : Chosen) : Verifying Unit :=
  match c.artifact, c.spec with
  | some source, some (_, spec) => do
      let raw ← contentOf env c.members source
      let _ ← checkFile sha256 raw spec.document.artifact.size spec.document.artifact.sha256 (lit "artifact")
      return ()
  | _, _ => .ok ()

/-- Nothing is reported of a tree. -/
def verifyTree (d : Disk) (m : Manifest) (allowExtra : Bool) : Verifying Bool :=
  match compareTree d m.entries allowExtra with
  | some (problems, _) => .ok problems.isEmpty
  | none => .error .system

/-- `args.extract_to or os.path.join (tmp, "root")` -/
def destination (env : Surroundings) (args : VerifyArgs) : Text :=
  if args.extractTo = [] then env.temporary ++ lit "/root" else args.extractTo

/-- The run of `extract ()`, and its record. -/
def extraction (env : Surroundings) (args : VerifyArgs) (m : Manifest) (raw : ByteArray) :
    (Except Raised Nat × Locals) × Record :=
  (extract (destination env args) m.entries (env.tarball raw) .start).exec
    (fun c t => (env.answer c t, ⟨c, env.answer c t⟩ :: t)) []

/-- The artifact is unpacked and its tree compared. -/
def verifyExtracted (env : Surroundings) (args : VerifyArgs) (c : Chosen) (manifest : Option Manifest) : Verifying Bool :=
  match c.artifact, manifest with
  | none, _ => .ok true
  | some _, none => misused (lit "verify: an artifact is checked against a manifest; give --manifest")
  | some source, some m => do
      let raw ← contentOf env c.members source
      let run := extraction env args m raw
      let _ ← run.1.1
      verifyTree (env.extracted (destination env args) run.2) m false

/-- The tree of the command line is compared. -/
def verifyGiven (env : Surroundings) (args : VerifyArgs) (manifest : Option Manifest) : Verifying Bool :=
  if args.tree = [] then .ok true
  else
    match manifest with
    | none => misused (lit "verify: --tree is checked against a manifest; give --manifest")
    | some m => verifyTree (env.tree args.tree) m args.allowExtra

/-- `cmd_verify ()`: what it returns. -/
def cmdVerify (env : Surroundings) (args : VerifyArgs) : Verifying Nat :=
  if args.spec = [] ∧ args.manifest = [] ∧ args.artifact = [] ∧ args.bundle = [] then
    misused (lit "verify: give at least one of --spec, --manifest, --artifact, --bundle")
  else if args.extractTo ≠ [] ∧ env.lexists args.extractTo = true then
    misused (lit "--extract-to: " ++ args.extractTo ++ lit " already exists")
  else do
    let c ← choose env args
    if c.spec.isSome = true ∧ (c.artifact.isSome = true ∨ args.tree ≠ []) ∧ c.manifest = none then
      misused (lit "verify: a spec is checked against a manifest; give --manifest")
    else
      verifyArtifact sha256 env c
      let manifest ← c.manifest.mapM (verifyManifest sha256 env c)
      let extracted ← verifyExtracted env args c manifest
      let given ← verifyGiven env args manifest
      return if extracted && given then 0 else 1

end Verifying

/-! ### What a verification means -/

variable {sha256 : Text → Digest} {env : Surroundings} {args : VerifyArgs} {c : Chosen} {raw : ByteArray} {what : Text}
  {m : Manifest} {spec : Spec} {source : Source} {d : Disk} {allowExtra : Bool}

/-- The files in force are those of the command line, and those of the bundle where it has none. -/
structure Chosen.InForce (env : Surroundings) (args : VerifyArgs) (c : Chosen) : Prop where
  spec : args.spec ≠ [] → ∃ raw spec, env.files args.spec = some raw ∧ loadSpec raw (nameOf args.spec) = .ok spec ∧
    c.spec = some (.file args.spec, spec)
  bundledSpec : args.spec = [] → args.bundle ≠ [] → ∃ raw spec, c.members.lookup bundleSpec = some raw ∧
    loadSpec raw bundleSpec = .ok spec ∧ c.spec = some (.bundled bundleSpec, spec)
  noSpec : args.spec = [] → args.bundle = [] → c.spec = none
  manifest : c.manifest = if args.manifest ≠ [] then some (.file args.manifest)
    else if args.bundle ≠ [] then some (.bundled bundleManifest) else none
  artifact : c.artifact = if args.artifact ≠ [] then some (.file args.artifact)
    else if args.bundle ≠ [] then some (.bundled bundleArtifact) else none
  members : ∀ x ∈ c.members, ∃ infos, env.bundles args.bundle = some infos ∧
    ∃ info ∈ infos, (info.filename, info.content) = x

/-- The file has the hash that is given, and the size if one is. -/
def Pins (sha256 : Text → Digest) (size : Option Nat) (hash : Option Text) (raw : ByteArray) : Prop :=
  hash = some (sha256 (bytesOf raw)).text ∧ ∀ n ∈ size, raw.size = n

/-- The manifest is the one that the spec speaks of. -/
structure Vouched (sha256 : Text → Digest) (env : Surroundings) (c : Chosen) (spec : Spec) (m : Manifest) : Prop where
  content : ∃ source raw, c.manifest = some source ∧ contentOf env c.members source = .ok raw ∧
    loadManifest sha256 raw source.name = .ok m ∧
    Pins sha256 spec.document.manifest.size spec.document.manifest.sha256 raw
  tree : ∀ tree ∈ spec.document.manifest.tree, tree = m.head.tree
  identity : ∀ identity ∈ spec.document.identity, identity = m.head.identity

/-- A scan of the tree lists the entries, up to the digests of directories, and finds nothing else. -/
def Disk.Equals (d : Disk) (entries : List Entry) : Prop :=
  (scanTree d.tree false).2 = [] ∧ (scanTree d.tree false).1 = entries.map Entry.bare

theorem raising_ok {α : Type} {x : Result α} {a : α} : raising x = .ok a ↔ x = .ok a := by
  cases x with
  | error f => exact iff_of_false (by rintro ⟨⟩) (by rintro ⟨⟩)
  | ok a' => exact ⟨fun h => congrArg _ (Except.ok.inj h), fun h => congrArg _ (Except.ok.inj h)⟩

theorem checkFile_ok {size : Option Nat} {hash : Option Text} {checked : Bool}
    (h : checkFile sha256 raw size hash what = .ok checked) (hhash : hash ≠ none) : Pins sha256 size hash raw := by
  obtain ⟨hash, rfl⟩ := Option.ne_none_iff_exists'.1 hhash
  unfold checkFile at h
  simp only at h
  cases hsize : size.filter (raw.size ≠ ·) with
  | some n =>
      rw [hsize] at h
      cases h
  | none =>
      rw [hsize] at h
      simp only at h
      split at h
      · cases h
      next hsame =>
        refine ⟨congrArg some (not_not.1 hsame).symm, ?_⟩
        intro n hn
        simpa using Option.filter_eq_none_iff.1 hsize n hn

theorem checkHead_ok (h : checkHead spec m = .ok ()) :
    (∀ tree ∈ spec.document.manifest.tree, tree = m.head.tree) ∧
      ∀ identity ∈ spec.document.identity, identity = m.head.identity := by
  unfold checkHead at h
  split at h
  · cases h
  · cases h
  next htree hidentity =>
    refine ⟨fun tree hmem => ?_, fun identity hmem => ?_⟩
    · simpa using Option.filter_eq_none_iff.1 htree tree hmem
    · simpa using Option.filter_eq_none_iff.1 hidentity identity hmem

theorem specOf_ok {members : List (Text × ByteArray)} {both : Source × Spec} (h : specOf env members source = .ok both) :
    ∃ raw spec, contentOf env members source = .ok raw ∧ loadSpec raw source.name = .ok spec ∧ both = (source, spec) := by
  obtain ⟨raw, hraw, h⟩ := bind_ok.1 h
  obtain ⟨spec, hspec, h⟩ := bind_ok.1 h
  exact ⟨raw, spec, hraw, raising_ok.1 hspec, (Except.ok.inj h).symm⟩

theorem contentOf_file {members : List (Text × ByteArray)} {path : Text} (h : contentOf env members (.file path) = .ok raw) :
    env.files path = some raw := by
  unfold contentOf at h
  split at h
  next heq => rw [Except.ok.inj h] at heq; exact heq
  · cases h

theorem contentOf_bundled {members : List (Text × ByteArray)} {name : Text}
    (h : contentOf env members (.bundled name) = .ok raw) : members.lookup name = some raw := by
  unfold contentOf at h
  split at h
  next heq => rw [Except.ok.inj h] at heq; exact heq
  · cases h

theorem copyMember_ok {given : Option Spec} {info : ZipMember} {x : Text × ByteArray} (h : copyMember given info = .ok x) :
    (info.filename, info.content) = x := by
  unfold copyMember at h
  split at h
  · cases h
  · split at h
    · exact Except.ok.inj h
    · cases h

theorem openBundle_mem {infos : List ZipMember} {given : Option Spec} {members : List (Text × ByteArray)}
    (h : openBundle infos given = .ok members) : ∀ x ∈ members, ∃ info ∈ infos, (info.filename, info.content) = x := by
  unfold openBundle at h
  simp only at h
  split at h
  · cases h
  · clear * - h
    induction infos generalizing members with
    | nil =>
        obtain rfl := Except.ok.inj h
        simp
    | cons info infos ih =>
        rw [List.mapM_cons] at h
        obtain ⟨y, hy, h⟩ := bind_ok.1 h
        obtain ⟨ys, hys, h⟩ := bind_ok.1 h
        obtain rfl := Except.ok.inj h
        intro x hx
        obtain rfl | hx := List.mem_cons.1 hx
        · exact ⟨info, .head _, copyMember_ok hy⟩
        · obtain ⟨info', hinfo', heq⟩ := ih hys x hx
          exact ⟨info', .tail _ hinfo', heq⟩

/-- The spec of the command line, if there is one. -/
theorem specGiven_ok {given : Option (Source × Spec)} (h : (sourceGiven args.spec).mapM (specOf env []) = .ok given) :
    (args.spec = [] → given = none) ∧ (args.spec ≠ [] → ∃ raw spec, env.files args.spec = some raw ∧
      loadSpec raw (nameOf args.spec) = .ok spec ∧ given = some (.file args.spec, spec)) := by
  unfold sourceGiven at h
  split at h
  next hnone => exact ⟨fun _ => (Except.ok.inj h).symm, fun hne => absurd hnone hne⟩
  next hsome =>
    refine ⟨fun hnone => absurd hnone hsome, fun _ => ?_⟩
    obtain ⟨both, hboth, h⟩ := bind_ok.1 h
    obtain ⟨raw, spec, hraw, hload, rfl⟩ := specOf_ok hboth
    exact ⟨raw, spec, contentOf_file hraw, hload, (Except.ok.inj h).symm⟩

theorem sourceGiven_or (option : Text) (bundle : Text) (name : Text) :
    (if bundle = [] then sourceGiven option else (sourceGiven option).or (some (.bundled name))) =
      if option ≠ [] then some (.file option) else if bundle ≠ [] then some (.bundled name) else none := by
  unfold sourceGiven
  split_ifs <;> simp_all

theorem choose_ok (h : choose env args = .ok c) : c.InForce env args := by
  obtain ⟨given, hgiven, h⟩ := bind_ok.1 h
  obtain ⟨hnone, hsome⟩ := specGiven_ok hgiven
  have hmanifest := sourceGiven_or args.manifest args.bundle bundleManifest
  have hartifact := sourceGiven_or args.artifact args.bundle bundleArtifact
  split at h
  next hbundle =>
    rw [if_pos hbundle] at hmanifest hartifact
    obtain rfl := Except.ok.inj h
    exact ⟨hsome, fun _ hno => absurd hbundle hno, fun hno _ => hnone hno, hmanifest, hartifact, by simp⟩
  next hbundle =>
    rw [if_neg hbundle] at hmanifest hartifact
    cases hinfos : env.bundles args.bundle with
    | none =>
        rw [hinfos] at h
        cases h
    | some infos =>
        rw [hinfos] at h
        obtain ⟨members, hmembers, h⟩ := bind_ok.1 h
        obtain ⟨both, hboth, h⟩ := bind_ok.1 h
        obtain rfl := Except.ok.inj h
        refine ⟨?_, ?_, fun _ hno => absurd hno hbundle, hmanifest, hartifact,
          fun x hx => ⟨infos, hinfos, openBundle_mem hmembers x hx⟩⟩
        · intro hne
          obtain ⟨raw, spec, hraw, hload, rfl⟩ := hsome hne
          exact ⟨raw, spec, hraw, hload, congrArg some (Except.ok.inj hboth).symm⟩
        · intro hno _
          obtain rfl := hnone hno
          obtain ⟨raw, spec, hraw, hload, rfl⟩ := specOf_ok hboth
          exact ⟨raw, spec, contentOf_bundled hraw, hload, rfl⟩

/-- The spec in force has been loaded. -/
theorem Chosen.InForce.loaded (h : c.InForce env args) (hspec : c.spec = some (source, spec)) :
    ∃ raw, loadSpec raw source.name = .ok spec := by
  by_cases hgiven : args.spec = []
  · by_cases hbundle : args.bundle = []
    · rw [h.noSpec hgiven hbundle] at hspec
      cases hspec
    · obtain ⟨raw, spec', -, hload, heq⟩ := h.bundledSpec hgiven hbundle
      obtain ⟨rfl, rfl⟩ := Prod.mk.inj (Option.some.inj (heq.symm.trans hspec))
      exact ⟨raw, hload⟩
  · obtain ⟨raw, spec', -, hload, heq⟩ := h.spec hgiven
    obtain ⟨rfl, rfl⟩ := Prod.mk.inj (Option.some.inj (heq.symm.trans hspec))
    exact ⟨raw, hload⟩

/-- With nothing reported, the tree has what the manifest says. -/
theorem verifyTree_ok (hm : loadManifest sha256 raw what = .ok m) (hd : OnDisk d.tree)
    (h : verifyTree d m allowExtra = .ok true) :
    (∀ e ∈ m.entries, ¬ d.Differs e) ∧ (allowExtra = false → d.Equals m.entries) := by
  obtain ⟨L, hL, hw, -⟩ := (loadManifest_ok hm).listing
  obtain ⟨problems, calls, hresult, hexact⟩ := compareTree_exact hd hL hw allowExtra
  rw [verifyTree, hresult] at h
  obtain rfl : problems = [] := List.isEmpty_iff.1 (Except.ok.inj h)
  refine ⟨hexact.unchanged, ?_⟩
  rintro rfl
  exact (scan_iff hd hL hw).2 ((same_iff hd hL hw).1 (hexact.nil_iff.1 rfl))

theorem verifyManifest_ok (hspec : c.spec = some (source, spec)) {file : Source} (hfile : c.manifest = some file)
    (hhash : spec.document.manifest.sha256 ≠ none) (h : verifyManifest sha256 env c file = .ok m) :
    Vouched sha256 env c spec m := by
  obtain ⟨raw, hraw, h⟩ := bind_ok.1 h
  rw [hspec] at h
  obtain ⟨checked, hchecked, h⟩ := bind_ok.1 h
  obtain ⟨m', hload, h⟩ := bind_ok.1 h
  obtain ⟨_, hhead, h⟩ := bind_ok.1 h
  obtain rfl := Except.ok.inj h
  obtain ⟨htree, hidentity⟩ := checkHead_ok hhead
  exact ⟨⟨file, raw, hfile, hraw, raising_ok.1 hload, checkFile_ok hchecked hhash⟩, htree, hidentity⟩

/-- What is said of an artifact: it is the one of the spec, the manifest is, and what it unpacks to is as the manifest. -/
def Chosen.ArtifactVerified (sha256 : Text → Digest) (env : Surroundings) (args : VerifyArgs) (c : Chosen) (spec : Spec) : Prop :=
  ∃ source raw m, c.artifact = some source ∧ contentOf env c.members source = .ok raw ∧
    Pins sha256 spec.document.artifact.size spec.document.artifact.sha256 raw ∧ Vouched sha256 env c spec m ∧
    (∃ count l, (extraction env args m raw).1 = (.ok count, l)) ∧
    (env.extracted (destination env args) (extraction env args m raw).2).Equals m.entries

/-- What is said of the tree of the command line. -/
def Chosen.TreeVerified (sha256 : Text → Digest) (env : Surroundings) (args : VerifyArgs) (c : Chosen) (spec : Spec) : Prop :=
  ∃ m, Vouched sha256 env c spec m ∧ (∀ e ∈ m.entries, ¬ (env.tree args.tree).Differs e) ∧
    (args.allowExtra = false → (env.tree args.tree).Equals m.entries)

/-- **A strict verification means what it says.** If `cmd_verify ()` returns 0, the files in force are those of the
command line before those of the bundle, and under a strict spec an artifact and a tree are verified if there are any. -/
theorem verify_strict (hextracted : ∀ path t, OnDisk (env.extracted path t).tree) (htree : ∀ path, OnDisk (env.tree path).tree)
    (h : cmdVerify sha256 env args = .ok 0) :
    ∃ c, choose env args = .ok c ∧ c.InForce env args ∧ ∀ source spec, c.spec = some (source, spec) →
      spec.document.policy = .strict →
      ((args.artifact ≠ [] ∨ args.bundle ≠ []) → c.ArtifactVerified sha256 env args spec) ∧
      (args.tree ≠ [] → c.TreeVerified sha256 env args spec) := by
  unfold cmdVerify at h
  split at h
  · cases h
  split at h
  · cases h
  obtain ⟨c, hc, h⟩ := bind_ok.1 h
  have hforce := choose_ok hc
  refine ⟨c, hc, hforce, ?_⟩
  intro source spec hspec hstrict
  obtain ⟨specRaw, hload⟩ := hforce.loaded hspec
  have hnormal := loadSpec_normal hload
  split at h
  · cases h
  obtain ⟨_, hartifact, h⟩ := bind_ok.1 h
  obtain ⟨manifest, hmanifest, h⟩ := bind_ok.1 h
  obtain ⟨extracted, hextract, h⟩ := bind_ok.1 h
  obtain ⟨given, hgiven, h⟩ := bind_ok.1 h
  have hboth : (extracted && given) = true := by
    by_contra hno
    rw [if_neg hno] at h
    cases h
  obtain ⟨rfl, rfl⟩ := Bool.and_eq_true_iff.1 hboth
  have hvouched : ∀ m, manifest = some m → Vouched sha256 env c spec m := by
    rintro m rfl
    cases hfile : c.manifest with
    | none =>
        rw [hfile] at hmanifest
        cases hmanifest
    | some file =>
        rw [hfile] at hmanifest
        obtain ⟨m', hm', hmanifest⟩ := bind_ok.1 hmanifest
        obtain rfl := Option.some.inj (Except.ok.inj hmanifest)
        exact verifyManifest_ok hspec hfile (hnormal.manifest.strict (by simpa using hstrict)) hm'
  constructor
  · intro hany
    obtain ⟨file, hfile⟩ : ∃ file, c.artifact = some file := by
      rw [hforce.artifact]
      split_ifs with hgiven' hbundle
      · exact ⟨_, rfl⟩
      · exact ⟨_, rfl⟩
      · exact absurd hany (by tauto)
    rw [verifyArtifact, hfile, hspec] at hartifact
    obtain ⟨raw, hraw, hartifact⟩ := bind_ok.1 hartifact
    obtain ⟨checked, hchecked, -⟩ := bind_ok.1 hartifact
    unfold verifyExtracted at hextract
    rw [hfile] at hextract
    cases manifest with
    | none => cases hextract
    | some m =>
        obtain ⟨raw', hraw', hextract⟩ := bind_ok.1 hextract
        obtain rfl := Except.ok.inj (hraw.symm.trans hraw')
        obtain ⟨count, hcount, hextract⟩ := bind_ok.1 hextract
        have hm := hvouched m rfl
        obtain ⟨msource, mraw, -, -, hmload, -⟩ := hm.content
        exact ⟨file, raw, m, hfile, hraw, checkFile_ok hchecked (hnormal.artifact.strict (by simpa using hstrict)), hm,
          ⟨count, _, Prod.ext hcount rfl⟩, (verifyTree_ok hmload (hextracted _ _) hextract).2 rfl⟩
  · intro hany
    unfold verifyGiven at hgiven
    rw [if_neg hany] at hgiven
    cases manifest with
    | none => cases hgiven
    | some m =>
        have hm := hvouched m rfl
        obtain ⟨msource, mraw, -, -, hmload, -⟩ := hm.content
        exact ⟨m, hm, verifyTree_ok hmload (htree _) hgiven⟩

end MiniDarwin.Rootfs
