import MiniDarwin.Rootfs.Artifact
import MiniDarwin.Rootfs.Verify

/-!
A release, from the tree to its verification.

`cmd_manifest ()` lists a tree, `cmd_spec ()` pins the manifest and an
artifact, `cmd_stamp ()` adds what is known when it is published, and
`cmd_bundle ()` packs the three. `cmd_verify ()` of the bundle then says of
the artifact, and of a tree beside it, whether it is the tree it all began
with.
-/

namespace MiniDarwin.Rootfs

open Data Effects

/-- `cmd_bundle ()`: the members of the zip file that is written. -/
def cmdBundle (spec manifest artifact : ByteArray) : List ZipMember :=
  [⟨bundleSpec, spec, true⟩, ⟨bundleManifest, manifest, true⟩, ⟨bundleArtifact, artifact, true⟩]

variable {sha256 : Text → Digest} {env : Surroundings} {args : VerifyArgs} {raw manifest artifact out : ByteArray}
  {what : Text} {m : Manifest} {d : Document} {entries finished : List Entry} {digests : Text → Option Digest} {T : Tree}
  {tarball : Tarball} {disk : Disk} {e : Entry} {lands : Text → Bool} {c : Chosen} {source : Source}

/-! ### The entries of a manifest -/

theorem mem_inOrder {reports : List (Text × Report)} (h : e ∈ (inOrder reports).1) : ∃ r ∈ reports, e ∈ r.2.1 := by
  obtain ⟨r, hr, he⟩ := List.mem_flatMap.1 h
  exact ⟨r, (byName_perm reports).mem_iff.1 hr, he⟩

theorem bare_of_reports {normalize : Bool} {guest : Text} {r : Text × Report} (hr : r ∈ reports normalize guest T)
    (he : e ∈ r.2.1) : e.bare = e := by
  induction T generalizing guest r with
  | nil => cases hr
  | leaf name leaf rest ih =>
      obtain rfl | hr := List.mem_cons.1 hr
      · simp only at he
        split at he
        · cases leaf <;> simp_all [scanLeaf, Entry.bare]
        · cases he
      · exact ih hr he
  | node name mode children rest ihc ih =>
      obtain rfl | hr := List.mem_cons.1 hr
      · simp only at he
        split at he
        · obtain rfl | he := List.mem_cons.1 he
          · rfl
          · obtain ⟨r, hr, he⟩ := mem_inOrder he
            exact ihc hr he
        · cases he
      · exact ih hr he

/-- What a scan lists has no digests. -/
theorem bare_of_scan {normalize : Bool} : (scanTree T normalize).1.map Entry.bare = (scanTree T normalize).1 := by
  refine (List.map_congr_left fun e he => ?_).trans (List.map_id _)
  obtain ⟨r, hr, he⟩ := mem_inOrder he
  exact bare_of_reports hr he

theorem bare_of_finished (h : entries.mapM (finish digests) = .ok finished) :
    finished.map Entry.bare = entries.map Entry.bare := by
  induction entries generalizing finished with
  | nil =>
      obtain rfl := Except.ok.inj h
      rfl
  | cons e entries ih =>
      rw [List.mapM_cons] at h
      obtain ⟨e', he', h⟩ := bind_ok.1 h
      obtain ⟨rest, hrest, h⟩ := bind_ok.1 h
      obtain rfl := Except.ok.inj h
      rw [List.map_cons, List.map_cons, ih hrest]
      congr 1
      obtain ⟨path, body⟩ := e
      cases body with
      | directory mode digest =>
          simp only [finish] at he'
          split at he'
          · obtain rfl := Except.ok.inj he'
            rfl
          · cases he'
      | file mode size sha =>
          obtain rfl := Except.ok.inj he'
          rfl
      | symlink target =>
          obtain rfl := Except.ok.inj he'
          rfl

theorem get_identity (identity : Value) (build : Option Value) (tree : Digest) (summary : List (Text × Nat))
    (finished : List Entry) : get (documentOf identity build tree summary finished) (lit "identity") = identity := by
  cases build <;> rfl

theorem identityValue_injective : Function.Injective identityValue := by
  intro identity identity' h
  refine List.map_injective_iff.2 ?_ (Value.map.inj h)
  rintro ⟨key, item⟩ ⟨key', item'⟩ (heq : (key, str item) = (key', str item'))
  obtain ⟨rfl, hitem⟩ := Prod.mk.inj heq
  rw [str_inj.1 hitem]

/-- A manifest that is written lists the tree, whatever the file is called. -/
theorem manifest_lists {margs : ManifestArgs} (h : cmdManifest sha256 lands margs = .ok raw)
    (hsize : raw.size ≤ manifestLimit) (hsources : margs.sourceNames.Nodup) :
    ∃ document, ∀ what, ∃ m, loadManifest sha256 raw what = .ok m ∧ m.document = document ∧
      m.entries.map Entry.bare = (scanTree margs.tree true).1 := by
  obtain ⟨document, hdocument, hwritten⟩ := cmdManifest_ok h
  refine ⟨document, fun what => ?_⟩
  obtain ⟨m, hm, rfl⟩ := (cmdManifest_reads hdocument hwritten hsize).2 hsources
  refine ⟨m, hm, rfl, ?_⟩
  obtain ⟨pairs, build, -, -, -, hparts, -⟩ := manifestOf_ok hdocument
  obtain ⟨tree, digests, finished, -, hfinished, hlist⟩ := manifestDocument_ok.1 hparts
  have hlisted := (loadManifest_ok hm).listed
  rw [hlist, get_entries] at hlisted
  rw [← Entry.value_injective.list_map (Value.list.inj hlisted), bare_of_finished hfinished, bare_of_scan]

/-- What a document says besides its entries is read from it. -/
theorem head_of_document {m' : Manifest} {what' : Text} (h : loadManifest sha256 raw what = .ok m)
    (h' : loadManifest sha256 raw what' = .ok m') (hsame : m.document = m'.document) :
    m.head.identity = m'.head.identity ∧ m.head.tree = m'.head.tree := by
  have hl := loadManifest_ok h
  have hl' := loadManifest_ok h'
  obtain ⟨tree, digests, finished, hmerkle, -, hparts⟩ := manifestDocument_ok.1 hl.document
  obtain ⟨tree', digests', finished', hmerkle', -, hparts'⟩ := manifestDocument_ok.1 hl'.document
  obtain ⟨t, ds, ht, htree, -⟩ := hl.digests
  obtain ⟨t', ds', ht', htree', -⟩ := hl'.digests
  obtain ⟨rfl, -⟩ := Prod.mk.inj (Except.ok.inj (hmerkle.symm.trans ht))
  obtain ⟨rfl, -⟩ := Prod.mk.inj (Except.ok.inj (hmerkle'.symm.trans ht'))
  rw [hparts, hparts'] at hsame
  constructor
  · have hidentity := congrArg (get · (lit "identity")) hsame
    simp only [get_identity] at hidentity
    exact (identityValue_injective hidentity)
  · have htrees := congrArg (get · (lit "tree")) hsame
    simp only [get_tree] at htrees
    rw [← htree, ← htree']
    simpa [str] using htrees

/-- Digests of directories play no part in what a tarball holds. -/
theorem holds_bare : tarball.Holds sha256 (entries.map Entry.bare) ↔ tarball.Holds sha256 entries := by
  have hpaths : (entries.map Entry.bare).map (·.path) = entries.map (·.path) := by simp
  have hsuits : (∀ member ∈ tarball.members, ∀ e ∈ entries.map Entry.bare, member.place = some e.path →
      member.Suits sha256 e.body) ↔
      ∀ member ∈ tarball.members, ∀ e ∈ entries, member.place = some e.path → member.Suits sha256 e.body := by
    have hbare : ∀ (member : Member) (e : Entry), member.Suits sha256 e.bare.body ↔ member.Suits sha256 e.body := by
      rintro member ⟨path, _ | _ | _⟩ <;> rfl
    simp only [List.forall_mem_map, Entry.bare_path, hbare]
  constructor
  · intro h
    exact ⟨h.opens, h.ends, h.named, hpaths ▸ h.listed, h.plain, hsuits.1 h.suits, h.order⟩
  · intro h
    exact ⟨h.opens, h.ends, h.named, hpaths ▸ h.listed, h.plain, hsuits.2 h.suits, h.order⟩

theorem differs_bare : disk.Differs e.bare ↔ disk.Differs e := by
  have hbody : ∀ x, e.bare.body.Matches x ↔ e.body.Matches x := by
    intro x
    obtain ⟨path, _ | _ | _⟩ := e <;> cases x <;> rfl
  simp only [Disk.Differs, Entry.bare_path, hbody]

/-! ### The spec of a manifest and an artifact -/

/-- The document says of both all that is checked. -/
structure Document.Of (sha256 : Text → Digest) (d : Document) (m : Manifest) (manifest artifact : ByteArray) : Prop where
  identity : d.identity = some m.head.identity
  artifactSize : d.artifact.size = some artifact.size
  artifactHash : d.artifact.sha256 = some (sha256 (bytesOf artifact)).text
  manifestSize : d.manifest.size = some manifest.size
  manifestHash : d.manifest.sha256 = some (sha256 (bytesOf manifest)).text
  tree : d.manifest.tree = some m.head.tree
  policy : d.policy = .strict

/-- A spec that is written is of the two files. -/
theorem spec_pins {sargs : SpecArgs} (h : cmdSpec sha256 sargs = .ok out) (hsize : out.size ≤ specLimit)
    (hseq : 0 ≤ sargs.sequence) :
    ∃ m, loadManifest sha256 sargs.manifestContent (nameOf sargs.manifest.path.text) = .ok m ∧
      ∃ d, (∀ what, loadSpec out what = .ok ⟨d, []⟩) ∧ d.Of sha256 m sargs.manifestContent sargs.artifactContent := by
  obtain ⟨m, hm, hout⟩ := cmdSpec_ok h
  obtain ⟨n, hn⟩ := Int.eq_ofNat_of_zero_le hseq
  have hdocument : sargs.document sha256 m = (sargs.spec sha256 m n).value := by
    rw [SpecArgs.document, hn]
    rfl
  obtain ⟨out', hout', hload⟩ := (sargs.spec_normal hm n).written
  rw [hdocument] at hout
  obtain rfl := Except.ok.inj (hout'.symm.trans hout)
  exact ⟨m, hm, _, hload hsize, ⟨rfl, rfl, rfl, rfl, rfl, rfl, rfl⟩⟩

/-- A stamp adds to it. -/
theorem stamp_pins {stargs : StampArgs} (h : cmdStamp stargs = .ok out) (hsize : out.size ≤ specLimit)
    (hcut : ∀ name, ¬ stargs.Cut name) (hload : ∀ what, loadSpec stargs.content what = .ok ⟨d, []⟩)
    (hd : d.Of sha256 m manifest artifact) :
    ∃ d', (∀ what, loadSpec out what = .ok ⟨d', []⟩) ∧ d'.Of sha256 m manifest artifact := by
  obtain ⟨spec, seq, artifactName, manifestName, hs, -, hreads⟩ := cmdStamp_reads h hsize
  obtain rfl := Except.ok.inj (hs.loaded.symm.trans (hload _))
  exact ⟨_, fun what => (hreads what).2 (hcut _),
    ⟨hd.identity, hd.artifactSize, hd.artifactHash, hd.manifestSize, hd.manifestHash, hd.tree, hd.policy⟩⟩

/-! ### The verification -/

/-- In the run of `extract ()` calls fail only where they cannot return, and what they leave is what is found then. -/
structure Surroundings.Settles (env : Surroundings) (sha256 : Text → Digest) (args : VerifyArgs) (m : Manifest)
    (artifact : ByteArray) : Prop where
  left : ∃ left : Record → Dest, left [] = bareDest ∧
    (∀ c t, unpacking (fun _ _ => False) (destination env args) c (left t) (env.answer c t)
      (left (⟨c, env.answer c t⟩ :: t))) ∧
    (left (extraction env args m artifact).2).Shown sha256
      (env.extracted (destination env args) (extraction env args m artifact).2)

/-- What is verified of a tree is that there is nothing to report. -/
theorem verifyTree_iff {problems : List Problem} {calls : List Call} {allowExtra : Bool}
    (h : compareTree disk m.entries allowExtra = some (problems, calls)) :
    verifyTree disk m allowExtra = .ok true ↔ problems = [] := by
  rw [verifyTree, h]
  cases problems <;> simp

/-- The answers of the surroundings, and their record. -/
def answers (env : Surroundings) : Sem makings Record := fun c t r t' => r = env.answer c t ∧ t' = ⟨c, r⟩ :: t

/-- The artifact verifies if and only if it holds the tree. -/
theorem verifyExtracted_iff (hm : loadManifest sha256 raw what = .ok m) (hsource : c.artifact = some source)
    (hcontent : contentOf env c.members source = .ok artifact) (hs : env.Settles sha256 args m artifact) :
    verifyExtracted env args c (some m) = .ok true ↔ (env.tarball artifact).Holds sha256 m.entries := by
  obtain ⟨left, hnil, hstep, hshown⟩ := hs.left
  have hexec : Prog.Reach (answers env) (extract (destination env args) m.entries (env.tarball artifact) .start) []
      (.ret (extraction env args m artifact).1) (extraction env args m artifact).2 :=
    Prog.reach_exec (fun _ _ => ⟨rfl, rfl⟩) _ _
  -- the same run, with the destination in place of the record
  have hrun := hexec.along (s := unpacking (fun _ _ => False) (destination env args)) (π := left) ?_
  · rw [hnil] at hrun
    have hverify : verifyExtracted env args c (some m) = (extraction env args m artifact).1.1.bind fun _ =>
        verifyTree (env.extracted (destination env args) (extraction env args m artifact).2) m false := by
      unfold verifyExtracted
      rw [hsource]
      show (contentOf env c.members source).bind _ = _
      rw [hcontent]
      rfl
    rw [hverify]
    generalize extraction env args m artifact = x at hrun hshown ⊢
    obtain ⟨⟨r, l⟩, t⟩ := x
    obtain ⟨L, hL, hw, -⟩ := (loadManifest_ok hm).listing
    obtain ⟨hreturned, hreturns⟩ := reach_extract hrun
    cases r with
    | error f =>
        refine iff_of_false (by rintro ⟨⟩) fun h => ?_
        obtain ⟨n, hn⟩ :=
          hreturns (fun _ _ => id) h.opens (h.taken (hL.rooted_of_writes hw) (hL.links_of_writes hw)) h.ends
        cases hn
    | ok n =>
        have h := hreturned n rfl
        have hclean := h.leaves.clean_iff hshown hL hw h.opens h.ends h.taken h.nodup
        obtain ⟨problems, calls, hresult, -⟩ := compareTree_exact hshown.onDisk hL hw false
        show verifyTree _ m false = .ok true ↔ _
        rw [verifyTree_iff hresult, ← hclean, hresult]
        simp
  · rintro c t r _ ⟨rfl, rfl⟩
    exact hstep c t

/-! ### What is released -/

/-- The specs that the tool writes of a tree and an artifact: of its manifest, and then stamped. -/
inductive Released (sha256 : Text → Digest) (lands : Text → Bool) (T : Tree) (manifest artifact : ByteArray) :
    ByteArray → Prop
  | spec (margs : ManifestArgs) (sargs : SpecArgs) (out : ByteArray) (htree : margs.tree = T)
      (hmanifest : cmdManifest sha256 lands margs = .ok manifest) (hsmall : manifest.size ≤ manifestLimit)
      (hsources : margs.sourceNames.Nodup) (hcontent : sargs.manifestContent = manifest)
      (hartifact : sargs.artifactContent = artifact) (hseq : 0 ≤ sargs.sequence)
      (hspec : cmdSpec sha256 sargs = .ok out) (hsize : out.size ≤ specLimit) : Released sha256 lands T manifest artifact out
  | stamp (stargs : StampArgs) (out : ByteArray) (h : Released sha256 lands T manifest artifact stargs.content)
      (hstamp : cmdStamp stargs = .ok out) (hsize : out.size ≤ specLimit) (hcut : ∀ name, ¬ stargs.Cut name) :
      Released sha256 lands T manifest artifact out

/-- However often it is stamped, a spec that is released is of the manifest, and the manifest of the tree. -/
theorem Released.loads {spec : ByteArray} (h : Released sha256 lands T manifest artifact spec) :
    spec.size ≤ specLimit ∧ manifest.size ≤ manifestLimit ∧ ∀ what, ∃ m, loadManifest sha256 manifest what = .ok m ∧
      m.entries.map Entry.bare = (scanTree T true).1 ∧
      ∃ d, (∀ what, loadSpec spec what = .ok ⟨d, []⟩) ∧ d.Of sha256 m manifest artifact := by
  induction h with
  | spec margs sargs out htree hmanifest hsmall hsources hcontent hartifact hseq hspec hsize =>
      subst htree hcontent hartifact
      refine ⟨hsize, hsmall, fun what => ?_⟩
      obtain ⟨document, hlists⟩ := manifest_lists hmanifest hsmall hsources
      obtain ⟨m, hm, hdocument, hentries⟩ := hlists what
      obtain ⟨m', hm', d, hd, hof⟩ := spec_pins hspec hsize hseq
      obtain ⟨m'', hm'', hdocument', -⟩ := hlists (nameOf sargs.manifest.path.text)
      obtain rfl := Except.ok.inj (hm'.symm.trans hm'')
      obtain ⟨hidentity, htree⟩ := head_of_document hm' hm (hdocument'.trans hdocument.symm)
      refine ⟨m, hm, hentries, d, hd, ⟨?_, hof.artifactSize, hof.artifactHash, hof.manifestSize, hof.manifestHash, ?_,
        hof.policy⟩⟩
      · rw [hof.identity, hidentity]
      · rw [hof.tree, htree]
  | stamp stargs out h hstamp hsize hcut ih =>
      obtain ⟨-, hsmall, hall⟩ := ih
      refine ⟨hsize, hsmall, fun what => ?_⟩
      obtain ⟨m, hm, hentries, d, hd, hof⟩ := hall what
      obtain ⟨d', hd', hof'⟩ := stamp_pins hstamp hsize hcut hd hof
      exact ⟨m, hm, hentries, d', hd', hof'⟩

/-! ### A bundle -/

/-- What is packed is unpacked. -/
theorem openBundle_cmdBundle {spec : ByteArray} (hspec : spec.size ≤ specLimit) (hmanifest : manifest.size ≤ manifestLimit)
    {given : Option Spec} (hgiven : ∀ s ∈ given, s.document.artifact.size = some artifact.size) :
    openBundle (cmdBundle spec manifest artifact) given =
      .ok [(bundleSpec, spec), (bundleManifest, manifest), (bundleArtifact, artifact)] := by
  have hcopy : ∀ name content, (∀ n ∈ memberLimit given name, content.size ≤ n) →
      copyMember given ⟨name, content, true⟩ = .ok (name, content) := by
    intro name content hlimit
    have hnone : (memberLimit given name).filter (content.size > ·) = none := by
      refine Option.filter_eq_none_iff.2 fun n hn => ?_
      simpa using hlimit n hn
    unfold copyMember
    rw [hnone]
    rfl
  unfold openBundle
  rw [if_neg (by simp [cmdBundle, bundleMembers])]
  simp only [cmdBundle, List.mapM_cons, List.mapM_nil]
  rw [hcopy bundleSpec spec, hcopy bundleManifest manifest, hcopy bundleArtifact artifact]
  · rfl
  · intro n hn
    rw [memberLimit, if_neg (by decide), if_neg (by decide)] at hn
    obtain ⟨s, hs, hsize⟩ := Option.bind_eq_some_iff.1 hn
    rw [hgiven s hs] at hsize
    exact Nat.le_of_eq (Option.some.inj hsize)
  · intro n hn
    rw [memberLimit, if_neg (by decide), if_pos rfl] at hn
    exact Option.some.inj hn ▸ hmanifest
  · intro n hn
    rw [memberLimit, if_pos rfl] at hn
    exact Option.some.inj hn ▸ hspec

/-- The file of an option, or else the member of the bundle. -/
def sourceOr (option name : Text) : Source := if option = [] then .bundled name else .file option

theorem contentOf_sourceOr {option name : Text} {members : List (Text × ByteArray)}
    (h : option = [] ∨ env.files option = some raw) (hmember : members.lookup name = some raw) :
    contentOf env members (sourceOr option name) = .ok raw := by
  unfold sourceOr
  by_cases hnone : option = []
  · rw [if_pos hnone, contentOf, hmember]
  · rw [if_neg hnone, contentOf, h.resolve_left hnone]

/-- The files in force, where there is a bundle. -/
theorem choose_bundle {spec : ByteArray} (hm : loadManifest sha256 manifest what = .ok m)
    (hspec : Released sha256 lands T manifest artifact spec)
    (hgiven : args.spec = [] ∨ ∃ given, env.files args.spec = some given ∧ Released sha256 lands T manifest artifact given)
    (hbundle : args.bundle ≠ []) (hzip : env.bundles args.bundle = some (cmdBundle spec manifest artifact)) :
    ∃ source d members, choose env args = .ok ⟨some (source, ⟨d, []⟩), some (sourceOr args.manifest bundleManifest),
        some (sourceOr args.artifact bundleArtifact), members⟩ ∧ d.Of sha256 m manifest artifact ∧
      members.lookup bundleManifest = some manifest ∧ members.lookup bundleArtifact = some artifact := by
  have hsource : ∀ option name, (sourceGiven option).or (some (.bundled name)) = some (sourceOr option name) := by
    intro option name
    unfold sourceGiven sourceOr
    split <;> rfl
  have hpins : ∀ {out}, Released sha256 lands T manifest artifact out →
      ∃ d, (∀ what, loadSpec out what = .ok ⟨d, []⟩) ∧ d.Of sha256 m manifest artifact := by
    intro out hout
    obtain ⟨m', hm', -, hd⟩ := hout.loads.2.2 what
    obtain rfl := Except.ok.inj (hm.symm.trans hm')
    exact hd
  let packed := [(bundleSpec, spec), (bundleManifest, manifest), (bundleArtifact, artifact)]
  obtain ⟨hsmall, hsmall', -⟩ := hspec.loads
  by_cases hnone : args.spec = []
  · obtain ⟨d, hd, hof⟩ := hpins hspec
    refine ⟨.bundled bundleSpec, d, packed, ?_, hof, rfl, rfl⟩
    refine bind_ok.2 ⟨none, by rw [sourceGiven, if_pos hnone]; rfl, ?_⟩
    rw [if_neg hbundle, hzip]
    refine bind_ok.2 ⟨_, openBundle_cmdBundle hsmall hsmall' (by simp), bind_ok.2 ⟨_, ?_, by rw [hsource, hsource]; rfl⟩⟩
    exact bind_ok.2 ⟨spec, rfl, bind_ok.2 ⟨_, raising_ok.2 (hd _), rfl⟩⟩
  · obtain ⟨given, hfile, hreleased⟩ := hgiven.resolve_left hnone
    obtain ⟨d, hd, hof⟩ := hpins hreleased
    refine ⟨.file args.spec, d, packed, ?_, hof, rfl, rfl⟩
    refine bind_ok.2 ⟨some (.file args.spec, ⟨d, []⟩), ?_, ?_⟩
    · rw [sourceGiven, if_neg hnone]
      refine bind_ok.2 ⟨_, bind_ok.2 ⟨given, ?_, bind_ok.2 ⟨_, raising_ok.2 (hd _), rfl⟩⟩, rfl⟩
      rw [contentOf, hfile]
    · rw [if_neg hbundle, hzip]
      refine bind_ok.2 ⟨_, openBundle_cmdBundle hsmall hsmall' ?_, bind_ok.2 ⟨_, rfl, by rw [hsource, hsource]; rfl⟩⟩
      intro s hs
      obtain rfl := Option.some.inj hs
      exact hof.artifactSize

theorem checkFile_self (raw : ByteArray) (what : Text) :
    checkFile sha256 raw (some raw.size) (some (sha256 (bytesOf raw)).text) what = .ok true := by
  simp [checkFile, Option.filter]

theorem checkHead_of (h : d.Of sha256 m manifest artifact) : checkHead ⟨d, []⟩ m = .ok () := by
  simp [checkHead, h.tree, h.identity, Option.filter]

/-- The tree of the command line is the one that was listed, with its modes as the manifest has them. Where extra names
are allowed it has all of it. -/
def Disk.Accepted (disk : Disk) (T : Tree) (allowExtra : Bool) : Prop :=
  if allowExtra then ∀ e ∈ (scanTree T true).1, ¬ disk.Differs e
  else scanTree disk.tree false = ((scanTree T true).1, [])

theorem verifyTree_accepted (hm : loadManifest sha256 raw what = .ok m)
    (hentries : m.entries.map Entry.bare = (scanTree T true).1) (hd : OnDisk disk.tree) (allowExtra : Bool) :
    (∃ ok, verifyTree disk m allowExtra = .ok ok) ∧
      (verifyTree disk m allowExtra = .ok true ↔ disk.Accepted T allowExtra) := by
  obtain ⟨L, hL, hw, -⟩ := (loadManifest_ok hm).listing
  obtain ⟨problems, calls, hresult, hexact⟩ := compareTree_exact hd hL hw allowExtra
  refine ⟨⟨_, by rw [verifyTree, hresult]⟩, ?_⟩
  rw [verifyTree_iff hresult, Disk.Accepted, ← hentries]
  cases allowExtra with
  | false =>
      rw [if_neg (by simp), hexact.nil_iff, same_iff hd hL hw, ← scan_iff hd hL hw, and_comm, Prod.ext_iff]
  | true =>
      rw [if_pos rfl]
      simp only [List.forall_mem_map, differs_bare]
      constructor
      · rintro rfl
        exact hexact.unchanged
      · intro hsame
        refine List.eq_nil_iff_forall_not_mem.2 fun x hx => ?_
        obtain ⟨-, e, he, -, hdiffer⟩ | ⟨hno, -⟩ := hexact.reported x hx
        · exact hsame e he hdiffer
        · cases hno

/-- Once the files are what the spec says, it is for the trees to say. -/
theorem cmdVerify_iff {file : Source} (hbundle : args.bundle ≠ [])
    (hfree : args.extractTo ≠ [] → env.lexists args.extractTo = false) (hchoose : choose env args = .ok c)
    (hfile : c.manifest = some file) (hartifact : verifyArtifact sha256 env c = .ok ())
    (hmanifest : verifyManifest sha256 env c file = .ok m) :
    cmdVerify sha256 env args = .ok 0 ↔
      verifyExtracted env args c (some m) = .ok true ∧ verifyGiven env args (some m) = .ok true := by
  unfold cmdVerify
  rw [if_neg fun h => hbundle h.2.2.2, if_neg fun h => by simp [hfree h.1] at h]
  constructor
  · intro h
    obtain ⟨c', hc', h⟩ := bind_ok.1 h
    obtain rfl := Except.ok.inj (hchoose.symm.trans hc')
    rw [if_neg (by simp [hfile])] at h
    obtain ⟨_, -, h⟩ := bind_ok.1 h
    obtain ⟨loaded, hloaded, h⟩ := bind_ok.1 h
    rw [hfile] at hloaded
    obtain ⟨m', hm', hloaded⟩ := bind_ok.1 hloaded
    obtain rfl := Except.ok.inj (hmanifest.symm.trans hm')
    obtain rfl := Except.ok.inj hloaded
    obtain ⟨extracted, hextracted, h⟩ := bind_ok.1 h
    obtain ⟨given, hgiven, h⟩ := bind_ok.1 h
    have hboth : (extracted && given) = true := by
      by_contra hno
      rw [if_neg hno] at h
      cases h
    obtain ⟨rfl, rfl⟩ := Bool.and_eq_true_iff.1 hboth
    exact ⟨hextracted, hgiven⟩
  · rintro ⟨hextracted, hgiven⟩
    refine bind_ok.2 ⟨c, hchoose, ?_⟩
    rw [if_neg (by simp [hfile])]
    refine bind_ok.2 ⟨(), hartifact, bind_ok.2 ⟨some m, ?_, bind_ok.2 ⟨true, hextracted, bind_ok.2 ⟨true, hgiven, rfl⟩⟩⟩⟩
    rw [hfile]
    exact bind_ok.2 ⟨m, hmanifest, rfl⟩

/-- The files of a release are what its spec says, so it is for the trees to say. -/
theorem cmdVerify_released {spec : ByteArray} (hspec : Released sha256 lands T manifest artifact spec)
    (hgiven : args.spec = [] ∨ ∃ given, env.files args.spec = some given ∧ Released sha256 lands T manifest artifact given)
    (hmanifest : args.manifest = [] ∨ env.files args.manifest = some manifest)
    (hartifact : args.artifact = [] ∨ env.files args.artifact = some artifact)
    (hbundle : args.bundle ≠ []) (hzip : env.bundles args.bundle = some (cmdBundle spec manifest artifact))
    (hfree : args.extractTo ≠ [] → env.lexists args.extractTo = false) :
    ∃ c source d file what m, choose env args = .ok c ∧ c.spec = some (source, ⟨d, []⟩) ∧ d.policy = .strict ∧
      c.artifact = some file ∧ contentOf env c.members file = .ok artifact ∧ loadManifest sha256 manifest what = .ok m ∧
      m.entries.map Entry.bare = (scanTree T true).1 ∧ (cmdVerify sha256 env args = .ok 0 ↔
        verifyExtracted env args c (some m) = .ok true ∧ verifyGiven env args (some m) = .ok true) := by
  obtain ⟨m, hm, hentries, -⟩ := hspec.loads.2.2 (sourceOr args.manifest bundleManifest).name
  obtain ⟨source, d, members, hchoose, hof, hmember, hmember'⟩ := choose_bundle hm hspec hgiven hbundle hzip
  have hcontent := contentOf_sourceOr hmanifest hmember
  have hcontent' := contentOf_sourceOr hartifact hmember'
  generalize sourceOr args.manifest bundleManifest = file at hm hchoose hcontent
  generalize sourceOr args.artifact bundleArtifact = file' at hchoose hcontent'
  generalize hc : Chosen.mk (some (source, ⟨d, []⟩)) (some file) (some file') members = c at hchoose
  obtain rfl : c.members = members := by rw [← hc]
  have hmatches : verifyManifest sha256 env c file = .ok m := by
    refine bind_ok.2 ⟨manifest, hcontent, ?_⟩
    rw [← hc]
    refine bind_ok.2 ⟨true, ?_, bind_ok.2 ⟨m, raising_ok.2 hm, bind_ok.2 ⟨(), checkHead_of hof, rfl⟩⟩⟩
    rw [hof.manifestSize, hof.manifestHash, checkFile_self]
  have hpinned : verifyArtifact sha256 env c = .ok () := by
    rw [verifyArtifact, ← hc]
    refine bind_ok.2 ⟨artifact, by rwa [hc], bind_ok.2 ⟨true, ?_, rfl⟩⟩
    rw [hof.artifactSize, hof.artifactHash, checkFile_self]
  exact ⟨c, source, d, file', file.name, m, hchoose, by rw [← hc], hof.policy, by rw [← hc], hcontent', hm, hentries,
    cmdVerify_iff hbundle hfree hchoose (by rw [← hc]) hpinned hmatches⟩

/-- **A release verifies exactly if its artifact is the tree that was listed.** Of a bundle that the tool has packed, with
the spec in it or another that was released for the same files, `cmd_verify ()` returns 0 if and only if the tarball holds
what `scan_tree ()` lists of the tree, and a tree that is given has it too. -/
theorem release_verifies {spec : ByteArray} (hspec : Released sha256 lands T manifest artifact spec)
    (hgiven : args.spec = [] ∨ ∃ given, env.files args.spec = some given ∧ Released sha256 lands T manifest artifact given)
    (hmanifest : args.manifest = [] ∨ env.files args.manifest = some manifest)
    (hartifact : args.artifact = [] ∨ env.files args.artifact = some artifact)
    (hbundle : args.bundle ≠ []) (hzip : env.bundles args.bundle = some (cmdBundle spec manifest artifact))
    (hfree : args.extractTo ≠ [] → env.lexists args.extractTo = false)
    (htree : OnDisk (env.tree args.tree).tree)
    (hs : ∀ what m, loadManifest sha256 manifest what = .ok m → env.Settles sha256 args m artifact) :
    cmdVerify sha256 env args = .ok 0 ↔
      (env.tarball artifact).Holds sha256 (scanTree T true).1 ∧
        (args.tree ≠ [] → (env.tree args.tree).Accepted T args.allowExtra) := by
  obtain ⟨c, source, d, file, what, m, -, -, -, hfile, hcontent, hm, hentries, hverify⟩ :=
    cmdVerify_released hspec hgiven hmanifest hartifact hbundle hzip hfree
  have hextracted := verifyExtracted_iff (c := c) hm hfile hcontent (hs _ m hm)
  rw [← holds_bare, hentries] at hextracted
  rw [hverify, hextracted]
  refine and_congr_right fun _ => ?_
  unfold verifyGiven
  by_cases hnone : args.tree = []
  · simp [hnone]
  · rw [if_neg hnone]
    simp only [ne_eq, hnone, not_false_eq_true, true_implies]
    exact (verifyTree_accepted hm hentries htree args.allowExtra).2

/-! The directory and the file, released and verified. -/

def fewIdentity : List (Text × Text) := [(lit "arch", lit "a"), (lit "project", lit "p")]

/-- The bytes that `gzip` files begin with. -/
def fewArtifact : ByteArray := ⟨#[31, 139]⟩

def fewSpec (manifest : ByteArray) : SpecArgs where
  manifest := ⟨⟨lit "m", by decide⟩, by decide⟩
  manifestContent := manifest
  artifact := ⟨⟨lit "a", by decide⟩, by decide⟩
  artifactContent := fewArtifact
  sequence := 1

/-- What the spec says. -/
def fewDocument : Document where
  identity := some fewIdentity
  release := ⟨some 1, none, none, none⟩
  artifact := ⟨some (lit "a"), some 2, some (tally [31, 139]).text, []⟩
  manifest := ⟨some (lit "m"), some 569, some (lit "f7b48f1d399d7ca3b033b83480bb3396ca19f0c2a9490624605f5814173a7817"),
    some (lit "1b2cf1befa643cb1ab4a5acfdf64f3ab96475291f3a086cdf3ee2cf6027781a2"), []⟩
  policy := .strict

theorem few_head : (pairsFrom (lit "--identity") (fewArgs.identity.map (·.text)) []).toOption.map byName =
      some fewIdentity ∧
    (merkle tally fewListed).toOption.map (·.1.text) =
      some (lit "1b2cf1befa643cb1ab4a5acfdf64f3ab96475291f3a086cdf3ee2cf6027781a2") := by
  decide +kernel

theorem few_isSmall : isSmall fewDocument = true := by
  decide +kernel

theorem few_released : ∃ manifest spec, (∀ what m, loadManifest tally manifest what = .ok m → m.entries = fewListed) ∧
    Released tally (fun _ => true) fewTree manifest fewArtifact spec := by
  obtain ⟨manifest, hraw, hsize, hhash, hlists⟩ := few_loads
  have hsmall : manifest.size ≤ manifestLimit := by
    rw [hsize]
    decide
  obtain ⟨document, hdocument, hwritten⟩ := cmdManifest_ok hraw
  obtain ⟨m, hm, rfl⟩ : ∃ m, loadManifest tally manifest (lit "m") = .ok m ∧ m.document = document :=
    (cmdManifest_reads hdocument hwritten hsmall).2 List.nodup_nil
  obtain ⟨hidentity, htree⟩ := few_head
  have hloaded := loadManifest_ok hm
  have hhead : m.head.identity = fewIdentity := by
    obtain ⟨pairs, build, hpairs, -, -, hparts', -⟩ := manifestOf_ok hdocument
    obtain ⟨tree, digests, finished, -, -, hparts⟩ := manifestDocument_ok.1 hloaded.document
    obtain ⟨tree', digests', finished', -, -, hparts'⟩ := manifestDocument_ok.1 hparts'
    rw [hpairs] at hidentity
    have hsame := congrArg (get · (lit "identity")) (hparts.symm.trans hparts')
    simp only [get_identity] at hsame
    exact (identityValue_injective hsame).trans (Option.some.inj hidentity)
  have hroot : m.head.tree = lit "1b2cf1befa643cb1ab4a5acfdf64f3ab96475291f3a086cdf3ee2cf6027781a2" := by
    obtain ⟨tree, digests, hmerkle, htext, -⟩ := hloaded.digests
    rw [← hlists _ m hm, hmerkle] at htree
    rw [← htext]
    exact Option.some.inj htree
  have hdocument' : (fewSpec manifest).spec tally m 1 = fewDocument := by
    simp only [SpecArgs.spec, hhead, hroot, fewSpec, hsize, hhash]
    rfl
  obtain ⟨spec, hspec, -⟩ := ((fewSpec manifest).spec_normal hm 1).written
  rw [hdocument'] at hspec
  have hcmd : cmdSpec tally (fewSpec manifest) = .ok spec := by
    refine bind_ok.2 ⟨m, hm, ?_⟩
    rw [show (fewSpec manifest).document tally m = ((fewSpec manifest).spec tally m 1).value from rfl, hdocument']
    exact hspec
  exact ⟨manifest, spec, hlists, .spec fewArgs (fewSpec manifest) spec rfl hraw hsmall List.nodup_nil rfl rfl
    (show (0 : Int) ≤ 1 by decide) hcmd (size_of_isSmall hspec few_isSmall)⟩

/-- What is there after the calls of a record. -/
def replay (dest : Text) : Record → List (List Text × Made)
  | [] => []
  | ⟨c, _⟩ :: t => (c.answer dest (replay dest t)).2

/-- Surroundings with a bundle in them, where every call returns that can. -/
def fewSurroundings (spec manifest : ByteArray) : Surroundings where
  files _ := none
  bundles _ := some (cmdBundle spec manifest fewArtifact)
  tarball _ := fewMembers
  lexists _ := false
  temporary := lit "/t"
  answer c t := (c.answer (lit "/t/root") (replay (lit "/t/root") t)).1
  extracted _ _ := fewDisk
  tree _ := fewDisk

def bundleArgs : VerifyArgs := ⟨[], [], [], lit "b", lit "r", false, []⟩

theorem few_replay : replay (lit "/t/root") ((extract (lit "/t/root") fewListed fewMembers .start).exec
    (fun c t => ((c.answer (lit "/t/root") (replay (lit "/t/root") t)).1,
      ⟨c, (c.answer (lit "/t/root") (replay (lit "/t/root") t)).1⟩ :: t)) []).2 = fewLeft := by
  decide +kernel

theorem few_settles {spec manifest : ByteArray} {m : Manifest} (hm : m.entries = fewListed) :
    (fewSurroundings spec manifest).Settles tally bundleArgs m fewArtifact where
  left := by
    refine ⟨fun t p => (replay (lit "/t/root") t).lookup p, rfl, fun c t => answer_unpacking c _, ?_⟩
    have hleft : replay (lit "/t/root") (extraction (fewSurroundings spec manifest) bundleArgs m fewArtifact).2 = fewLeft := by
      unfold extraction
      rw [hm]
      exact few_replay
    simp only [hleft]
    exact fewDisk_shown

theorem few_holds : fewMembers.Holds tally fewListed := by
  obtain ⟨raw, m, hm, hentries⟩ := few_load
  obtain ⟨L, hL, hw, -⟩ := (loadManifest_ok hm).listing
  rw [hentries] at hw
  obtain ⟨l, hrun⟩ := reach_few
  have h := (reach_extract hrun).1 2 rfl
  exact (h.leaves.clean_iff fewDisk_shown hL hw h.opens h.ends h.taken h.nodup).1 few_clean

/-- The bundle has a spec that is strict, its artifact unpacks to the directory and the file, and the
tree beside it has them. -/
theorem verify_strict_few : ∃ manifest spec c source d,
    Released tally (fun _ => true) fewTree manifest fewArtifact spec ∧
    (∀ what m, loadManifest tally manifest what = .ok m → m.entries = fewListed) ∧
    choose (fewSurroundings spec manifest) bundleArgs = .ok c ∧ c.InForce (fewSurroundings spec manifest) bundleArgs ∧
    c.spec = some (source, d) ∧ d.document.policy = .strict ∧
    c.ArtifactVerified tally (fewSurroundings spec manifest) bundleArgs d ∧
    c.TreeVerified tally (fewSurroundings spec manifest) bundleArgs d := by
  obtain ⟨manifest, spec, hlists, hreleased⟩ := few_released
  obtain ⟨c, source, d, file, what, m, hchoose, hspec, hstrict, hfile, hcontent, hm, hentries, hverify⟩ :=
    cmdVerify_released hreleased (.inl rfl : bundleArgs.spec = [] ∨ _) (.inl rfl)
      (.inl rfl : _ ∨ (fewSurroundings spec manifest).files bundleArgs.artifact = _) (by decide) rfl (by simp [bundleArgs])
  have hextracted : verifyExtracted (fewSurroundings spec manifest) bundleArgs c (some m) = .ok true := by
    refine (verifyExtracted_iff hm hfile hcontent (few_settles (hlists _ m hm))).2 ?_
    rw [hlists _ m hm]
    exact few_holds
  have hgiven : verifyGiven (fewSurroundings spec manifest) bundleArgs (some m) = .ok true := by
    rw [verifyGiven, if_neg (by decide)]
    exact (verifyTree_accepted hm hentries fewDisk_shown.onDisk false).2.2 rfl
  obtain ⟨c', hc', hforce, hmeans⟩ := verify_strict (fun _ _ => fewDisk_shown.onDisk) (fun _ => fewDisk_shown.onDisk)
    (hverify.2 ⟨hextracted, hgiven⟩)
  obtain rfl := Except.ok.inj (hchoose.symm.trans hc')
  obtain ⟨hartifact, htree⟩ := hmeans _ _ hspec hstrict
  exact ⟨manifest, spec, c, source, _, hreleased, hlists, hchoose, hforce, hspec, hstrict,
    hartifact (.inr (by decide)), htree (by decide)⟩

theorem release_verifies_few : ∃ manifest spec,
    Released tally (fun _ => true) fewTree manifest fewArtifact spec ∧
      cmdVerify tally (fewSurroundings spec manifest) bundleArgs = .ok 0 := by
  obtain ⟨manifest, spec, hlists, hreleased⟩ := few_released
  refine ⟨manifest, spec, hreleased, ?_⟩
  have hscan : (scanTree fewTree true).1 = fewListed.map Entry.bare := rfl
  refine (release_verifies hreleased (.inl rfl) (.inl rfl) (.inl rfl) (by decide) rfl (by simp [bundleArgs])
    fewDisk_shown.onDisk fun what m hm => few_settles (hlists what m hm)).2 ⟨?_, fun _ => rfl⟩
  rw [hscan, holds_bare]
  exact few_holds

end MiniDarwin.Rootfs
