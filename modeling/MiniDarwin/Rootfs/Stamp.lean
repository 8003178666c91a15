import MiniDarwin.Rootfs.Files

/-!
Stamping.

The document that is written is in its normal form because the one that was
read is.
-/

namespace MiniDarwin.Rootfs

open Data

variable {text what : Text} {raw : ByteArray}

/-! ### The stamped document -/

/-- The documents have the same pins: they differ in the tag, the commit, the repository and the sources at most. -/
def SamePins (d d' : Document) : Prop :=
  d' = { d with
    release := { d'.release with sequence := d.release.sequence }
    artifact := { d.artifact with sources := d'.artifact.sources }
    manifest := { d.manifest with sources := d'.manifest.sources } }

/-- The address of a release as it is when there is no --base-url, or one that is still an URL without its slashes. -/
def StampArgs.Addressed (args : StampArgs) : Prop :=
  ∀ url ∈ args.baseUrl, url.text = [] ∨ isSource (url.text.rdropWhile (· = 47)) = true

/-- A text of code points without high surrogates, as the command line has it. -/
def Plain (text : Text) : Prop := ∀ c ∈ text, c < 0x110000 ∧ isHigh c = false

theorem Argument.plain (a : Argument) : Rootfs.Plain a.text := by
  intro c hc
  have := a.wellFormed c hc
  refine ⟨this.1, ?_⟩
  simp only [isHigh, decide_eq_false_iff_not]
  omega

theorem Plain.append {s t : Text} (hs : Plain s) (ht : Plain t) : Plain (s ++ t) := by
  intro c hc
  obtain hc | hc := List.mem_append.1 hc
  · exact hs c hc
  · exact ht c hc

/-- A plain text before one that can be written. -/
theorem Plain.writable_append {s t : Text} (hs : Plain s) (ht : Rootfs.Writable t) : Rootfs.Writable (s ++ t) where
  points := by
    intro c hc
    obtain hc | hc := List.mem_append.1 hc
    · exact (hs c hc).1
    · exact ht.points c hc
  unpaired := by
    induction s with
    | nil => exact ht.unpaired
    | cons c s ih =>
        refine List.isChain_cons.2 ⟨?_, ih fun d hd => hs d (.tail _ hd)⟩
        rintro d - ⟨hhigh, -⟩
        rw [(hs c (.head _)).2] at hhigh
        cases hhigh

theorem Plain.writable {s : Text} (hs : Plain s) : Rootfs.Writable s := by
  have h := hs.writable_append (t := []) ⟨by simp, List.isChain_nil⟩
  rwa [List.append_nil] at h

theorem Argument.filled {a : Argument} (h : a.text ≠ []) : Filled a.text := ⟨h, a.plain.writable⟩

variable {args : StampArgs}

theorem StampArgs.plain_base : Plain args.base := by
  rw [StampArgs.base]
  split
  next c url heq =>
    obtain ⟨a, -, ha⟩ := Option.map_eq_some_iff.1 heq
    exact ha ▸ a.plain
  · refine Plain.append (Plain.append (Plain.append ?_ args.repository.plain) ?_) args.tag.plain
    · unfold Plain
      decide
    · unfold Plain
      decide

/-- The base without its slashes is still an URL. -/
theorem StampArgs.Addressed.isSource (h : args.Addressed) (htag : ¬ (args.tag.text = [] ∨ 47 ∈ args.tag.text)) :
    Rootfs.isSource (args.base.rdropWhile (· = 47)) = true := by
  rw [StampArgs.base]
  split
  next c url heq =>
    obtain ⟨a, ha, htext⟩ := Option.map_eq_some_iff.1 heq
    obtain hempty | hsource := h a ha
    · rw [htext] at hempty
      cases hempty
    · rwa [htext] at hsource
  · rw [not_or] at htag
    obtain ⟨tag, c, hc⟩ := (List.eq_nil_or_concat args.tag.text).resolve_left htag.1
    have hslash : c ≠ 47 := by
      rintro rfl
      exact htag.2 (by simp [hc])
    rw [hc, List.concat_eq_append, ← List.append_assoc, List.rdropWhile_concat_neg _ _ _ (by simpa using hslash)]
    refine decide_eq_true (.inl ?_)
    rw [List.append_assoc, List.append_assoc, List.append_assoc]
    exact List.IsPrefix.trans (by decide) (List.prefix_append _ _)

theorem isSource_append {s t : Text} (h : isSource s = true) : isSource (s ++ t) = true :=
  decide_eq_true ((of_decide_eq_true h).imp (·.trans (List.prefix_append s t)) (·.trans (List.prefix_append s t)))

theorem writable_sourceOf {name : Text} (hname : Filled name) : Rootfs.Writable (sourceOf args.base name) := by
  have hbase : Plain (args.base.rdropWhile (· = 47)) :=
    fun c hc => args.plain_base c ((List.rdropWhile_prefix _ _).subset hc)
  refine (hbase.append ?_).writable_append hname.writable
  unfold Plain
  decide

/-- The address of a file of the release. -/
theorem StampArgs.Addressed.isSource_sourceOf (h : args.Addressed) (htag : ¬ (args.tag.text = [] ∨ 47 ∈ args.tag.text))
    (name : Text) : Rootfs.isSource (sourceOf args.base name) = true := by
  rw [sourceOf, List.append_assoc]
  exact isSource_append (h.isSource htag)

theorem isRepository_ne_nil (h : isRepository text = true) : text ≠ [] := by
  rintro rfl
  cases h

/-! ### Runs of the command -/

/-- What a run that stamps has read and checked. -/
structure Stamps (args : StampArgs) (spec : Spec) (seq : Nat) (artifactName manifestName : Text) : Prop where
  loaded : loadSpec args.content (nameOf args.spec) = .ok spec
  unstamped : spec.document.release.tag = none
  sequence : spec.document.release.sequence = some seq
  commit : isHex 40 args.commit.text = true
  repository : isRepository args.repository.text = true
  tag : ¬ (args.tag.text = [] ∨ 47 ∈ args.tag.text)
  previous : checkPrevious args.previous seq = .ok ()
  artifact : spec.document.artifact.name = some artifactName
  manifest : spec.document.manifest.name = some manifestName

theorem cmdStamp_ok {out : ByteArray} (h : cmdStamp args = .ok out) :
    ∃ spec sequence artifactName manifestName, Stamps args spec sequence artifactName manifestName ∧
      (do asciiBytes (← dumpYaml specHeader (stamped spec.document args artifactName manifestName).value)) = .ok out := by
  obtain ⟨spec, hspec, h⟩ := bind_ok.1 h
  simp only at h
  split at h
  · cases h
  split at h
  · cases h
  · cases h
  next sequence htag hsequence =>
    split at h
    · cases h
    next hcommit =>
    split at h
    · cases h
    next hrepository =>
    split at h
    · cases h
    next hname =>
    obtain ⟨_, hprevious, h⟩ := bind_ok.1 h
    split at h
    · cases h
    · cases h
    next artifactName manifestName hartifact hmanifest =>
      obtain ⟨_, _, h⟩ := bind_ok.1 h
      refine ⟨spec, sequence, artifactName, manifestName, ?_, h⟩
      exact ⟨hspec, htag, hsequence, by simpa using hcommit, by simpa using hrepository, hname, hprevious,
        hartifact, hmanifest⟩

variable {spec : Spec} {seq : Nat} {artifactName manifestName : Text}

theorem Stamps.release_normal (h : Stamps args spec seq artifactName manifestName) :
    (stamped spec.document args artifactName manifestName).release.Normal := by
  refine ⟨?_, ?_, ?_⟩
  · rintro s hs
    obtain rfl := Option.some.inj hs
    exact Argument.filled fun hnil => h.tag (.inl hnil)
  · rintro s hs
    obtain rfl := Option.some.inj hs
    exact h.commit
  · rintro s hs
    obtain rfl := Option.some.inj hs
    exact Argument.filled (isRepository_ne_nil h.repository)

theorem sourceOf_normal {name : Text} (hname : Filled name) (h : isSource (sourceOf args.base name) = true) :
    ∀ url ∈ [sourceOf args.base name], isSource url = true ∧ Rootfs.Writable url := by
  intro url hurl
  obtain rfl := List.mem_singleton.1 hurl
  exact ⟨h, writable_sourceOf hname⟩

theorem Stamps.artifact_normal (h : Stamps args spec seq artifactName manifestName)
    (hartifact : isSource (sourceOf args.base artifactName) = true) :
    (stamped spec.document args artifactName manifestName).artifact.Normal (spec.document.policy = .strict) :=
  have hread := (loadSpec_normal h.loaded).artifact
  { hread with sources := sourceOf_normal (hread.name _ h.artifact) hartifact }

/-- What is written is in its normal form, if both addresses are. -/
theorem Stamps.normal_of_sources (h : Stamps args spec seq artifactName manifestName)
    (hartifact : isSource (sourceOf args.base artifactName) = true)
    (hmanifest : isSource (sourceOf args.base manifestName) = true) :
    (stamped spec.document args artifactName manifestName).Normal := by
  have hread := loadSpec_normal h.loaded
  refine ⟨hread.identity, h.release_normal, h.artifact_normal hartifact, ?_⟩
  exact { hread.manifest with sources := sourceOf_normal (hread.manifest.name _ h.manifest) hmanifest }

theorem Stamps.normal (h : Stamps args spec seq artifactName manifestName) (haddress : args.Addressed) :
    (stamped spec.document args artifactName manifestName).Normal :=
  h.normal_of_sources (haddress.isSource_sourceOf h.tag _) (haddress.isSource_sourceOf h.tag _)

/-- A run that stamps, at an address as above. -/
structure Stamped (args : StampArgs) (out : ByteArray) : Prop where
  ok : cmdStamp args = .ok out
  addressed : args.Addressed

/-- The sequence of the spec that is stamped. -/
def StampArgs.sequence (args : StampArgs) : Option Nat :=
  match loadSpec args.content (nameOf args.spec) with
  | .ok spec => spec.document.release.sequence
  | .error _ => none

/-- What is loaded of the file that a run leaves. -/
theorem Stamped.loads {out : ByteArray} (h : Stamped args out) :
    ∃ spec sequence artifactName manifestName, Stamps args spec sequence artifactName manifestName ∧
      (out.size ≤ specLimit → ∀ what,
        loadSpec out what = .ok ⟨stamped spec.document args artifactName manifestName, []⟩) := by
  obtain ⟨spec, sequence, artifactName, manifestName, hstamps, hout⟩ := cmdStamp_ok h.ok
  obtain ⟨raw, hraw, hloads⟩ := (hstamps.normal h.addressed).written
  obtain rfl : raw = out := Except.ok.inj (hraw.symm.trans hout)
  exact ⟨spec, sequence, artifactName, manifestName, hstamps, hloads⟩

theorem loadSpec_size {out : ByteArray} (h : loadSpec out what = .ok spec) : out.size ≤ specLimit := by
  rw [loadSpec] at h
  split at h
  · cases h
  next hsize => exact Nat.not_lt.1 hsize

/-- A file that has been stamped is not stamped. -/
theorem Stamped.final {out out' : ByteArray} {again : StampArgs} (h : Stamped args out) (hcontent : again.content = out) :
    cmdStamp again ≠ .ok out' := by
  intro hagain
  obtain ⟨spec', _, _, _, hstamps', -⟩ := cmdStamp_ok hagain
  obtain ⟨spec, _, _, _, hstamps, hloads⟩ := h.loads
  have hload := hstamps'.loaded
  rw [hcontent] at hload
  rw [hloads (loadSpec_size hload)] at hload
  have htag := hstamps'.unstamped
  rw [← Except.ok.inj hload] at htag
  cases htag

/-- The sequence grows from a run to the next one that is told of its file. -/
theorem Stamped.follows {out out' : ByteArray} {path : Text} {next : StampArgs} (h : Stamped args out) (hnext : Stamped next out')
    (hprevious : next.previous = some (path, out)) : ∃ m n, args.sequence = some m ∧ next.sequence = some n ∧ m < n := by
  obtain ⟨spec, m, artifactName, manifestName, hstamps, hloads⟩ := h.loads
  obtain ⟨spec', n, _, _, hstamps', -⟩ := hnext.loads
  have hm : args.sequence = some m := by
    rw [StampArgs.sequence, hstamps.loaded]
    exact hstamps.sequence
  have hn : next.sequence = some n := by
    rw [StampArgs.sequence, hstamps'.loaded]
    exact hstamps'.sequence
  refine ⟨m, n, hm, hn, ?_⟩
  have hcheck := hstamps'.previous
  rw [hprevious] at hcheck
  obtain ⟨before, hbefore, hcheck⟩ := bind_ok.1 hcheck
  rw [hloads (loadSpec_size hbefore)] at hbefore
  obtain rfl := Except.ok.inj hbefore
  have hsequence : (stamped spec.document args artifactName manifestName).release.sequence = some m := hstamps.sequence
  simp only [hsequence] at hcheck
  split at hcheck
  · cases hcheck
  next hlt => omega

/-- **Stamping changes no pin.** Of every run of a chain of stamps: the file that it writes, unless it is larger
than what is read, loads back to a document with the pins of its input, and it is not stamped again; and the
sequence grows along the chain. -/
theorem stamp_changes_no_pin {runs : List (StampArgs × ByteArray)} (hruns : ∀ run ∈ runs, Stamped run.1 run.2)
    (hchain : runs.IsChain fun a b => ∃ path, b.1.previous = some (path, a.2)) :
    (∀ run ∈ runs, ∃ spec, loadSpec run.1.content (nameOf run.1.spec) = .ok spec ∧
      (run.2.size ≤ specLimit → ∀ what, ∃ d, loadSpec run.2 what = .ok ⟨d, []⟩ ∧ SamePins spec.document d) ∧
      ∀ again out, again.content = run.2 → cmdStamp again ≠ .ok out) ∧
    runs.Pairwise fun a b => ∃ m n, a.1.sequence = some m ∧ b.1.sequence = some n ∧ m < n := by
  constructor
  · intro run hrun
    have h := hruns run hrun
    obtain ⟨spec, _, _, _, hstamps, hloads⟩ := h.loads
    refine ⟨spec, hstamps.loaded, ?_, fun again out hcontent => h.final hcontent⟩
    intro hsize what
    exact ⟨_, hloads hsize what, rfl⟩
  · let grows (a b : StampArgs × ByteArray) : Prop :=
      ∃ m n, a.1.sequence = some m ∧ b.1.sequence = some n ∧ m < n
    have : Trans grows grows grows := ⟨by
      rintro a b c ⟨m, n, hm, hn, hmn⟩ ⟨n', k, hn', hk, hnk⟩
      obtain rfl := Option.some.inj (hn.symm.trans hn')
      exact ⟨m, k, hm, hk, hmn.trans hnk⟩⟩
    refine List.IsChain.pairwise (R := grows) ?_
    refine hchain.imp_of_mem_imp ?_
    rintro a b ha hb ⟨path, hpath⟩
    exact (hruns a ha).follows (hruns b hb) hpath

/-! ### Runs that stamp -/

theorem Stamps.stamped (h : Stamps args spec seq artifactName manifestName) (hstrict : spec.document.policy = .strict)
    (haddress : args.Addressed) :
    ∃ out, Stamped args out ∧
      (do asciiBytes (← dumpYaml specHeader (stamped spec.document args artifactName manifestName).value)) = .ok out := by
  have hnormal := h.normal haddress
  obtain ⟨raw, hraw, -⟩ := hnormal.written
  refine ⟨raw, ⟨bind_ok.2 ⟨spec, h.loaded, ?_⟩, haddress⟩, hraw⟩
  simp only
  rw [if_neg (not_not.2 hstrict)]
  simp only [h.unstamped, h.sequence, h.commit, h.repository, h.artifact, h.manifest, h.previous, if_neg h.tag]
  exact bind_ok.2 ⟨(), rfl, bind_ok.2 ⟨_, sources_map fun url hurl => (hnormal.artifact.sources url hurl).1, hraw⟩⟩

/-- A file that is written has as many bytes as its text has characters. -/
theorem size_of_written {document : List (Text × Value)} (h : (do asciiBytes (← dumpYaml specHeader document)) = .ok raw) :
    ∃ text, dumpYaml specHeader document = .ok text ∧ raw.size = text.length := by
  obtain ⟨text, htext, hraw⟩ := bind_ok.1 h
  obtain ⟨bytes, hbytes, hraw⟩ := bind_ok.1 hraw
  cases hraw
  rw [encode] at hbytes
  split at hbytes
  · cases hbytes
    exact ⟨text, htext, by simp⟩
  · cases hbytes

/-- The spec of a first release: an artifact `a` and a manifest `m`, and no identity. -/
def draft (sequence : Nat) : Document where
  identity := none
  release := ⟨some sequence, none, none, none⟩
  artifact := ⟨some (lit "a"), none, some (List.replicate 64 48), []⟩
  manifest := ⟨some (lit "m"), none, some (List.replicate 64 48), none, []⟩
  policy := .strict

theorem draft_normal (sequence : Nat) : (draft sequence).Normal := by
  have hname : ∀ c, c < 128 → Filled [c] := by
    intro c hc
    refine ⟨List.cons_ne_nil _ _, writable_of_unicode ?_⟩
    intro d hd
    obtain rfl := List.mem_singleton.1 hd
    omega
  refine ⟨by simp [draft], ⟨by simp [draft], by simp [draft], by simp [draft]⟩, ?_, ?_⟩
  · refine ⟨?_, ?_, by simp [draft], by simp [draft]⟩
    · rintro s hs
      obtain rfl := Option.some.inj hs
      exact hname 97 (by decide)
    · rintro s hs
      obtain rfl := Option.some.inj hs
      decide
  · refine ⟨?_, ?_, by simp [draft], by simp [draft], by simp [draft]⟩
    · rintro s hs
      obtain rfl := Option.some.inj hs
      exact hname 109 (by decide)
    · rintro s hs
      obtain rfl := Option.some.inj hs
      decide

/-- Whether the text of a document is small enough to be read again. -/
def isSmall (d : Document) : Bool :=
  match dumpYaml specHeader d.value with
  | .ok text => text.length ≤ specLimit
  | .error _ => false

theorem size_of_isSmall {d : Document} (hraw : (do asciiBytes (← dumpYaml specHeader d.value)) = .ok raw)
    (h : isSmall d = true) : raw.size ≤ specLimit := by
  obtain ⟨text, htext, hsize⟩ := size_of_written hraw
  rw [isSmall, htext] at h
  exact hsize ▸ of_decide_eq_true h

/-- The command line of a release of that tag. -/
def release (content : ByteArray) (tag : Argument) (previous : Option (Text × ByteArray)) : StampArgs where
  spec := lit "rootfs.spec"
  content := content
  repository := ⟨lit "o/r", by decide⟩
  tag := tag
  commit := ⟨List.replicate 40 48, by decide⟩
  baseUrl := none
  previous := previous

/-- A release of a draft, told of a previous one that comes before it or of none. -/
theorem release_stamped {content : ByteArray} (tag : Argument) (previous : Option (Text × ByteArray)) {sequence : Nat}
    (hcontent : ∀ what, loadSpec content what = .ok ⟨draft sequence, []⟩) (htag : ¬ (tag.text = [] ∨ 47 ∈ tag.text))
    (hprevious : checkPrevious previous sequence = .ok ()) :
    ∃ out, Stamped (release content tag previous) out ∧
      (do asciiBytes (← dumpYaml specHeader
        (stamped (draft sequence) (release content tag previous) (lit "a") (lit "m")).value)) = .ok out := by
  have hstamps : Stamps (release content tag previous) ⟨draft sequence, []⟩ sequence (lit "a") (lit "m") :=
    ⟨hcontent _, rfl, rfl, (by decide : isHex 40 (List.replicate 40 48) = true),
      (by decide : isRepository (lit "o/r") = true), htag, hprevious, rfl, rfl⟩
  exact hstamps.stamped rfl (by simp [StampArgs.Addressed, release])

theorem draft_written (sequence : Nat) (h : isSmall (draft sequence) = true) :
    ∃ content, ∀ what, loadSpec content what = .ok ⟨draft sequence, []⟩ := by
  obtain ⟨content, hcontent, hloads⟩ := (draft_normal sequence).written
  exact ⟨content, hloads (size_of_isSmall hcontent h)⟩

theorem stamp_changes_no_pin_twice : ∃ first second : StampArgs × ByteArray,
    second.1.previous = some (lit "rootfs.spec", first.2) ∧
      ∃ m n, first.1.sequence = some m ∧ second.1.sequence = some n ∧ m < n := by
  obtain ⟨content, hcontent⟩ := draft_written 1 (by decide +kernel)
  obtain ⟨content', hcontent'⟩ := draft_written 2 (by decide +kernel)
  let tag : Argument := ⟨lit "v", by decide⟩
  obtain ⟨out, hfirst, hout⟩ := release_stamped tag none hcontent (by decide) rfl
  have hsmall : isSmall (stamped (draft 1) (release .empty tag none) (lit "a") (lit "m")) = true := by decide +kernel
  have hsize := size_of_isSmall hout hsmall
  obtain ⟨spec, _, _, _, hstamps, hloads⟩ := hfirst.loads
  obtain rfl : ⟨draft 1, []⟩ = spec := Except.ok.inj ((hcontent _).symm.trans hstamps.loaded)
  have hprevious : checkPrevious (some (lit "rootfs.spec", out)) 2 = .ok () :=
    bind_ok.2 ⟨_, hloads hsize _, rfl⟩
  obtain ⟨out', hsecond, -⟩ := release_stamped tag (some (lit "rootfs.spec", out)) hcontent' (by decide) hprevious
  refine ⟨(release content tag none, out), (release content' tag (some (lit "rootfs.spec", out)), out'), rfl, ?_⟩
  have hruns : ∀ run ∈ [(release content tag none, out),
      (release content' tag (some (lit "rootfs.spec", out)), out')], Stamped run.1 run.2 := by
    simp [hfirst, hsecond]
  have h := stamp_changes_no_pin hruns (List.isChain_pair.2 ⟨_, rfl⟩)
  exact List.rel_of_pairwise_cons h.2 (.head _)

/-- A tag of that many characters that are escaped. -/
def longTag (n : Nat) : Argument where
  text := List.replicate n 0xe9
  wellFormed := by
    intro c hc
    rw [(List.mem_replicate.1 hc).2]
    decide

theorem length_dumps_replicate (n : Nat) : ((List.replicate n 0xe9).flatMap escape).length = 6 * n := by
  induction n with
  | zero => rfl
  | succ n ih =>
      rw [List.replicate_succ, List.flatMap_cons, List.length_append, ih]
      change 6 + 6 * n = _
      omega

theorem length_source (content : ByteArray) (n : Nat) (name : Text) :
    6 * n ≤ ((sourceOf (release content (longTag n) none).base name).flatMap escape).length := by
  cases n with
  | zero => omega
  | succ n =>
      have hbase : (release content (longTag (n + 1)) none).base =
          lit "https://github.com/" ++ lit "o/r" ++ lit "/releases/download/" ++ List.replicate n 0xe9 ++ [0xe9] := by
        rw [List.append_assoc, ← List.replicate_succ']
        rfl
      have hlast := length_dumps_replicate (n + 1)
      rw [List.replicate_succ', List.flatMap_append, List.length_append] at hlast
      rw [sourceOf, hbase, List.rdropWhile_concat_neg _ _ _ (by simp)]
      simp only [List.flatMap_append, List.length_append]
      omega

/-- The tag is written three times. -/
theorem length_long {content : ByteArray} {n : Nat} {text : Text}
    (h : dumpYaml specHeader (stamped (draft 1) (release content (longTag n) none) (lit "a") (lit "m")).value = .ok text) :
    18 * n ≤ text.length := by
  have htag := length_dumps_replicate n
  have hartifact := length_source content n (lit "a")
  have hmanifest := length_source content n (lit "m")
  obtain ⟨lines, hlines, h⟩ := bind_ok.1 h
  cases h
  have hlines' : emit 0 (stamped (draft 1) (release content (longTag n) none) (lit "a") (lit "m")).value = .ok _ := rfl
  rw [hlines'] at hlines
  obtain rfl := Except.ok.inj hlines
  rw [List.append_assoc, intercalate_newline (by simp), List.length_append, List.length_flatMap]
  simp only [List.cons_append, List.nil_append, List.reverse_singleton, List.map_cons, List.sum_cons, List.length_append,
    scalar, dumps]
  change ((release content (longTag n) none).tag.text.flatMap escape).length = _ at htag
  omega

/-- A tag of 130000 bytes makes a file that is larger than what is read. -/
theorem stamped_not_loaded : ∃ (args : StampArgs) (out : ByteArray), Stamped args out ∧
    ∀ what, ∃ message, loadSpec out what = invalid message := by
  obtain ⟨content, hcontent⟩ := draft_written 1 (by decide +kernel)
  have htag : ∀ n ≠ 0, ¬ ((longTag n).text = [] ∨ 47 ∈ (longTag n).text) := by
    intro n hn
    simp [longTag, hn]
  obtain ⟨out, hstamped, hout⟩ := release_stamped (longTag 65000) none hcontent (htag 65000 (by decide)) rfl
  refine ⟨_, out, hstamped, ?_⟩
  intro what
  obtain ⟨text, htext, hsize⟩ := size_of_written hout
  have hlong := length_long htext
  have hlimit : out.size > specLimit := by
    rw [hsize, specLimit]
    omega
  exact ⟨_, by rw [loadSpec, if_pos hlimit]⟩

end MiniDarwin.Rootfs
