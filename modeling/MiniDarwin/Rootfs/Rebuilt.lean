import MiniDarwin.Rootfs.Digests

/-!
`merkle ()` looks at no digest that an entry already has, and so a manifest
that has been read gives the document that was written.
-/

namespace MiniDarwin.Rootfs

open Data

/-- An entry without its digest. -/
def Entry.bare (e : Entry) : Entry :=
  match e.body with
  | .directory mode _ => ⟨e.path, .directory mode none⟩
  | _ => e

section Bare

variable {sha256 : Text → Digest} {entries : List Entry} {e e' : Entry} {digests : Text → Option Digest} {path : Text}

@[simp] theorem Entry.bare_path (e : Entry) : e.bare.path = e.path := by
  obtain ⟨path, _ | _ | _⟩ := e <;> rfl

@[simp] theorem Entry.bare_isDirectory (e : Entry) : e.bare.isDirectory = e.isDirectory := by
  obtain ⟨path, _ | _ | _⟩ := e <;> rfl

theorem record_bare (e : Entry) (digests : Text → Option Digest) : record sha256 e.bare digests = record sha256 e digests := by
  obtain ⟨path, _ | _ | _⟩ := e <;> rfl

theorem finish_bare (e : Entry) (digests : Text → Option Digest) : finish digests e.bare = finish digests e := by
  obtain ⟨path, _ | _ | _⟩ := e <;> rfl

theorem directoriesOf_bare : directoriesOf (entries.map Entry.bare) = directoriesOf entries := by
  rw [directoriesOf, directoriesOf, List.filter_map, List.map_map]
  exact congrArg₂ List.map (funext Entry.bare_path)
    (congrArg (List.filter · entries) (funext Entry.bare_isDirectory))

theorem rooted_bare : Rooted (entries.map Entry.bare) ↔ Rooted entries := by
  have hpaths : (entries.map Entry.bare).map Entry.path = entries.map Entry.path := by
    rw [List.map_map]
    exact List.map_congr_left fun e _ => Entry.bare_path e
  constructor
  · intro h
    refine ⟨?_, hpaths ▸ h.nodup, ?_⟩
    · rintro es₁ e es₂ rfl
      have hparent := h.parents (es₁.map Entry.bare) e.bare (es₂.map Entry.bare) (by simp)
      rwa [Entry.bare_path, directoriesOf_bare] at hparent
    · intro e he
      have hbelow := h.below e.bare (List.mem_map_of_mem he)
      rwa [Entry.bare_path] at hbelow
  · intro h
    refine ⟨?_, hpaths ▸ h.nodup, ?_⟩
    · intro es₁ e es₂ heq
      obtain ⟨as, cs, rfl, rfl, hcs⟩ := List.map_eq_append_iff.1 heq
      obtain ⟨b, cs, rfl, rfl, rfl⟩ := List.map_eq_cons_iff.1 hcs
      rw [Entry.bare_path, directoriesOf_bare]
      exact h.parents as b cs rfl
    · intro e he
      obtain ⟨e', he', rfl⟩ := List.mem_map.1 he
      rw [Entry.bare_path]
      exact h.below e' he'

theorem directoryDigest_bare (entries : List Entry) (digests : Text → Option Digest) (path : Text) :
    directoryDigest sha256 (childrenOf (entries.map Entry.bare)) digests path =
      directoryDigest sha256 (childrenOf entries) digests path := by
  have hchildren : childrenOf (entries.map Entry.bare) path = (childrenOf entries path).map (List.map Entry.bare) := by
    rw [childrenOf, childrenOf, directoriesOf_bare]
    split
    · rw [List.filter_map, Option.map_some]
      exact congrArg (fun p => some ((entries.filter p).map Entry.bare)) (funext fun e => by simp)
    · rfl
  rw [directoryDigest, directoryDigest, hchildren]
  cases childrenOf entries path with
  | none => rfl
  | some children =>
      have hsorted : (children.map Entry.bare).insertionSort (fun a b => nameOf a.path ≤ nameOf b.path) =
          (children.insertionSort fun a b => nameOf a.path ≤ nameOf b.path).map Entry.bare :=
        (List.map_insertionSort _ _ Entry.bare children fun a _ b _ => by simp).symm
      simp only [Option.map_some, hsorted, List.mapM_map, Function.comp_def, record_bare]

theorem digestsFrom_bare (all : List Entry) :
    digestsFrom sha256 (childrenOf (all.map Entry.bare)) (entries.map Entry.bare) digests =
      digestsFrom sha256 (childrenOf all) entries digests := by
  induction entries generalizing digests with
  | nil => rfl
  | cons e entries ih =>
      rw [List.map_cons, digestsFrom, digestsFrom, Entry.bare_isDirectory, Entry.bare_path, directoryDigest_bare]
      simp only [ih]

/-- The digests are those of the entries without theirs. -/
theorem Rooted.merkle_bare (h : Rooted entries) : merkle sha256 (entries.map Entry.bare) = merkle sha256 entries := by
  simp only [merkle, h.childrenFrom_ok, (rooted_bare.2 h).childrenFrom_ok, bind, Except.bind, ← List.map_reverse, digestsFrom_bare,
    directoryDigest_bare]

/-! ### The document, part by part -/

def Body.isFile : Body → Bool
  | .file _ _ _ => true
  | _ => false

def Body.isSymlink : Body → Bool
  | .symlink _ => true
  | _ => false

def Body.isDirectory : Body → Bool
  | .directory _ _ => true
  | _ => false

def Body.size : Body → Nat
  | .file _ size _ => size
  | _ => 0

def countOf (p : Body → Bool) (entries : List Entry) : Nat := (entries.filter fun e => p e.body).length

/-- The summary, as the pairs of a key and a number. -/
def summaryOf (entries : List Entry) : List (Text × Nat) :=
  [(lit "files", countOf Body.isFile entries), (lit "symlinks", countOf Body.isSymlink entries),
    (lit "directories", countOf Body.isDirectory entries), (lit "bytes", (entries.map fun e => e.body.size).sum)]

def summaryValue (summary : List (Text × Nat)) : Value := .map (summary.map fun e => (e.1, .scalar (.int e.2)))

def documentOf (identity : Value) (build : Option Value) (tree : Digest) (summary : List (Text × Nat))
    (finished : List Entry) : List (Text × Value) :=
  [(lit "format", .scalar (.int 1)), (lit "owner", str (lit "minidarwin")), (lit "identity", identity)] ++
    (build.map fun build => (lit "build", build)).toList ++
    [(lit "tree", .map [(lit "algorithm", str (lit "sha256-merkle-v1")), (lit "digest", str tree.text)]),
      (lit "summary", summaryValue summary), (lit "entries", .list (finished.map Entry.value))]

theorem manifestDocument_eq (sha256 : Text → Digest) (identity : Value) (build : Option Value) (entries : List Entry) :
    manifestDocument sha256 identity build entries = (do
      let r ← merkle sha256 entries
      let finished ← entries.mapM (finish r.2)
      return documentOf identity build r.1 (summaryOf entries) finished) := rfl

theorem manifestDocument_ok {identity : Value} {build : Option Value} {document : List (Text × Value)} :
    manifestDocument sha256 identity build entries = .ok document ↔ ∃ tree digests finished,
      merkle sha256 entries = .ok (tree, digests) ∧ entries.mapM (finish digests) = .ok finished ∧
        document = documentOf identity build tree (summaryOf entries) finished := by
  rw [manifestDocument_eq]
  constructor
  · intro h
    obtain ⟨⟨tree, digests⟩, hmerkle, h⟩ := bind_ok.1 h
    obtain ⟨finished, hfinished, h⟩ := bind_ok.1 h
    exact ⟨tree, digests, finished, hmerkle, hfinished, (Except.ok.inj h).symm⟩
  · rintro ⟨tree, digests, finished, hmerkle, hfinished, rfl⟩
    exact bind_ok.2 ⟨_, hmerkle, bind_ok.2 ⟨_, hfinished, rfl⟩⟩

section Parts

variable (identity : Value) (build : Option Value) (tree : Digest) (summary : List (Text × Nat)) (finished : List Entry)

theorem get_tree : get (documentOf identity build tree summary finished) (lit "tree") =
    .map [(lit "algorithm", str (lit "sha256-merkle-v1")), (lit "digest", str tree.text)] := by
  cases build <;> rfl

theorem get_summary : get (documentOf identity build tree summary finished) (lit "summary") = summaryValue summary := by
  cases build <;> rfl

theorem get_entries : get (documentOf identity build tree summary finished) (lit "entries") =
    .list (finished.map Entry.value) := by
  cases build <;> rfl

end Parts

theorem body_bare {β : Type} {p : Body → β} (hp : ∀ mode digest, p (.directory mode none) = p (.directory mode digest))
    (e : Entry) : p e.bare.body = p e.body := by
  obtain ⟨path, _ | _ | _⟩ := e
  · exact hp _ _
  · rfl
  · rfl

theorem countOf_bare {p : Body → Bool} (hp : ∀ mode digest, p (.directory mode none) = p (.directory mode digest)) :
    countOf p (entries.map Entry.bare) = countOf p entries := by
  rw [countOf, List.filter_map, List.length_map]
  exact congrArg (fun q => (entries.filter q).length) (funext (body_bare hp))

theorem summaryOf_bare : summaryOf (entries.map Entry.bare) = summaryOf entries := by
  have hsizes : ((entries.map Entry.bare).map fun e => e.body.size) = entries.map fun e => e.body.size := by
    rw [List.map_map]
    exact List.map_congr_left fun e _ => body_bare (p := Body.size) (fun _ _ => rfl) e
  rw [summaryOf, summaryOf, countOf_bare fun _ _ => rfl, countOf_bare fun _ _ => rfl, countOf_bare fun _ _ => rfl, hsizes]

theorem Rooted.manifestDocument_bare (h : Rooted entries) (identity : Value) (build : Option Value) :
    manifestDocument sha256 identity build (entries.map Entry.bare) = manifestDocument sha256 identity build entries := by
  simp only [manifestDocument_eq, h.merkle_bare, List.mapM_map, Function.comp_def, finish_bare, summaryOf_bare]

theorem finished_bare {finished : List Entry} (h : entries.mapM (finish digests) = .ok finished) :
    finished.map Entry.bare = entries.map Entry.bare := by
  induction entries generalizing finished with
  | nil =>
      cases h
      rfl
  | cons e entries ih =>
      rw [List.mapM_cons] at h
      obtain ⟨e', he', h⟩ := bind_ok.1 h
      obtain ⟨rest, hrest, h⟩ := bind_ok.1 h
      obtain rfl := Except.ok.inj h
      rw [List.map_cons, List.map_cons, ih hrest]
      refine congrArg (· :: _) ?_
      obtain ⟨path, body⟩ := e
      cases body with
      | directory mode digest =>
          simp only [finish] at he'
          split at he'
          · obtain rfl := Except.ok.inj he'
            rfl
          · cases he'
      | file mode size sha =>
          obtain rfl := Except.ok.inj he'
          rfl
      | symlink target =>
          obtain rfl := Except.ok.inj he'
          rfl

/-- A document is given again by the entries that stand in it. -/
theorem manifestDocument_finished {identity : Value} {build : Option Value} {finished : List Entry}
    (h : Rooted finished) (hfinished : entries.mapM (finish digests) = .ok finished) :
    manifestDocument sha256 identity build finished = manifestDocument sha256 identity build entries := by
  have hbare := finished_bare hfinished
  have hrooted : Rooted entries := rooted_bare.1 (hbare ▸ rooted_bare.2 h)
  rw [← h.manifestDocument_bare, hbare, hrooted.manifestDocument_bare]

end Bare

end MiniDarwin.Rootfs
