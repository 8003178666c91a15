import MiniDarwin.Rootfs.Entries

/-!
Digests of directories: none of the lookups of `merkle ()` fails.

An entry's parent stands before it, so `children` has the parent when the
entry comes; and what is beneath a directory stands behind it, so that the
loop, which goes backwards, has the digests that the directory needs.
-/

namespace MiniDarwin.Rootfs

open Data

/-- The paths of the directories in a list. -/
def directoriesOf (entries : List Entry) : List Text := (entries.filter (·.isDirectory)).map (·.path)

/-- Each entry stands behind its parent, and no two at one path. -/
structure Rooted (entries : List Entry) : Prop where
  parents : ∀ es₁ e es₂, entries = es₁ ++ e :: es₂ → parentOf e.path = lit "/" ∨ parentOf e.path ∈ directoriesOf es₁
  nodup : (entries.map (·.path)).Nodup
  below : ∀ e ∈ entries, e.path ≠ lit "/"

variable (sha256 : Text → Digest) {entries es : List Entry} {e : Entry}

theorem mem_directoriesOf {path : Text} :
    path ∈ directoriesOf entries ↔ ∃ e ∈ entries, e.isDirectory = true ∧ e.path = path := by
  simp [directoriesOf, and_assoc]

theorem Rooted.of_concat (h : Rooted (es ++ [e])) : Rooted es where
  parents := by
    rintro es₁ e' es₂ rfl
    exact h.parents es₁ e' (es₂ ++ [e]) (by simp)
  nodup := by
    have hnodup := h.nodup
    rw [List.map_append] at hnodup
    exact (List.nodup_append.1 hnodup).1
  below := fun e' he' => h.below e' (List.mem_append_left _ he')

theorem Rooted.of_append {es' : List Entry} (h : Rooted (es ++ es')) : Rooted es := by
  induction es' using List.reverseRecOn with
  | nil => rwa [List.append_nil] at h
  | append_singleton es' e ih =>
      rw [← List.append_assoc] at h
      exact ih h.of_concat

/-- What `children` is when it is complete. -/
def childrenOf (entries : List Entry) (path : Text) : Option (List Entry) :=
  if path = lit "/" ∨ path ∈ directoriesOf entries then some (entries.filter (parentOf ·.path = path)) else none

theorem childrenFrom_append {es' : List Entry} {children : Text → Option (List Entry)} :
    childrenFrom (es ++ es') children = childrenFrom es children >>= childrenFrom es' := by
  induction es generalizing children with
  | nil => rfl
  | cons e es ih =>
      rw [List.cons_append, childrenFrom, childrenFrom]
      cases children (parentOf e.path) with
      | none => rfl
      | some others => exact ih

theorem Rooted.not_mem_directories (h : Rooted (es ++ [e])) : e.path ∉ directoriesOf es := by
  intro hmem
  obtain ⟨e', he', -, hpath⟩ := mem_directoriesOf.1 hmem
  have hnodup := h.nodup
  rw [List.map_append] at hnodup
  exact (List.nodup_append.1 hnodup).2.2 e'.path (List.mem_map_of_mem he') e.path (by simp) hpath

theorem Rooted.childrenFrom_ok (h : Rooted entries) :
    childrenFrom entries (Function.update (fun _ => none) (lit "/") (some [])) = .ok (childrenOf entries) := by
  induction entries using List.reverseRecOn with
  | nil =>
      refine congrArg Except.ok (funext fun path => ?_)
      by_cases hpath : path = lit "/"
      · subst hpath
        rfl
      · rw [Function.update_of_ne hpath, childrenOf, if_neg (by simp [hpath, directoriesOf])]
  | append_singleton es e ih =>
      have hparent := h.parents es e [] rfl
      have hnew := h.not_mem_directories
      have hbelow := h.below e (by simp)
      -- nothing before `e` is beneath it
      have hempty : es.filter (parentOf ·.path = e.path) = [] := by
        refine List.filter_eq_nil_iff.2 ?_
        intro e' he' heq
        obtain ⟨es₁, es₂, rfl⟩ := List.append_of_mem he'
        have heq := of_decide_eq_true heq
        obtain hroot | hmem := h.of_concat.parents es₁ e' es₂ rfl
        · exact hbelow (heq ▸ hroot)
        · obtain ⟨e'', he'', hdir⟩ := mem_directoriesOf.1 (heq ▸ hmem)
          exact hnew (mem_directoriesOf.2 ⟨e'', by simp [he''], hdir⟩)
      rw [childrenFrom_append, ih h.of_concat]
      change childrenFrom [e] (childrenOf es) = _
      rw [childrenFrom, childrenOf, if_pos hparent]
      refine congrArg Except.ok (funext fun path => ?_)
      have hself : parentOf e.path ≠ e.path := by
        intro heq
        obtain hroot | hmem := hparent
        · exact hbelow (heq ▸ hroot)
        · exact hnew (heq ▸ hmem)
      have hdirs : directoriesOf (es ++ [e]) = directoriesOf es ++ if e.isDirectory then [e.path] else [] := by
        cases hd : e.isDirectory <;> simp [directoriesOf, hd]
      rw [childrenOf, hdirs, List.filter_append]
      by_cases hpath : path = parentOf e.path
      · subst hpath
        have hlast : [e].filter (parentOf ·.path = parentOf e.path) = [e] := by simp
        rw [hlast, if_pos (hparent.imp_right fun h => List.mem_append_left _ h)]
        cases e.isDirectory with
        | false => exact Function.update_self _ _ _
        | true => exact (Function.update_of_ne hself _ _).trans (Function.update_self _ _ _)
      · have hlast : [e].filter (parentOf ·.path = path) = [] := by simp [Ne.symm hpath]
        rw [hlast, List.append_nil]
        cases e.isDirectory with
        | false =>
            rw [if_neg Bool.false_ne_true, if_neg Bool.false_ne_true, List.append_nil]
            exact Function.update_of_ne hpath _ _
        | true =>
            rw [if_pos rfl, if_pos rfl]
            by_cases hself' : path = e.path
            · subst hself'
              rw [Function.update_self, hempty, if_pos (by simp)]
            · rw [Function.update_of_ne hself', Function.update_of_ne hpath]
              simp only [List.mem_append, List.mem_singleton, hself', or_false]
              rfl

/-! ### Records -/

/-- A text of ASCII characters. -/
def Ascii (text : Text) : Prop := ∀ c ∈ text, c < 128

instance (text : Text) : Decidable (Ascii text) := inferInstanceAs (Decidable (∀ c ∈ text, c < 128))

def Body.Ascii : Body → Prop
  | .directory mode _ => Rootfs.Ascii mode
  | .file mode _ sha256 => Rootfs.Ascii mode ∧ Rootfs.Ascii sha256
  | .symlink target => Rootfs.Ascii target

/-- An entry of which a record can be made, once the digest of a directory is known. -/
structure Entry.Plain (e : Entry) : Prop where
  path : Ascii e.path
  body : e.body.Ascii

theorem Ascii.append {a b : Text} (ha : Ascii a) (hb : Ascii b) : Ascii (a ++ b) := by
  intro c hc
  exact (List.mem_append.1 hc).elim (ha c) (hb c)

theorem Digest.ascii (d : Digest) : Ascii d.text := by
  intro c hc
  have h := d.wellFormed
  simp only [isHex, decide_eq_true_eq] at h
  have := h.2 c hc
  omega

theorem encode_ok {text : Text} (h : Ascii text) : encode text = .ok text := if_pos h

theorem encode_eq {text t : Text} (h : encode text = .ok t) : t = text := by
  rw [encode] at h
  split at h <;> cases h
  rfl

theorem Entry.Plain.record_ok {digests : Text → Option Digest} (h : e.Plain)
    (hd : e.isDirectory = true → (digests e.path).isSome) : ∃ r, record sha256 e digests = .ok r := by
  have hname : Ascii (nameOf e.path) := fun c hc => h.path c ((List.rtakeWhile_suffix _ _).subset hc)
  have hspace : Ascii (lit " ") := by decide
  have hline : ∀ {line}, recordLine sha256 e digests = .ok line → Ascii line →
      ∃ r, record sha256 e digests = .ok r := by
    intro line hl hline
    exact ⟨line ++ [0], bind_ok.2 ⟨line, hl, bind_ok.2 ⟨line, encode_ok hline, rfl⟩⟩⟩
  obtain ⟨path, body⟩ := e
  cases body with
  | file mode size sha =>
      have hword : Ascii (lit "file ") := by decide
      exact hline rfl ((((hword.append h.body.1).append hspace).append h.body.2).append hspace |>.append hname)
  | symlink target =>
      have hword : Ascii (lit "symlink - ") := by decide
      refine hline (bind_ok.2 ⟨target, encode_ok h.body, rfl⟩) ?_
      exact ((hword.append (sha256 target).ascii).append hspace).append hname
  | directory mode digest =>
      have hword : Ascii (lit "directory ") := by decide
      obtain ⟨d, hd⟩ := Option.isSome_iff_exists.1 (hd rfl)
      refine hline (by simp only [recordLine, hd]; rfl) ?_
      exact (((hword.append h.body).append hspace).append d.ascii).append hspace |>.append hname

theorem mapM_ok {α β : Type} {f : α → Result β} {l : List α} (h : ∀ x ∈ l, ∃ y, f x = .ok y) :
    ∃ ys, l.mapM f = .ok ys := by
  induction l with
  | nil => exact ⟨[], rfl⟩
  | cons x l ih =>
      obtain ⟨y, hy⟩ := h x (.head _)
      obtain ⟨ys, hys⟩ := ih fun x' hx' => h x' (.tail _ hx')
      exact ⟨y :: ys, by rw [List.mapM_cons, hy, hys]; rfl⟩

/-! ### The loop -/

theorem directoryDigest_ok {digests : Text → Option Digest} {path : Text} (hplain : ∀ e ∈ entries, e.Plain)
    (hpath : path = lit "/" ∨ path ∈ directoriesOf entries)
    (hd : ∀ e ∈ entries, parentOf e.path = path → e.isDirectory = true → (digests e.path).isSome) :
    ∃ d, directoryDigest sha256 (childrenOf entries) digests path = .ok d := by
  rw [directoryDigest, childrenOf, if_pos hpath]
  have hrecords : ∀ e ∈ (entries.filter (parentOf ·.path = path)).insertionSort
      (fun a b => nameOf a.path ≤ nameOf b.path), ∃ r, record sha256 e digests = .ok r := by
    intro e he
    rw [List.mem_insertionSort, List.mem_filter] at he
    exact (hplain e he.1).record_ok sha256 (hd e he.1 (of_decide_eq_true he.2))
  obtain ⟨rs, hrs⟩ := mapM_ok hrecords
  exact ⟨sha256 rs.flatten, by simp only [hrs]; rfl⟩

/-- A directory's children stand behind it. -/
theorem Rooted.child_mem {es₁ es₂ : List Entry} (h : Rooted (es₁ ++ e :: es₂)) {c : Entry}
    (hc : c ∈ es₁ ++ e :: es₂) (hparent : parentOf c.path = e.path) : c ∈ es₂ := by
  have hbefore : ∀ {A B}, es₁ ++ e :: es₂ = A ++ c :: B → e.path ∈ directoriesOf A := by
    intro A B hAB
    refine hparent ▸ (h.parents A c B hAB).resolve_left ?_
    intro hroot
    exact h.below e (by simp) (hparent.symm.trans hroot)
  have hnew : e.path ∉ directoriesOf es₁ := by
    rw [List.append_cons] at h
    exact h.of_append.not_mem_directories
  obtain hc | hc := List.mem_append.1 hc
  · obtain ⟨A, B, rfl⟩ := List.append_of_mem hc
    obtain ⟨e', he', hdir⟩ := mem_directoriesOf.1 (hbefore (List.append_assoc A (c :: B) (e :: es₂)))
    exact absurd (mem_directoriesOf.2 ⟨e', List.mem_append_left _ he', hdir⟩) hnew
  · obtain rfl | hc := List.mem_cons.1 hc
    · exact absurd (hbefore rfl) hnew
    · exact hc

theorem Rooted.digestsFrom_ok (h : Rooted entries) (hplain : ∀ e ∈ entries, e.Plain) {es₁ es₂ : List Entry}
    (hes : entries = es₁ ++ es₂) (digests : Text → Option Digest)
    (hd : ∀ path, (digests path).isSome ↔ path ∈ directoriesOf es₂) :
    ∃ digests', digestsFrom sha256 (childrenOf entries) es₁.reverse digests = .ok digests' ∧
      ∀ path, (digests' path).isSome ↔ path ∈ directoriesOf entries := by
  induction es₁ using List.reverseRecOn generalizing es₂ digests with
  | nil => exact ⟨digests, rfl, hes ▸ hd⟩
  | append_singleton es₁ e ih =>
      rw [List.append_assoc, List.singleton_append] at hes
      rw [List.reverse_append, List.reverse_singleton, List.singleton_append, digestsFrom]
      cases hdir : e.isDirectory with
      | false =>
          refine ih hes digests ?_
          intro path
          rw [hd, directoriesOf, directoriesOf, List.filter_cons_of_neg (by simp [hdir])]
      | true =>
          have hmem : e.path = lit "/" ∨ e.path ∈ directoriesOf entries :=
            .inr (mem_directoriesOf.2 ⟨e, by simp [hes], hdir, rfl⟩)
          obtain ⟨d, hdigest⟩ := directoryDigest_ok sha256 hplain hmem
            fun c hc hparent hcdir => (hd c.path).2
              (mem_directoriesOf.2 ⟨c, (hes ▸ h).child_mem (hes ▸ hc) hparent, hcdir, rfl⟩)
          obtain ⟨digests', hdigests, hall⟩ := ih hes (Function.update digests e.path (some d)) (by
            intro path
            rw [directoriesOf, List.filter_cons_of_pos hdir, List.map_cons, List.mem_cons, ← directoriesOf, ← hd]
            by_cases hpath : path = e.path
            · simp [hpath]
            · simp [hpath])
          exact ⟨digests', by rw [if_pos rfl, hdigest]; exact hdigests, hall⟩

/-- `merkle ()` returns, with a digest for each directory. -/
theorem Rooted.merkle_ok (h : Rooted entries) (hplain : ∀ e ∈ entries, e.Plain) :
    ∃ tree digests, merkle sha256 entries = .ok (tree, digests) ∧
      ∀ path, (digests path).isSome ↔ path ∈ directoriesOf entries := by
  obtain ⟨digests, hdigests, hall⟩ := h.digestsFrom_ok sha256 hplain (List.append_nil entries).symm
    (fun _ => none) (by simp [directoriesOf])
  obtain ⟨tree, htree⟩ := directoryDigest_ok sha256 hplain (.inl rfl)
    fun c hc _ hdir => (hall c.path).2 (mem_directoriesOf.2 ⟨c, hc, hdir, rfl⟩)
  refine ⟨tree, digests, ?_, hall⟩
  rw [merkle, h.childrenFrom_ok]
  exact bind_ok.2 ⟨_, rfl, bind_ok.2 ⟨_, hdigests, bind_ok.2 ⟨_, htree, rfl⟩⟩⟩

end MiniDarwin.Rootfs
