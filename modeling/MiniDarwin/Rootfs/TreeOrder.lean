import MiniDarwin.Rootfs.Merkle

/-!
The order of a manifest is the order of a tree.

`scan_tree ()` is a walk of the tree that sorts each directory, so that
what it lists is in order whatever the order of the names on the disk. The
other way, a list that `check_entries ()` accepts is the listing of a tree
with its siblings in order, and a scan of that tree gives the list back.
-/

namespace MiniDarwin.Rootfs

open Data

/-! ### The scan is a walk -/

/-- What the scan reports of a place. -/
def reportAt (normalize : Bool) (i : Place) : Report :=
  match i.2 with
  | .inl what => scanLeaf normalize (spell i.1) what
  | .inr mode => ([⟨spell i.1, .directory (directoryMode normalize mode) none⟩], [])

def reportsAt (normalize : Bool) (L : List Place) : Report :=
  (L.flatMap fun i => (reportAt normalize i).1, L.flatMap fun i => (reportAt normalize i).2)

variable {p : List Text} {T : Tree} {normalize : Bool}

theorem pathIn_spellDir {name : Text} (hp : ∀ part ∈ p, isUnsafe part = false) :
    pathIn (spellDir p) name = spell (p ++ [name]) := by
  rw [spell_concat, pathIn]
  refine congrArg (· ++ 47 :: name) ?_
  obtain rfl | ⟨q, n, rfl⟩ := List.eq_nil_or_concat p
  · rfl
  · rw [List.concat_eq_append] at *
    have hn := hp n (by simp)
    rw [spellDir_of_ne_nil (by simp), spell_concat]
    obtain ⟨m, c, rfl⟩ := (List.eq_nil_or_concat n).resolve_left (ne_nil_of_safe hn)
    rw [List.concat_eq_append] at *
    have hc : c ≠ 47 := by
      rintro rfl
      exact not_mem_of_safe hn (by simp)
    rw [← List.cons_append, ← List.append_assoc]
    exact List.rdropWhile_concat_neg _ _ _ (by simpa using hc)

/-- Places with different paths are found by them. -/
theorem find?_of_nodup {L : List Place} {i : Place} (h : (L.map (·.1)).Nodup) (hi : i ∈ L) :
    L.find? (·.1 = i.1) = some i := by
  have hsome : (L.find? fun j => j.1 = i.1).isSome := List.find?_isSome.2 ⟨i, hi, by simp⟩
  obtain ⟨j, hj⟩ := Option.isSome_iff_exists.1 hsome
  have hpath : j.1 = i.1 := by simpa using List.find?_some hj
  rw [hj, List.inj_on_of_nodup_map h (List.mem_of_find?_eq_some hj) hi hpath]

theorem byName_map {τ σ : Type} (g : τ → σ) (pieces : List (Text × τ)) :
    byName (pieces.map fun x => (x.1, g x.2)) = (byName pieces).map fun x => (x.1, g x.2) :=
  (List.map_insertionSort (fun a b : Text × τ => a.1 ≤ b.1) (fun a b : Text × σ => a.1 ≤ b.1)
    (fun x => (x.1, g x.2)) pieces fun _ _ _ _ => Iff.rfl).symm

theorem inOrder_map (pieces : List (Text × List Place)) :
    inOrder (pieces.map fun x => (x.1, reportsAt normalize x.2)) =
      reportsAt normalize ((byName pieces).flatMap (·.2)) := by
  rw [inOrder, byName_map, List.flatMap_map, List.flatMap_map, reportsAt, List.flatMap_assoc, List.flatMap_assoc]
  rfl

theorem isName_of_safe {name : Text} (h : isUnsafe name = false) : isName name = true := by
  simp only [isUnsafe, decide_eq_false_iff_not, not_or, Bool.not_eq_true', Bool.not_eq_false] at h
  exact h.2

theorem reports_eq (hp : ∀ part ∈ p, isUnsafe part = false)
    (h : ∀ i ∈ T.items p, ∀ part ∈ i.1, isUnsafe part = false) :
    reports normalize (spellDir p) T = (T.pieces p).map fun x => (x.1, reportsAt normalize x.2) := by
  induction T generalizing p with
  | nil => rfl
  | leaf name what rest ih =>
      have hname := h _ (.head _) name (by simp)
      have hpath : pathIn (spellDir p) name = spell (p ++ [name]) := pathIn_spellDir hp
      rw [reports, Forest.pieces, List.map_cons, ih hp fun i hi => h i (.tail _ hi), if_pos (isName_of_safe hname), hpath]
      simp [reportsAt, reportAt]
  | node name mode children rest ihc ihr =>
      have hname := h _ (.head _) name (by simp)
      have hpath : pathIn (spellDir p) name = spell (p ++ [name]) := pathIn_spellDir hp
      have hchildren : reports normalize (spell (p ++ [name])) children =
          (children.pieces (p ++ [name])).map fun x => (x.1, reportsAt normalize x.2) := by
        rw [← spellDir_of_ne_nil (by simp : p ++ [name] ≠ [])]
        exact ihc (fun part hpart => h _ (.head _) part hpart)
          fun i hi => h i (.tail _ (List.mem_append_left _ hi))
      rw [reports, Forest.pieces, List.map_cons, ihr hp fun i hi => h i (.tail _ (List.mem_append_right _ hi)),
        if_pos (isName_of_safe hname), hpath, hchildren, inOrder_map]
      simp [reportsAt, reportAt]

theorem scanTree_eq (h : ∀ i ∈ T.items [], ∀ part ∈ i.1, isUnsafe part = false) :
    scanTree T normalize = reportsAt normalize (T.walk []) := by
  rw [scanTree, show lit "/" = spellDir [] from rfl, reports_eq (by simp) h, inOrder_map]
  rfl

/-! ### Trees whose manifest is accepted -/

/-- Names are NAME and neither `.` nor `..`, siblings differ by more than case, links pass
`check_symlink_target ()`, and nothing is neither a directory, a file nor a link. -/
structure Tame (T : Tree) : Prop where
  names : ∀ i ∈ T.items [], ∀ name ∈ i.1, isName name = true ∧ name ≠ lit "." ∧ name ≠ lit ".."
  apart : T.Apart Differ
  links : ∀ path target, (path, Sum.inl (.symlink target)) ∈ T.items [] →
    ∀ what, checkSymlinkTarget (spell path) (str target) what = .ok ()
  known : ∀ path, (path, Sum.inl .other) ∉ T.items []

/-- What is seen of the mode of a file. -/
def seenMode (mode : Nat) : Nat := if mode &&& 0o111 ≠ 0 then 0o755 else 0o644

/-- What is left of a place when permission bits are normalized. -/
def seen (i : Place) : Place :=
  (i.1, match i.2 with
    | .inl (.file mode size sha256) => .inl (.file (seenMode mode) size sha256)
    | .inl what => .inl what
    | .inr _ => .inr 0o755)

/-- The same things at the same paths, whatever the order in which directories list them. -/
def Alike (T T' : Tree) : Prop := ((T.items []).map seen).Perm ((T'.items []).map seen)

theorem isUnsafe_iff {name : Text} :
    isUnsafe name = false ↔ isName name = true ∧ name ≠ lit "." ∧ name ≠ lit ".." := by
  constructor
  · intro h
    refine ⟨isName_of_safe h, ?_, ?_⟩
    · rintro rfl
      cases h
    · rintro rfl
      cases h
  · rintro ⟨hname, hdot, hdots⟩
    have hne : name ≠ [] := by
      rintro rfl
      cases hname
    simp [isUnsafe, hname, hdot, hdots, hne]

theorem Differ.irrefl (a : Text) : ¬ Differ a a := fun h => h rfl

theorem Differ.ne {a b : Text} (h : Differ a b) : a ≠ b := by
  rintro rfl
  exact h rfl

theorem beside_symm (i j : Place) (h : Forest.Beside Differ i.1 j.1) : Forest.Beside Differ j.1 i.1 :=
  fun q a b hj hi => (h q b a hi hj).symm

/-- The walk of a tree gives its places in order. -/
theorem Tame.good (h : Tame T) : Good (T.walk []) where
  listed := (h.apart.imp fun _ _ => Differ.ne).listed_walk
  beside := by
    exact (List.Perm.pairwise_iff (beside_symm _ _) Forest.walk_perm).2 (h.apart.beside Differ.irrefl)
  fits := by
    intro i hi
    have hmem := Forest.walk_perm.mem_iff.1 hi
    obtain ⟨n, -, r, hr⟩ := Forest.mem_items_below hmem
    refine ⟨by simp [hr], fun part hpart => isUnsafe_iff.2 (h.names i hmem part hpart), ?_⟩
    obtain ⟨path, (_ | target | _) | _⟩ := i
    · trivial
    · exact h.links path target hmem
    · exact absurd hmem (h.known path)
    · trivial

/-- Places in order are those of a tree. -/
theorem Good.exists_tree {L : List Place} (h : Good L) : ∃ T, Tame T ∧ T.walk [] = L := by
  obtain ⟨T, hT, rfl⟩ := h.listed.exists_forest
  refine ⟨T, ⟨?_, ?_, ?_, ?_⟩, ?_⟩
  · exact fun i hi name hname => isUnsafe_iff.1 ((h.fits i hi).safe name hname)
  · have : Std.Symm fun i j : Place => Forest.Beside Differ i.1 j.1 := ⟨beside_symm⟩
    refine hT.of_items (p := []) ?_
    intro q a b x y ha hb hab
    refine h.beside.forall ha hb ?_ q a b rfl rfl
    intro heq
    obtain ⟨-, hab'⟩ := List.append_inj' (congrArg Prod.fst heq) rfl
    exact hab.ne (List.cons.inj hab').1
  · exact fun path target hmem => (h.fits _ hmem).sound
  · exact fun path hmem => (h.fits _ hmem).sound
  · exact eq_of_perm_of_sorted (hT.imp fun _ _ => ne_of_lt).listed_walk.sorted h.listed.sorted Forest.walk_perm

/-! ### Entries of places -/

variable {L : List Place} {es : List Entry} {i : Place} {e : Entry}

/-- The entry is that of the place, its modes and its digest apart. -/
def Lists (i : Place) (e : Entry) : Prop := ∃ normalize digest, entryOf normalize digest i = some e

theorem Lists.path (h : Lists i e) : e.path = spell i.1 := by
  obtain ⟨normalize, digest, h⟩ := h
  obtain ⟨p, (_ | _ | _) | _⟩ := i
  · cases h; rfl
  · cases h; rfl
  · cases h
  · cases h; rfl

theorem Lists.isDirectory (h : Lists i e) : e.isDirectory = isDir i := by
  obtain ⟨normalize, digest, h⟩ := h
  obtain ⟨p, (_ | _ | _) | _⟩ := i
  · cases h; rfl
  · cases h; rfl
  · cases h
  · cases h; rfl

theorem paths_eq (h : List.Forall₂ Lists L es) : es.map (·.path) = L.map fun i => spell i.1 := by
  induction h with
  | nil => rfl
  | cons hi _ ih => rw [List.map_cons, List.map_cons, hi.path, ih]

theorem directoriesOf_eq (h : List.Forall₂ Lists L es) :
    directoriesOf es = (L.filter isDir).map fun i => spell i.1 := by
  induction h with
  | nil => rfl
  | @cons i e L es hi _ ih =>
      rw [directoriesOf] at ih ⊢
      cases hd : isDir i with
      | false => rw [List.filter_cons_of_neg (by simp [hi.isDirectory, hd]), List.filter_cons_of_neg (by simp [hd]), ih]
      | true =>
          rw [List.filter_cons_of_pos (by simp [hi.isDirectory, hd]), List.filter_cons_of_pos (by simp [hd]),
            List.map_cons, List.map_cons, hi.path, ih]

/-- Entries in the order of a tree can be given their digests. -/
theorem Good.rooted (hL : Good L) (h : List.Forall₂ Lists L es) : Rooted es where
  parents := by
    rintro es₁ e es₂ rfl
    have h₁ := List.forall₂_take_append L es₁ (e :: es₂) h
    have h₂ := List.forall₂_drop_append L es₁ (e :: es₂) h
    obtain ⟨i, L₂, hi, -, hdrop⟩ := List.forall₂_cons_right_iff.1 h₂
    have hsplit : L = L.take es₁.length ++ i :: L₂ := by rw [← hdrop, List.take_append_drop]
    have hmem : i ∈ L := by
      rw [hsplit]
      exact List.mem_append_right _ (.head _)
    have hfits := hL.fits i hmem
    obtain ⟨q, n, hq⟩ := (List.eq_nil_or_concat i.1).resolve_left hfits.nonempty
    rw [List.concat_eq_append] at hq
    rw [hi.path, hq, parentOf_spell (not_mem_of_safe (hfits.safe n (by simp [hq])))]
    obtain hroot | ⟨c, hc⟩ := ((listed_iff_before.1 hL.listed).2 _ i L₂ hsplit).2
    · left
      rw [hq, List.dropLast_concat] at hroot
      rw [hroot]
      rfl
    · right
      rw [hq, List.dropLast_concat] at hc
      have hne : q ≠ [] := (hL.fits _ (List.mem_of_mem_take hc)).nonempty
      rw [spellDir_of_ne_nil hne, directoriesOf_eq h₁]
      exact List.mem_map.2 ⟨_, List.mem_filter.2 ⟨hc, rfl⟩, rfl⟩
  nodup := by
    rw [paths_eq h]
    have hne : L.Pairwise fun i j => i.1 ≠ j.1 := hL.listed.sorted.imp fun hlt => hlt.ne
    refine List.pairwise_map.2 (hne.imp_of_mem ?_)
    intro i j hi hj hij heq
    exact hij (spell_injective (hL.fits i hi).safe (hL.fits j hj).safe heq)
  below := by
    intro e he hroot
    obtain ⟨i, hi, hie⟩ := List.mem_map.1 (paths_eq h ▸ List.mem_map_of_mem he : e.path ∈ L.map fun i => spell i.1)
    have hfits := hL.fits i hi
    have heq : spellDir i.1 = spellDir [] := (spellDir_of_ne_nil hfits.nonempty).trans (hie.trans hroot)
    exact hfits.nonempty (spellDir_injective hfits.safe (by simp) heq)

/-! ### What the scan lists -/

theorem Sound.reportAt (normalize : Bool) (h : Sound i) :
    ∃ e, entryOf normalize none i = some e ∧ Rootfs.reportAt normalize i = ([e], []) := by
  obtain ⟨p, (_ | _ | _) | _⟩ := i
  · exact ⟨_, rfl, rfl⟩
  · exact ⟨_, rfl, rfl⟩
  · cases h
  · exact ⟨_, rfl, rfl⟩

theorem reportsAt_sound (normalize : Bool) (h : ∀ i ∈ L, Sound i) :
    ∃ es, List.Forall₂ (fun i e => entryOf normalize none i = some e) L es ∧ reportsAt normalize L = (es, []) := by
  induction L with
  | nil => exact ⟨[], .nil, rfl⟩
  | cons i L ih =>
      obtain ⟨e, he, hreport⟩ := (h i (.head _)).reportAt normalize
      obtain ⟨es, hes, hreports⟩ := ih fun j hj => h j (.tail _ hj)
      refine ⟨e :: es, .cons he hes, ?_⟩
      rw [reportsAt, Prod.mk.injEq] at hreports ⊢
      simp [hreport, hreports.1, hreports.2]

theorem mem_intercalate_slash {parts : List Text} {c : Nat} (h : c ∈ [47].intercalate parts) :
    c = 47 ∨ ∃ part ∈ parts, c ∈ part := by
  induction parts with
  | nil => cases h
  | cons part parts ih =>
      obtain rfl | hne := eq_or_ne parts []
      · exact .inr ⟨part, .head _, by simpa using h⟩
      · rw [List.intercalate_cons_of_ne_nil hne, List.append_assoc, List.mem_append, List.mem_append,
          List.mem_singleton] at h
        obtain h | h | h := h
        · exact .inr ⟨part, .head _, h⟩
        · exact .inl h
        · refine (ih h).imp_right ?_
          rintro ⟨part', hpart', hc⟩
          exact ⟨part', .tail _ hpart', hc⟩

theorem ascii_of_safe {name : Text} (h : isUnsafe name = false) : Ascii name := by
  intro c hc
  have hname := isName_of_safe h
  simp only [isName, decide_eq_true_eq] at hname
  have := hname.2 c hc
  omega

theorem Ascii.spell {p : List Text} (h : ∀ part ∈ p, isUnsafe part = false) : Ascii (Rootfs.spell p) := by
  intro c hc
  obtain ⟨part, hpart, hc⟩ := List.mem_flatMap.1 hc
  obtain rfl | hc := List.mem_cons.1 hc
  · decide
  · exact ascii_of_safe (h part hpart) c hc

theorem ascii_of_link {path target what : Text} (h : checkSymlinkTarget path (str target) what = .ok ()) :
    Ascii target := by
  cases target with
  | nil => cases h
  | cons c rest =>
      simp only [checkSymlinkTarget, str, invalid] at h
      split_ifs at h with hslash hnames hunsafe hups
      intro d hd
      have hjoin : [47].intercalate ((c :: rest).splitOn 47) = c :: rest := List.intercalate_splitOn 47
      rw [← hjoin] at hd
      obtain rfl | ⟨part, hpart, hd⟩ := mem_intercalate_slash hd
      · decide
      rw [← List.take_append_drop (List.takeWhile (· = lit "..") ((c :: rest).splitOn 47)).length
        ((c :: rest).splitOn 47), List.mem_append] at hpart
      obtain hpart | hpart := hpart
      · rw [List.prefix_iff_eq_take.1 (List.takeWhile_prefix _) |>.symm] at hpart
        have hdots := List.mem_takeWhile_imp hpart
        obtain rfl := of_decide_eq_true hdots
        exact (by decide : Ascii (lit "..")) d hd
      · refine ascii_of_safe ?_ d hd
        by_contra hpart'
        exact hunsafe (List.any_eq_true.2 ⟨part, hpart, by simpa using hpart'⟩)

theorem ascii_fileMode {mode : Nat} : Ascii (fileMode true mode) := by
  rw [fileMode, if_pos rfl]
  split <;> decide

theorem Fits.plain (h : Fits i) {digest : Option Digest} (he : entryOf true digest i = some e) : e.Plain := by
  have hpath : Ascii e.path := by
    rw [Lists.path ⟨true, digest, he⟩]
    exact .spell h.safe
  refine ⟨hpath, ?_⟩
  obtain ⟨p, (⟨mode, size, sha256⟩ | target | _) | mode⟩ := i
  · cases he
    exact ⟨ascii_fileMode, sha256.ascii⟩
  · cases he
    exact ascii_of_link (h.sound [])
  · cases he
  · cases he
    exact (by decide : Ascii (lit "0755"))

/-- The digests that `manifest_document ()` fills in. -/
theorem finish_ok {digests : Text → Option Digest} (he : entryOf true none i = some e)
    (hd : isDir i = true → (digests e.path).isSome) : ∃ e', finish digests e = .ok e' ∧ Describes i e'.value := by
  obtain ⟨p, (⟨mode, size, sha256⟩ | target | _) | mode⟩ := i
  · cases he
    exact ⟨_, rfl, default, rfl⟩
  · cases he
    exact ⟨_, rfl, default, rfl⟩
  · cases he
  · cases he
    obtain ⟨d, hd⟩ := Option.isSome_iff_exists.1 (hd rfl)
    refine ⟨⟨spell p, .directory (lit "0755") (some d.text)⟩, ?_, d, rfl⟩
    simp only [finish, hd]
    rfl

theorem mapM_forall₂ {ι α β : Type} {P : ι → α → Prop} {Q : ι → β → Prop} {f : α → Result β} {is : List ι}
    {as : List α} (h : List.Forall₂ P is as) (hf : ∀ i ∈ is, ∀ a ∈ as, P i a → ∃ b, f a = .ok b ∧ Q i b) :
    ∃ bs, as.mapM f = .ok bs ∧ List.Forall₂ Q is bs := by
  induction h with
  | nil => exact ⟨[], rfl, .nil⟩
  | @cons i a is as hi _ ih =>
      obtain ⟨b, hb, hq⟩ := hf i (.head _) a (.head _) hi
      obtain ⟨bs, hbs, hqs⟩ := ih fun i' hi' a' ha' => hf i' (.tail _ hi') a' (.tail _ ha')
      exact ⟨b :: bs, by rw [List.mapM_cons, hb, hbs]; rfl, .cons hq hqs⟩

theorem forall₂_exists {α β : Type} {R : α → β → Prop} {as : List α} {bs : List β} {b : β} (h : List.Forall₂ R as bs)
    (hb : b ∈ bs) : ∃ a ∈ as, R a b := by
  induction h with
  | nil => cases hb
  | cons hab _ ih =>
      obtain rfl | hb := List.mem_cons.1 hb
      · exact ⟨_, .head _, hab⟩
      · obtain ⟨a, ha, hab⟩ := ih hb
        exact ⟨a, .tail _ ha, hab⟩

/-- The document of places in order has entries that describe them. -/
theorem Good.manifestDocument_ok (sha256 : Text → Digest) (hL : Good L)
    (hes : List.Forall₂ (fun i e => entryOf true none i = some e) L es) (identity : Value) (build : Option Value) :
    ∃ document values, manifestDocument sha256 identity build es = .ok document ∧
      get document (lit "entries") = .list values ∧ List.Forall₂ Describes L values := by
  have hlists : List.Forall₂ Lists L es := hes.imp fun _ _ h => ⟨true, none, h⟩
  have hplain : ∀ e ∈ es, e.Plain := by
    intro e he
    obtain ⟨i, hi, hie⟩ := forall₂_exists hes he
    exact (hL.fits i hi).plain hie
  obtain ⟨tree, digests, hmerkle, hall⟩ := (hL.rooted hlists).merkle_ok sha256 hplain
  obtain ⟨finished, hfinished, hdesc⟩ := mapM_forall₂ (f := finish digests) hes (by
    intro i hi e he hie
    refine finish_ok hie fun hdir => (hall e.path).2 (mem_directoriesOf.2 ⟨e, he, ?_, rfl⟩)
    rw [Lists.isDirectory ⟨true, none, hie⟩, hdir])
  refine ⟨_, finished.map Entry.value, bind_ok.2 ⟨_, hmerkle, bind_ok.2 ⟨_, hfinished, rfl⟩⟩, ?_, ?_⟩
  · cases build <;> rfl
  · exact List.forall₂_map_right_iff.2 hdesc

/-! ### The two directions -/

/-- A value without its digest. -/
def digestless : Value → Value
  | .map fields => .map (fields.map fun field => if field.1 = lit "digest" then (field.1, null) else field)
  | value => value

theorem Describes.digestless {value : Value} (h : Describes i value) (he : entryOf true none i = some e) :
    Rootfs.digestless value = e.value := by
  obtain ⟨digest, h⟩ := h
  obtain ⟨p, (_ | _ | _) | _⟩ := i
  · cases h; cases he; rfl
  · cases h; cases he; rfl
  · cases h
  · cases h; cases he; rfl

theorem digestless_values {values : List Value} (hdesc : List.Forall₂ Describes L values)
    (hes : List.Forall₂ (fun i e => entryOf true none i = some e) L es) :
    values.map digestless = es.map Entry.value := by
  induction hdesc generalizing es with
  | nil =>
      cases hes
      rfl
  | cons hi _ ih =>
      cases hes with
      | cons he hes => rw [List.map_cons, List.map_cons, hi.digestless he, ih hes]

theorem str_inj {s t : Text} : str s = str t ↔ s = t := by simp [str]

theorem optional_injective : Function.Injective optional := by
  intro a b h
  cases a <;> cases b <;> simp_all [optional, str, null]

theorem Entry.value_injective : Function.Injective Entry.value := by
  rintro ⟨p, body⟩ ⟨q, body'⟩ h
  cases body <;> cases body' <;>
    simp only [Entry.value, Value.map.injEq, List.cons.injEq, Prod.mk.injEq, str_inj, Value.scalar.injEq,
      Scalar.int.injEq, Nat.cast_inj, true_and, and_true, reduceCtorEq, and_false] at h ⊢
  · obtain ⟨rfl, rfl, hdigest⟩ := h
    rw [optional_injective hdigest]
  · obtain ⟨rfl, rfl, rfl, rfl⟩ := h
    rfl
  · obtain ⟨rfl, rfl⟩ := h
    rfl

theorem fileMode_eq {a b : Nat} : fileMode true a = fileMode true b ↔ seenMode a = seenMode b := by
  simp only [fileMode, seenMode, if_true]
  split <;> split <;> decide

theorem Digest.text_injective : Function.Injective Digest.text := by
  rintro ⟨a, _⟩ ⟨b, _⟩ rfl
  rfl

/-- An entry without its digest is what is seen of its place. -/
theorem entryOf_eq_iff {j : Place} (hi : Fits i) (hj : Fits j) :
    entryOf true none i = entryOf true none j ↔ seen i = seen j := by
  have hpath : spell i.1 = spell j.1 ↔ i.1 = j.1 := ⟨spell_injective hi.safe hj.safe, congrArg spell⟩
  have hx := hi.sound
  obtain ⟨p, x⟩ := i
  obtain ⟨q, y⟩ := j
  rcases x with (_ | _ | _) | _ <;> rcases y with (_ | _ | _) | _ <;>
    simp_all [entryOf, seen, fileMode_eq, Digest.text_injective.eq_iff, Sound, directoryMode]

theorem map_seen_iff {L' : List Place} {es' : List Entry} (hL : ∀ i ∈ L, Fits i) (hL' : ∀ i ∈ L', Fits i)
    (hes : List.Forall₂ (fun i e => entryOf true none i = some e) L es)
    (hes' : List.Forall₂ (fun i e => entryOf true none i = some e) L' es') :
    es = es' ↔ L.map seen = L'.map seen := by
  have hmap : ∀ {L : List Place} {es}, List.Forall₂ (fun i e => entryOf true none i = some e) L es →
      L.map (entryOf true none) = es.map some := by
    intro L es h
    induction h with
    | nil => rfl
    | cons he _ ih => rw [List.map_cons, List.map_cons, he, ih]
  rw [← (List.map_injective_iff.2 (Option.some_injective Entry)).eq_iff, ← hmap hes, ← hmap hes']
  clear hes hes'
  induction L generalizing L' with
  | nil => cases L' <;> simp
  | cons i L ih =>
      cases L' with
      | nil => simp
      | cons j L' =>
          have hrest := ih (fun k hk => hL k (.tail _ hk)) fun k hk => hL' k (.tail _ hk)
          simp only [List.map_cons, List.cons.injEq, entryOf_eq_iff (hL i (.head _)) (hL' j (.head _)), hrest]

/-- Trees alike are walked alike. -/
theorem alike_iff {T T' : Tree} (h : Tame T) (h' : Tame T') :
    Alike T T' ↔ (T.walk []).map seen = (T'.walk []).map seen := by
  have hsorted : ∀ {T : Tree}, Tame T → ((T.walk []).map seen).Pairwise fun i j => i.1 < j.1 := fun h =>
    List.pairwise_map.2 h.good.listed.sorted
  have hperm : ∀ T : Tree, ((T.walk []).map seen).Perm ((T.items []).map seen) := fun T => Forest.walk_perm.map seen
  constructor
  · intro halike
    exact eq_of_perm_of_sorted (hsorted h) (hsorted h') ((hperm T).trans (halike.trans (hperm T').symm))
  · intro heq
    exact (hperm T).symm.trans (heq ▸ hperm T')

/-- What the scan lists of a tree. -/
theorem Tame.scanTree_eq (h : Tame T) : ∃ es,
    List.Forall₂ (fun i e => entryOf true none i = some e) (T.walk []) es ∧ scanTree T true = (es, []) := by
  have hgood := h.good
  obtain ⟨es, hes, hreports⟩ := reportsAt_sound true fun i hi => (hgood.fits i hi).sound
  refine ⟨es, hes, ?_⟩
  rw [Rootfs.scanTree_eq fun i hi => (hgood.fits i (Forest.walk_perm.mem_iff.2 hi)).safe, hreports]

/-- Manifest order is tree order: what is scanned of a tree is accepted once it has its digests, what is
accepted is the scan of the trees like one, and the listings are the forests in order. -/
theorem manifest_order (sha256 : Text → Digest) :
    (∀ T : Tree, Tame T → (scanTree T true).2 = [] ∧ ∀ identity build what, ∃ document entries,
      manifestDocument sha256 identity build (scanTree T true).1 = .ok document ∧
        get document (lit "entries") = .list entries ∧ checkEntries entries what = .ok ()) ∧
    (∀ entries what, checkEntries entries what = .ok () → ∃ T : Tree, Tame T ∧ ∀ T', Tame T' →
      ((scanTree T' true).1.map Entry.value = entries.map digestless ↔ Alike T' T)) ∧
    ∀ L : List Place,
      ((L.Pairwise fun i j => i.1 < j.1) ∧ ∀ L₁ i L₂, L = L₁ ++ i :: L₂ → i.1 ≠ [] ∧
        (i.1.dropLast = [] ∨ ∃ mode, (i.1.dropLast, Sum.inr mode) ∈ L₁)) ↔
      ∃ T : Tree, T.Apart (· < ·) ∧ T.items [] = L := by
  refine ⟨?_, ?_, ?_⟩
  · intro T hT
    obtain ⟨es, hes, hreport⟩ := hT.scanTree_eq
    rw [hreport]
    refine ⟨rfl, ?_⟩
    intro identity build what
    obtain ⟨document, values, hdocument, hentries, hdesc⟩ := hT.good.manifestDocument_ok sha256 hes identity build
    exact ⟨document, values, hdocument, hentries, checkEntries_ok.2 ⟨_, hT.good, hdesc⟩⟩
  · intro values what h
    obtain ⟨L, hL, hdesc⟩ := checkEntries_ok.1 h
    obtain ⟨T, hT, rfl⟩ := hL.exists_tree
    refine ⟨T, hT, ?_⟩
    intro T' hT'
    obtain ⟨es, hes, -⟩ := hT.scanTree_eq
    obtain ⟨es', hes', hreport'⟩ := hT'.scanTree_eq
    rw [hreport', digestless_values hdesc hes, (List.map_injective_iff.2 Entry.value_injective).eq_iff,
      map_seen_iff hT'.good.fits hT.good.fits hes' hes, alike_iff hT' hT]
  · intro L
    rw [← listed_iff, listed_iff_before]
    have hne : ∀ i : Place, i.1 ≠ [] ↔ ∃ n r, i.1 = [] ++ n :: r := by
      intro i
      rw [List.ne_nil_iff_exists_cons]
      rfl
    simp only [hne]

/-- A directory `a`, and beside it a name that begins with `a.`, which sorts before `a/`. -/
def dotted : Tree :=
  .leaf (lit "a.c") (.symlink (lit "a/b")) (.node (lit "a") 0o700 (.leaf (lit "b") (.file 0o600 3 default) .nil) .nil)

theorem tame_dotted : Tame dotted where
  names := by decide +kernel
  apart := by
    simp only [dotted, Forest.Apart, Forest.names, Differ]
    decide +kernel
  links := by
    intro path target hmem what
    simp only [dotted, Forest.items, List.mem_cons, Prod.mk.injEq, Sum.inl.injEq, Leaf.symlink.injEq, reduceCtorEq,
      List.nil_append, List.append_nil, and_false, List.not_mem_nil, or_false] at hmem
    obtain ⟨rfl, rfl⟩ := hmem
    rfl
  known := by
    intro path hmem
    simp [dotted, Forest.items] at hmem

theorem manifest_order_dotted : ∃ entries, checkEntries entries (lit "tree") = .ok () ∧
    ∃ T : Tree, Tame T ∧ (scanTree T true).1.map Entry.value = entries.map digestless := by
  have hscan := ((manifest_order fun _ => default).1 dotted tame_dotted).2
  obtain ⟨_, entries, -, -, hcheck⟩ := hscan (.map []) none (lit "tree")
  obtain ⟨T, hT, hall⟩ := (manifest_order fun _ => default).2.1 entries (lit "tree") hcheck
  exact ⟨entries, hcheck, T, hT, (hall T hT).2 (.refl _)⟩

example : (scanTree dotted true).1.map (·.path) = [lit "/a", lit "/a/b", lit "/a.c"] := by decide +kernel

end MiniDarwin.Rootfs
