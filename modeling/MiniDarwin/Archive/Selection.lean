import MiniDarwin.Archive.Package

/-!
What `package_resolve ()` loads.

`load_component ()` returns at once for a directory that is loaded, before
it compares any identifier. So each directory that is selected is loaded
once, under the first identifier that asks for it; a second identifier for
the same directory gets no component and no error.
-/

namespace MiniDarwin.Archive

open Posix (Bytes)

/-! ### Rules -/

/-- Whatever comes back meets `Q`. -/
def Returns {α : Type} (x : Result α) (Q : α → Prop) : Prop := ∀ a, x = .ok a → Q a

section Rules

variable {α β : Type} {x : Result α} {f : α → Result β} {Q R : α → Prop} {P : β → Prop}

theorem returns_ok {a : α} (h : Q a) : Returns (.ok a) Q := fun _ ha => Except.ok.inj ha ▸ h

theorem returns_pure {a : α} (h : Q a) : Returns (pure a) Q := returns_ok h

theorem returns_bind (h : Returns x fun a => Returns (f a) P) : Returns (x >>= f) P := by
  cases x with
  | error e =>
      intro b hb
      cases hb
  | ok a => exact h a rfl

theorem Returns.mono (h : Returns x Q) (hQ : ∀ a, Q a → R a) : Returns x R := fun a ha => hQ a (h a ha)

theorem returns_dieIf {p : Prop} [Decidable p] {message : String} {Q : Unit → Prop} (h : ¬ p → Q ()) :
    Returns (dieIf p message) Q := fun _ hok => h (dieIf_eq_ok.1 hok)

end Rules

/-! ### What is selected -/

/-- The identifier and the directory that an active reference asks for. -/
def referenceWants (js : Option Script) (dist : Node) (i : Nat) (n : Node × Nat) : Set (Bytes × Bytes) :=
  {wanted | xmlAttr n.1 (lit "id") = .ok wanted.1 ∧ ∃ found, findReference dist wanted.1 = .ok found ∧
    referenceActive js found i n.2 = .ok true ∧ found.path = wanted.2}

/-- What a selected choice asks for. -/
def choiceWants (js : Option Script) (dist : Node) (choice : Choice × Nat) : Set (Bytes × Bytes) :=
  {wanted | choiceSelected js choice.1 choice.2 = .ok true ∧
    ∃ n ∈ (xmlElements choice.1.node).zipIdx, wanted ∈ referenceWants js dist choice.2 n}

/-- All that the Distribution selects. -/
def selection (js : Option Script) (dist : Node) (choices : List Choice) : Set (Bytes × Bytes) :=
  {wanted | ∃ choice ∈ choices.zipIdx, wanted ∈ choiceWants js dist choice}

/-- The components are those that were asked for, each once. -/
structure Installs (asked : Set (Bytes × Bytes)) (components : List Component) : Prop where
  loaded : ∀ id dir, (id, dir) ∈ asked → ∃ c ∈ components, c.identifier = id ∧ c.xarDir = dir
  arises : ∀ c ∈ components, (c.identifier, c.xarDir) ∈ asked
  identifiers : (components.map (·.identifier)).Nodup
  directories : (components.map (·.xarDir)).Nodup

/-- What holds whatever the identifiers are: only the directories are sure to be loaded. -/
structure Covers (asked : Set (Bytes × Bytes)) (components : List Component) : Prop where
  loaded : ∀ id dir, (id, dir) ∈ asked → ∃ c ∈ components, c.xarDir = dir
  arises : ∀ c ∈ components, (c.identifier, c.xarDir) ∈ asked
  identifiers : (components.map (·.identifier)).Nodup
  directories : (components.map (·.xarDir)).Nodup

variable {asked : Set (Bytes × Bytes)} {components : List Component}

theorem covers_nil : Covers ∅ [] where
  loaded _ _ h := h.elim
  arises _ h := (List.not_mem_nil h).elim
  identifiers := List.nodup_nil
  directories := List.nodup_nil

/-- A directory that is loaded already. -/
theorem Covers.again {id dir : Bytes} (h : Covers asked components) (hdir : ∃ c ∈ components, c.xarDir = dir) :
    Covers (insert (id, dir) asked) components where
  loaded id' dir' hasked := by
    obtain heq | hasked := Set.mem_insert_iff.1 hasked
    · obtain ⟨-, rfl⟩ := Prod.mk.inj heq
      exact hdir
    · exact h.loaded id' dir' hasked
  arises c hc := Set.mem_insert_of_mem _ (h.arises c hc)
  identifiers := h.identifiers
  directories := h.directories

/-- A component that is new. -/
theorem Covers.append {c : Component} (h : Covers asked components)
    (hid : ∀ d ∈ components, d.identifier ≠ c.identifier) (hdir : ∀ d ∈ components, d.xarDir ≠ c.xarDir) :
    Covers (insert (c.identifier, c.xarDir) asked) (components ++ [c]) where
  loaded id dir hasked := by
    obtain heq | hasked := Set.mem_insert_iff.1 hasked
    · obtain ⟨-, rfl⟩ := Prod.mk.inj heq
      exact ⟨c, List.mem_append_right _ (.head _), rfl⟩
    · obtain ⟨d, hd, hdir⟩ := h.loaded id dir hasked
      exact ⟨d, List.mem_append_left _ hd, hdir⟩
  arises d hd := by
    obtain hd | hd := List.mem_append.1 hd
    · exact Set.mem_insert_of_mem _ (h.arises d hd)
    · rw [List.mem_singleton.1 hd]
      exact Set.mem_insert _ _
  identifiers := by
    rw [List.map_append, List.nodup_append]
    refine ⟨h.identifiers, List.nodup_singleton _, ?_⟩
    intro a ha b hb
    obtain ⟨d, hd, rfl⟩ := List.mem_map.1 ha
    rw [List.mem_singleton.1 hb]
    exact hid d hd
  directories := by
    rw [List.map_append, List.nodup_append]
    refine ⟨h.directories, List.nodup_singleton _, ?_⟩
    intro a ha b hb
    obtain ⟨d, hd, rfl⟩ := List.mem_map.1 ha
    rw [List.mem_singleton.1 hb]
    exact hdir d hd

/-- One component for each identifier, exactly when no directory goes by two of them. -/
theorem Covers.installs_iff (h : Covers asked components) :
    Installs asked components ↔ ∀ id id' dir, (id, dir) ∈ asked → (id', dir) ∈ asked → id = id' := by
  constructor
  · intro hall id id' dir hid hid'
    obtain ⟨c, hc, hcid, hcdir⟩ := hall.loaded id dir hid
    obtain ⟨d, hd, hdid, hddir⟩ := hall.loaded id' dir hid'
    have hcd : c = d := List.inj_on_of_nodup_map hall.directories hc hd (hcdir.trans hddir.symm)
    rw [← hcid, hcd, hdid]
  · intro hone
    refine ⟨?_, h.arises, h.identifiers, h.directories⟩
    intro id dir hid
    obtain ⟨c, hc, hcdir⟩ := h.loaded id dir hid
    refine ⟨c, hc, ?_, hcdir⟩
    apply hone _ _ dir _ hid
    rw [← hcdir]
    exact h.arises c hc

/-! ### One component -/

variable {decoders : Decoders} {js script : Option Script} {dist info : Node} {pkg pkg' : Package}
  {dir id : Bytes}

theorem loadInfo_returns :
    Returns (loadInfo pkg dir (some id) info) fun c =>
      c.xarDir = dir ∧ c.identifier = id ∧ ∀ d ∈ pkg.components, d.identifier ≠ id := by
  apply returns_bind
  intro format _
  apply returns_bind
  apply returns_dieIf
  intro _
  apply returns_bind
  intro identifier _
  apply returns_bind
  intro _ _
  apply returns_bind
  apply returns_dieIf
  intro hexpected
  have hid : identifier = id := by simpa using hexpected
  apply returns_bind
  apply returns_dieIf
  intro hnew
  apply returns_bind
  intro version _
  apply returns_bind
  intro location _
  apply returns_bind
  intro _ _
  apply returns_pure
  refine ⟨rfl, hid, ?_⟩
  intro d hd heq
  exact hnew ⟨d, hd, heq.trans hid.symm⟩

/-- What is read from the archives leaves the identifier and the directory as they are. -/
theorem loadContents_returns {c : Component} :
    Returns (loadContents decoders pkg dir info c) fun c' => c'.xarDir = c.xarDir ∧ c'.identifier = c.identifier := by
  apply returns_bind
  intro payloadData _
  apply returns_bind
  intro scriptsData _
  apply returns_bind
  intro payload _
  apply returns_bind
  intro scripts _
  apply returns_bind
  intro bom _
  apply returns_bind
  apply returns_dieIf
  intro _
  apply returns_bind
  intro _ _
  apply returns_bind
  intro hooks _
  apply returns_bind
  intro placed _
  exact returns_pure ⟨rfl, rfl⟩

theorem loadComponent_covers (h : Covers asked pkg.components) :
    Returns (loadComponent decoders pkg dir (some id) false) fun pkg' =>
      Covers (insert (id, dir) asked) pkg'.components := by
  unfold loadComponent
  split
  · next hloaded => exact returns_pure (h.again hloaded)
  · next hnew =>
      have hdir : ∀ d ∈ pkg.components, d.xarDir ≠ dir := fun d hd heq => hnew ⟨d, hd, heq⟩
      apply returns_bind
      apply returns_dieIf
      intro _
      apply returns_bind
      intro member _
      apply returns_bind
      intro doc _
      apply returns_bind
      intro info _
      apply returns_bind
      refine loadInfo_returns.mono ?_
      rintro c ⟨hcdir, hcid, hid⟩
      rw [if_neg (by decide)]
      apply returns_bind
      refine loadContents_returns.mono ?_
      rintro c' ⟨hdir', hid'⟩
      apply returns_pure
      rw [hcdir] at hdir'
      rw [hcid] at hid'
      rw [← hdir'] at hdir ⊢
      rw [← hid'] at hid ⊢
      exact h.append hid hdir

/-! ### The loops -/

/-- A loop whose steps each add what they ask for. -/
theorem covers_foldlM {α : Type} {f : Package → α → Result Package} {wants : α → Set (Bytes × Bytes)}
    (hstep : ∀ (x : α) (asked : Set (Bytes × Bytes)) (pkg : Package), Covers asked pkg.components →
      Returns (f pkg x) fun pkg' => Covers (asked ∪ wants x) pkg'.components)
    (l : List α) {asked : Set (Bytes × Bytes)} {pkg : Package} (h : Covers asked pkg.components) :
    Returns (l.foldlM f pkg) fun pkg' => Covers (asked ∪ {wanted | ∃ x ∈ l, wanted ∈ wants x}) pkg'.components := by
  induction l generalizing asked pkg with
  | nil =>
      apply returns_pure
      have hnone : asked ∪ {wanted | ∃ x ∈ ([] : List α), wanted ∈ wants x} = asked := by
        ext wanted
        simp
      rwa [hnone]
  | cons x l ih =>
      rw [List.foldlM_cons]
      apply returns_bind
      refine (hstep x asked pkg h).mono ?_
      intro pkg' hpkg'
      have hmore : asked ∪ {wanted | ∃ y ∈ x :: l, wanted ∈ wants y} =
          (asked ∪ wants x) ∪ {wanted | ∃ y ∈ l, wanted ∈ wants y} := by
        ext wanted
        simp [or_assoc]
      rw [hmore]
      exact ih hpkg'

theorem resolveReference_covers (i : Nat) (n : Node × Nat) (asked : Set (Bytes × Bytes)) (pkg : Package)
    (h : Covers asked pkg.components) :
    Returns (resolveReference decoders js dist i pkg n) fun pkg' =>
      Covers (asked ∪ referenceWants js dist i n) pkg'.components := by
  apply returns_bind
  intro id hid
  apply returns_bind
  intro found hfound
  apply returns_bind
  intro active hactive
  have hwants : referenceWants js dist i n = if active then {(id, found.path)} else ∅ := by
    ext ⟨id', dir⟩
    constructor
    · rintro ⟨hid', found', hfound', hactive', rfl⟩
      obtain rfl := Except.ok.inj (hid.symm.trans hid')
      obtain rfl := Except.ok.inj (hfound.symm.trans hfound')
      obtain rfl := Except.ok.inj (hactive.symm.trans hactive')
      exact rfl
    · cases active with
      | true =>
          intro heq
          obtain ⟨rfl, rfl⟩ := Prod.mk.inj heq
          exact ⟨hid, found, hfound, hactive, rfl⟩
      | false => exact False.elim
  rw [hwants]
  cases active with
  | true =>
      show Returns (loadComponent decoders pkg found.path (some id) false) _
      refine (loadComponent_covers h).mono ?_
      intro pkg' hpkg'
      rwa [if_pos rfl, Set.union_singleton]
  | false =>
      apply returns_pure
      rwa [if_neg Bool.false_ne_true, Set.union_empty]

theorem resolveChoice_covers (choice : Choice × Nat) (asked : Set (Bytes × Bytes)) (pkg : Package)
    (h : Covers asked pkg.components) :
    Returns (resolveChoice decoders js dist pkg choice) fun pkg' =>
      Covers (asked ∪ choiceWants js dist choice) pkg'.components := by
  apply returns_bind
  intro selected hselected
  cases selected with
  | true =>
      have hwants : choiceWants js dist choice =
          {wanted | ∃ n ∈ (xmlElements choice.1.node).zipIdx, wanted ∈ referenceWants js dist choice.2 n} := by
        ext wanted
        exact ⟨fun hw => hw.2, fun hw => ⟨hselected, hw⟩⟩
      rw [hwants]
      exact covers_foldlM (resolveReference_covers choice.2) _ h
  | false =>
      have hwants : choiceWants js dist choice = ∅ := by
        ext wanted
        constructor
        · rintro ⟨hselected', -⟩
          rw [hselected] at hselected'
          cases hselected'
        · exact False.elim
      rw [hwants, Set.union_empty]
      exact returns_pure h

/-! ### The whole -/

theorem packageResolve_covers {choices : List Choice} (hnone : pkg.components = [])
    (hdist : pkg.distribution = some dist) (hchoices : outlineChoices dist = .ok choices) :
    Returns (packageResolve decoders script pkg) fun pkg' =>
      Covers (selection (pkg.engine script) dist choices) pkg'.components := by
  unfold packageResolve
  rw [hdist]
  apply returns_bind
  apply returns_dieIf
  intro _
  rw [hchoices]
  apply returns_bind
  apply returns_ok
  apply returns_bind
  intro _ _
  apply returns_bind
  have hstart : Covers ∅ pkg.components := by
    rw [hnone]
    exact covers_nil
  refine (covers_foldlM resolveChoice_covers choices.zipIdx hstart).mono ?_
  intro pkg' hpkg'
  rw [Set.empty_union] at hpkg'
  apply returns_bind
  intro _ _
  exact returns_pure hpkg'

/-- A product archive whose Distribution was resolved has what was selected, each component
under its own identifier and from its own directory, exactly when no two of the identifiers
that are selected have one location. -/
theorem resolved_iff {choices : List Choice} (hnone : pkg.components = []) (hdist : pkg.distribution = some dist)
    (hchoices : outlineChoices dist = .ok choices) (h : packageResolve decoders script pkg = .ok pkg') :
    Installs (selection (pkg.engine script) dist choices) pkg'.components ↔
      ∀ id id' dir, (id, dir) ∈ selection (pkg.engine script) dist choices →
        (id', dir) ∈ selection (pkg.engine script) dist choices → id = id' :=
  (packageResolve_covers hnone hdist hchoices pkg' h).installs_iff

/-! ### Two packages -/

/-- The PackageInfo of the samples. -/
def packageInfoText : Bytes := lit "<pkg-info format-version=\"2\" identifier=\"org.a\" version=\"1\"/>"

def sampleDecoders : Decoders where
  xmlReadMemory b :=
    if b = packageInfoText then
      some ⟨some (.element (lit "pkg-info") [(lit "format-version", lit "2"), (lit "identifier", lit "org.a"),
        (lit "version", lit "1")] []), false⟩
    else none
  gunzip _ _ _ := die "corrupt gzip stream"

/-- A choice with references to `ids`. -/
def choiceOf (ids : List Bytes) : Node :=
  .element (lit "choice") [(lit "id", lit "c")] (ids.map fun id => .element (lit "pkg-ref") [(lit "id", id)] [])

/-- A Distribution of one choice, all of whose packages are at `#a.pkg`. -/
def distributionOf (ids : List Bytes) : Node :=
  .element (lit "installer-gui-script") []
    (.element (lit "choices-outline") [] [.element (lit "line") [(lit "choice", lit "c")] []] :: choiceOf ids ::
      ids.map fun id => .element (lit "pkg-ref") [(lit "id", id)] [.text (lit "#a.pkg")])

def packageOf (ids : List Bytes) : Package where
  xar := [⟨lit "a.pkg/Bom", lit "BOMStore" ++ List.replicate 24 0⟩, ⟨lit "a.pkg/PackageInfo", packageInfoText⟩]
  distribution := distributionOf ids

/-- The identifiers and the directories of what was loaded. -/
def loadedNames (r : Result Package) : Option (List (Bytes × Bytes)) :=
  r.toOption.map fun pkg => pkg.components.map fun c => (c.identifier, c.xarDir)

theorem exists_of_loadedNames {r : Result Package} {names : List (Bytes × Bytes)} (h : loadedNames r = some names) :
    ∃ pkg, r = .ok pkg ∧ pkg.components.map (fun c => (c.identifier, c.xarDir)) = names := by
  cases r with
  | error e => cases h
  | ok pkg => exact ⟨pkg, rfl, Option.some.inj h⟩

theorem resolved_iff_one :
    ∃ pkg', packageResolve sampleDecoders none (packageOf [lit "org.a"]) = .ok pkg' ∧
      (Installs (selection none (distributionOf [lit "org.a"]) [⟨lit "c", choiceOf [lit "org.a"]⟩]) pkg'.components ↔
        ∀ id id' dir, (id, dir) ∈ selection none (distributionOf [lit "org.a"]) [⟨lit "c", choiceOf [lit "org.a"]⟩] →
          (id', dir) ∈ selection none (distributionOf [lit "org.a"]) [⟨lit "c", choiceOf [lit "org.a"]⟩] →
          id = id') := by
  have hrun : loadedNames (packageResolve sampleDecoders none (packageOf [lit "org.a"])) =
      some [(lit "org.a", lit "a.pkg")] := by decide +kernel
  obtain ⟨pkg', hok, -⟩ := exists_of_loadedNames hrun
  exact ⟨pkg', hok, resolved_iff rfl rfl rfl hok⟩

/-- Two identifiers at one location: the second is selected, and never loaded. -/
theorem second_identifier_lost :
    ∃ pkg', packageResolve sampleDecoders none (packageOf [lit "org.a", lit "org.b"]) = .ok pkg' ∧
      ¬ Installs (selection none (distributionOf [lit "org.a", lit "org.b"])
        [⟨lit "c", choiceOf [lit "org.a", lit "org.b"]⟩]) pkg'.components := by
  have hrun : loadedNames (packageResolve sampleDecoders none (packageOf [lit "org.a", lit "org.b"])) =
      some [(lit "org.a", lit "a.pkg")] := by decide +kernel
  obtain ⟨pkg', hok, hnames⟩ := exists_of_loadedNames hrun
  refine ⟨pkg', hok, fun hall => ?_⟩
  have hwanted : (lit "org.b", lit "a.pkg") ∈ selection none (distributionOf [lit "org.a", lit "org.b"])
      [⟨lit "c", choiceOf [lit "org.a", lit "org.b"]⟩] :=
    ⟨_, .head _, by decide +kernel, _, .tail _ (.head _), rfl, ⟨lit "a.pkg", none, none⟩, rfl, rfl, rfl⟩
  obtain ⟨c, hc, hid, -⟩ := hall.loaded _ _ hwanted
  have hmem := List.mem_map_of_mem (f := fun c => (c.identifier, c.xarDir)) hc
  rw [hnames, List.mem_singleton, hid] at hmem
  have hne : lit "org.b" ≠ lit "org.a" := by decide +kernel
  exact hne (congrArg Prod.fst hmem)

end MiniDarwin.Archive
