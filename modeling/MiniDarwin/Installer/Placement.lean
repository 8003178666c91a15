import MiniDarwin.Installer.Published
import MiniDarwin.Data.Search

/-!
What `preflight ()` has made sure of when it returns.

`entries_check_paths ()` sorts the placed entries, compares neighbours and
looks up the directories above each of them. In its order the character 1
sorts like the slash. A packaged path has no control characters, but a link
of the root may lead to a name that has one, and then equal paths need not
be neighbours.
-/

namespace MiniDarwin.Installer

open Posix Effects Effects.Proc

variable {K : Kernel Part} {g : Globals} {w : World Part} {b B q : Path} {env : Env} {list sorted : List Entry}
  {α : Type}

/-! ### The order of the paths -/

/-- How a character sorts in `path_compare ()`. -/
def sortKey (c : Char) : Nat := if c = '/' then 1 else c.toNat

/-- The path has no name with the character that sorts like the slash. -/
def Plain (p : Path) : Prop := ∀ n ∈ p, '\x01' ∉ n.1

theorem pathCompare_keys (s t : Str) : pathCompare s t = compareOn (List.map sortKey) s t := by
  show pathCompare s t = compare (s.map sortKey) (t.map sortKey)
  induction s generalizing t with
  | nil =>
      cases t with
      | nil => rfl
      | cons y t => rfl
  | cons x s ih =>
      cases t with
      | nil => rfl
      | cons y t =>
          rw [List.map_cons, List.map_cons, List.compare_cons_cons, ← ih]
          show (if sortKey x = sortKey y then _ else _) = _
          split
          · next h =>
              rw [Nat.compare_eq_eq.2 h]
              rfl
          · next h =>
              cases hc : compare (sortKey x) (sortKey y) with
              | eq => exact absurd (Nat.compare_eq_eq.1 hc) h
              | lt => exact hc
              | gt => exact hc

instance : Std.TransCmp pathCompare := by
  have h : pathCompare = compareOn (List.map sortKey) := funext₂ pathCompare_keys
  rw [h]
  infer_instance

theorem sortKey_injective {x y : Char} (hx : x ≠ '\x01') (hy : y ≠ '\x01') (h : sortKey x = sortKey y) : x = y := by
  have hone : ∀ c : Char, c.toNat = 1 → c = '\x01' := fun c hc => Char.toNat_inj.1 hc
  unfold sortKey at h
  split_ifs at h with hx' hy' hy'
  · rw [hx', hy']
  · exact absurd (hone y h.symm) hy
  · exact absurd (hone x h) hx
  · exact Char.toNat_inj.1 h

theorem map_sortKey_injective {s t : Str} (hs : '\x01' ∉ s) (ht : '\x01' ∉ t) (h : s.map sortKey = t.map sortKey) :
    s = t := by
  induction s generalizing t with
  | nil => exact (List.map_eq_nil_iff.1 h.symm).symm
  | cons x s ih =>
      cases t with
      | nil => cases h
      | cons y t =>
          rw [List.mem_cons, not_or] at hs ht
          obtain ⟨hxy, hst⟩ := List.cons.inj h
          rw [sortKey_injective (Ne.symm hs.1) (Ne.symm ht.1) hxy, ih hs.2 ht.2 hst]

theorem render_injective {p q : Path} (h : render p = render q) : p = q := by
  have hsteps := congrArg steps h
  rw [steps_render, steps_render] at hsteps
  exact (List.map_injective_iff.2 fun _ _ => Step.down.inj) hsteps

theorem Plain.render {p : Path} (h : Plain p) : '\x01' ∉ render p := by
  induction p with
  | nil => exact List.not_mem_nil
  | cons n p ih =>
      have hn := h n (.head _)
      cases p with
      | nil => exact hn
      | cons m p =>
          rw [Posix.render, List.mem_append, List.mem_cons, not_or, not_or]
          exact ⟨hn, by decide, ih fun k hk => h k (.tail _ hk)⟩

/-- Only equal paths compare equal. -/
theorem pathCompare_render {p q : Path} (hp : Plain p) (hq : Plain q) :
    pathCompare (render p) (render q) = .eq ↔ p = q := by
  constructor
  · intro h
    rw [pathCompare_keys] at h
    exact render_injective (map_sortKey_injective hp.render hq.render (Std.LawfulEqOrd.eq_of_compare h))
  · rintro rfl
    exact Std.ReflCmp.compare_self

/-- The order of the sort. -/
def Sorted (x y : Entry) : Prop := pathCompare (render x.path) (render y.path) ≠ .gt

instance : DecidableRel Sorted := fun x y => inferInstanceAs (Decidable (pathCompare (render x.path) (render y.path) ≠ .gt))

instance : Std.Total Sorted where
  total x y := by
    by_contra h
    obtain ⟨hxy, hyx⟩ := not_or.1 h
    have hlt := Std.OrientedCmp.lt_of_gt (not_not.1 hyx)
    rw [Sorted, hlt] at hxy
    exact hxy (by decide)

instance : IsTrans Entry Sorted where
  trans _ _ _ hxy hyz := by
    apply Ordering.isLE_iff_ne_gt.1
    exact Std.TransCmp.isLE_trans (Ordering.ne_gt_iff_isLE.1 hxy) (Ordering.ne_gt_iff_isLE.1 hyz)

/-! ### `entries_check_paths ()` -/

/-- Two entries of a package may be placed as they are. -/
def Entry.Apart (x y : Entry) : Prop := x.path = y.path → x.isDir = true ∧ y.isDir = true

instance : Std.Symm Entry.Apart where
  symm _ _ h heq := (h heq.symm).symm

/-- What the check is for. -/
structure Consistent (list : List Entry) : Prop where
  apart : list.Pairwise Entry.Apart
  beneath : ∀ e ∈ list, ∀ f ∈ list, f.path ≠ [] → f.path <+: e.path → f.path ≠ e.path → f.isDir = true

/-- Between two entries of one path there are no others. -/
theorem apart_trans {x y z : Entry} (hx : Plain x.path) (hy : Plain y.path) (hxy : Sorted x y) (hyz : Sorted y z)
    (h : x.Apart y) (h' : y.Apart z) : x.Apart z := by
  intro heq
  have hyz' : Sorted y x := by rwa [Sorted, ← heq] at hyz
  have hsame : x.path = y.path := by
    apply (pathCompare_render hx hy).1
    exact Std.OrientedCmp.isLE_antisymm (Ordering.ne_gt_iff_isLE.1 hxy) (Ordering.ne_gt_iff_isLE.1 hyz')
  exact ⟨(h hsame).1, (h' (hsame.symm.trans heq)).2⟩

/-- Neighbours are enough. -/
theorem pairwise_apart (hplain : ∀ e ∈ sorted, Plain e.path) (hsorted : sorted.Pairwise Sorted)
    (h : ∀ x ∈ sorted.zip sorted.tail, x.1.Apart x.2) : sorted.Pairwise Entry.Apart := by
  induction sorted with
  | nil => exact .nil
  | cons x l ih =>
      obtain ⟨hx, hl⟩ := List.pairwise_cons.1 hsorted
      cases l with
      | nil => exact List.pairwise_singleton _ _
      | cons y l =>
          have hrest := ih (fun e he => hplain e (.tail _ he)) hl fun z hz => h z (.tail _ hz)
          have hxy : x.Apart y := h (x, y) (.head _)
          refine List.pairwise_cons.2 ⟨fun z hz => ?_, hrest⟩
          obtain rfl | hz' := List.mem_cons.1 hz
          · exact hxy
          · exact apart_trans (hplain x (.head _)) (hplain y (.tail _ (.head _))) (hx y (.head _))
              ((List.pairwise_cons.1 hl).1 z hz') hxy ((List.pairwise_cons.1 hrest).1 z hz')

theorem bsearch_eq (key : Str) (fuel start lim : Nat) :
    bsearch sorted key fuel start lim =
      Data.bsearchFrom (fun e => pathCompare key (render e.path)) sorted fuel start lim := by
  induction fuel generalizing start lim with
  | zero => rfl
  | succ fuel ih =>
      rw [bsearch, Data.bsearchFrom]
      by_cases hlim : lim = 0
      · rw [if_pos hlim, if_pos hlim]
      · rw [if_neg hlim, if_neg hlim]
        cases sorted[start + lim / 2]? with
        | none => rfl
        | some e =>
            cases hc : pathCompare key (render e.path) <;> simp only [hc, ih]

theorem ascending_sorted (key : Str) (hsorted : sorted.Pairwise Sorted) :
    Data.Ascending (fun e => pathCompare key (render e.path)) sorted := by
  refine hsorted.imp fun {x y} hxy => ⟨fun hgt => ?_, fun hlt => ?_⟩
  · apply Std.OrientedCmp.gt_of_lt
    exact Std.TransCmp.lt_of_isLE_of_lt (Ordering.ne_gt_iff_isLE.1 hxy) (Std.OrientedCmp.lt_of_gt hgt)
  · exact Std.TransCmp.lt_of_lt_of_isLE hlt (Ordering.ne_gt_iff_isLE.1 hxy)

/-- An entry that is not a directory is the one that is found at its path. -/
theorem bsearch_file {f : Entry} (hplain : ∀ e ∈ sorted, Plain e.path) (hsorted : sorted.Pairwise Sorted)
    (hapart : sorted.Pairwise Entry.Apart) (hf : f ∈ sorted) (hfile : f.isDir = false) :
    bsearch sorted (render f.path) (sorted.length + 1) 0 sorted.length = some f := by
  rw [bsearch_eq]
  obtain ⟨i, hi⟩ := List.getElem?_of_mem hf
  obtain ⟨hlen, -⟩ := List.getElem?_eq_some_iff.1 hi
  have hself : pathCompare (render f.path) (render f.path) = .eq := Std.ReflCmp.compare_self
  have hfound : (Data.bsearchFrom (fun e => pathCompare (render f.path) (render e.path)) sorted (sorted.length + 1) 0
      sorted.length).isSome :=
    Data.bsearchFrom_complete (ascending_sorted (render f.path) hsorted) hi hself (by omega) (by omega) (by omega)
      (by omega)
  obtain ⟨p, hp⟩ := Option.isSome_iff_exists.1 hfound
  obtain ⟨hmem, hcmp⟩ := Data.bsearchFrom_sound hp
  have hsame := (pathCompare_render (hplain f hf) (hplain p hmem)).1 hcmp
  rw [hp, Option.some.injEq]
  by_contra hne
  have hpair : p.Apart f := hapart.forall hmem hf hne
  rw [(hpair hsame.symm).2] at hfile
  cases hfile

theorem mem_parents {p q : Path} : p ∈ q.dropLast.inits.tail ↔ p ≠ [] ∧ p <+: q ∧ p ≠ q := by
  have hinits : ∀ l : Path, p ∈ l.inits.tail ↔ p ≠ [] ∧ p <+: l := by
    intro l
    cases l with
    | nil => simp
    | cons n l =>
        rw [List.inits_cons, List.tail_cons, List.mem_map]
        constructor
        · rintro ⟨r, hr, rfl⟩
          exact ⟨List.cons_ne_nil _ _, List.cons_prefix_cons.2 ⟨rfl, (List.mem_inits _ _).1 hr⟩⟩
        · rintro ⟨hne, hp⟩
          cases p with
          | nil => exact absurd rfl hne
          | cons m r =>
              obtain ⟨rfl, hr⟩ := List.cons_prefix_cons.1 hp
              exact ⟨r, (List.mem_inits _ _).2 hr, rfl⟩
  rw [hinits]
  refine and_congr_right fun hne => ?_
  rcases List.eq_nil_or_concat q with rfl | ⟨d, n, rfl⟩
  · simp [hne]
  · rw [List.concat_eq_append, List.dropLast_concat, List.prefix_concat_iff]
    constructor
    · intro hp
      refine ⟨.inr hp, ?_⟩
      rintro rfl
      exact not_prefix_self hp
    · rintro ⟨rfl | hp, hpq⟩
      · exact absurd rfl hpq
      · exact hp

/-- `entries_check_paths ()` is right about plain paths. -/
theorem finds_entriesCheckPaths :
    Finds (entriesCheckPaths list true) fun _ => (∀ e ∈ list, Plain e.path) → Consistent list := by
  have hperm : (list.insertionSort fun x y => pathCompare (render x.path) (render y.path) ≠ .gt).Perm list :=
    List.perm_insertionSort _ _
  have hsorted : (list.insertionSort fun x y => pathCompare (render x.path) (render y.path) ≠ .gt).Pairwise Sorted :=
    List.pairwise_insertionSort Sorted list
  unfold entriesCheckPaths
  dsimp only
  generalize (list.insertionSort fun x y => pathCompare (render x.path) (render y.path) ≠ .gt) = sorted
    at hperm hsorted ⊢
  split
  · exact .die _
  · next hdup =>
      split
      · exact .die _
      · next hbelow =>
          refine .pure fun hplain => ?_
          have hplain' : ∀ e ∈ sorted, Plain e.path := fun e he => hplain e (hperm.mem_iff.1 he)
          have hapart : sorted.Pairwise Entry.Apart := by
            refine pairwise_apart hplain' hsorted fun x hx heq => ?_
            have hx' := List.find?_eq_none.1 hdup x hx
            simpa [heq] using hx'
          refine ⟨(hperm.pairwise_iff fun h => Std.Symm.symm _ _ h).1 hapart, fun e he f hf hne hp hpe => ?_⟩
          by_contra hfile
          rw [Bool.not_eq_true] at hfile
          have hf' := hperm.mem_iff.2 hf
          have he' := List.find?_eq_none.1 hbelow e (hperm.mem_iff.2 he)
          refine he' (List.any_eq_true.2 ⟨f.path, mem_parents.2 ⟨hne, hp, hpe⟩, ?_⟩)
          rw [bsearch_file hplain' hsorted hapart hf' hfile]
          simp [hfile]

/-! ### `place_payload ()` -/

theorem finds_entriesAppend {α : Type} {l : List α} {e : α} : Finds (entriesAppend l e) (· = l ++ [e]) :=
  .ite (.die _) (.pure rfl)

theorem finds_allEntries {all es : List Entry} : Finds (placeEntries b all es) fun x => x.2 = all ++ x.1 := by
  induction es generalizing all with
  | nil => exact .pure (List.append_nil _).symm
  | cons e es ih =>
      refine finds_placeEntry.bind fun e' _ => finds_entriesAppend.bind fun all' hall => ih.bind fun x hx => .pure ?_
      rw [hx, hall, List.append_assoc]
      rfl

theorem finds_allComponents {all : List Entry} {cs : List Component} :
    Finds (placeComponents b all cs) fun x => x.2 = all ++ x.1.flatMap (·.payload) := by
  induction cs generalizing all with
  | nil => exact .pure (List.append_nil _).symm
  | cons c cs ih =>
      refine finds_allEntries.bind fun x hx => ih.bind fun y hy => .pure ?_
      rw [hy, hx, List.append_assoc]
      rfl

/-- The payload of a package, as one list. -/
def Package.entries (pkg : Package) : List Entry := pkg.components.flatMap (·.payload)

theorem finds_consistent {pkg : Package} :
    Finds (placePayload b pkg) fun pkg' => (∀ e ∈ pkg'.entries, Plain e.path) → Consistent pkg'.entries := by
  refine finds_allComponents.bind fun x hx => finds_entriesCheckPaths.bind fun _ hcheck => .pure ?_
  rw [hx, List.nil_append] at hcheck
  exact hcheck

/-! ### `preflight ()` -/

/-- What `preflight ()` has seen of the root at `B`. -/
structure Vetted (fs : Fs) (B : Path) (c : Component) : Prop where
  records : ∀ r : Record, Clear fs B (r.path c.identifier) ∧ fs.get (B ++ r.path c.identifier) = none
  entries : ∀ e ∈ c.payload, e.path ≠ [] →
    Clear fs B e.path ∧ (fs.get (B ++ e.path) = none ∨ e.isDir = true ∧ fs.IsDir (B ++ e.path))

/-- No call ever fails for reasons of its own. -/
def Untroubled (K : Kernel Part) : Prop := ∀ o w, ¬ K.flaky o w

/-- `m` changes nothing and finds `R`. -/
def Sees (K : Kernel Part) (m : M α) (R : α → Prop) (g : Globals) (w : World Part) : Prop :=
  Stays (sem K) (fun _ _ => True) Same m (fun a _ _ => R a) g w

namespace Sees

variable {α β : Type} {R : α → Prop}

theorem of_finds {m : M α} (h : Finds m R) : Sees K m R g w :=
  wp.mono (h K g w) (fun _ _ _ => trivial) (fun _ _ _ => id) (fun _ _ _ => id)

theorem bind {m : M β} {f : β → M α} {R' : β → Prop} (h : Sees K m R' g w)
    (hf : ∀ a, R' a → Sees K (f a) R g w) : Sees K (m >>= f) R g w := by
  refine wp_bind.2 (wp.post h ?_ (fun _ _ _ => id))
  rintro a _ _ ⟨⟨rfl, rfl⟩, ha⟩
  exact hf a ha

theorem each {γ : Type} {f : γ → M Unit} {P : γ → Prop} {l : List γ} (h : ∀ x ∈ l, Sees K (f x) (fun _ => P x) g w) :
    Sees K (Proc.each f l) (fun _ => ∀ x ∈ l, P x) g w := by
  induction l with
  | nil => exact ⟨Same.refl, by simp⟩
  | cons x l ih =>
      refine (h x (.head _)).bind fun _ hx => ?_
      refine Stays.post (ih fun y hy => h y (.tail _ hy)) fun _ _ _ _ hl => ?_
      exact List.forall_mem_cons.2 ⟨hx, hl⟩

end Sees

/-- The directories above a path, as far as there are any. -/
theorem sees_pathParentsFrom {done rest : Path} (hb : At w.fs b B)
    (hdone : ∀ r, r <+: done → w.fs.get (B ++ r) = none ∨ w.fs.IsDir (B ++ r)) :
    Sees K (pathParentsFrom b false done rest) (fun _ => Clear w.fs B (done ++ rest)) g w := by
  induction rest generalizing done with
  | nil =>
      refine ⟨Same.refl, fun r hr _ => hdone r ?_⟩
      rwa [List.append_nil] at hr
  | cons n rest ih =>
      have hclear : Clear w.fs B (done ++ [n]) := by
        intro r hr hne
        obtain rfl | hr' := List.prefix_concat_iff.1 hr
        · exact absurd rfl hne
        · exact hdone r hr'
      cases rest with
      | nil => exact ⟨Same.refl, hclear⟩
      | cons m rest =>
          have hrest : (w.fs.get (B ++ (done ++ [n])) = none ∨ w.fs.IsDir (B ++ (done ++ [n]))) →
              Sees K (pathParentsFrom b false (done ++ [n]) (m :: rest))
                (fun _ => Clear w.fs B (done ++ n :: m :: rest)) g w := by
            intro hn
            rw [List.append_cons done n (m :: rest)]
            refine ih fun r hr => ?_
            obtain rfl | hr' := List.prefix_concat_iff.1 hr
            · exact hn
            · exact hdone r hr'
          unfold pathParentsFrom
          refine wp_bind.2 (wp_hostJoin (fun _ => ?_) fun _ _ => Same.refl)
          refine wp_bind.2 (wp_bind.2 (wp_lstat hb (by simp) hclear trivial ?_ ?_ ?_))
          · intro v hv
            cases v with
            | dir k => exact hrest (.inr ⟨k, hv⟩)
            | _ => exact Same.refl
          · exact fun hnone => hrest (.inl hnone)
          · exact fun _ => Same.refl

theorem sees_pathParents {rel : Path} (hb : At w.fs b B) :
    Sees K (pathParents b rel false) (fun _ => Clear w.fs B rel) g w := by
  have htop : ∀ r, r <+: [] → w.fs.get (B ++ r) = none ∨ w.fs.IsDir (B ++ r) := by
    intro r hr
    rw [List.prefix_nil.1 hr, List.append_nil]
    exact .inr hb.isDir
  exact sees_pathParentsFrom hb htop

theorem sees_preflightRecord {c : Component} {r : Record} (hb : At w.fs b B) :
    Sees K (preflightRecord b c r)
      (fun _ => Clear w.fs B (r.path c.identifier) ∧ w.fs.get (B ++ r.path c.identifier) = none) g w := by
  refine (sees_pathParents hb).bind fun _ hclear => ?_
  refine wp_bind.2 (wp_hostJoin (fun _ => ?_) fun _ _ => Same.refl)
  refine wp_bind.2 (wp_pathExists hb (r.path_ne_nil _) hclear trivial ?_ ?_ ?_)
  · exact fun _ => Same.refl
  · exact fun hnone => ⟨Same.refl, hclear, hnone⟩
  · exact fun _ _ => Same.refl

theorem sees_preflightEntry {e : Entry} (hcalm : Untroubled K) (hb : At w.fs b B) :
    Sees K (preflightEntry b e) (fun _ => e.path ≠ [] → Clear w.fs B e.path ∧
      (w.fs.get (B ++ e.path) = none ∨ e.isDir = true ∧ w.fs.IsDir (B ++ e.path))) g w := by
  unfold preflightEntry
  split
  · next hnil => exact ⟨Same.refl, fun hne => absurd hnil hne⟩
  · next hne =>
      refine (sees_pathParents hb).bind fun _ hclear => ?_
      refine wp_bind.2 (wp_hostJoin (fun _ => ?_) fun _ _ => Same.refl)
      refine wp_bind.2 (wp_lstat hb hne hclear trivial ?_ ?_ ?_)
      · intro v hv
        dsimp only
        split
        · next h =>
            refine ⟨Same.refl, fun _ => ⟨hclear, .inr ⟨h.1, ?_⟩⟩⟩
            cases v with
            | dir m => exact ⟨m, hv⟩
            | _ => exact absurd h.2 (by simp [Node.stat])
        · exact Same.refl
      · exact fun hnone => ⟨Same.refl, fun _ => ⟨hclear, .inl hnone⟩⟩
      · exact fun hflaky => absurd hflaky (hcalm _ _)

theorem sees_preflightComponent {c : Component} (hcalm : Untroubled K) (hb : At w.fs b B) :
    Sees K (preflightComponent env b c) (fun _ => Vetted w.fs B c) g w := by
  refine Sees.bind (.of_finds Looks.get.finds) fun _ _ => ?_
  refine Sees.bind (.of_finds (Looks.finds (Looks.each fun _ => .ite (.die _) (.pure _)))) fun _ _ => ?_
  refine (Sees.each fun r _ => sees_preflightRecord hb).bind fun _ hrecords => ?_
  refine Stays.post (Sees.each fun e _ => sees_preflightEntry hcalm hb) fun _ _ _ _ hentries => ⟨fun r => ?_, hentries⟩
  exact hrecords r (by cases r <;> decide)

/-- **What a `preflight ()` that returns has made sure of.** -/
theorem sees_preflight {pkg : Package} (hcalm : Untroubled K) (hb : At w.fs b B) :
    Sees K (preflight env b pkg) (fun pkg' => pkg.PlacedAs env pkg' ∧ (∀ c ∈ pkg'.components, Vetted w.fs B c) ∧
      ((∀ e ∈ pkg'.entries, Plain e.path) → Consistent pkg'.entries)) g w := by
  have hplaced : Sees K (preflight env b pkg) (pkg.PlacedAs env) g w := .of_finds finds_preflight
  have hseen : Sees K (preflight env b pkg) (fun pkg' => (∀ c ∈ pkg'.components, Vetted w.fs B c) ∧
      ((∀ e ∈ pkg'.entries, Plain e.path) → Consistent pkg'.entries)) g w := by
    refine Sees.bind (.of_finds finds_consistent) fun x hx => ?_
    refine (Sees.each fun c _ => sees_preflightComponent hcalm hb).bind fun _ hvetted => ?_
    refine Sees.bind (.of_finds looks_hostJoin.finds) fun _ _ => ?_
    refine Sees.bind (.of_finds looks_pathExists.finds) fun found _ => ?_
    cases found with
    | true => exact Same.refl
    | false =>
        have hsame : Package.entries { x with components := x.components.map (·.skip env) } = x.entries := by
          show (x.components.map (·.skip env)).flatMap (·.payload) = x.components.flatMap (·.payload)
          rw [List.flatMap_map]
          congr
          ext c : 1
          unfold Component.skip
          split <;> rfl
        exact ⟨Same.refl, hvetted, by rwa [hsame]⟩
  refine wp.mono (wp.and hplaced hseen) (fun _ _ _ => trivial) ?_ (fun _ _ _ h => h.1)
  exact fun _ _ _ h => ⟨h.1.1, h.1.2, h.2.2⟩

end MiniDarwin.Installer
