import MiniDarwin.Archive.Cpio

/-!
What `entries_check_paths ()` decides.

`qsort ()` need not be stable and `bsearch ()` may return any of several
elements that compare equal, so the check is repeated here for any result
of theirs that the C standard allows. The check of `Cpio` is the instance
with one sort and one search.
-/

namespace MiniDarwin.Archive

open Posix (Bytes)

/-- `entries_check_paths ()` after its `qsort ()`. `find e path` is what `bsearch ()` returns for a
path above `e`. -/
def entriesCheckSorted (sorted : List Entry) (find : Entry → Bytes → Option Entry)
    (allowRepeatedDirectories : Bool) : Result Unit := do
  (sorted.zip sorted.tail).forM fun x =>
    dieIf (x.1.path = x.2.path ∧ ¬ (allowRepeatedDirectories ∧ x.1.isDir ∧ x.2.isDir))
      s!"duplicate path in payload: {text x.2.path}"
  sorted.forM fun e =>
    (parentsFrom [] e.path).forM fun parent =>
      dieIf ((find e parent).any fun p => !p.isDir)
        s!"payload entry beneath a non-directory: {text e.path}"

theorem entriesCheckPaths_eq (list : List Entry) (repeated : Bool) :
    entriesCheckPaths list repeated =
      entriesCheckSorted (list.insertionSort fun a b => pathCompare a.path b.path ≠ .gt)
        (fun _ => findPath (list.insertionSort fun a b => pathCompare a.path b.path ≠ .gt)) repeated := rfl

/-- What `qsort ()` promises. -/
structure Sorts (list sorted : List Entry) : Prop where
  perm : sorted.Perm list
  ordered : sorted.Pairwise fun a b => pathCompare a.path b.path ≠ .gt

/-- What `bsearch ()` promises: an element that compares equal, if there is one. -/
structure Searches (sorted : List Entry) (find : Entry → Bytes → Option Entry) : Prop where
  sound : ∀ e path p, find e path = some p → p ∈ sorted ∧ pathCompare path p.path = .eq
  complete : ∀ e path, (∃ p ∈ sorted, pathCompare path p.path = .eq) → (find e path).isSome

def pathHasPrefix (path top : Bytes) : Bool := path = top ∨ top ++ [47] <+: path

/-- Two entries may stand in one list. -/
def Distinct (repeated : Bool) (a b : Entry) : Prop :=
  a.path = b.path → repeated = true ∧ a.isDir = true ∧ b.isDir = true

/-- What the check is for. -/
structure Consistent (repeated : Bool) (list : List Entry) : Prop where
  distinct : list.Pairwise (Distinct repeated)
  beneath : ∀ e ∈ list, ∀ f ∈ list, pathHasPrefix e.path f.path = true → e.path ≠ f.path → f.isDir = true

/-! ### Loops that check -/

theorem dieIf_neg {p : Prop} [Decidable p] {message : String} (h : ¬ p) : dieIf p message = .ok () := if_neg h

theorem dieIf_eq_ok {p : Prop} [Decidable p] {message : String} : dieIf p message = .ok () ↔ ¬ p := by
  unfold dieIf
  split
  · next hp => simp [die, hp]
  · next hp => simp [hp]

theorem forM_eq_ok {α : Type} {l : List α} {f : α → Result Unit} :
    l.forM f = .ok () ↔ ∀ x ∈ l, f x = .ok () := by
  induction l with
  | nil => exact ⟨fun _ x hx => (List.not_mem_nil hx).elim, fun _ => rfl⟩
  | cons x l ih =>
      show (f x >>= fun _ => l.forM f) = .ok () ↔ _
      rw [List.forall_mem_cons]
      cases hx : f x with
      | error e =>
          constructor
          · intro h
            cases h
          · rintro ⟨h, -⟩
            cases h
      | ok u => exact ih.trans ⟨fun h => ⟨rfl, h⟩, fun h => h.2⟩

theorem bind_eq_ok {x : Result Unit} {f : Unit → Result Unit} :
    (x >>= f) = .ok () ↔ x = .ok () ∧ f () = .ok () := by
  cases x with
  | error e =>
      constructor
      · intro h
        cases h
      · rintro ⟨h, -⟩
        cases h
  | ok u => exact ⟨fun h => ⟨rfl, h⟩, fun h => h.2⟩

/-! ### The order of the paths -/

instance : Std.TransCmp pathCompare := inferInstanceAs (Std.TransCmp (compareOn slashFirst))

theorem slashFirst_injective {a b : Bytes} (ha : ∀ x ∈ a, 32 ≤ x) (hb : ∀ x ∈ b, 32 ≤ x)
    (h : slashFirst a = slashFirst b) : a = b := by
  have hinj : ∀ x y : UInt8, 32 ≤ x → 32 ≤ y →
      (if x = 47 then (1 : UInt8) else x) = (if y = 47 then 1 else y) → x = y := by
    intro x y hx hy hxy
    split_ifs at hxy with hx' hy' hy'
    · rw [hx', hy']
    · exact absurd (hxy ▸ hy) (by decide)
    · exact absurd (hxy ▸ hx) (by decide)
    · exact hxy
  induction a generalizing b with
  | nil =>
      cases b with
      | nil => rfl
      | cons y b => cases h
  | cons x a ih =>
      cases b with
      | nil => cases h
      | cons y b =>
          obtain ⟨hxy, hab⟩ := List.cons.inj h
          rw [hinj x y (ha x (.head _)) (hb y (.head _)) hxy,
            ih (fun z hz => ha z (.tail _ hz)) (fun z hz => hb z (.tail _ hz)) hab]

/-- Without control characters only equal paths compare equal. -/
theorem pathCompare_eq {a b : Bytes} (ha : ∀ x ∈ a, 32 ≤ x) (hb : ∀ x ∈ b, 32 ≤ x) :
    pathCompare a b = .eq ↔ a = b := by
  constructor
  · intro h
    exact slashFirst_injective ha hb (Std.LawfulEqOrd.eq_of_compare h)
  · rintro rfl
    exact Std.ReflCmp.compare_self

theorem pathCompare_trans {a b c : Bytes} (hab : pathCompare a b ≠ .gt) (hbc : pathCompare b c ≠ .gt) :
    pathCompare a c ≠ .gt := by
  apply Ordering.isLE_iff_ne_gt.1
  exact Std.TransCmp.isLE_trans (Ordering.ne_gt_iff_isLE.1 hab) (Ordering.ne_gt_iff_isLE.1 hbc)

/-- Between two equal paths there are no others. -/
theorem pathCompare_between {a b c : Bytes} (ha : ∀ x ∈ a, 32 ≤ x) (hb : ∀ x ∈ b, 32 ≤ x)
    (hab : pathCompare a b ≠ .gt) (hbc : pathCompare b c ≠ .gt) (hac : a = c) : a = b := by
  subst hac
  apply (pathCompare_eq ha hb).1
  exact Std.OrientedCmp.isLE_antisymm (Ordering.ne_gt_iff_isLE.1 hab) (Ordering.ne_gt_iff_isLE.1 hbc)

/-! ### What stands above a path -/

theorem mem_parentsFrom {done rest parent : Bytes} :
    parent ∈ parentsFrom done rest ↔ ∃ mid tail, rest = mid ++ 47 :: tail ∧ parent = done ++ mid := by
  induction rest generalizing done with
  | nil => simp [parentsFrom]
  | cons c rest ih =>
      have hlater : parent ∈ parentsFrom (done ++ [c]) rest ↔
          ∃ mid tail, c :: rest = c :: mid ++ 47 :: tail ∧ parent = done ++ c :: mid := by
        rw [ih]
        simp
      rw [parentsFrom]
      constructor
      · intro h
        split_ifs at h with hc
        · obtain rfl | h := List.mem_cons.1 h
          · exact ⟨[], rest, by simp [hc], by simp⟩
          · obtain ⟨mid, tail, h⟩ := hlater.1 h
            exact ⟨c :: mid, tail, h⟩
        · obtain ⟨mid, tail, h⟩ := hlater.1 h
          exact ⟨c :: mid, tail, h⟩
      · rintro ⟨mid, tail, hrest, hparent⟩
        cases mid with
        | nil =>
            obtain ⟨rfl, rfl⟩ := List.cons.inj hrest
            rw [if_pos rfl, hparent, List.append_nil]
            exact .head _
        | cons d mid =>
            obtain ⟨rfl, -⟩ := List.cons.inj hrest
            have h := hlater.2 ⟨mid, tail, hrest, hparent⟩
            split_ifs
            · exact .tail _ h
            · exact h

/-- The paths that are looked up are those that a path is strictly beneath. -/
theorem mem_parents {path parent : Bytes} :
    parent ∈ parentsFrom [] path ↔ pathHasPrefix path parent = true ∧ path ≠ parent := by
  rw [mem_parentsFrom]
  simp only [pathHasPrefix, decide_eq_true_eq, List.nil_append]
  constructor
  · rintro ⟨mid, tail, rfl, rfl⟩
    exact ⟨.inr ⟨tail, by simp⟩, by simp⟩
  · rintro ⟨rfl | ⟨tail, rfl⟩, hne⟩
    · exact absurd rfl hne
    · exact ⟨parent, tail, by simp, rfl⟩

/-! ### The decision -/

variable {list sorted : List Entry} {find : Entry → Bytes → Option Entry} {repeated : Bool}

/-- Neighbours are enough: in a sorted list all entries of one path stand together. -/
theorem adjacent_iff (hchars : ∀ e ∈ sorted, ∀ x ∈ e.path, 32 ≤ x)
    (hordered : sorted.Pairwise fun a b => pathCompare a.path b.path ≠ .gt) :
    (∀ x ∈ sorted.zip sorted.tail, Distinct repeated x.1 x.2) ↔ sorted.Pairwise (Distinct repeated) := by
  induction sorted with
  | nil => simp
  | cons a l ih =>
      obtain ⟨ha, hl⟩ := List.pairwise_cons.1 hordered
      have ih := ih (fun e he => hchars e (.tail _ he)) hl
      cases l with
      | nil => simp
      | cons b l =>
          have hzip : (a :: b :: l).zip (a :: b :: l).tail = (a, b) :: (b :: l).zip (b :: l).tail := rfl
          rw [hzip, List.forall_mem_cons, ih, List.pairwise_cons (a := a)]
          refine and_congr_left fun hrest => ?_
          constructor
          · intro hab c hc
            obtain rfl | hc' := List.mem_cons.1 hc
            · exact hab
            · -- `b` stands between two equal paths
              intro heq
              have hb := pathCompare_between (hchars a (.head _)) (hchars b (.tail _ (.head _)))
                (ha b (.head _)) ((List.pairwise_cons.1 hl).1 c hc') heq
              obtain ⟨hrep, hdir, -⟩ := hab hb
              obtain ⟨-, -, hdir'⟩ := (List.pairwise_cons.1 hrest).1 c hc' (hb.symm.trans heq)
              exact ⟨hrep, hdir, hdir'⟩
          · intro h
            exact h b (.head _)

instance : Std.Symm (Distinct repeated) where
  symm a b h heq := by
    obtain ⟨hrep, ha, hb⟩ := h heq.symm
    exact ⟨hrep, hb, ha⟩

/-- Of several entries with one path it does not matter which is found. -/
theorem find_file_iff (hsearch : Searches sorted find) (hdistinct : sorted.Pairwise (Distinct repeated))
    (hchars : ∀ e ∈ sorted, ∀ x ∈ e.path, 32 ≤ x) {e : Entry} {path : Bytes} (hpath : ∀ x ∈ path, 32 ≤ x) :
    (find e path).any (fun p => !p.isDir) = true ↔ ∃ f ∈ sorted, f.path = path ∧ f.isDir = false := by
  constructor
  · intro h
    obtain ⟨p, hp, hfile⟩ := (Option.any_eq_true _ _).1 h
    obtain ⟨hmem, hcmp⟩ := hsearch.sound e path p hp
    exact ⟨p, hmem, ((pathCompare_eq hpath (hchars p hmem)).1 hcmp).symm, by simpa using hfile⟩
  · rintro ⟨f, hf, rfl, hfile⟩
    obtain ⟨p, hp⟩ := Option.isSome_iff_exists.1
      (hsearch.complete e f.path ⟨f, hf, (pathCompare_eq hpath hpath).2 rfl⟩)
    obtain ⟨hmem, hcmp⟩ := hsearch.sound e f.path p hp
    have hsame : f.path = p.path := (pathCompare_eq hpath (hchars p hmem)).1 hcmp
    -- a file shares its path with no other entry
    have hpf : p = f := by
      by_contra hne
      have hpair : Distinct repeated p f := hdistinct.forall hmem hf hne
      rw [(hpair hsame.symm).2.2] at hfile
      cases hfile
    rw [hp, hpf]
    simpa using hfile

theorem entriesCheckSorted_duplicates (hchars : ∀ e ∈ sorted, ∀ x ∈ e.path, 32 ≤ x)
    (hordered : sorted.Pairwise fun a b => pathCompare a.path b.path ≠ .gt) :
    (sorted.zip sorted.tail).forM (fun x =>
      dieIf (x.1.path = x.2.path ∧ ¬ (repeated = true ∧ x.1.isDir = true ∧ x.2.isDir = true))
        s!"duplicate path in payload: {text x.2.path}") = .ok () ↔ sorted.Pairwise (Distinct repeated) := by
  rw [forM_eq_ok, ← adjacent_iff hchars hordered]
  refine forall₂_congr fun x _ => ?_
  rw [dieIf_eq_ok, not_and, not_not]
  rfl

theorem entriesCheckSorted_beneath (hchars : ∀ e ∈ sorted, ∀ x ∈ e.path, 32 ≤ x) (hsearch : Searches sorted find)
    (hdistinct : sorted.Pairwise (Distinct repeated)) :
    sorted.forM (fun e => (parentsFrom [] e.path).forM fun parent =>
      dieIf ((find e parent).any (fun p => !p.isDir) = true)
        s!"payload entry beneath a non-directory: {text e.path}") = .ok () ↔
    ∀ e ∈ sorted, ∀ f ∈ sorted, pathHasPrefix e.path f.path = true → e.path ≠ f.path → f.isDir = true := by
  rw [forM_eq_ok]
  refine forall₂_congr fun e he => ?_
  rw [forM_eq_ok]
  constructor
  · intro h f hf hbelow hne
    by_contra hfile
    have hparent : f.path ∈ parentsFrom [] e.path := mem_parents.2 ⟨hbelow, hne⟩
    refine dieIf_eq_ok.1 (h f.path hparent) ?_
    apply (find_file_iff hsearch hdistinct hchars (hchars f hf)).2
    exact ⟨f, hf, rfl, by simpa using hfile⟩
  · intro h parent hparent
    apply dieIf_neg
    intro hfound
    obtain ⟨hbelow, hne⟩ := mem_parents.1 hparent
    have hplain : ∀ x ∈ parent, 32 ≤ x := by
      intro x hx
      obtain ⟨mid, tail, hpath, rfl⟩ := mem_parentsFrom.1 hparent
      apply hchars e he
      rw [hpath]
      exact List.mem_append_left _ hx
    obtain ⟨f, hf, rfl, hfile⟩ := (find_file_iff hsearch hdistinct hchars hplain).1 hfound
    rw [h f hf hbelow hne] at hfile
    cases hfile

theorem entriesCheckSorted_iff (hchars : ∀ e ∈ sorted, ∀ x ∈ e.path, 32 ≤ x)
    (hordered : sorted.Pairwise fun a b => pathCompare a.path b.path ≠ .gt) (hsearch : Searches sorted find) :
    entriesCheckSorted sorted find repeated = .ok () ↔ Consistent repeated sorted := by
  rw [entriesCheckSorted, bind_eq_ok, entriesCheckSorted_duplicates hchars hordered]
  constructor
  · rintro ⟨hdistinct, hforM⟩
    exact ⟨hdistinct, (entriesCheckSorted_beneath hchars hsearch hdistinct).1 hforM⟩
  · rintro ⟨hdistinct, hbeneath⟩
    exact ⟨hdistinct, (entriesCheckSorted_beneath hchars hsearch hdistinct).2 hbeneath⟩

/-- A consistent list is consistent in any order. -/
theorem consistent_perm {list' : List Entry} (h : list.Perm list') : Consistent repeated list ↔ Consistent repeated list' := by
  have hmem : ∀ e, e ∈ list ↔ e ∈ list' := fun e => h.mem_iff
  constructor
  · rintro ⟨hdistinct, hbeneath⟩
    refine ⟨(h.pairwise_iff fun h => Std.Symm.symm _ _ h).1 hdistinct, ?_⟩
    simpa only [hmem] using hbeneath
  · rintro ⟨hdistinct, hbeneath⟩
    refine ⟨(h.pairwise_iff fun h => Std.Symm.symm _ _ h).2 hdistinct, ?_⟩
    simpa only [hmem] using hbeneath

/-- **The check returns if and only if the list is consistent**, for any sorted order of it and
whichever of several equal entries is found. -/
theorem entriesCheck_decides (list sorted : List Entry) (find : Entry → Bytes → Option Entry) (repeated : Bool)
    (hchars : ∀ e ∈ list, ∀ x ∈ e.path, 32 ≤ x) (hsort : Sorts list sorted) (hsearch : Searches sorted find) :
    entriesCheckSorted sorted find repeated = .ok () ↔ Consistent repeated list := by
  have hchars' : ∀ e ∈ sorted, ∀ x ∈ e.path, 32 ≤ x := fun e he => hchars e (hsort.perm.mem_iff.1 he)
  rw [entriesCheckSorted_iff hchars' hsort.ordered hsearch]
  exact consistent_perm hsort.perm

/-! ### The sort and the search of the model -/

instance : Std.Total fun a b : Entry => pathCompare a.path b.path ≠ .gt where
  total a b := by
    by_contra h
    obtain ⟨hab, hba⟩ := not_or.1 h
    have hlt := Std.OrientedCmp.lt_of_gt (not_not.1 hba)
    rw [hlt] at hab
    exact hab (by decide)

instance : IsTrans Entry fun a b => pathCompare a.path b.path ≠ .gt where
  trans _ _ _ := pathCompare_trans

theorem sorts_insertionSort (list : List Entry) :
    Sorts list (list.insertionSort fun a b => pathCompare a.path b.path ≠ .gt) where
  perm := List.perm_insertionSort _ _
  ordered := List.pairwise_insertionSort _ _

/-- In a sorted list a key exceeds what comes before the elements that it exceeds. -/
theorem ascending_pathCompare (path : Bytes)
    (hordered : sorted.Pairwise fun a b => pathCompare a.path b.path ≠ .gt) :
    Data.Ascending (fun e => pathCompare path e.path) sorted := by
  refine hordered.imp fun {a b} hab => ⟨fun hgt => ?_, fun hlt => ?_⟩
  · apply Std.OrientedCmp.gt_of_lt
    exact Std.TransCmp.lt_of_isLE_of_lt (Ordering.ne_gt_iff_isLE.1 hab) (Std.OrientedCmp.lt_of_gt hgt)
  · exact Std.TransCmp.lt_of_lt_of_isLE hlt (Ordering.ne_gt_iff_isLE.1 hab)

theorem searches_findPath (hordered : sorted.Pairwise fun a b => pathCompare a.path b.path ≠ .gt) :
    Searches sorted fun _ => findPath sorted where
  sound _ _ _ h := Data.bsearch_sound h
  complete _ path h := (Data.bsearch_isSome (ascending_pathCompare path hordered)).2 h

theorem entriesCheckPaths_iff (hchars : ∀ e ∈ list, ∀ x ∈ e.path, 32 ≤ x) :
    entriesCheckPaths list repeated = .ok () ↔ Consistent repeated list := by
  have hsort := sorts_insertionSort list
  rw [entriesCheckPaths_eq, ← consistent_perm hsort.perm]
  apply entriesCheckSorted_iff _ hsort.ordered (searches_findPath hsort.ordered)
  exact fun e he => hchars e (hsort.perm.mem_iff.1 he)

/-- Three paths in the order in which a search by prefix goes wrong most easily, the file `a` with
`a/b` beneath it. -/
theorem entriesCheck_decides_prefix :
    let entry (path : Bytes) : Entry := { path, mode := 0o100644, uid := 0, gid := 0, mtime := 0 }
    let list := [entry (lit "a-b"), entry (lit "a/b"), entry (lit "a")]
    let sorted := [entry (lit "a"), entry (lit "a/b"), entry (lit "a-b")]
    Sorts list sorted ∧ entriesCheckSorted sorted (fun _ => findPath sorted) true ≠ .ok () ∧
      ¬ Consistent true list := by
  intro entry list sorted
  have hsort : Sorts list sorted := ⟨by decide, by decide +kernel⟩
  have hconsistent : ¬ Consistent true list := by
    intro h
    have := h.beneath (entry (lit "a/b")) (by decide) (entry (lit "a")) (by decide) (by decide) (by decide)
    exact absurd this (by decide)
  refine ⟨hsort, fun h => hconsistent ?_, hconsistent⟩
  exact (entriesCheck_decides list sorted _ true (by decide +kernel) hsort (searches_findPath hsort.ordered)).1 h

end MiniDarwin.Archive
