import MiniDarwin.Archive.Package
import MiniDarwin.Data.Limited

/-!
What the scripts of a package did (`receipts.c`): the difference of two
snapshots of a tree.

An entry of a snapshot holds the SHA-256 of a file as its data, or the
target of a link, or neither.
-/

namespace MiniDarwin.Archive

open Posix (Bytes)

/-! ### `script_changes ()` -/

inductive Change where
  | created
  | modified
  | removed
  deriving DecidableEq

/-- An entry and its field `change`. -/
structure Changed where
  change : Change
  entry : Entry
  deriving DecidableEq

def sameEntry (a b : Entry) : Bool :=
  if a.mode ≠ b.mode ∨ a.uid ≠ b.uid ∨ a.gid ≠ b.gid then false
  else if a.link.isSome ∨ b.link.isSome then a.link.isSome ∧ b.link.isSome ∧ a.link = b.link
  else a.data = b.data

/-- What the first loop appends for an entry of the later snapshot. -/
def changeNow (before : List Entry) (now : Entry) : Option Changed :=
  match entriesFind before now.path with
  | none => some ⟨.created, now⟩
  | some was => if sameEntry now was then none else some ⟨.modified, now⟩

/-- What the second loop appends for an entry of the earlier one. -/
def changeWas (after : List Entry) (was : Entry) : Option Changed :=
  match entriesFind after was.path with
  | none => some ⟨.removed, was⟩
  | some _ => none

/-- `entries_append ()`, if there is anything to append. -/
def appendChange (out : List Changed) : Option Changed → Result (List Changed)
  | none => .ok out
  | some c => do
      dieIf (out.length ≥ limitEntries) "entry limit"
      return out ++ [c]

def scriptChanges (out : List Changed) (before after : List Entry) : Result (List Changed) := do
  let out ← after.foldlM (fun out now => appendChange out (changeNow before now)) out
  before.foldlM (fun out was => appendChange out (changeWas after was)) out

/-! ### Snapshots and their difference -/

/-- What `snapshot_tree ()` makes: every path once, and no hash of a link. -/
structure Snapshot where
  entries : List Entry
  distinct : (entries.map (·.path)).Nodup
  links : ∀ e ∈ entries, e.link ≠ none → e.data = []

/-- The same but for the time. -/
def Same (a b : Entry) : Prop :=
  a.mode = b.mode ∧ a.uid = b.uid ∧ a.gid = b.gid ∧ a.link = b.link ∧ a.data = b.data

inductive Differs (before after : Snapshot) : Changed → Prop where
  | created {now : Entry} (hnow : now ∈ after.entries) (hwas : ∀ was ∈ before.entries, was.path ≠ now.path) :
      Differs before after ⟨.created, now⟩
  | modified {now was : Entry} (hnow : now ∈ after.entries) (hwas : was ∈ before.entries) (hpath : was.path = now.path)
      (hdiffer : ¬ Same now was) : Differs before after ⟨.modified, now⟩
  | removed {was : Entry} (hwas : was ∈ before.entries) (hnow : ∀ now ∈ after.entries, now.path ≠ was.path) :
      Differs before after ⟨.removed, was⟩

/-- Do again what was done. -/
def applyChange (list : List Entry) (c : Changed) : List Entry :=
  match c.change with
  | .created => list ++ [c.entry]
  | .modified => list.map fun e => if e.path = c.entry.path then c.entry else e
  | .removed => list.filter fun e => e.path ≠ c.entry.path

def Entry.timeless (e : Entry) : Entry := { e with mtime := 0 }

/-- The changes are the difference of two snapshots. -/
structure Inventory (before after : Snapshot) (changes : List Changed) : Prop where
  once : (changes.map (·.entry.path)).Nodup
  exact : ∀ c, c ∈ changes ↔ Differs before after c
  applies : ((changes.foldl applyChange before.entries).map Entry.timeless).Perm (after.entries.map Entry.timeless)

variable {before after : Snapshot} {list : List Entry} {e a b : Entry} {path : Bytes}

theorem entriesFind_eq_none : entriesFind list path = none ↔ ∀ e ∈ list, e.path ≠ path := by
  simp [entriesFind]

theorem entriesFind_mem (h : entriesFind list path = some e) : e ∈ list ∧ e.path = path :=
  ⟨List.mem_of_find?_eq_some h, by simpa using List.find?_some h⟩

/-- There is one entry with a path. -/
theorem Snapshot.eq_of_path (s : Snapshot) (ha : a ∈ s.entries) (hb : b ∈ s.entries) (h : a.path = b.path) : a = b :=
  List.inj_on_of_nodup_map s.distinct ha hb h

theorem sameEntry_iff (ha : a.link ≠ none → a.data = []) (hb : b.link ≠ none → b.data = []) :
    sameEntry a b = true ↔ Same a b := by
  unfold sameEntry Same
  by_cases hmeta : a.mode = b.mode ∧ a.uid = b.uid ∧ a.gid = b.gid
  · obtain ⟨hmode, huid, hgid⟩ := hmeta
    have hkept : ¬ (a.mode ≠ b.mode ∨ a.uid ≠ b.uid ∨ a.gid ≠ b.gid) := by simp [hmode, huid, hgid]
    rw [if_neg hkept]
    cases hla : a.link with
    | none =>
        cases hlb : b.link with
        | none => simp [hmode, huid, hgid]
        | some t => simp
    | some s =>
        cases hlb : b.link with
        | none => simp
        | some t =>
            have hdata : a.data = b.data := (ha (by simp [hla])).trans (hb (by simp [hlb])).symm
            simp [hmode, huid, hgid, hdata]
  · have hdiff : a.mode ≠ b.mode ∨ a.uid ≠ b.uid ∨ a.gid ≠ b.gid := by
      by_contra hno
      simp only [ne_eq, not_or, not_not] at hno
      exact hmeta hno
    rw [if_pos hdiff]
    exact iff_of_false (by simp) fun h => hmeta ⟨h.1, h.2.1, h.2.2.1⟩

/-! ### What is appended -/

/-- All that the two loops append. -/
def differences (before after : List Entry) : List Changed :=
  after.filterMap (changeNow before) ++ before.filterMap (changeWas after)

theorem changeNow_eq_some {c : Changed} {now : Entry} (hnow : now ∈ after.entries) :
    changeNow before.entries now = some c ↔ c.entry = now ∧ c.change ≠ .removed ∧ Differs before after c := by
  unfold changeNow
  cases hfind : entriesFind before.entries now.path with
  | none =>
      have hnone := entriesFind_eq_none.1 hfind
      constructor
      · rintro h
        obtain rfl := Option.some.inj h
        exact ⟨rfl, by simp, .created hnow hnone⟩
      · rintro ⟨rfl, hchange, hdiffers⟩
        cases hdiffers with
        | created _ _ => rfl
        | modified _ hwas hpath _ => exact absurd hpath (hnone _ hwas)
        | removed _ _ => exact absurd rfl hchange
  | some was =>
      obtain ⟨hwas, hpath⟩ := entriesFind_mem hfind
      have hsame := sameEntry_iff (after.links now hnow) (before.links was hwas)
      constructor
      · intro h
        dsimp only at h
        split at h
        · cases h
        · next hdiff =>
            obtain rfl := Option.some.inj h
            exact ⟨rfl, by simp, .modified hnow hwas hpath fun hs => hdiff (hsame.2 hs)⟩
      · rintro ⟨rfl, hchange, hdiffers⟩
        cases hdiffers with
        | created _ hno => exact absurd hpath (hno was hwas)
        | removed _ _ => exact absurd rfl hchange
        | modified _ hwas' hpath' hdiffer =>
            obtain rfl := before.eq_of_path hwas hwas' (hpath.trans hpath'.symm)
            exact if_neg fun hs => hdiffer (hsame.1 hs)

theorem changeWas_eq_some {c : Changed} {was : Entry} (hwas : was ∈ before.entries) :
    changeWas after.entries was = some c ↔ c.entry = was ∧ c.change = .removed ∧ Differs before after c := by
  unfold changeWas
  cases hfind : entriesFind after.entries was.path with
  | none =>
      have hnone := entriesFind_eq_none.1 hfind
      constructor
      · intro h
        obtain rfl := Option.some.inj h
        exact ⟨rfl, rfl, .removed hwas hnone⟩
      · rintro ⟨rfl, hchange, -⟩
        rw [← hchange]
  | some now =>
      obtain ⟨hnow, hpath⟩ := entriesFind_mem hfind
      refine iff_of_false (by simp) ?_
      rintro ⟨rfl, hchange, hdiffers⟩
      cases hdiffers with
      | created _ _ => cases hchange
      | modified _ _ _ _ => cases hchange
      | removed _ hno => exact hno now hnow hpath

theorem mem_differences {c : Changed} : c ∈ differences before.entries after.entries ↔ Differs before after c := by
  rw [differences, List.mem_append, List.mem_filterMap, List.mem_filterMap]
  constructor
  · rintro (⟨now, hnow, h⟩ | ⟨was, hwas, h⟩)
    · exact ((changeNow_eq_some hnow).1 h).2.2
    · exact ((changeWas_eq_some hwas).1 h).2.2
  · intro h
    have hdiffers := h
    cases h with
    | created hnow _ => exact .inl ⟨_, hnow, (changeNow_eq_some hnow).2 ⟨rfl, by simp, hdiffers⟩⟩
    | modified hnow _ _ _ => exact .inl ⟨_, hnow, (changeNow_eq_some hnow).2 ⟨rfl, by simp, hdiffers⟩⟩
    | removed hwas _ => exact .inr ⟨_, hwas, (changeWas_eq_some hwas).2 ⟨rfl, rfl, hdiffers⟩⟩

/-- What is appended for an entry has its path. -/
theorem nodup_filterMap {f : Entry → Option Changed} (hf : ∀ e ∈ list, ∀ c, f e = some c → c.entry = e)
    (h : (list.map (·.path)).Nodup) : ((list.filterMap f).map (·.entry.path)).Nodup := by
  have hsub : ((list.filterMap f).map (·.entry.path)).Sublist (list.map (·.path)) := by
    induction list with
    | nil => exact .slnil
    | cons e list ih =>
        have hrest := ih (fun x hx => hf x (.tail _ hx)) (List.nodup_cons.1 h).2
        cases hc : f e with
        | none =>
            rw [List.filterMap_cons_none hc, List.map_cons]
            exact hrest.cons _
        | some c =>
            rw [List.filterMap_cons_some hc, List.map_cons, List.map_cons, hf e (.head _) c hc]
            exact hrest.cons_cons _
  exact hsub.nodup h

theorem differences_once : ((differences before.entries after.entries).map (·.entry.path)).Nodup := by
  rw [differences, List.map_append, List.nodup_append]
  refine ⟨nodup_filterMap (fun e he c hc => ((changeNow_eq_some he).1 hc).1) after.distinct,
    nodup_filterMap (fun e he c hc => ((changeWas_eq_some he).1 hc).1) before.distinct, ?_⟩
  rintro p hp q hq rfl
  obtain ⟨c, hc, rfl⟩ := List.mem_map.1 hp
  obtain ⟨d, hd, hpath⟩ := List.mem_map.1 hq
  obtain ⟨now, hnow, hc⟩ := List.mem_filterMap.1 hc
  obtain ⟨was, hwas, hd⟩ := List.mem_filterMap.1 hd
  obtain ⟨rfl, -, -⟩ := (changeNow_eq_some hnow).1 hc
  obtain ⟨rfl, hremoved, hdiffers⟩ := (changeWas_eq_some hwas).1 hd
  cases hdiffers with
  | created _ _ => cases hremoved
  | modified _ _ _ _ => cases hremoved
  | removed _ hno => exact hno _ hnow hpath.symm

/-! ### Doing it again -/

/-- A change fits a list: what is modified is there, what is created is not. -/
structure Fits (list : List Entry) (c : Changed) : Prop where
  modified : c.change = .modified → ∃ e ∈ list, e.path = c.entry.path
  created : c.change = .created → ∀ e ∈ list, e.path ≠ c.entry.path

variable {c : Changed} {changes : List Changed} {x : Entry}

theorem Fits.mem_applyChange (h : Fits list c) :
    x ∈ applyChange list c ↔ c.change ≠ .removed ∧ x = c.entry ∨ x ∈ list ∧ x.path ≠ c.entry.path := by
  unfold applyChange
  cases hc : c.change with
  | created =>
      have hnew := h.created hc
      constructor
      · intro hx
        obtain hx | hx := List.mem_append.1 hx
        · exact .inr ⟨hx, hnew x hx⟩
        · exact .inl ⟨by simp, List.mem_singleton.1 hx⟩
      · rintro (⟨-, rfl⟩ | ⟨hx, -⟩)
        · exact List.mem_append_right _ (.head _)
        · exact List.mem_append_left _ hx
  | modified =>
      constructor
      · intro hx
        obtain ⟨e, he, rfl⟩ := List.mem_map.1 hx
        split
        · exact .inl ⟨by simp, rfl⟩
        · next hne => exact .inr ⟨he, hne⟩
      · rintro (⟨-, rfl⟩ | ⟨hx, hne⟩)
        · obtain ⟨e, he, hpath⟩ := h.modified hc
          exact List.mem_map.2 ⟨e, he, if_pos hpath⟩
        · exact List.mem_map.2 ⟨x, hx, if_neg hne⟩
  | removed => simp

theorem Fits.nodup (h : Fits list c) (hlist : (list.map (·.path)).Nodup) :
    ((applyChange list c).map (·.path)).Nodup := by
  unfold applyChange
  cases hc : c.change with
  | created =>
      rw [List.map_append, List.nodup_append]
      refine ⟨hlist, List.nodup_singleton _, ?_⟩
      intro p hp q hq
      obtain ⟨e, he, rfl⟩ := List.mem_map.1 hp
      rw [List.mem_singleton.1 hq]
      exact h.created hc e he
  | modified =>
      have hpaths : (list.map fun e => if e.path = c.entry.path then c.entry else e).map (·.path) =
          list.map (·.path) := by
        rw [List.map_map]
        refine List.map_congr_left fun e _ => ?_
        show (if e.path = c.entry.path then c.entry else e).path = e.path
        split
        · next heq => exact heq.symm
        · rfl
      rwa [hpaths]
  | removed => exact (List.filter_sublist.map _).nodup hlist

/-- A change elsewhere makes no difference. -/
theorem Fits.kept {d : Changed} (hc : Fits list c) (hd : Fits list d) (hne : d.entry.path ≠ c.entry.path) :
    Fits (applyChange list c) d where
  modified hmodified := by
    obtain ⟨e, he, hpath⟩ := hd.modified hmodified
    exact ⟨e, hc.mem_applyChange.2 (.inr ⟨he, fun heq => hne (hpath.symm.trans heq)⟩), hpath⟩
  created hcreated := by
    intro e he
    obtain ⟨-, rfl⟩ | ⟨he, -⟩ := hc.mem_applyChange.1 he
    · exact hne.symm
    · exact hd.created hcreated e he

theorem mem_applyChanges (honce : (changes.map (·.entry.path)).Nodup) (hfits : ∀ c ∈ changes, Fits list c) :
    x ∈ changes.foldl applyChange list ↔
      (∃ c ∈ changes, c.change ≠ .removed ∧ x = c.entry) ∨ x ∈ list ∧ ∀ c ∈ changes, x.path ≠ c.entry.path := by
  induction changes generalizing list with
  | nil => simp
  | cons c changes ih =>
      obtain ⟨hnew, honce⟩ := List.nodup_cons.1 honce
      have hc := hfits c (.head _)
      have hpath : ∀ d ∈ changes, d.entry.path ≠ c.entry.path :=
        fun d hd heq => hnew (List.mem_map.2 ⟨d, hd, heq⟩)
      rw [List.foldl_cons, ih honce fun d hd => hc.kept (hfits d (.tail _ hd)) (hpath d hd), hc.mem_applyChange]
      constructor
      · rintro (⟨d, hd, hx⟩ | ⟨hx | ⟨hx, hxc⟩, hrest⟩)
        · exact .inl ⟨d, .tail _ hd, hx⟩
        · exact .inl ⟨c, .head _, hx⟩
        · exact .inr ⟨hx, List.forall_mem_cons.2 ⟨hxc, hrest⟩⟩
      · rintro (⟨d, hd, hx⟩ | ⟨hx, hall⟩)
        · obtain rfl | hd := List.mem_cons.1 hd
          · refine .inr ⟨.inl hx, fun e he heq => hpath e he ?_⟩
            rw [← heq, hx.2]
          · exact .inl ⟨d, hd, hx⟩
        · exact .inr ⟨.inr ⟨hx, hall c (.head _)⟩, fun d hd => hall d (.tail _ hd)⟩

theorem nodup_applyChanges (honce : (changes.map (·.entry.path)).Nodup) (hfits : ∀ c ∈ changes, Fits list c)
    (hlist : (list.map (·.path)).Nodup) : ((changes.foldl applyChange list).map (·.path)).Nodup := by
  induction changes generalizing list with
  | nil => exact hlist
  | cons c changes ih =>
      obtain ⟨hnew, honce⟩ := List.nodup_cons.1 honce
      have hc := hfits c (.head _)
      have hpath : ∀ d ∈ changes, d.entry.path ≠ c.entry.path :=
        fun d hd heq => hnew (List.mem_map.2 ⟨d, hd, heq⟩)
      exact ih honce (fun d hd => hc.kept (hfits d (.tail _ hd)) (hpath d hd)) (hc.nodup hlist)

theorem Differs.fits (h : Differs before after c) : Fits before.entries c := by
  cases h with
  | created _ hwas => exact ⟨by simp, fun _ => hwas⟩
  | modified _ hwas hpath _ => exact ⟨fun _ => ⟨_, hwas, hpath⟩, by simp⟩
  | removed _ _ => exact ⟨by simp, by simp⟩

theorem Differs.now (h : Differs before after c) (hc : c.change ≠ .removed) : c.entry ∈ after.entries := by
  cases h with
  | created hnow _ => exact hnow
  | modified hnow _ _ _ => exact hnow
  | removed _ _ => exact absurd rfl hc

theorem Same.timeless (h : Same a b) (hpath : a.path = b.path) : a.timeless = b.timeless := by
  obtain ⟨hmode, huid, hgid, hlink, hdata⟩ := h
  simp only [Entry.timeless, hpath, hmode, huid, hgid, hlink, hdata]

/-- What is not reported is as it was. -/
theorem unreported {now was : Entry} (hnow : now ∈ after.entries) (hwas : was ∈ before.entries) (hpath : was.path = now.path)
    (h : ∀ c, Differs before after c → c.entry.path ≠ now.path) : Same now was := by
  by_contra hdiffer
  exact h _ (.modified hnow hwas hpath hdiffer) rfl

theorem applied_perm :
    (((differences before.entries after.entries).foldl applyChange before.entries).map Entry.timeless).Perm
      (after.entries.map Entry.timeless) := by
  have hfits : ∀ c ∈ differences before.entries after.entries, Fits before.entries c :=
    fun c hc => (mem_differences.1 hc).fits
  have hmem := fun x => mem_applyChanges (x := x) differences_once hfits
  have hnodup : ∀ {l : List Entry}, (l.map (·.path)).Nodup → (l.map Entry.timeless).Nodup := by
    intro l hl
    refine List.Nodup.of_map (fun e : Entry => e.path) ?_
    rwa [List.map_map]
  refine (List.perm_ext_iff_of_nodup (hnodup (nodup_applyChanges differences_once hfits before.distinct))
    (hnodup after.distinct)).2 ?_
  intro y
  constructor
  · intro hy
    obtain ⟨x, hx, rfl⟩ := List.mem_map.1 hy
    obtain ⟨c, hc, hchange, rfl⟩ | ⟨hx, hnone⟩ := (hmem x).1 hx
    · exact List.mem_map_of_mem ((mem_differences.1 hc).now hchange)
    · -- nothing is reported for the path, so it has not gone
      have hstays : ∃ now ∈ after.entries, now.path = x.path := by
        by_contra hgone
        refine hnone ⟨.removed, x⟩ (mem_differences.2 (.removed hx fun now hnow heq => hgone ⟨now, hnow, heq⟩)) rfl
      obtain ⟨now, hnow, hpath⟩ := hstays
      have hsame := unreported hnow hx hpath.symm fun c hc heq => hnone c (mem_differences.2 hc) (hpath.symm.trans heq.symm)
      exact List.mem_map.2 ⟨now, hnow, hsame.timeless hpath⟩
  · intro hy
    obtain ⟨now, hnow, rfl⟩ := List.mem_map.1 hy
    by_cases hreported : ∃ c, Differs before after c ∧ c.change ≠ .removed ∧ now = c.entry
    · obtain ⟨c, hc, hchange, heq⟩ := hreported
      exact List.mem_map_of_mem ((hmem now).2 (.inl ⟨c, mem_differences.2 hc, hchange, heq⟩))
    · have hwas : ∃ was ∈ before.entries, was.path = now.path := by
        by_contra hnew
        exact hreported ⟨_, .created hnow fun was hwas heq => hnew ⟨was, hwas, heq⟩, by simp, rfl⟩
      obtain ⟨was, hwas, hpath⟩ := hwas
      have hnone : ∀ c, Differs before after c → c.entry.path ≠ now.path := by
        intro c hc heq
        by_cases hchange : c.change = .removed
        · cases hc with
          | created _ _ => cases hchange
          | modified _ _ _ _ => cases hchange
          | removed _ hno => exact hno now hnow heq.symm
        · exact hreported ⟨c, hc, hchange, after.eq_of_path hnow (hc.now hchange) heq.symm⟩
      have hsame := unreported hnow hwas hpath hnone
      rw [hsame.timeless hpath.symm]
      refine List.mem_map_of_mem ((hmem was).2 (.inr ⟨hwas, ?_⟩))
      intro c hc heq
      exact hnone c (mem_differences.1 hc) (heq.symm.trans hpath)

/-! ### The limit -/

theorem ends_die {α : Type} (msg : String) : Data.Ends (die msg : Result (List α)) :=
  ⟨fun _ _ => rfl, fun _ => rfl⟩

theorem limited_appendChange {α : Type} {f : α → Option Changed} :
    Data.Limited limitEntries (die "entry limit") (fun out e => appendChange out (f e)) f where
  skip out e h := by rw [h]; rfl
  append out e c h hroom := by rw [h, appendChange, dieIf, if_neg (Nat.not_le.2 hroom)]; rfl
  full out e c h hfull := by rw [h, appendChange, dieIf, if_pos hfull]; rfl

/-- The two loops, one after the other. -/
theorem scriptChanges_eq (out : List Changed) (before after : List Entry) :
    scriptChanges out before after =
      if differences before after = [] ∨ out.length + (differences before after).length ≤ limitEntries
      then .ok (out ++ differences before after) else die "entry limit" :=
  limited_appendChange.foldlM_foldlM limited_appendChange (ends_die _)

theorem inventory_differences (before after : Snapshot) :
    Inventory before after (differences before.entries after.entries) :=
  ⟨differences_once, fun _ => mem_differences, applied_perm⟩

/-- **The script inventory is the difference of the two snapshots**, and there is no reason to die
but the limit on entries. -/
theorem script_inventory_exact (out : List Changed) (before after : Snapshot) :
    ∃ changes, Inventory before after changes ∧
      scriptChanges out before.entries after.entries =
        if changes = [] ∨ out.length + changes.length ≤ limitEntries then .ok (out ++ changes)
        else die "entry limit" :=
  ⟨_, inventory_differences before after, scriptChanges_eq out before.entries after.entries⟩

/-- The file `a`. -/
def fileEntry (hash : Bytes) : Entry := ⟨[97], 0o100644, 0, 0, 0, hash, none⟩

/-- The link `b`, which leads to `a`. -/
def linkEntry : Entry := ⟨[98], 0o120755, 0, 0, 0, [], some [97]⟩

/-- The directory `c`. -/
def dirEntry : Entry := ⟨[99], 0o040755, 0, 0, 0, [], none⟩

def beforeScripts : Snapshot := ⟨[fileEntry [1], linkEntry], by decide, by decide⟩

def afterScripts : Snapshot := ⟨[dirEntry, fileEntry [2]], by decide, by decide⟩

/-- A directory is made, a file written and a link removed. -/
theorem script_inventory_exact_three :
    Inventory beforeScripts afterScripts
        [⟨.created, dirEntry⟩, ⟨.modified, fileEntry [2]⟩, ⟨.removed, linkEntry⟩] ∧
      scriptChanges [] beforeScripts.entries afterScripts.entries =
        .ok [⟨.created, dirEntry⟩, ⟨.modified, fileEntry [2]⟩, ⟨.removed, linkEntry⟩] := by
  have hrun : scriptChanges [] beforeScripts.entries afterScripts.entries =
      .ok [⟨.created, dirEntry⟩, ⟨.modified, fileEntry [2]⟩, ⟨.removed, linkEntry⟩] := by rfl
  obtain ⟨changes, hinventory, heq⟩ := script_inventory_exact [] beforeScripts afterScripts
  rw [hrun] at heq
  split at heq
  · obtain rfl := Except.ok.inj heq
    exact ⟨hinventory, hrun⟩
  · cases heq

end MiniDarwin.Archive
