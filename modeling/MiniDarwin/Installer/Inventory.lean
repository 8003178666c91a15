import MiniDarwin.Archive.Changes
import MiniDarwin.Installer.Placement

/-!
What the scripts of a package did to the stage (`receipts.c`).

`snapshot_tree ()` names every path once, whatever order `readdir ()` has, and
gives a link no hash. So the two lists that an install takes before and after
the scripts are snapshots, and what `script_changes ()` adds for them is their
difference.
-/

namespace MiniDarwin.Installer

open Posix Effects Effects.Proc

variable {K : Kernel Part} {env : Env} {base rel p : Path} {names : List Name} {n : Name} {left : Nat}
  {out l before after : List Snapshot} {a b e : Snapshot}

/-! ### `snapshot_tree ()` -/

/-- A file has a hash, and a link a target. -/
structure Snapshot.Taken (e : Snapshot) : Prop where
  file : e.sha256.isSome ↔ e.stat.kind = .file
  link : e.link.isSome ↔ e.stat.kind = .link

theorem finds_snapshotEntry : Finds (snapshotEntry env base rel) fun e => e.path = rel ∧ e.Taken := by
  refine looks_hostJoin.finds.bind fun path _ => (Looks.call rfl).finds.bind fun (st : Stat) _ => ?_
  cases hk : st.kind with
  | file =>
      exact looks_fileSha256.finds.bind fun data _ => .pure ⟨rfl, by simp [hk], by simp [hk]⟩
  | link =>
      exact looks_readlink.finds.bind fun target _ => .pure ⟨rfl, by simp [hk], by simp [hk]⟩
  | dir => exact .pure ⟨rfl, by simp [hk], by simp [hk]⟩
  | other => exact .die _

/-- No name comes twice. -/
theorem finds_listdir {msg : Errno → String} :
    Finds (call (.listdir p) msg) fun names : List Name => names.Nodup := by
  intro K g w
  refine wp_call.2 (wp_quiet rfl ⟨rfl, rfl⟩ fun r hs => ?_)
  cases r with
  | error e => exact Same.refl
  | ok names =>
      obtain ⟨l, hrun, hperm⟩ := hs
      simp only [Op.run, Except.map] at hrun
      split at hrun
      · cases hrun
      · cases hrun
        exact ⟨Same.refl, hperm.nodup_iff.2 Fs.nodup_children⟩

theorem finds_relJoin {a b : Path} : Finds (relJoin a b) (· = a ++ b) := by
  unfold relJoin
  split
  · next h => exact .pure (by simp [h])
  · split
    · next h => exact .pure (by simp [h])
    · exact .ite (.die _) (.pure rfl)

theorem finds_entriesAppend_eq {α : Type} {l : List α} {x : α} : Finds (entriesAppend l x) (· = l ++ [x]) :=
  .ite (.die _) (.pure rfl)

/-- Every path once, and all of them beneath `rel`. -/
structure Walked (rel : Path) (new : List Snapshot) : Prop where
  distinct : (new.map (·.path)).Nodup
  beneath : ∀ e ∈ new, rel <+: e.path
  taken : ∀ e ∈ new, e.Taken

/-- The loop over the names of a directory. -/
theorem finds_snapshotWalk_names (h : ∀ n out, Finds (snapshotWalk env base left (rel ++ [n]) out) fun out' =>
      ∃ new, out' = out ++ new ∧ Walked (rel ++ [n]) new) (hnames : names.Nodup) :
    Finds (names.foldlM (fun out n => do
        let child ← relJoin rel [n]
        snapshotWalk env base left child out) out) fun out' =>
      ∃ new, out' = out ++ new ∧ (new.map (·.path)).Nodup ∧
        ∀ e ∈ new, e.Taken ∧ ∃ n ∈ names, rel ++ [n] <+: e.path := by
  induction names generalizing out with
  | nil => exact .pure ⟨[], by simp⟩
  | cons n names ih =>
      obtain ⟨hn, hnames⟩ := List.nodup_cons.1 hnames
      rw [List.foldlM_cons]
      have hfirst : Finds (do
          let child ← relJoin rel [n]
          snapshotWalk env base left child out) fun out' => ∃ new, out' = out ++ new ∧ Walked (rel ++ [n]) new := by
        refine finds_relJoin.bind fun child hchild => ?_
        subst hchild
        exact h n out
      refine hfirst.bind fun out1 hout1 => ?_
      obtain ⟨new, rfl, hnew⟩ := hout1
      refine (ih hnames).imp fun out2 hout2 => ?_
      obtain ⟨more, rfl, hdistinct, hmore⟩ := hout2
      refine ⟨new ++ more, List.append_assoc _ _ _, ?_, ?_⟩
      · rw [List.map_append, List.nodup_append]
        refine ⟨hnew.distinct, hdistinct, ?_⟩
        rintro _ hp _ hq rfl
        obtain ⟨a, ha, rfl⟩ := List.mem_map.1 hp
        obtain ⟨b, hb, hpath⟩ := List.mem_map.1 hq
        obtain ⟨-, m, hm, hbeneath⟩ := hmore b hb
        -- the name after `rel` is both `n` and `m`
        obtain ⟨s, hs⟩ := hnew.beneath a ha
        obtain ⟨t, ht⟩ := hbeneath
        rw [hpath, ← hs, List.append_assoc, List.append_assoc] at ht
        obtain rfl : m = n := (List.cons.inj (List.append_cancel_left ht)).1
        exact hn hm
      · intro e he
        rcases List.mem_append.1 he with he | he
        · exact ⟨hnew.taken e he, n, .head _, hnew.beneath e he⟩
        · obtain ⟨htaken, m, hm, hbeneath⟩ := hmore e he
          exact ⟨htaken, m, .tail _ hm, hbeneath⟩

theorem finds_snapshotWalk : Finds (snapshotWalk env base left rel out) fun out' =>
    ∃ new, out' = out ++ new ∧ Walked rel new := by
  induction left generalizing rel out with
  | zero => exact .die _
  | succ left ih =>
      refine finds_snapshotEntry.bind fun e he => finds_entriesAppend_eq.bind fun out1 hout1 => ?_
      obtain ⟨rfl, htaken⟩ := he
      subst hout1
      split
      · refine .pure ⟨[e], rfl, by simp, ?_, ?_⟩
        · simp
        · simpa using htaken
      · refine looks_hostJoin.finds.bind fun path _ => finds_listdir.bind fun names hnames => ?_
        refine (finds_snapshotWalk_names (fun n out => ih) (hnames.filter _)).imp fun out' hout' => ?_
        obtain ⟨new, rfl, hdistinct, hnew⟩ := hout'
        refine ⟨e :: new, by simp, ?_, ?_, ?_⟩
        · rw [List.map_cons, List.nodup_cons]
          refine ⟨fun hmem => ?_, hdistinct⟩
          obtain ⟨x, hx, hpath⟩ := List.mem_map.1 hmem
          obtain ⟨-, n, -, hbeneath⟩ := hnew x hx
          have hlen := hbeneath.length_le
          rw [hpath, List.length_append, List.length_singleton] at hlen
          omega
        · refine List.forall_mem_cons.2 ⟨List.prefix_refl _, fun x hx => ?_⟩
          obtain ⟨-, n, -, hbeneath⟩ := hnew x hx
          exact (List.prefix_append _ _).trans hbeneath
        · exact List.forall_mem_cons.2 ⟨htaken, fun x hx => (hnew x hx).1⟩

/-- What `snapshot_tree ()` returns. -/
theorem finds_snapshotTree : Finds (snapshotTree env base) fun l => Walked [] l :=
  finds_snapshotWalk.imp fun l hl => by
    obtain ⟨new, rfl, hnew⟩ := hl
    exact hnew

/-! ### As snapshots -/

/-- The bytes of a string. -/
def bytesOf (s : Str) : Bytes := (String.ofList s).toByteArray.data.toList

theorem bytesOf_injective {s t : Str} (h : bytesOf s = bytesOf t) : s = t := by
  exact String.ofList_injective (String.toByteArray_inj.1 (ByteArray.ext (Array.toList_inj.1 h)))

/-- `S_IFMT` of a mode. -/
def typeBits : Kind → Nat
  | .dir => Archive.ifdir
  | .file => Archive.ifreg
  | .link => Archive.iflnk
  | .other => 0

/-- `snapshot_entry ()`, but for owners and times. -/
def Snapshot.entry (e : Snapshot) : Archive.Entry where
  path := bytesOf (render e.path)
  mode := UInt16.ofNat (typeBits e.stat.kind + e.stat.mode.toNat)
  uid := 0
  gid := 0
  mtime := 0
  data := e.sha256.getD []
  link := e.link.map bytesOf

theorem typeBits_mode {k k' : Kind} {m m' : Mode} :
    UInt16.ofNat (typeBits k + m.toNat) = UInt16.ofNat (typeBits k' + m'.toNat) ↔ k = k' ∧ m = m' := by
  have hm := m.isLt
  have hm' := m'.isLt
  rw [← UInt16.toNat_inj, UInt16.toNat_ofNat', UInt16.toNat_ofNat', ← BitVec.toNat_inj]
  cases k <;> cases k' <;>
    simp only [typeBits, Archive.ifdir, Archive.ifreg, Archive.iflnk, reduceCtorEq, false_and, true_and, iff_false] <;>
    omega

/-- A link has no hash. -/
theorem Snapshot.Taken.link_data (h : e.Taken) (hlink : e.entry.link ≠ none) : e.entry.data = [] := by
  have hkind : e.stat.kind = .link := h.link.1 (by simpa [entry, Option.isSome_iff_ne_none] using hlink)
  have hnone : e.sha256 = none := by
    by_contra hsome
    have := h.file.1 (Option.isSome_iff_ne_none.2 hsome)
    rw [hkind] at this
    cases this
  simp [entry, hnone]

/-- Two entries differ exactly if they do as they are recorded. -/
theorem sameEntry_entry (ha : a.Taken) (hb : b.Taken) : Archive.sameEntry a.entry b.entry = sameEntry a b := by
  have hmode : a.entry.mode = b.entry.mode ↔ a.stat.kind = b.stat.kind ∧ a.stat.mode = b.stat.mode := typeBits_mode
  have hlink : a.entry.link = b.entry.link ↔ a.link = b.link :=
    (Option.map_injective fun _ _ => bytesOf_injective).eq_iff
  have hdata : a.stat.kind = b.stat.kind → (a.entry.data = b.entry.data ↔ a.sha256 = b.sha256) := by
    intro hkind
    have hboth : a.sha256.isSome ↔ b.sha256.isSome := ha.file.trans (hkind ▸ hb.file.symm)
    show a.sha256.getD [] = b.sha256.getD [] ↔ _
    cases hx : a.sha256 with
    | none =>
        cases hy : b.sha256 with
        | none => simp
        | some y => simp [hx, hy] at hboth
    | some x =>
        cases hy : b.sha256 with
        | none => simp [hx, hy] at hboth
        | some y => simp
  rw [Bool.eq_iff_iff, Archive.sameEntry_iff ha.link_data hb.link_data, Archive.Same, hmode, hlink, sameEntry,
    decide_eq_true_iff]
  constructor
  · rintro ⟨⟨hkind, hmode⟩, -, -, hlink, hsame⟩
    exact ⟨hkind, hmode, hlink, (hdata hkind).1 hsame⟩
  · rintro ⟨hkind, hmode, hlink, hsame⟩
    exact ⟨⟨hkind, hmode⟩, rfl, rfl, hlink, (hdata hkind).2 hsame⟩

/-- What was taken of the stage, as a snapshot. -/
def archived (l : List Snapshot) (h : Walked [] l) : Archive.Snapshot where
  entries := l.map Snapshot.entry
  distinct := by
    have hdistinct : (l.map (·.path)).map (fun p => bytesOf (render p)) = (l.map Snapshot.entry).map (·.path) := by
      rw [List.map_map, List.map_map]
      rfl
    rw [← hdistinct]
    exact h.distinct.map fun p q hpq => render_injective (bytesOf_injective hpq)
  links := by
    intro x hx
    obtain ⟨e, he, rfl⟩ := List.mem_map.1 hx
    exact (h.taken e he).link_data

/-! ### `script_changes ()` -/

/-- `change` of an entry. -/
def changeName : Archive.Change → String
  | .created => "created"
  | .modified => "modified"
  | .removed => "removed"

theorem entriesFind_entry {path : Path} :
    Archive.entriesFind (l.map Snapshot.entry) (bytesOf (render path)) = (entriesFind l path).map Snapshot.entry := by
  unfold Archive.entriesFind entriesFind
  rw [List.find?_map]
  congr 2
  funext e
  refine decide_eq_decide.2 ?_
  exact ⟨fun h => render_injective (bytesOf_injective h), fun h => h ▸ rfl⟩

/-- What the first loop appends. -/
def changeNow (before : List Snapshot) (now : Snapshot) : Option (Archive.Change × Snapshot) :=
  match entriesFind before now.path with
  | none => some (.created, now)
  | some was => if sameEntry now was then none else some (.modified, now)

/-- What the second loop appends. -/
def changeWas (after : List Snapshot) (was : Snapshot) : Option (Archive.Change × Snapshot) :=
  match entriesFind after was.path with
  | none => some (.removed, was)
  | some _ => none

def differences (before after : List Snapshot) : List (Archive.Change × Snapshot) :=
  after.filterMap (changeNow before) ++ before.filterMap (changeWas after)

/-- A change as it is recorded. -/
def recorded (c : Archive.Change × Snapshot) : Archive.Changed := ⟨c.1, c.2.entry⟩

theorem changeNow_entry (hbefore : Walked [] before) (he : e.Taken) :
    Archive.changeNow (before.map Snapshot.entry) e.entry = (changeNow before e).map recorded := by
  unfold Archive.changeNow changeNow
  rw [show e.entry.path = bytesOf (render e.path) from rfl, entriesFind_entry]
  cases hfind : entriesFind before e.path with
  | none => rfl
  | some was =>
      have hwas : was ∈ before := List.mem_of_find?_eq_some hfind
      simp only [Option.map_some, sameEntry_entry he (hbefore.taken was hwas)]
      split
      · rfl
      · rfl

theorem changeWas_entry : Archive.changeWas (after.map Snapshot.entry) e.entry = (changeWas after e).map recorded := by
  unfold Archive.changeWas changeWas
  rw [show e.entry.path = bytesOf (render e.path) from rfl, entriesFind_entry]
  cases entriesFind after e.path with
  | none => rfl
  | some now => rfl

theorem differences_entry (hbefore : Walked [] before) (hafter : Walked [] after) :
    Archive.differences (before.map Snapshot.entry) (after.map Snapshot.entry) =
      (differences before after).map recorded := by
  rw [Archive.differences, differences, List.map_append, List.map_filterMap, List.map_filterMap, List.filterMap_map,
    List.filterMap_map]
  refine congrArg₂ _ (List.filterMap_congr fun e he => ?_) (List.filterMap_congr fun e _ => ?_)
  · exact changeNow_entry hbefore (hafter.taken e he)
  · exact changeWas_entry

/-- A change as an install keeps it. -/
def kept (c : Archive.Change × Snapshot) : String × Snapshot := (changeName c.1, c.2)

/-- All that the two loops append. -/
theorem kept_differences : (differences before after).map kept =
    (after.filterMap fun e => (changeNow before e).map kept) ++ before.filterMap fun e => (changeWas after e).map kept := by
  rw [differences, List.map_append, List.map_filterMap, List.map_filterMap]

theorem limited_entriesAppend {α β : Type} {step : List β → α → M (List β)} {f : α → Option β}
    (hskip : ∀ out x, f x = none → step out x = pure out)
    (happend : ∀ out x y, f x = some y → step out x = entriesAppend out y) :
    Data.Limited limitEntries (die "entry limit") step f where
  skip := hskip
  append out x y h hroom := by rw [happend out x y h, entriesAppend, if_neg (Nat.not_le.2 hroom)]
  full out x y h hfull := by rw [happend out x y h, entriesAppend, if_pos hfull]

/-- The two loops, one after the other. -/
theorem scriptChanges_eq {out : List (String × Snapshot)} :
    scriptChanges out before after =
      if differences before after = [] ∨ out.length + (differences before after).length ≤ limitEntries
      then pure (out ++ (differences before after).map kept) else die "entry limit" := by
  have hends : Data.Ends (die "entry limit" : M (List (String × Snapshot))) := ⟨fun _ _ => rfl, fun _ => rfl⟩
  refine (Data.Limited.foldlM_foldlM
    (?now : Data.Limited limitEntries (die "entry limit") _ fun e => (changeNow before e).map kept)
    (?was : Data.Limited limitEntries (die "entry limit") _ fun e => (changeWas after e).map kept) hends).trans ?_
  case now =>
    refine limited_entriesAppend ?_ ?_
    · intro out now h
      cases hfind : entriesFind before now.path with
      | none => simp [changeNow, hfind] at h
      | some was =>
          have hsame : sameEntry now was = true := by simpa [changeNow, hfind] using h
          exact if_pos hsame
    · intro out now change h
      cases hfind : entriesFind before now.path with
      | none =>
          have hcreated : kept (.created, now) = change := by simpa [changeNow, hfind] using h
          rw [← hcreated]
          rfl
      | some was =>
          have hmodified : ¬ sameEntry now was = true ∧ kept (.modified, now) = change := by
            simpa [changeNow, hfind] using h
          exact (if_neg hmodified.1).trans (congrArg _ hmodified.2)
  case was =>
    refine limited_entriesAppend ?_ ?_
    · intro out was h
      cases hfind : entriesFind after was.path with
      | none => simp [changeWas, hfind] at h
      | some now => rfl
    · intro out was change h
      cases hfind : entriesFind after was.path with
      | none =>
          have hremoved : kept (.removed, was) = change := by simpa [changeWas, hfind] using h
          rw [← hremoved]
          rfl
      | some now => simp [changeWas, hfind] at h
  rw [← kept_differences, List.length_map]
  exact if_congr (or_congr List.map_eq_nil_iff Iff.rfl) rfl rfl

/-- **What the scripts did to the stage is recorded.** Two hooks in a row add the difference of the
stage before them and after them. -/
theorem hooks_recorded {c : Component} {first last : Hook} {workdir : Path} {changes out : List (String × Snapshot)}
    {g g' : Globals} {w w' : World Part} (hhooks : anyHook c first last = true) (hlive : g.live = false)
    (hr : Prog.Reach (sem K) (runHooks env base c first last workdir changes g) w (.ret (.ok out, g')) w') :
    ∃ before after h h' v v', ∃ (hbefore : Walked [] before) (hafter : Walked [] after),
      Prog.Reach (sem K) (snapshotTree env base g) w (.ret (.ok before, g)) w ∧
      Prog.Reach (sem K) (snapshotTree env base h) v (.ret (.ok after, h')) v' ∧
      Archive.Inventory (archived before hbefore) (archived after hafter) ((differences before after).map recorded) ∧
      out = changes ++ (differences before after).map kept := by
  have hsnapshot : ∀ g w, wp (sem K) (fun _ _ => True) (snapshotTree env base) (fun l h v => (Same g w h v ∧
      Walked [] l) ∧ Prog.Reach (sem K) (snapshotTree env base g) w (.ret (.ok l, h)) v) (fun _ _ _ => True) g w :=
    fun g w => wp.mono (wp.and (finds_snapshotTree K g w) wp_reach) (fun _ _ _ => trivial) (fun _ _ _ => id)
      fun _ _ _ _ => trivial
  have hrun : wp (sem K) (fun _ _ => True) (runHooks env base c first last workdir changes) (fun out _ _ =>
      ∃ before after h h' v v', ∃ (hbefore : Walked [] before) (hafter : Walked [] after),
        Prog.Reach (sem K) (snapshotTree env base g) w (.ret (.ok before, g)) w ∧
        Prog.Reach (sem K) (snapshotTree env base h) v (.ret (.ok after, h')) v' ∧
        Archive.Inventory (archived before hbefore) (archived after hafter) ((differences before after).map recorded) ∧
        out = changes ++ (differences before after).map kept) (fun _ _ _ => True) g w := by
    rw [runHooks, if_pos hhooks]
    refine wp_bind.2 (wp_get.2 (wp_bind.2 ?_))
    rw [snapshotUnlessLive, hlive]
    refine wp.post (hsnapshot g w) ?_ fun _ _ _ _ => trivial
    rintro before _ _ ⟨⟨⟨rfl, rfl⟩, hbefore⟩, hreach⟩
    refine wp_bind.2 (wp.post wp_trivial ?_ fun _ _ _ _ => trivial)
    intro _ g1 w1 _
    refine wp_bind.2 (wp.post wp_trivial ?_ fun _ _ _ _ => trivial)
    intro _ g2 w2 _
    refine wp_bind.2 (wp.post (hsnapshot g2 w2) ?_ fun _ _ _ _ => trivial)
    rintro after _ _ ⟨⟨⟨rfl, rfl⟩, hafter⟩, hreach'⟩
    rw [scriptChanges_eq]
    split
    · refine ⟨before, after, _, _, _, _, hbefore, hafter, hreach, hreach', ?_, rfl⟩
      have hinventory := Archive.inventory_differences (archived before hbefore) (archived after hafter)
      rwa [archived, archived, differences_entry hbefore hafter] at hinventory
    · trivial
  exact hrun.reach hr

end MiniDarwin.Installer
