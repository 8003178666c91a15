import MiniDarwin.Posix.Tree
import MiniDarwin.Rootfs.Exact

/-!
A directory of a file tree, as it is shown to the tool.

What is beneath the directory is listed name by name, to a depth that
leaves nothing out (`mem_diskAt`). So what `compare_tree ()` says of two
directories follows from the nodes that they have.
-/

namespace MiniDarwin.Rootfs

open Data Posix

/-- A string of the file system in Python. -/
def textOf (s : Str) : Text := s.map Char.toNat

section Views

variable (sha256 : Text → Digest)

def leafOf : Posix.Node → Leaf
  | .file mode data => .file mode.toNat data.length (sha256 (data.map UInt8.toNat))
  | .link target => .symlink (textOf target)
  | _ => .other

def viewOf : Posix.Node → Leaf ⊕ Nat
  | .dir mode => .inr mode.toNat
  | v => .inl (leafOf sha256 v)

/-- One name, before others. -/
def plant (name : Text) (v : Leaf ⊕ Nat) (children rest : Tree) : Tree :=
  match v with
  | .inr mode => .node name mode children rest
  | .inl leaf => .leaf name leaf rest

/-- The names of a directory, with what is beneath each. -/
def plantAll (fs : Fs) (d : Path) (children : Posix.Name → Tree) : List Posix.Name → Tree
  | [] => .nil
  | n :: names =>
      match fs.get (d ++ [n]) with
      | some v => plant (textOf n.1) (viewOf sha256 v) (children n) (plantAll fs d children names)
      | none => plantAll fs d children names

/-- What is beneath a directory, to a depth. -/
def treeAt (fs : Fs) : (depth : Nat) → Path → Tree
  | 0, _ => .nil
  | depth + 1, d => plantAll sha256 fs d (fun n => treeAt fs depth (d ++ [n])) (fs.children d)

/-- No path is longer. -/
def depthOf (fs : Fs) : Nat := (fs.paths.map List.length).sum

/-- A directory as a disk. -/
def diskAt (fs : Fs) (d : Path) (beyond : Text → Option (Leaf ⊕ Nat)) : Disk where
  tree := treeAt sha256 fs (depthOf fs) d
  beyond

end Views

variable {sha256 : Text → Digest} {fs : Fs} {d q : Path} {p : List Text} {x : Leaf ⊕ Nat}
  {children : Posix.Name → Tree} {names : List Posix.Name} {n : Posix.Name} {depth : Nat}

theorem textOf_injective : Function.Injective textOf := List.map_injective_iff.2 fun _ _ h => Char.toNat_inj.1 h

theorem isName_textOf (n : Posix.Name) :
    textOf n.1 ≠ [] ∧ 47 ∉ textOf n.1 ∧ textOf n.1 ≠ lit "." ∧ textOf n.1 ≠ lit ".." := by
  obtain ⟨hne, hdot, hdots, hslash⟩ := n.2
  refine ⟨fun h => hne (List.map_eq_nil_iff.1 h), ?_, fun h => hdot (textOf_injective h), fun h => hdots (textOf_injective h)⟩
  intro h
  obtain ⟨c, hc, heq⟩ := List.mem_map.1 h
  rw [show '/' = c from Char.toNat_inj.1 heq.symm] at hslash
  exact hslash hc

/-! ### What is listed -/

theorem mem_plant {name : Text} {v : Leaf ⊕ Nat} {below rest : Tree} {P : List Text} :
    (p, x) ∈ (plant name v below rest).items P ↔ (p, x) = (P ++ [name], v) ∨
      v.isRight = true ∧ (p, x) ∈ below.items (P ++ [name]) ∨ (p, x) ∈ rest.items P := by
  cases v with
  | inl leaf => simp [plant, Forest.items]
  | inr mode => simp [plant, Forest.items]

theorem mem_plantAll {P : List Text} : (p, x) ∈ (plantAll sha256 fs d children names).items P ↔
    ∃ n ∈ names, ∃ v, fs.get (d ++ [n]) = some v ∧ ((p, x) = (P ++ [textOf n.1], viewOf sha256 v) ∨
      (viewOf sha256 v).isRight = true ∧ (p, x) ∈ (children n).items (P ++ [textOf n.1])) := by
  induction names with
  | nil => simp [plantAll, Forest.items]
  | cons n names ih =>
      rw [plantAll]
      cases hv : fs.get (d ++ [n]) with
      | none => simp [ih, hv]
      | some v => simp only [mem_plant, ih, List.mem_cons, exists_eq_or_imp, hv, Option.some.injEq, exists_eq_left', or_assoc]

theorem viewOf_isRight {v : Posix.Node} : (viewOf sha256 v).isRight = v.isDir := by
  cases v <;> rfl

/-- All that is beneath the directory is listed, once the depth is that of the tree. -/
theorem mem_treeAt {P : List Text} (hdepth : ∀ q, fs.get (d ++ q) ≠ none → q.length ≤ depth) :
    (p, x) ∈ (treeAt sha256 fs depth d).items P ↔ ∃ q v, q ≠ [] ∧ fs.get (d ++ q) = some v ∧
      p = P ++ q.map (fun n => textOf n.1) ∧ x = viewOf sha256 v := by
  induction depth generalizing d P with
  | zero =>
      constructor
      · intro h
        cases h
      · rintro ⟨q, v, hne, hv, -⟩
        have := hdepth q (by simp [hv])
        exact absurd (List.length_eq_zero_iff.1 (by omega)) hne
  | succ depth ih =>
      have hbelow : ∀ n q, fs.get (d ++ [n] ++ q) ≠ none → q.length ≤ depth := by
        intro n q hq
        have := hdepth (n :: q) (by simpa using hq)
        simpa using this
      rw [treeAt, mem_plantAll]
      constructor
      · rintro ⟨n, -, v, hv, heq | ⟨-, hmem⟩⟩
        · obtain ⟨rfl, rfl⟩ := Prod.mk.inj heq
          exact ⟨[n], v, List.cons_ne_nil _ _, hv, rfl, rfl⟩
        · obtain ⟨q, v', hne, hv', rfl, rfl⟩ := (ih (hbelow n)).1 hmem
          exact ⟨n :: q, v', List.cons_ne_nil _ _, by simpa using hv', by simp, rfl⟩
      · rintro ⟨q, v, hne, hv, rfl, rfl⟩
        obtain ⟨n, q, rfl⟩ := List.exists_cons_of_ne_nil hne
        have hcons : d ++ n :: q = d ++ [n] ++ q := by simp
        rw [hcons] at hv
        have hsome : fs.get (d ++ [n] ++ q) ≠ none := by rw [hv]; exact Option.some_ne_none v
        have hn : fs.get (d ++ [n]) ≠ none := Fs.ne_none_of_append hsome
        obtain ⟨u, hu⟩ := Option.ne_none_iff_exists'.1 hn
        refine ⟨n, Fs.mem_children.2 hn, u, hu, ?_⟩
        obtain rfl | hq := eq_or_ne q []
        · rw [List.append_nil, hu] at hv
          obtain rfl := Option.some.inj hv
          exact .inl rfl
        · right
          have hdir := Fs.isDir_iff.1 (Fs.isDir_of_append hsome hq)
          rw [hu] at hdir
          refine ⟨viewOf_isRight.trans hdir, (ih (hbelow n)).2 ⟨q, v, hq, hv, by simp, rfl⟩⟩

theorem length_le_depthOf (h : fs.get (d ++ q) ≠ none) : q.length ≤ depthOf fs := by
  have hmem : (d ++ q).length ∈ fs.paths.map List.length := List.mem_map_of_mem (fs.complete _ h)
  have hle := List.le_sum_of_mem hmem
  rw [List.length_append] at hle
  exact le_trans (Nat.le_add_left _ _) hle

/-- **What a directory shows** is what is beneath it. -/
theorem mem_diskAt {beyond : Text → Option (Leaf ⊕ Nat)} : (p, x) ∈ (diskAt sha256 fs d beyond).tree.items [] ↔
    ∃ q v, q ≠ [] ∧ fs.get (d ++ q) = some v ∧ p = q.map (fun n => textOf n.1) ∧ x = viewOf sha256 v :=
  mem_treeAt fun _ => length_le_depthOf

/-! ### It is a disk -/

theorem names_plant {name : Text} {v : Leaf ⊕ Nat} {below rest : Tree} :
    (plant name v below rest).names = name :: rest.names := by
  cases v <;> rfl

theorem mem_names_plantAll {m : Text} (h : m ∈ (plantAll sha256 fs d children names).names) :
    ∃ n ∈ names, m = textOf n.1 := by
  induction names with
  | nil => cases h
  | cons n names ih =>
      rw [plantAll] at h
      split at h
      · rw [names_plant] at h
        obtain rfl | h := List.mem_cons.1 h
        · exact ⟨n, .head _, rfl⟩
        · obtain ⟨n', hn', rfl⟩ := ih h
          exact ⟨n', .tail _ hn', rfl⟩
      · obtain ⟨n', hn', rfl⟩ := ih h
        exact ⟨n', .tail _ hn', rfl⟩

theorem apart_plantAll (hnodup : names.Nodup) (h : ∀ n, (children n).Apart (· ≠ ·)) :
    (plantAll sha256 fs d children names).Apart (· ≠ ·) := by
  induction names with
  | nil => trivial
  | cons n names ih =>
      obtain ⟨hn, hnames⟩ := List.nodup_cons.1 hnodup
      have hfirst : ∀ m ∈ (plantAll sha256 fs d children names).names, textOf n.1 ≠ m := by
        rintro m hm rfl
        obtain ⟨n', hn', heq⟩ := mem_names_plantAll hm
        exact hn (Subtype.ext (textOf_injective heq) ▸ hn')
      rw [plantAll]
      split
      next v hv =>
        cases hview : viewOf sha256 v with
        | inl leaf => exact ⟨hfirst, ih hnames⟩
        | inr mode => exact ⟨hfirst, h n, ih hnames⟩
      · exact ih hnames

theorem apart_treeAt : (treeAt sha256 fs depth d).Apart (· ≠ ·) := by
  induction depth generalizing d with
  | zero => trivial
  | succ depth ih => exact apart_plantAll Fs.nodup_children fun n => ih

theorem diskAt_onDisk {beyond : Text → Option (Leaf ⊕ Nat)} : OnDisk (diskAt sha256 fs d beyond).tree where
  names := by
    intro i hi name hname
    obtain ⟨q, v, -, -, hq, -⟩ := mem_diskAt.1 hi
    rw [hq] at hname
    obtain ⟨n, -, rfl⟩ := List.mem_map.1 hname
    exact isName_textOf n
  apart := apart_treeAt

/-! ### Comparing two directories -/

/-- With names that are extra allowed, a directory that has all that another one has is as good. -/
theorem compareTree_mono {raw : ByteArray} {what : Text} {m : Manifest} {d d' : Disk} {calls : List Call}
    (hm : loadManifest sha256 raw what = .ok m) (hd : OnDisk d.tree) (hd' : OnDisk d'.tree)
    (hsub : ∀ i ∈ d.tree.items [], i ∈ d'.tree.items []) (h : compareTree d m.entries true = some ([], calls)) :
    ∃ calls', compareTree d' m.entries true = some ([], calls') := by
  obtain ⟨L, hL, hw, -⟩ := (loadManifest_ok hm).listing
  obtain ⟨problems, calls, hresult, hexact⟩ := compareTree_exact hd hL hw true
  obtain rfl : [] = problems := congrArg Prod.fst (Option.some.inj (h.symm.trans hresult))
  obtain ⟨problems', calls', hresult', hexact'⟩ := compareTree_exact hd' hL hw true
  suffices hnone : problems' = [] from ⟨calls', hnone ▸ hresult'⟩
  refine List.eq_nil_iff_forall_not_mem.2 fun y hy => ?_
  obtain ⟨-, e, he, -, hdiffers⟩ | ⟨hno, -⟩ := hexact'.reported y hy
  · obtain ⟨i, hi, hie⟩ := forall₂_exists hw he
    refine (d'.differs_iff hd' (hL.fits i hi) hie).1 hdiffers ?_
    obtain ⟨x, hx, hmatch⟩ := not_not.1 (mt (d.differs_iff hd (hL.fits i hi) hie).2 (hexact.unchanged e he))
    exact ⟨x, hsub _ hx, hmatch⟩
  · cases hno

end MiniDarwin.Rootfs
