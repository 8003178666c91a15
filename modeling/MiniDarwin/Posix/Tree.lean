import MiniDarwin.Effects.Program

/-!
File trees.

A path is the list of the names on it, and a name is a string that a
directory can hold: not empty, without a slash, and neither of the two
names that every directory has already. A tree gives each path the node
found there. Being a tree is part of the type: the root is a directory,
whatever exists lies in a directory, and only finitely many paths exist,
so that a directory can be listed.

Every change below asks for what keeps it a tree. The equations for `get`
after a change are all that later proofs use.
-/

namespace Posix

abbrev Str := List Char

abbrev Bytes := List UInt8

/-- The permission bits of a node, `07777`. -/
abbrev Mode := BitVec 12

/-- The strings a directory can hold as a name. -/
def IsName (s : Str) : Prop := s ≠ [] ∧ s ≠ ['.'] ∧ s ≠ ['.', '.'] ∧ '/' ∉ s

instance (s : Str) : Decidable (IsName s) := inferInstanceAs (Decidable (_ ∧ _ ∧ _ ∧ _))

abbrev Name := {s : Str // IsName s}

abbrev Path := List Name

/-- A longer name is a name. -/
theorem IsName.append {s : Str} (h : IsName s) {t : Str} (ht : '/' ∉ t) : IsName (s ++ t) := by
  obtain ⟨hne, hdot, hdots, hslash⟩ := h
  refine ⟨by simp [hne], ?_, ?_, by simp [hslash, ht]⟩
  · intro heq
    rcases List.append_eq_singleton_iff.1 heq with ⟨h1, _⟩ | ⟨h1, _⟩
    · exact hne h1
    · exact hdot h1
  · intro heq
    rcases List.append_eq_cons_iff.1 heq with ⟨h1, _⟩ | ⟨u, rfl, hu⟩
    · exact hne h1
    · rcases List.append_eq_singleton_iff.1 hu.symm with ⟨rfl, _⟩ | ⟨rfl, _⟩
      · exact hdot rfl
      · exact hdots rfl

/-- What a path names. A symbolic link has a target and nothing else: its own
permission bits decide nothing. -/
inductive Node where
  | dir (mode : Mode)
  | file (mode : Mode) (data : Bytes)
  | link (target : Str)
  | other
  deriving DecidableEq

def Node.isDir : Node → Bool
  | .dir _ => true
  | _ => false

structure Fs where
  get : Path → Option Node
  paths : List Path
  complete : ∀ p, get p ≠ none → p ∈ paths
  top : ∃ m, get [] = some (.dir m)
  parent : ∀ d n, get (d ++ [n]) ≠ none → ∃ m, get d = some (.dir m)

namespace Fs

variable {fs : Fs} {p q d : Path} {n : Name} {v : Node}

def IsDir (fs : Fs) (p : Path) : Prop := ∃ m, fs.get p = some (.dir m)

theorem isDir_iff : fs.IsDir p ↔ (fs.get p).any Node.isDir = true := by
  unfold IsDir
  cases fs.get p with
  | none => simp
  | some v => cases v <;> simp [Node.isDir]

instance (fs : Fs) (p : Path) : Decidable (fs.IsDir p) := decidable_of_iff _ isDir_iff.symm

theorem IsDir.ne_none (h : fs.IsDir p) : fs.get p ≠ none := by
  obtain ⟨m, h⟩ := h
  simp [h]

theorem isDir_nil : fs.IsDir [] := fs.top

/-- Whatever lies strictly above something that exists is a directory. -/
theorem isDir_of_append (h : fs.get (p ++ q) ≠ none) (hq : q ≠ []) : fs.IsDir p := by
  induction q using List.reverseRecOn with
  | nil => exact absurd rfl hq
  | append_singleton q n ih =>
      have hd : fs.IsDir (p ++ q) := fs.parent (p ++ q) n (by rwa [List.append_assoc])
      by_cases hq' : q = []
      · simpa [hq'] using hd
      · exact ih hd.ne_none hq'

theorem ne_none_of_append (h : fs.get (p ++ q) ≠ none) : fs.get p ≠ none := by
  by_cases hq : q = []
  · simpa [hq] using h
  · exact (isDir_of_append h hq).ne_none

theorem ne_none_of_isPrefix (hp : p <+: q) (h : fs.get q ≠ none) : fs.get p ≠ none := by
  obtain ⟨t, rfl⟩ := hp
  exact ne_none_of_append h

theorem get_append_eq_none (h : fs.get p = none) : fs.get (p ++ q) = none := by
  by_contra hq
  exact ne_none_of_append hq h

/-- The names in a directory, in some order. -/
def children (fs : Fs) (d : Path) : List Name :=
  (fs.paths.filterMap fun p =>
    if fs.get p ≠ none ∧ p.dropLast = d then p.getLast? else none).dedup

theorem nodup_children : (fs.children d).Nodup := List.nodup_dedup _

@[simp] theorem mem_children : n ∈ fs.children d ↔ fs.get (d ++ [n]) ≠ none := by
  simp only [children, List.mem_dedup, List.mem_filterMap]
  constructor
  · rintro ⟨p, _, hp⟩
    split at hp
    · next h =>
        obtain ⟨h1, rfl⟩ := h
        rwa [List.dropLast_append_getLast? n hp]
    · simp at hp
  · intro h
    exact ⟨d ++ [n], fs.complete _ h, by simp [h]⟩

theorem children_eq_nil : fs.children d = [] ↔ ∀ n, fs.get (d ++ [n]) = none := by
  rw [List.eq_nil_iff_forall_not_mem]
  simp

/-- The tree with nothing in it. -/
def bare : Fs where
  get p := if p = [] then some (.dir 0o755) else none
  paths := [[]]
  complete p hp := by
    by_cases h : p = []
    · simp [h]
    · simp [h] at hp
  top := ⟨0o755, rfl⟩
  parent d n h := by simp at h

/-! ### Changes -/

/-- Put a node where there was none. -/
def create (fs : Fs) (p : Path) (v : Node) (hp : p ≠ []) (hd : fs.IsDir p.dropLast)
    (hn : fs.get p = none) : Fs where
  get q := if q = p then some v else fs.get q
  paths := p :: fs.paths
  complete q hq := by
    by_cases h : q = p
    · simp [h]
    · exact List.mem_cons_of_mem _ (fs.complete q (by simpa [h] using hq))
  top := by
    obtain ⟨m, hm⟩ := fs.top
    exact ⟨m, by simp [hp.symm, hm]⟩
  parent e k hk := by
    by_cases h : e ++ [k] = p
    · subst h
      obtain ⟨m, hm⟩ := hd
      rw [List.dropLast_concat] at hm
      exact ⟨m, by simp [hm]⟩
    · obtain ⟨m, hm⟩ := fs.parent e k (by simpa [h] using hk)
      have he : e ≠ p := by
        rintro rfl
        simp [hn] at hm
      exact ⟨m, by simp [he, hm]⟩

/-- Take away a node that nothing lies beneath. -/
def remove (fs : Fs) (p : Path) (hp : p ≠ []) (hk : ∀ n, fs.get (p ++ [n]) = none) : Fs where
  get q := if q = p then none else fs.get q
  paths := fs.paths
  complete q hq := by
    by_cases h : q = p
    · simp [h] at hq
    · exact fs.complete q (by simpa [h] using hq)
  top := by
    obtain ⟨m, hm⟩ := fs.top
    exact ⟨m, by simp [hp.symm, hm]⟩
  parent e k h := by
    by_cases hek : e ++ [k] = p
    · simp [hek] at h
    · simp only [hek, if_false] at h
      by_cases he : e = p
      · exact absurd (hk k) (he ▸ h)
      · obtain ⟨m, hm⟩ := fs.parent e k h
        exact ⟨m, by simp [he, hm]⟩

/-- Change a node, but not whether it is a directory. -/
def replace (fs : Fs) (p : Path) (v : Node)
    (h : (fs.get p).map Node.isDir = some v.isDir) : Fs where
  get q := if q = p then some v else fs.get q
  paths := fs.paths
  complete q hq := by
    by_cases hqp : q = p
    · subst hqp
      exact fs.complete q (by rintro hn; simp [hn] at h)
    · exact fs.complete q (by simpa [hqp] using hq)
  top := by
    obtain ⟨m, hm⟩ := fs.top
    by_cases hp : p = []
    · subst hp
      cases v <;> simp_all [Node.isDir]
    · exact ⟨m, by simp [Ne.symm hp, hm]⟩
  parent e k hk := by
    have hek : fs.get (e ++ [k]) ≠ none := by
      by_cases hp : e ++ [k] = p
      · rintro hn
        simp [← hp, hn] at h
      · simpa [hp] using hk
    obtain ⟨m, hm⟩ := fs.parent e k hek
    by_cases he : e = p
    · subst he
      cases v <;> simp_all [Node.isDir]
    · exact ⟨m, by simp [he, hm]⟩

/-- Move the tree at `a` to the name `b`. -/
def move (fs : Fs) (a b : Path) (hb : b ≠ []) (hd : fs.IsDir b.dropLast)
    (ha : ¬ a <+: b.dropLast) : Fs where
  get q :=
    if b <+: q then fs.get (a ++ q.drop b.length)
    else if a <+: q then none else fs.get q
  paths := fs.paths ++ fs.paths.map fun q => b ++ q.drop a.length
  complete q hq := by
    by_cases hbq : b <+: q
    · obtain ⟨t, rfl⟩ := hbq
      simp only [List.prefix_append, if_true, List.drop_left] at hq
      exact List.mem_append_right _ (List.mem_map.2 ⟨a ++ t, fs.complete _ hq, by simp⟩)
    · simp only [hbq, if_false] at hq
      by_cases haq : a <+: q
      · simp [haq] at hq
      · exact List.mem_append_left _ (fs.complete q (by simpa [haq] using hq))
  top := by
    obtain ⟨m, hm⟩ := fs.top
    have ha' : a ≠ [] := by rintro rfl; simp at ha
    exact ⟨m, by simp [hb, ha', hm]⟩
  parent e k hk := by
    by_cases hbe : b <+: e ++ [k]
    · rcases List.prefix_concat_iff.1 hbe with rfl | hbe'
      · rw [List.dropLast_concat] at hd ha
        have hlen : ¬ e ++ [k] <+: e := fun h => by
          have hle := h.length_le
          simp only [List.length_append, List.length_singleton] at hle
          omega
        obtain ⟨m, hm⟩ := hd
        exact ⟨m, by simp [hlen, ha, hm]⟩
      · obtain ⟨t, rfl⟩ := hbe'
        rw [if_pos hbe, List.append_assoc, List.drop_left, ← List.append_assoc] at hk
        obtain ⟨m, hm⟩ := fs.parent (a ++ t) k hk
        exact ⟨m, by simpa using hm⟩
    · simp only [hbe, if_false] at hk
      by_cases hae : a <+: e ++ [k]
      · simp [hae] at hk
      · simp only [hae, if_false] at hk
        obtain ⟨m, hm⟩ := fs.parent e k hk
        have h1 : ¬ b <+: e := fun h => hbe (h.trans (List.prefix_append _ _))
        have h2 : ¬ a <+: e := fun h => hae (h.trans (List.prefix_append _ _))
        exact ⟨m, by simp [h1, h2, hm]⟩

/-! ### Growing

`Built fs js fs'`: `fs'` is `fs` with exactly the paths `js` added, each
listed after everything it lies beneath. What existed is as it was; what
was added may have been changed since. -/

/-- Everything that exists in `fs` is in `fs'` unchanged. -/
def Kept (fs fs' : Fs) : Prop := ∀ p, fs.get p ≠ none → fs'.get p = fs.get p

structure Built (fs : Fs) (js : List Path) (fs' : Fs) : Prop where
  kept : fs.Kept fs'
  made : ∀ p, fs.get p = none → (fs'.get p ≠ none ↔ p ∈ js)
  fresh : ∀ p ∈ js, fs.get p = none
  order : js.Pairwise fun a b => ¬ b <+: a

theorem Kept.refl (fs : Fs) : fs.Kept fs := fun _ _ => rfl

theorem Kept.trans {a b c : Fs} (h : a.Kept b) (h' : b.Kept c) : a.Kept c := by
  intro p hp
  rw [h' p (by rwa [h p hp]), h p hp]

theorem Kept.isDir {a b : Fs} (h : a.Kept b) (hd : a.IsDir p) : b.IsDir p := by
  obtain ⟨m, hm⟩ := hd
  exact ⟨m, by rw [h p (by simp [hm]), hm]⟩

theorem Kept.ne_none {a b : Fs} (h : a.Kept b) (hp : a.get p ≠ none) : b.get p ≠ none := by
  rwa [h p hp]

theorem Built.refl (fs : Fs) : fs.Built [] fs :=
  ⟨Kept.refl fs, by simp +contextual, by simp, .nil⟩

theorem Built.trans {a b c : Fs} {js ks : List Path} (h : a.Built js b) (h' : b.Built ks c) :
    a.Built (js ++ ks) c := by
  refine ⟨h.kept.trans h'.kept, ?_, ?_, ?_⟩
  · intro p hp
    rw [List.mem_append, ← h.made p hp]
    by_cases hb : b.get p = none
    · simp [hb, h'.made p hb]
    · simp [hb, h'.kept p hb]
  · intro p hp
    rcases List.mem_append.1 hp with hj | hk
    · exact h.fresh p hj
    · by_contra ha
      exact h.kept.ne_none ha (h'.fresh p hk)
  · rw [List.pairwise_append]
    refine ⟨h.order, h'.order, fun x hx y hy hyx => ?_⟩
    have hxb : b.get x ≠ none := (h.made x (h.fresh x hx)).2 hx
    exact ne_none_of_isPrefix hyx hxb (h'.fresh y hy)

/-- One more path. -/
theorem Built.snoc {a b c : Fs} {js : List Path} (h : a.Built js b) (hp : b.get p = none)
    (hc : ∀ q, c.get q = if q = p then some v else b.get q) : a.Built (js ++ [p]) c := by
  refine h.trans ⟨?_, ?_, by simp [hp], by simp⟩
  · intro q hq
    have : q ≠ p := by rintro rfl; exact hq hp
    simp [hc, this]
  · intro q hq
    simp only [hc, List.mem_singleton]
    by_cases hqp : q = p <;> simp [hqp, hq]

/-- A change to something that was added. -/
theorem Built.alter {a b c : Fs} {js : List Path} (h : a.Built js b) (hp : a.get p = none)
    (hb : b.get p ≠ none) (hc : ∀ q, c.get q = if q = p then some v else b.get q) :
    a.Built js c := by
  refine ⟨?_, ?_, h.fresh, h.order⟩
  · intro q hq
    have : q ≠ p := by rintro rfl; exact hq hp
    simp [hc, this, h.kept q hq]
  · intro q hq
    rw [hc]
    by_cases hqp : q = p
    · subst hqp
      simp [← h.made q hq, hb]
    · simp [hqp, h.made q hq]

end Fs

end Posix
