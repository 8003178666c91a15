import Mathlib

/-!
Trees with named nodes, and the flat lists that describe them.

A forest holds the children of one node, in some order; its leaves and its
inner nodes carry labels of their own, so that nothing is beneath a leaf.
Listed from the root, each node before what is beneath it, it becomes a
list of paths. A list in strictly increasing order with the parents in it
is the listing of a forest whose siblings are in order.
-/

namespace MiniDarwin.Data

/-- What is beneath a node. -/
inductive Forest (α β γ : Type) where
  | nil
  | leaf (name : α) (label : β) (rest : Forest α β γ)
  | node (name : α) (label : γ) (children rest : Forest α β γ)

/-- What is above a path is its parent or above that. -/
theorem prefix_dropLast {α : Type} {p q : List α} (hq : q <+: p) (hne : q ≠ p) : q <+: p.dropLast := by
  obtain rfl | hp := eq_or_ne p []
  · exact absurd (List.prefix_nil.1 hq) hne
  · rw [← List.dropLast_append_getLast hp] at hq
    obtain heq | hq := List.prefix_concat_iff.1 hq
    · rw [List.dropLast_append_getLast] at heq
      exact absurd heq hne
    · exact hq

/-- A path and what is there. -/
abbrev Item (α β γ : Type) := List α × (β ⊕ γ)

namespace Forest

variable {α β γ : Type} {p q : List α} {f : Forest α β γ} {R : α → α → Prop} {i : Item α β γ}

/-- The nodes of a forest beneath `p`, depth first, each before its children. -/
def items (p : List α) : Forest α β γ → List (Item α β γ)
  | nil => []
  | leaf n b rest => (p ++ [n], .inl b) :: rest.items p
  | node n c children rest => (p ++ [n], .inr c) :: (children.items (p ++ [n]) ++ rest.items p)

/-- The names at the top. -/
def names : Forest α β γ → List α
  | nil => []
  | leaf n _ rest => n :: rest.names
  | node n _ _ rest => n :: rest.names

/-- Any two siblings stand in the relation. -/
def Apart (R : α → α → Prop) : Forest α β γ → Prop
  | nil => True
  | leaf n _ rest => (∀ m ∈ rest.names, R n m) ∧ rest.Apart R
  | node n _ children rest => (∀ m ∈ rest.names, R n m) ∧ children.Apart R ∧ rest.Apart R

theorem Apart.imp {S : α → α → Prop} (h : ∀ a b, R a b → S a b) (hf : f.Apart R) : f.Apart S := by
  induction f with
  | nil => trivial
  | leaf n _ rest ih => exact ⟨fun m hm => h n m (hf.1 m hm), ih hf.2⟩
  | node n _ children rest ihc ihr =>
      obtain ⟨hn, hc, hr⟩ := hf
      exact ⟨fun m hm => h n m (hn m hm), ihc hc, ihr hr⟩

/-! ### What is listed -/

theorem mem_items_below (h : i ∈ f.items p) : ∃ n ∈ f.names, ∃ r, i.1 = p ++ n :: r := by
  induction f generalizing p with
  | nil => cases h
  | leaf n b rest ih =>
      obtain rfl | h := List.mem_cons.1 h
      · exact ⟨n, .head _, [], rfl⟩
      · obtain ⟨m, hm, hr⟩ := ih h
        exact ⟨m, .tail _ hm, hr⟩
  | node n c children rest ihc ihr =>
      obtain rfl | h := List.mem_cons.1 h
      · exact ⟨n, .head _, [], rfl⟩
      obtain h | h := List.mem_append.1 h
      · obtain ⟨m, -, r, hr⟩ := ihc h
        exact ⟨n, .head _, m :: r, by rw [hr, List.append_assoc, List.singleton_append]⟩
      · obtain ⟨m, hm, hr⟩ := ihr h
        exact ⟨m, .tail _ hm, hr⟩

theorem exists_item_of_name {n : α} (h : n ∈ f.names) : ∃ x, (p ++ [n], x) ∈ f.items p := by
  induction f with
  | nil => cases h
  | leaf m b rest ih =>
      obtain rfl | h := List.mem_cons.1 h
      · exact ⟨_, .head _⟩
      · obtain ⟨x, hx⟩ := ih h
        exact ⟨x, .tail _ hx⟩
  | node m c children rest _ ih =>
      obtain rfl | h := List.mem_cons.1 h
      · exact ⟨_, .head _⟩
      · obtain ⟨x, hx⟩ := ih h
        exact ⟨x, .tail _ (List.mem_append_right _ hx)⟩

/-- The parent of what is listed is listed, and is an inner node. -/
theorem parent_mem_items (h : i ∈ f.items p) :
    i.1.dropLast = p ∨ ∃ c, (i.1.dropLast, Sum.inr c) ∈ f.items p := by
  induction f generalizing p with
  | nil => cases h
  | leaf n b rest ih =>
      obtain rfl | h := List.mem_cons.1 h
      · exact .inl List.dropLast_concat
      · obtain h | ⟨c, hc⟩ := ih h
        · exact .inl h
        · exact .inr ⟨c, .tail _ hc⟩
  | node n c children rest ihc ihr =>
      obtain rfl | h := List.mem_cons.1 h
      · exact .inl List.dropLast_concat
      obtain h | h := List.mem_append.1 h
      · obtain h | ⟨c', hc⟩ := ihc h
        · exact .inr ⟨c, h ▸ .head _⟩
        · exact .inr ⟨c', .tail _ (List.mem_append_left _ hc)⟩
      · obtain h | ⟨c', hc⟩ := ihr h
        · exact .inl h
        · exact .inr ⟨c', .tail _ (List.mem_append_right _ hc)⟩

/-- What holds between a node and what is beneath it, and between what is at or beneath
two siblings, holds between any two items. -/
theorem Apart.pairwise {S : List α → List α → Prop} (hdown : ∀ p n m r, S (p ++ [n]) (p ++ n :: m :: r))
    (hside : ∀ p n m r s, R n m → S (p ++ n :: r) (p ++ m :: s)) (hf : f.Apart R) :
    (f.items p).Pairwise fun i j => S i.1 j.1 := by
  induction f generalizing p with
  | nil => exact .nil
  | leaf n b rest ih =>
      refine List.pairwise_cons.2 ⟨?_, ih hf.2⟩
      intro i hi
      obtain ⟨m, hm, r, hr⟩ := mem_items_below hi
      rw [hr]
      exact hside p n m [] r (hf.1 m hm)
  | node n c children rest ihc ihr =>
      obtain ⟨hn, hc, hr⟩ := hf
      refine List.pairwise_cons.2 ⟨?_, List.pairwise_append.2 ⟨ihc hc, ihr hr, ?_⟩⟩
      · intro i hi
        obtain hi | hi := List.mem_append.1 hi
        · obtain ⟨m, -, r, hr⟩ := mem_items_below hi
          rw [hr, List.append_assoc]
          exact hdown p n m r
        · obtain ⟨m, hm, r, hr⟩ := mem_items_below hi
          rw [hr]
          exact hside p n m [] r (hn m hm)
      · intro i hi j hj
        obtain ⟨m, -, r, hi⟩ := mem_items_below hi
        obtain ⟨m', hm', r', hj⟩ := mem_items_below hj
        rw [hi, hj, List.append_assoc]
        exact hside p n m' (m :: r) r' (hn m' hm')

theorem Apart.nodup_names (hf : f.Apart (· ≠ ·)) : f.names.Nodup := by
  induction f with
  | nil => exact .nil
  | leaf n b rest ih => exact List.nodup_cons.2 ⟨fun hn => hf.1 n hn rfl, ih hf.2⟩
  | node n c children rest _ ih => exact List.nodup_cons.2 ⟨fun hn => hf.1 n hn rfl, ih hf.2.2⟩

/-- The last names of two paths with the same parent stand in the relation. -/
def Beside (R : α → α → Prop) (u v : List α) : Prop := ∀ q a b, u = q ++ [a] → v = q ++ [b] → R a b

theorem Apart.beside (hirr : ∀ a, ¬ R a a) (hf : f.Apart R) :
    (f.items p).Pairwise fun i j => Beside R i.1 j.1 := by
  refine hf.pairwise ?_ ?_
  · intro p n m r q a b hu hv
    have hu := congrArg List.length hu
    have hv := congrArg List.length hv
    simp only [List.length_append, List.length_cons, List.length_nil] at hu hv
    omega
  · intro p n m r s hR q a b hu hv
    obtain rfl | ⟨r, c, rfl⟩ := List.eq_nil_or_concat r
    · obtain ⟨rfl, ha⟩ := List.append_inj' hu rfl
      obtain ⟨rfl, -⟩ := List.cons.inj ha
      obtain ⟨rfl, -⟩ := List.cons.inj (List.append_cancel_left hv)
      exact hR
    · rw [List.concat_eq_append, ← List.cons_append, ← List.append_assoc] at hu
      obtain ⟨rfl, -⟩ := List.append_inj' hu rfl
      rw [List.append_assoc, List.cons_append] at hv
      obtain ⟨rfl, -⟩ := List.cons.inj (List.append_cancel_left hv)
      exact absurd hR (hirr m)

end Forest

/-! ### Listings -/

section Order

variable {α β γ : Type} [LinearOrder α] {p q : List α} {L : List (Item α β γ)} {f : Forest α β γ}

/-- A list of items beneath `p`: in order, and with the parents of its items. -/
structure Listed (p : List α) (L : List (Item α β γ)) : Prop where
  sorted : L.Pairwise fun i j => i.1 < j.1
  below : ∀ i ∈ L, ∃ n r, i.1 = p ++ n :: r
  closed : ∀ i ∈ L, i.1.dropLast = p ∨ ∃ c, (i.1.dropLast, Sum.inr c) ∈ L

theorem lt_append_cons (p : List α) (n : α) (r : List α) : p < p ++ n :: r := by
  conv_lhs => rw [← List.append_nil p]
  exact List.append_left_lt (List.nil_lt_cons n r)

theorem append_cons_lt (p : List α) {n m : α} (r s : List α) (h : n < m) : p ++ n :: r < p ++ m :: s :=
  List.append_left_lt (List.cons_lt_cons_iff.2 (.inl h))

/-- What comes after a path and is not beneath it comes after all that is. -/
theorem append_lt_of_not_beneath {v : List α} (s : List α) (h : q < v) (hp : ¬ q <+: v) : q ++ s < v := by
  induction q generalizing v with
  | nil => exact absurd List.nil_prefix hp
  | cons a q ih =>
      cases v with
      | nil => cases h
      | cons b v =>
          obtain hab | ⟨rfl, hlt⟩ := List.cons_lt_cons_iff.1 h
          · exact List.cons_lt_cons_iff.2 (.inl hab)
          · have hp : ¬ q <+: v := fun hq => hp (List.cons_prefix_cons.2 ⟨rfl, hq⟩)
            exact List.cons_lt_cons_iff.2 (.inr ⟨rfl, ih hlt hp⟩)

theorem eq_of_perm_of_sorted {L' : List (Item α β γ)} (h : L.Pairwise fun i j => i.1 < j.1)
    (h' : L'.Pairwise fun i j => i.1 < j.1) (hp : L.Perm L') : L = L' := by
  refine List.Perm.eq_of_pairwise ?_ h h' hp
  intro i j _ _ hij hji
  exact absurd hij hji.asymm

theorem Forest.Apart.listed (hf : f.Apart (· < ·)) : Listed p (f.items p) where
  sorted := by
    refine hf.pairwise ?_ ?_
    · intro p n m r
      rw [show p ++ n :: m :: r = p ++ [n] ++ m :: r by simp]
      exact lt_append_cons (p ++ [n]) m r
    · intro p n m r s h
      exact append_cons_lt p r s h
  below := by
    intro i hi
    obtain ⟨n, -, r, hr⟩ := Forest.mem_items_below hi
    exact ⟨n, r, hr⟩
  closed := fun _ hi => Forest.parent_mem_items hi

theorem lt_of_append_singleton_lt {n m : α} (h : p ++ [n] < p ++ [m]) : n < m := by
  by_contra hmn
  obtain hlt | rfl := (not_lt.1 hmn).lt_or_eq
  · exact lt_asymm h (append_cons_lt p [] [] hlt)
  · exact lt_irrefl _ h

theorem dropLast_lt (h : q ≠ []) : q.dropLast < q := by
  conv_rhs => rw [← List.dropLast_append_getLast h]
  exact lt_append_cons q.dropLast _ []

/-- The first item is at the top. -/
theorem Listed.head {x : β ⊕ γ} (h : Listed p ((q, x) :: L)) : ∃ n, q = p ++ [n] := by
  obtain ⟨n, r, hq⟩ := h.below _ (.head _)
  obtain hp | ⟨c, hc⟩ := h.closed _ (.head _)
  · refine ⟨n, ?_⟩
    have hlen := congrArg List.length hp
    have hq' := congrArg List.length hq
    simp only [List.length_dropLast, List.length_append, List.length_cons] at hlen hq'
    obtain rfl : r = [] := List.eq_nil_of_length_eq_zero (by omega)
    exact hq
  · have hne : q ≠ [] := by
      rw [show q = p ++ n :: r from hq]
      exact List.append_ne_nil_of_right_ne_nil p (List.cons_ne_nil n r)
    obtain he | hc := List.mem_cons.1 hc
    · exact absurd (congrArg Prod.fst he) (dropLast_lt hne).ne
    · exact absurd ((List.pairwise_cons.1 h.sorted).1 _ hc) (dropLast_lt hne).asymm

/-- Nothing is listed beneath a leaf. -/
theorem Listed.tail_of_leaf {n : α} {b : β} (h : Listed p ((p ++ [n], Sum.inl b) :: L)) : Listed p L where
  sorted := (List.pairwise_cons.1 h.sorted).2
  below := fun i hi => h.below i (.tail _ hi)
  closed := by
    intro i hi
    obtain hp | ⟨c, hc⟩ := h.closed i (.tail _ hi)
    · exact .inl hp
    obtain he | hc := List.mem_cons.1 hc
    · cases (Prod.ext_iff.1 he).2
    · exact .inr ⟨c, hc⟩

/-- What is listed beneath an inner node comes first, then the rest. -/
theorem Listed.split_of_node {n : α} {c : γ} (h : Listed p ((p ++ [n], Sum.inr c) :: L)) :
    ∃ L₁ L₂, L = L₁ ++ L₂ ∧ Listed (p ++ [n]) L₁ ∧ Listed p L₂ := by
  classical
  obtain ⟨hlt, hsorted⟩ := List.pairwise_cons.1 h.sorted
  let inside : Item α β γ → Bool := fun i => decide (p ++ [n] <+: i.1)
  have hmem : ∀ {i}, i ∈ L.filter inside ↔ i ∈ L ∧ p ++ [n] <+: i.1 := by
    intro i
    rw [List.mem_filter, decide_eq_true_iff]
  have hmem' : ∀ {i}, i ∈ L.filter (fun i => !inside i) ↔ i ∈ L ∧ ¬ p ++ [n] <+: i.1 := by
    intro i
    rw [List.mem_filter, Bool.not_eq_true', decide_eq_false_iff_not]
  refine ⟨L.filter inside, L.filter fun i => !inside i, ?_, ⟨hsorted.filter _, ?_, ?_⟩,
    ⟨hsorted.filter _, ?_, ?_⟩⟩
  · -- both sides are in order and have the same items
    have hparts : (L.filter inside ++ L.filter fun i => !inside i).Pairwise fun i j => i.1 < j.1 := by
      refine List.pairwise_append.2 ⟨hsorted.filter _, hsorted.filter _, ?_⟩
      intro i hi j hj
      obtain ⟨s, hs⟩ := (hmem.1 hi).2
      rw [← hs]
      exact append_lt_of_not_beneath s (hlt j (hmem'.1 hj).1) (hmem'.1 hj).2
    exact eq_of_perm_of_sorted hsorted hparts (List.filter_append_perm inside L).symm
  · intro i hi
    obtain ⟨hi, s, hs⟩ := hmem.1 hi
    cases s with
    | nil => exact absurd (hlt i hi) (by rw [← hs, List.append_nil]; exact lt_irrefl _)
    | cons m r => exact ⟨m, r, hs.symm⟩
  · intro i hi
    obtain ⟨hi, s, hs⟩ := hmem.1 hi
    obtain rfl | ⟨s, a, rfl⟩ := List.eq_nil_or_concat s
    · exact absurd (hlt i hi) (by rw [← hs, List.append_nil]; exact lt_irrefl _)
    rw [List.concat_eq_append, ← List.append_assoc] at hs
    have hclosed := h.closed i (.tail _ hi)
    rw [← hs, List.dropLast_concat] at hclosed ⊢
    obtain rfl | hs' := eq_or_ne s []
    · exact .inl (List.append_nil _)
    obtain hp | ⟨c', hc⟩ := hclosed
    · exact absurd (congrArg List.length hp) (by simp)
    obtain he | hc := List.mem_cons.1 hc
    · exact .inl (Prod.ext_iff.1 he).1
    · exact .inr ⟨c', hmem.2 ⟨hc, List.prefix_append _ _⟩⟩
  · intro i hi
    exact h.below i (.tail _ (hmem'.1 hi).1)
  · intro i hi
    obtain ⟨hi, hnot⟩ := hmem'.1 hi
    obtain hp | ⟨c', hc⟩ := h.closed i (.tail _ hi)
    · exact .inl hp
    have houtside : ¬ p ++ [n] <+: i.1.dropLast := fun hd => hnot (hd.trans (List.dropLast_prefix _))
    obtain he | hc := List.mem_cons.1 hc
    · have hq : i.1.dropLast = p ++ [n] := (Prod.ext_iff.1 he).1
      exact absurd (hq ▸ List.prefix_rfl) houtside
    · exact .inr ⟨c', hmem'.2 ⟨hc, houtside⟩⟩

theorem Listed.exists_forest (h : Listed p L) : ∃ f : Forest α β γ, f.Apart (· < ·) ∧ f.items p = L := by
  induction hlen : L.length using Nat.strong_induction_on generalizing p L with
  | _ k ih =>
      subst hlen
      rcases L with _ | ⟨⟨q, x⟩, L⟩
      · exact ⟨.nil, trivial, rfl⟩
      obtain ⟨n, rfl⟩ := h.head
      have hlt := (List.pairwise_cons.1 h.sorted).1
      have hafter : ∀ {f : Forest α β γ} {L'}, f.items p = L' → (∀ i ∈ L', i ∈ L) → ∀ m ∈ f.names, n < m := by
        intro f L' hf hL' m hm
        obtain ⟨y, hy⟩ := Forest.exists_item_of_name (p := p) hm
        exact lt_of_append_singleton_lt (hlt _ (hL' _ (hf ▸ hy)))
      rcases x with b | c
      · obtain ⟨f, hf, hitems⟩ := ih L.length (Nat.lt_succ_self _) h.tail_of_leaf rfl
        exact ⟨.leaf n b f, ⟨hafter hitems fun _ => id, hf⟩, by rw [Forest.items, hitems]⟩
      · obtain ⟨L₁, L₂, rfl, h₁, h₂⟩ := h.split_of_node
        have hlen : (L₁ ++ L₂).length = L₁.length + L₂.length := List.length_append
        obtain ⟨f₁, hf₁, hitems₁⟩ := ih L₁.length (by rw [List.length_cons]; omega) h₁ rfl
        obtain ⟨f₂, hf₂, hitems₂⟩ := ih L₂.length (by rw [List.length_cons]; omega) h₂ rfl
        have hafter₂ := hafter hitems₂ fun i hi => List.mem_append_right L₁ hi
        exact ⟨.node n c f₁ f₂, ⟨hafter₂, hf₁, hf₂⟩, by rw [Forest.items, hitems₁, hitems₂]⟩

/-- The listings are the forests whose siblings are in order, depth first. -/
theorem listed_iff : Listed p L ↔ ∃ f : Forest α β γ, f.Apart (· < ·) ∧ f.items p = L := by
  constructor
  · exact Listed.exists_forest
  · rintro ⟨f, hf, rfl⟩
    exact hf.listed

/-- In order, a parent that is listed is listed before. -/
theorem listed_iff_before : Listed p L ↔ (L.Pairwise fun i j => i.1 < j.1) ∧
    ∀ L₁ i L₂, L = L₁ ++ i :: L₂ → (∃ n r, i.1 = p ++ n :: r) ∧
      (i.1.dropLast = p ∨ ∃ c, (i.1.dropLast, Sum.inr c) ∈ L₁) := by
  constructor
  · intro h
    refine ⟨h.sorted, ?_⟩
    rintro L₁ i L₂ rfl
    have hi : i ∈ L₁ ++ i :: L₂ := List.mem_append_right _ (.head _)
    obtain ⟨n, r, hr⟩ := h.below i hi
    refine ⟨⟨n, r, hr⟩, (h.closed i hi).imp_right ?_⟩
    rintro ⟨c, hc⟩
    have hne : i.1 ≠ [] := hr ▸ List.append_ne_nil_of_right_ne_nil p (List.cons_ne_nil n r)
    obtain hc | hc := List.mem_append.1 hc
    · exact ⟨c, hc⟩
    -- what comes after `i` is greater, and its parent is less
    have hafter := (List.pairwise_cons.1 (List.pairwise_append.1 h.sorted).2.1).1
    obtain he | hc := List.mem_cons.1 hc
    · exact absurd (congrArg Prod.fst he) (dropLast_lt hne).ne
    · exact absurd (hafter _ hc) (dropLast_lt hne).asymm
  · rintro ⟨hsorted, hbefore⟩
    refine ⟨hsorted, ?_, ?_⟩
    · intro i hi
      obtain ⟨L₁, L₂, hL⟩ := List.append_of_mem hi
      exact (hbefore L₁ i L₂ hL).1
    · intro i hi
      obtain ⟨L₁, L₂, hL⟩ := List.append_of_mem hi
      refine (hbefore L₁ i L₂ hL).2.imp_right ?_
      rintro ⟨c, hc⟩
      exact ⟨c, hL ▸ List.mem_append_left _ hc⟩

/-- What holds between siblings of the listing, in its order, holds between those of the forest. -/
theorem Forest.Apart.of_items {R : α → α → Prop} (hf : f.Apart (· < ·))
    (h : ∀ {q a b x y}, (q ++ [a], x) ∈ f.items p → (q ++ [b], y) ∈ f.items p → a < b → R a b) :
    f.Apart R := by
  induction f generalizing p with
  | nil => trivial
  | leaf n l rest ih =>
      refine ⟨?_, ih hf.2 fun ha hb => h (.tail _ ha) (.tail _ hb)⟩
      intro m hm
      obtain ⟨y, hy⟩ := exists_item_of_name (p := p) hm
      exact h (.head _) (.tail _ hy) (hf.1 m hm)
  | node n c children rest ihc ihr =>
      obtain ⟨hn, hc, hr⟩ := hf
      refine ⟨?_, ihc hc (p := p ++ [n]) ?_, ihr hr (p := p) ?_⟩
      · intro m hm
        obtain ⟨y, hy⟩ := exists_item_of_name (p := p) hm
        exact h (.head _) (.tail _ (List.mem_append_right _ hy)) (hn m hm)
      · intro q a b x y ha hb
        exact h (.tail _ (List.mem_append_left _ ha)) (.tail _ (List.mem_append_left _ hb))
      · intro q a b x y ha hb
        exact h (.tail _ (List.mem_append_right _ ha)) (.tail _ (List.mem_append_right _ hb))

/-! ### Walks that sort -/

/-- Pieces in the order of their names. -/
def byName {τ : Type} (pieces : List (α × τ)) : List (α × τ) := pieces.insertionSort fun a b => a.1 ≤ b.1

/-- What a walk finds under each name, where it sorts the names of every inner node. -/
def Forest.pieces (p : List α) : Forest α β γ → List (α × List (Item α β γ))
  | nil => []
  | leaf n b rest => (n, [(p ++ [n], .inl b)]) :: rest.pieces p
  | node n c children rest =>
      (n, (p ++ [n], .inr c) :: (byName (children.pieces (p ++ [n]))).flatMap (·.2)) :: rest.pieces p

def Forest.walk (p : List α) (f : Forest α β γ) : List (Item α β γ) := (byName (f.pieces p)).flatMap (·.2)

theorem byName_perm {τ : Type} (pieces : List (α × τ)) : (byName pieces).Perm pieces :=
  List.perm_insertionSort _ _

theorem Forest.walk_perm : (f.walk p).Perm (f.items p) := by
  have hpieces : ((f.pieces p).flatMap (·.2)).Perm (f.items p) := by
    induction f generalizing p with
    | nil => exact .nil
    | leaf n b rest ih => exact ih.cons _
    | node n c children rest ihc ihr =>
        have hc := ((byName_perm (children.pieces (p ++ [n]))).flatMap_right (·.2)).trans ihc
        exact (hc.append ihr).cons _
  exact ((byName_perm (f.pieces p)).flatMap_right (·.2)).trans hpieces

theorem Forest.map_fst_pieces : (f.pieces p).map (·.1) = f.names := by
  induction f with
  | nil => rfl
  | leaf n b rest ih => exact congrArg (n :: ·) ih
  | node n c children rest _ ih => exact congrArg (n :: ·) ih

/-- Pieces of different names, put in order. -/
theorem pairwise_byName {τ : Type} {pieces : List (α × τ)} (h : (pieces.map (·.1)).Nodup) :
    (byName pieces).Pairwise fun a b => a.1 < b.1 := by
  have hle : (byName pieces).Pairwise fun a b => a.1 ≤ b.1 :=
    List.pairwise_insertionSort _ pieces
  have hne : (byName pieces).Pairwise fun a b => a.1 ≠ b.1 := by
    rw [← List.pairwise_map (R := (· ≠ ·))]
    exact ((byName_perm pieces).map (·.1)).nodup_iff.2 h
  exact (hle.and hne).imp fun hab => lt_of_le_of_ne hab.1 hab.2

/-- The pieces of siblings make a list in order if each of them is one. -/
theorem pairwise_flatMap_byName {pieces : List (α × List (Item α β γ))} (h : (pieces.map (·.1)).Nodup)
    (hpiece : ∀ x ∈ pieces, (x.2.Pairwise fun i j => i.1 < j.1) ∧ ∀ i ∈ x.2, ∃ r, i.1 = p ++ x.1 :: r) :
    ((byName pieces).flatMap (·.2)).Pairwise fun i j => i.1 < j.1 := by
  have hmem : ∀ {x}, x ∈ byName pieces → x ∈ pieces := fun hx => (byName_perm pieces).mem_iff.1 hx
  refine List.pairwise_flatMap.2 ⟨fun x hx => (hpiece x (hmem hx)).1, ?_⟩
  refine (pairwise_byName h).imp_of_mem ?_
  intro x y hx hy hlt i hi j hj
  obtain ⟨r, hr⟩ := (hpiece x (hmem hx)).2 i hi
  obtain ⟨s, hs⟩ := (hpiece y (hmem hy)).2 j hj
  rw [hr, hs]
  exact append_cons_lt p r s hlt

theorem Forest.Apart.pieces_sorted (hf : f.Apart (· ≠ ·)) {x : α × List (Item α β γ)} (hx : x ∈ f.pieces p) :
    (x.2.Pairwise fun i j => i.1 < j.1) ∧ ∀ i ∈ x.2, ∃ r, i.1 = p ++ x.1 :: r := by
  induction f generalizing p x with
  | nil => cases hx
  | leaf n b rest ih =>
      obtain rfl | hx := List.mem_cons.1 hx
      · refine ⟨List.pairwise_singleton _ _, ?_⟩
        intro i hi
        obtain rfl := List.mem_singleton.1 hi
        exact ⟨[], rfl⟩
      · exact ih hf.2 hx
  | node n c children rest ihc ihr =>
      obtain ⟨-, hc, hr⟩ := hf
      obtain rfl | hx := List.mem_cons.1 hx
      · have hnames : ((children.pieces (p ++ [n])).map (·.1)).Nodup := by
          rw [map_fst_pieces]
          exact hc.nodup_names
        have hbelow : ∀ i ∈ (byName (children.pieces (p ++ [n]))).flatMap (·.2), ∃ m r, i.1 = p ++ n :: m :: r := by
          intro i hi
          obtain ⟨m, -, r, hr⟩ := mem_items_below (walk_perm.mem_iff.1 hi)
          exact ⟨m, r, by rw [hr, List.append_assoc, List.singleton_append]⟩
        refine ⟨List.pairwise_cons.2 ⟨?_, pairwise_flatMap_byName hnames fun x hx => ihc hc hx⟩, ?_⟩
        · intro i hi
          obtain ⟨m, r, hr⟩ := hbelow i hi
          rw [hr, show p ++ n :: m :: r = p ++ [n] ++ m :: r by simp]
          exact lt_append_cons (p ++ [n]) m r
        · intro i hi
          obtain rfl | hi := List.mem_cons.1 hi
          · exact ⟨[], rfl⟩
          · obtain ⟨m, r, hr⟩ := hbelow i hi
            exact ⟨m :: r, hr⟩
      · exact ihr hr hx

/-- Whatever the order of siblings, the walk is a listing. -/
theorem Forest.Apart.listed_walk (hf : f.Apart (· ≠ ·)) : Listed p (f.walk p) where
  sorted := by
    refine pairwise_flatMap_byName (p := p) ?_ fun x hx => hf.pieces_sorted hx
    rw [map_fst_pieces]
    exact hf.nodup_names
  below := by
    intro i hi
    obtain ⟨n, -, r, hr⟩ := mem_items_below (walk_perm.mem_iff.1 hi)
    exact ⟨n, r, hr⟩
  closed := by
    intro i hi
    refine (parent_mem_items (walk_perm.mem_iff.1 hi)).imp_right ?_
    rintro ⟨c, hc⟩
    exact ⟨c, walk_perm.mem_iff.2 hc⟩

end Order

end MiniDarwin.Data
