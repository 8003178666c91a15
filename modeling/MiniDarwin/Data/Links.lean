import Mathlib

/-!
Walking a tree through symbolic links.

A walk goes from directory to directory as its path says, and puts a link's
target in place of the link. It stays in the tree however many links it
passes, once every link by itself climbs through no more than its own
ancestors and does so before it descends (`Local`): a walk only ever climbs
at the beginning of what a link has put before it, and stands in the link's
directory then.
-/

namespace MiniDarwin.Data

/-- A component of a path. -/
inductive Hop (α : Type) where
  | up
  | name (a : α)
  deriving DecidableEq

/-- What is under a name. -/
inductive Node (α : Type) where
  | directory
  | leaf
  | link (absolute : Bool) (target : List (Hop α))
  deriving DecidableEq

/-- The directory that a walk has reached, and what is left of its path. -/
structure Walk (α : Type) where
  dir : List α
  left : List (Hop α)
  deriving DecidableEq

variable {α : Type} {node : List α → Option (Node α)} {w w' : Walk α}

/-- A component of the path. At the root `..` stays there. -/
def Walk.step (node : List α → Option (Node α)) : Walk α → Option (Walk α)
  | ⟨_, []⟩ => none
  | ⟨dir, .up :: left⟩ => some ⟨dir.dropLast, left⟩
  | ⟨dir, .name a :: left⟩ =>
      match node (dir ++ [a]) with
      | some .directory => some ⟨dir ++ [a], left⟩
      | some (.link true target) => some ⟨[], target ++ left⟩
      | some (.link false target) => some ⟨dir, target ++ left⟩
      | _ => none

/-- After any number of components and links. -/
def Walk.Leads (node : List α → Option (Node α)) : Walk α → Walk α → Prop :=
  Relation.ReflTransGen fun w w' => w.step node = some w'

/-- What comes next leads out of the tree, if it were a part of another one. -/
inductive Walk.Leaves (node : List α → Option (Node α)) : Walk α → Prop where
  | climbs (left : List (Hop α)) : Leaves node ⟨[], .up :: left⟩
  | absolute {dir : List α} {a : α} {target : List (Hop α)} (left : List (Hop α))
      (h : node (dir ++ [a]) = some (.link true target)) : Leaves node ⟨dir, .name a :: left⟩

/-- The root, or a directory of the tree. -/
def Stands (node : List α → Option (Node α)) (dir : List α) : Prop := dir = [] ∨ node dir = some .directory

/-- A path climbs so often at most, and then descends. -/
def Climbs (depth : Nat) (path : List (Hop α)) : Prop :=
  ∃ (ups : Nat) (names : List α), ups ≤ depth ∧ path = List.replicate ups .up ++ names.map .name

/-- What holds of every node by itself. -/
structure Local (node : List α → Option (Node α)) : Prop where
  parent : ∀ dir a, node (dir ++ [a]) ≠ none → Stands node dir
  target : ∀ dir a absolute path, node (dir ++ [a]) = some (.link absolute path) →
    absolute = false ∧ Climbs dir.length path

/-- The invariant of a walk. -/
structure Walk.Inside (node : List α → Option (Node α)) (w : Walk α) : Prop where
  stands : Stands node w.dir
  climbs : Climbs w.dir.length w.left

theorem Climbs.append_names {depth : Nat} {path : List (Hop α)} (h : Climbs depth path) (names : List α) :
    Climbs depth (path ++ names.map .name) := by
  obtain ⟨ups, before, hups, rfl⟩ := h
  exact ⟨ups, before ++ names, hups, by rw [List.map_append, List.append_assoc]⟩

theorem Climbs.names (depth : Nat) (names : List α) : Climbs depth (names.map .name) :=
  ⟨0, names, Nat.zero_le _, rfl⟩

/-- Behind a `..`. -/
theorem climbs_up {depth : Nat} {left : List (Hop α)} (h : Climbs depth (.up :: left)) :
    0 < depth ∧ Climbs (depth - 1) left := by
  obtain ⟨ups, names, hups, heq⟩ := h
  cases ups with
  | zero =>
      cases names with
      | nil => cases heq
      | cons a names => cases heq
  | succ ups =>
      rw [List.replicate_succ, List.cons_append, List.cons.injEq] at heq
      exact ⟨by omega, ups, names, by omega, heq.2⟩

/-- Behind a name there are names only. -/
theorem climbs_name {depth : Nat} {a : α} {left : List (Hop α)} (h : Climbs depth (.name a :: left)) :
    ∃ names : List α, left = names.map .name := by
  obtain ⟨ups, names, hups, heq⟩ := h
  cases ups with
  | zero =>
      cases names with
      | nil => cases heq
      | cons b names =>
          rw [List.replicate_zero, List.nil_append, List.map_cons, List.cons.injEq] at heq
          exact ⟨names, heq.2⟩
  | succ ups =>
      rw [List.replicate_succ, List.cons_append, List.cons.injEq] at heq
      cases heq.1

theorem Local.stands_dropLast {dir : List α} (hnode : Local node) (h : Stands node dir) : Stands node dir.dropLast := by
  obtain rfl | hdir := h
  · exact .inl rfl
  obtain rfl | ⟨parent, a, rfl⟩ := dir.eq_nil_or_concat
  · exact .inl rfl
  rw [List.concat_eq_append] at hdir ⊢
  rw [List.dropLast_concat]
  exact hnode.parent parent a (by rw [hdir]; exact Option.some_ne_none _)

/-- One component. -/
theorem Local.step (hnode : Local node) (h : w.Inside node) (hstep : w.step node = some w') : w'.Inside node := by
  obtain ⟨dir, left⟩ := w
  obtain ⟨hstands, hclimbs⟩ := h
  obtain _ | ⟨_ | a, left⟩ := left
  · cases hstep
  · obtain rfl := Option.some.inj hstep
    have hrest := (climbs_up hclimbs).2
    exact ⟨hnode.stands_dropLast hstands, by rwa [List.length_dropLast]⟩
  · obtain ⟨names, rfl⟩ := climbs_name hclimbs
    simp only [Walk.step] at hstep
    split at hstep
    next hdir =>
      obtain rfl := Option.some.inj hstep
      exact ⟨.inr hdir, .names _ _⟩
    next hlink => cases (hnode.target _ _ _ _ hlink).1
    next hlink =>
      obtain rfl := Option.some.inj hstep
      exact ⟨hstands, (hnode.target _ _ _ _ hlink).2.append_names names⟩
    · cases hstep

theorem Local.not_leaves (hnode : Local node) (h : w.Inside node) : ¬ w.Leaves node := by
  intro hleaves
  cases hleaves with
  | climbs left => exact Nat.lt_irrefl 0 (climbs_up h.climbs).1
  | absolute left hlink => cases (hnode.target _ _ _ _ hlink).1

/-- A whole walk. -/
theorem Local.leads (hnode : Local node) (h : w.Inside node) (hleads : w.Leads node w') : w'.Inside node := by
  induction hleads with
  | refl => exact h
  | tail _ hstep ih => exact hnode.step ih hstep

end MiniDarwin.Data
