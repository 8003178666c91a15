import MiniDarwin.Archive.Package
import MiniDarwin.Archive.Contents

/-!
The targets of symlinks, as they are checked before anything is installed.

`make_entry ()` checks a link by its path in the archive, `load_component ()`
checks it again where it will be installed. The first check is the stricter
one: a link that leaves the archive is refused even if it stays in the root.
-/

namespace MiniDarwin.Archive

open Posix (Bytes)

/-! ### Walking along a target -/

/-- Follow the components of a target from a directory without going above the root. -/
def walkStays : (dir steps : List Bytes) → Bool
  | _, [] => true
  | dir, c :: rest =>
      if c = [] ∨ c = [46] then walkStays dir rest
      else if c = [46, 46] then if dir = [] then false else walkStays dir.dropLast rest
      else walkStays (dir ++ [c]) rest

/-- The directory that contains `path` in a component installed at `location`. -/
def containing (location path : Bytes) : List Bytes :=
  (if location = [] then [] else components location) ++ (components path).dropLast

def Relative (target : Bytes) : Prop := target ≠ [] ∧ target.head? ≠ some 47

/-- What the checks are for. -/
def StaysInRoot (location path target : Bytes) : Prop :=
  Relative target ∧ walkStays (containing location path) (components target) = true

/-- Both checks of a link are passed. -/
def PassesChecks (location path target : Bytes) : Prop :=
  symlinkCheckLexical path target = .ok () ∧
    ∀ placed, pathJoin location path = .ok placed → symlinkCheckLexical placed target = .ok ()

variable {location path target : Bytes} {dir steps : List Bytes}

/-- From a deeper directory one may go further up. -/
theorem walkStays_append (above : List Bytes) (h : walkStays dir steps = true) :
    walkStays (above ++ dir) steps = true := by
  induction steps generalizing dir with
  | nil => rfl
  | cons c rest ih =>
      rw [walkStays] at h ⊢
      split
      · next hskip => exact ih (by rwa [if_pos hskip] at h)
      · next hskip =>
          rw [if_neg hskip] at h
          split
          · next hup =>
              rw [if_pos hup] at h
              by_cases hdir : dir = []
              · rw [if_pos hdir] at h
                cases h
              · rw [if_neg hdir] at h
                have hne : above ++ dir ≠ [] := fun heq => hdir (List.append_eq_nil_iff.1 heq).2
                rw [if_neg hne, List.dropLast_append_of_ne_nil hdir]
                exact ih h
          · next hup =>
              rw [if_neg hup] at h
              rw [List.append_assoc]
              exact ih h

/-- The depth that is counted is that of the directory. -/
theorem lexicalFrom_iff {depth : Int} (hdepth : depth = dir.length) :
    lexicalFrom path target (steps.filter (· ≠ [])) depth = .ok () ↔ walkStays dir steps = true := by
  induction steps generalizing dir depth with
  | nil => exact iff_of_true rfl rfl
  | cons c rest ih =>
      rw [walkStays]
      by_cases hempty : c = []
      · rw [List.filter_cons_of_neg (by simpa using hempty), if_pos (.inl hempty)]
        exact ih hdepth
      · rw [List.filter_cons_of_pos (by simpa using hempty), lexicalFrom]
        by_cases hup : c = [46, 46]
        · have hskip : ¬ (c = [] ∨ c = [46]) := by
            rw [hup]
            decide
          rw [if_pos hup, if_neg hskip, if_pos hup]
          by_cases hdir : dir = []
          · have hneg : depth - 1 < 0 := by
              rw [hdepth, hdir]
              decide
            rw [if_pos hdir, dieIf, if_pos hneg]
            exact iff_of_false (by simp [die, bind, Except.bind]) (by simp)
          · have hpos : 0 < dir.length := List.length_pos_iff.2 hdir
            have hneg : ¬ depth - 1 < 0 := by omega
            rw [if_neg hdir, dieIf_neg hneg]
            refine ih ?_
            rw [List.length_dropLast]
            omega
        · rw [if_neg hup]
          by_cases hdot : c = [46]
          · rw [if_neg (not_not.2 hdot), if_pos (.inr hdot)]
            exact ih hdepth
          · have hskip : ¬ (c = [] ∨ c = [46]) := not_or.2 ⟨hempty, hdot⟩
            rw [if_pos hdot, if_neg hskip, if_neg hup]
            refine ih ?_
            rw [List.length_append, List.length_singleton]
            omega

theorem length_components (path : Bytes) : (components path).length = path.count 47 + 1 := by
  induction path with
  | nil => rfl
  | cons c path ih =>
      rw [components, List.splitOn_cons_eq_if_modifyHead, List.count_cons]
      split
      · next hslash =>
          rw [List.length_cons]
          simp_all [components]
      · next hslash =>
          rw [List.length_modifyHead]
          simp_all [components]

theorem symlinkCheckLexical_iff :
    symlinkCheckLexical path target = .ok () ↔
      Relative target ∧ walkStays (components path).dropLast (components target) = true := by
  have hdepth : (path.count 47 : Int) = (components path).dropLast.length := by
    rw [List.length_dropLast, length_components]
    simp
  by_cases habs : target = [] ∨ target.head? = some 47
  · have hrel : ¬ Relative target := fun h => habs.elim h.1 h.2
    rw [symlinkCheckLexical, dieIf, if_pos habs]
    exact iff_of_false (by simp [die, bind, Except.bind]) fun h => hrel h.1
  · have hrel : Relative target := not_or.1 habs
    rw [symlinkCheckLexical, dieIf_neg habs]
    exact (lexicalFrom_iff hdepth).trans ⟨fun h => ⟨hrel, h⟩, fun h => h.2⟩

/-! ### Where the link is installed -/

theorem components_pathJoin (hlocation : Normalized location) (hpath : path ≠ []) {placed : Bytes}
    (h : pathJoin location path = .ok placed) : (components placed).dropLast = containing location path := by
  by_cases hroot : location = []
  · rw [pathJoin, if_pos hroot] at h
    rw [containing, if_pos hroot, ← Except.ok.inj h, List.nil_append]
  · rw [pathJoin, if_neg hroot, if_neg hpath, if_neg hlocation.getLast] at h
    split at h
    · cases h
    · have hsplit : components (location ++ [47] ++ path) = components location ++ components path := by
        rw [components, List.append_assoc, List.singleton_append, List.splitOn_append_cons_self]
        rfl
      have hlast : components path ≠ [] := List.splitOn_ne_nil _ _
      rw [containing, if_neg hroot, ← Except.ok.inj h, hsplit, List.dropLast_append_of_ne_nil hlast]

theorem passesChecks_iff (hlocation : Normalized location) (hpath : path ≠ []) :
    PassesChecks location path target ↔
      Relative target ∧ walkStays (components path).dropLast (components target) = true := by
  constructor
  · rintro ⟨hfirst, -⟩
    exact symlinkCheckLexical_iff.1 hfirst
  · rintro ⟨hrel, hstays⟩
    refine ⟨symlinkCheckLexical_iff.2 ⟨hrel, hstays⟩, ?_⟩
    intro placed hplaced
    rw [symlinkCheckLexical_iff, components_pathJoin hlocation hpath hplaced]
    exact ⟨hrel, walkStays_append _ hstays⟩

theorem normalized_library : Normalized (lit "Library") := by
  refine ⟨fun _ => ?_, by decide, by decide⟩
  decide +kernel

end MiniDarwin.Archive
