import Mathlib

/-!
Rejection sampling of residues.

Of the numbers below `N` the first `N % b` are rejected. Those that are left
are whole periods of `b`, and so every residue occurs equally often.
-/

namespace MiniDarwin.Data

open Finset

variable {b r : Nat}

/-- A residue occurs once in a period. -/
theorem card_residue_period (t : Nat) (hr : r < b) : #{v ∈ Ico t (t + b) | v % b = r} = 1 := by
  have hperiodic : Function.Periodic (fun v => v % b = r) b := by
    intro v
    simp
  rw [Nat.filter_Ico_card_eq_of_periodic t b _ hperiodic, Nat.count_eq_card_filter_range]
  have hone : {v ∈ range b | v % b = r} = {r} := by
    ext v
    rw [mem_filter, mem_range, mem_singleton]
    constructor
    · rintro ⟨hv, rfl⟩
      exact (Nat.mod_eq_of_lt hv).symm
    · rintro rfl
      exact ⟨hr, Nat.mod_eq_of_lt hr⟩
  rw [hone, card_singleton]

theorem card_residue_periods (t q : Nat) (hr : r < b) : #{v ∈ Ico t (t + q * b) | v % b = r} = q := by
  induction q with
  | zero => simp
  | succ q ih =>
      have hsplit : Ico t (t + (q + 1) * b) = Ico t (t + q * b) ∪ Ico (t + q * b) (t + q * b + b) := by
        rw [Ico_union_Ico_eq_Ico (Nat.le_add_right _ _) (Nat.le_add_right _ _), Nat.add_mul, Nat.one_mul, Nat.add_assoc]
      rw [hsplit, filter_union, card_union_of_disjoint, ih, card_residue_period _ hr]
      exact disjoint_filter_filter (Ico_disjoint_Ico_consecutive _ _ _)

/-- **Every residue is left equally often.** -/
theorem card_accepted (N : Nat) (hr : r < b) : #{v ∈ range N | ¬ v < N % b ∧ v % b = r} = N / b := by
  have hend : N % b + N / b * b = N := by
    rw [Nat.mul_comm, Nat.mod_add_div]
  have hfilter : {v ∈ range N | ¬ v < N % b ∧ v % b = r} = {v ∈ Ico (N % b) (N % b + N / b * b) | v % b = r} := by
    rw [hend]
    ext v
    simp only [mem_filter, mem_range, mem_Ico, not_lt]
    tauto
  rw [hfilter, card_residue_periods _ _ hr]

end MiniDarwin.Data
