import Mathlib.Tactic

/-!
A growing array whose elements are pointed to (`std::vector`). An element
that does not fit makes the array move, and a pointer from before the move
points at memory that has been freed.
-/

namespace MiniDarwin.Data

structure Arena (α : Type) where
  elements : List α
  capacity : Nat
  /-- how often the elements have been moved -/
  moves : Nat

namespace Arena

structure Pointer where
  moves : Nat
  index : Nat
  deriving DecidableEq

variable {α : Type}

/-- `reserve ()` on an empty array. -/
def reserve (capacity : Nat) : Arena α := ⟨[], capacity, 0⟩

/-- `push_back ()` -/
def push (a : Arena α) (x : α) : Arena α :=
  if a.elements.length < a.capacity then { a with elements := a.elements ++ [x] }
  else ⟨a.elements ++ [x], max (2 * a.capacity) (a.elements.length + 1), a.moves + 1⟩

/-- `&back ()` -/
def last (a : Arena α) : Pointer := ⟨a.moves, a.elements.length - 1⟩

/-- What is pointed at, if it is still there. -/
def get (a : Arena α) (p : Pointer) : Option α :=
  if p.moves = a.moves then a.elements[p.index]? else none

/-- Has room for `n` more elements where it is. -/
def Fits (a : Arena α) (n : Nat) : Prop := a.elements.length + n ≤ a.capacity

variable {a : Arena α} {x : α} {p : Pointer} {n : Nat}

@[simp] theorem elements_push : (a.push x).elements = a.elements ++ [x] := by
  unfold push
  split <;> rfl

theorem moves_le_push (a : Arena α) (x : α) : a.moves ≤ (a.push x).moves := by
  unfold push
  split
  · exact le_rfl
  · exact Nat.le_succ _

theorem get_push_last (a : Arena α) (x : α) : (a.push x).get (a.push x).last = some x := by
  simp [get, last]

theorem Fits.push_eq (h : a.Fits (n + 1)) : a.push x = { a with elements := a.elements ++ [x] } := by
  have hlt : a.elements.length < a.capacity := by
    unfold Fits at h
    omega
  exact if_pos hlt

theorem Fits.moves_push (h : a.Fits (n + 1)) : (a.push x).moves = a.moves := by
  rw [h.push_eq]

theorem Fits.push (h : a.Fits (n + 1)) : (a.push x).Fits n := by
  rw [h.push_eq]
  unfold Fits at *
  simp
  omega

/-- Pointers stay good as long as the array does not move. -/
theorem get_push (hmoves : (a.push x).moves = a.moves) {y : α} (hp : a.get p = some y) :
    (a.push x).get p = some y := by
  unfold get at *
  split at hp
  · next h =>
      obtain ⟨hlt, -⟩ := List.getElem?_eq_some_iff.1 hp
      rw [if_pos (h.trans hmoves.symm), elements_push, List.getElem?_append_left hlt, hp]
  · cases hp

/-- A pointer from before a move is no good. -/
theorem get_eq_none_of_moves (h : p.moves < a.moves) : a.get p = none := if_neg (by omega)

/-- An array that is full moves. -/
theorem moves_push_of_full (h : ¬ a.Fits 1) : (a.push x).moves = a.moves + 1 := by
  have hlt : ¬ a.elements.length < a.capacity := by
    unfold Fits at h
    omega
  unfold push
  rw [if_neg hlt]

end Arena

end MiniDarwin.Data
