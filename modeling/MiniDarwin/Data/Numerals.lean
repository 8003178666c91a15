import Mathlib.Data.List.Basic
import Mathlib.Tactic

/-!
Numerals, the most significant digit first, and lists of numbers of which
the shorter one is continued with zeros.

Two numerals without leading zeros compare like their lengths, and those of
one length like lists.
-/

namespace MiniDarwin.Data

/-- The number that a list of digits stands for. -/
def value (base : Nat) (digits : List Nat) : Nat := digits.foldl (fun v d => v * base + d) 0

variable {base n : Nat} {x y z : List Nat}

theorem foldl_value (acc : Nat) :
    x.foldl (fun v d => v * base + d) acc = acc * base ^ x.length + value base x := by
  induction x generalizing acc with
  | nil => simp [value]
  | cons d x ih =>
      rw [value, List.foldl_cons, List.foldl_cons, ih, ih (0 * base + d), List.length_cons, pow_succ]
      ring

theorem value_cons (d : Nat) : value base (d :: x) = d * base ^ x.length + value base x := by
  rw [value, List.foldl_cons, foldl_value]
  ring

theorem value_lt (h : ∀ d ∈ x, d < base) : value base x < base ^ x.length := by
  induction x with
  | nil => simp [value]
  | cons d x ih =>
      have hd : d < base := h d (.head _)
      have hx := ih fun c hc => h c (.tail _ hc)
      rw [value_cons, List.length_cons, pow_succ]
      calc
        d * base ^ x.length + value base x < d * base ^ x.length + base ^ x.length := by omega
        _ = base ^ x.length * (d + 1) := by ring
        _ ≤ base ^ x.length * base := Nat.mul_le_mul_left _ hd

/-- Leading zeros do not count. -/
theorem value_dropWhile : value base (x.dropWhile (· = 0)) = value base x := by
  induction x with
  | nil => rfl
  | cons d x ih =>
      by_cases hd : d = 0
      · rw [List.dropWhile_cons_of_pos (by simpa using hd), ih, value_cons, hd, zero_mul, zero_add]
      · rw [List.dropWhile_cons_of_neg (by simpa using hd)]

/-- A numeral that starts with another digit than zero is more than every shorter one. -/
theorem value_lt_of_length_lt (hbase : 0 < base) (hx : ∀ d ∈ x, d < base) (hy : ∀ d ∈ y.head?, d ≠ 0)
    (h : x.length < y.length) : value base x < value base y := by
  obtain ⟨d, y, rfl⟩ := List.exists_cons_of_length_pos (Nat.zero_lt_of_lt h)
  have hd : 0 < d := Nat.pos_of_ne_zero (hy d rfl)
  have hlen : x.length ≤ y.length := Nat.lt_succ_iff.1 h
  calc
    value base x < base ^ x.length := value_lt hx
    _ ≤ base ^ y.length := Nat.pow_le_pow_right hbase hlen
    _ ≤ d * base ^ y.length := Nat.le_mul_of_pos_left _ hd
    _ ≤ value base (d :: y) := by
      rw [value_cons]
      exact Nat.le_add_right _ _

/-- Numerals of one length compare like lists. -/
theorem compare_value (hx : ∀ d ∈ x, d < base) (hy : ∀ d ∈ y, d < base) (h : x.length = y.length) :
    compare (value base x) (value base y) = compare x y := by
  induction x generalizing y with
  | nil =>
      obtain rfl : y = [] := List.length_eq_zero_iff.1 h.symm
      simp
  | cons c x ih =>
      obtain ⟨d, y, rfl⟩ := List.exists_cons_of_length_eq_add_one h.symm
      have hlen : x.length = y.length := Nat.succ.inj h
      have hx' : ∀ e ∈ x, e < base := fun e he => hx e (.tail _ he)
      have hy' : ∀ e ∈ y, e < base := fun e he => hy e (.tail _ he)
      have hxlt := value_lt hx'
      have hylt := value_lt hy'
      rw [List.compare_cons_cons, ← ih hx' hy' hlen, value_cons, value_cons, hlen]
      rw [hlen] at hxlt
      rcases Nat.lt_trichotomy c d with hcd | rfl | hcd
      · have hmul : (c + 1) * base ^ y.length ≤ d * base ^ y.length := Nat.mul_le_mul_right _ hcd
        rw [Nat.compare_eq_lt.2 hcd, Nat.compare_eq_lt.2]
        · rfl
        · rw [add_mul] at hmul
          omega
      · simp only [Nat.compare_eq_ite_lt, Std.ReflCmp.compare_self, Ordering.eq_then]
        simp
      · have hmul : (d + 1) * base ^ y.length ≤ c * base ^ y.length := Nat.mul_le_mul_right _ hcd
        rw [Nat.compare_eq_gt.2 hcd, Nat.compare_eq_gt.2]
        · rfl
        · rw [add_mul] at hmul
          omega

/-- **Numerals are compared** by length and then as lists, once leading zeros are gone. -/
theorem compare_numerals (hbase : 0 < base) (hx : ∀ d ∈ x, d < base) (hy : ∀ d ∈ y, d < base) :
    compare (value base x) (value base y) =
      (compare (x.dropWhile (· = 0)).length (y.dropWhile (· = 0)).length).then
        (compare (x.dropWhile (· = 0)) (y.dropWhile (· = 0))) := by
  have hsub : ∀ {l : List Nat}, (∀ d ∈ l, d < base) → ∀ d ∈ l.dropWhile (· = 0), d < base :=
    fun hl d hd => hl d ((List.dropWhile_sublist _).subset hd)
  have hhead : ∀ {l : List Nat}, ∀ d ∈ (l.dropWhile (· = 0)).head?, d ≠ 0 := by
    intro l d hd
    have := List.head?_dropWhile_not (fun e : Nat => decide (e = 0)) l
    rw [Option.mem_def.1 hd] at this
    simpa using this
  rw [← value_dropWhile, ← value_dropWhile (x := y)]
  rcases Nat.lt_trichotomy (x.dropWhile (· = 0)).length (y.dropWhile (· = 0)).length with hlen | hlen | hlen
  · rw [Nat.compare_eq_lt.2 hlen, Nat.compare_eq_lt.2 (value_lt_of_length_lt hbase (hsub hx) hhead hlen)]
    rfl
  · rw [Nat.compare_eq_eq.2 hlen, compare_value (hsub hx) (hsub hy) hlen]
    rfl
  · rw [Nat.compare_eq_gt.2 hlen, Nat.compare_eq_gt.2 (value_lt_of_length_lt hbase (hsub hy) hhead hlen)]
    rfl

/-! ### Lists that end in zeros -/

def padded (n : Nat) (l : List Nat) : List Nat := l ++ List.replicate (n - l.length) 0

/-- The order of lists of numbers, the shorter one continued with zeros. -/
def comparePadded (x y : List Nat) : Ordering :=
  compare (padded (max x.length y.length) x) (padded (max x.length y.length) y)

theorem length_padded (h : x.length ≤ n) : (padded n x).length = n := by
  rw [padded, List.length_append, List.length_replicate]
  omega

theorem compare_append_right {s : List Nat} (h : x.length = y.length) : compare (x ++ s) (y ++ s) = compare x y := by
  induction x generalizing y with
  | nil =>
      obtain rfl : y = [] := List.length_eq_zero_iff.1 h.symm
      simp
  | cons c x ih =>
      obtain ⟨d, y, rfl⟩ := List.exists_cons_of_length_eq_add_one h.symm
      rw [List.cons_append, List.cons_append, List.compare_cons_cons, List.compare_cons_cons, ih (Nat.succ.inj h)]

/-- More zeros make no difference. -/
theorem comparePadded_eq (hx : x.length ≤ n) (hy : y.length ≤ n) :
    comparePadded x y = compare (padded n x) (padded n y) := by
  have hmore : ∀ {l : List Nat}, l.length ≤ max x.length y.length →
      padded n l = padded (max x.length y.length) l ++ List.replicate (n - max x.length y.length) 0 := by
    intro l hl
    rw [padded, padded, List.append_assoc, List.replicate_append_replicate]
    congr 2
    omega
  rw [hmore (le_max_left _ _), hmore (le_max_right _ _), compare_append_right]
  · rfl
  · rw [length_padded (le_max_left _ _), length_padded (le_max_right _ _)]

theorem padded_succ : padded (n + 1) x = x.headD 0 :: padded n x.tail := by
  cases x with
  | nil => simp [padded, List.replicate_succ]
  | cons c x => simp [padded]

/-- The first numbers come first. -/
theorem comparePadded_step :
    comparePadded x y = (compare (x.headD 0) (y.headD 0)).then (comparePadded x.tail y.tail) := by
  have hx : x.length ≤ max x.length y.length + 1 := by omega
  have hy : y.length ≤ max x.length y.length + 1 := by omega
  rw [comparePadded_eq hx hy, padded_succ, padded_succ, List.compare_cons_cons,
    comparePadded_eq (n := max x.length y.length) (by simp) (by simp)]

theorem comparePadded_swap : comparePadded y x = (comparePadded x y).swap := by
  rw [comparePadded, comparePadded, max_comm]
  exact Std.OrientedCmp.eq_swap

theorem comparePadded_trans (hxy : (comparePadded x y).isLE) (hyz : (comparePadded y z).isLE) :
    (comparePadded x z).isLE := by
  have hx : x.length ≤ x.length + y.length + z.length := by omega
  have hy : y.length ≤ x.length + y.length + z.length := by omega
  have hz : z.length ≤ x.length + y.length + z.length := by omega
  rw [comparePadded_eq hx hy] at hxy
  rw [comparePadded_eq hy hz] at hyz
  rw [comparePadded_eq hx hz]
  exact Std.TransCmp.isLE_trans hxy hyz

theorem comparePadded_eq_eq :
    comparePadded x y = .eq ↔ padded (max x.length y.length) x = padded (max x.length y.length) y := by
  constructor
  · exact Std.LawfulEqOrd.eq_of_compare
  · intro h
    rw [comparePadded, h]
    exact Std.ReflCmp.compare_self

end MiniDarwin.Data
