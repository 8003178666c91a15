import MiniDarwin.Data.Numerals
import MiniDarwin.Posix.Tree

/-!
Versions, as Installer JS compares them (`installer-js.c`).

A version is numbers separated by dots. They are compared without being
converted: a component is stripped of its zeros and compared by length and
then byte by byte, so that it may have any number of digits. A string ends
where its list does.
-/

namespace MiniDarwin.Installer

open Posix (Bytes)
open Data

/-! ### `valid_version ()` and `compare_versions ()` -/

def isDigit (c : UInt8) : Bool := 48 ≤ c ∧ c ≤ 57

/-- The loop of `valid_version ()`: a digit, all the digits that follow it, then the end or a dot. -/
def validFrom : Bytes → Bool
  | [] => false
  | c :: s =>
      if isDigit c then
        let rest := s.dropWhile isDigit
        if rest = [] then true
        else if rest.head? = some 46 then validFrom rest.tail
        else false
      else false
termination_by s => s.length
decreasing_by
  have hlen := (List.dropWhile_sublist isDigit (l := s)).length_le
  rw [List.length_tail, List.length_cons]
  omega

def validVersion (s : Bytes) : Bool := if s = [] then false else validFrom s

/-- The first component, up to the length that `strcspn (s, ".")` returns. -/
def component (s : Bytes) : Bytes := s.takeWhile (· ≠ 46)

/-- What follows it and its dot. -/
def following (s : Bytes) : Bytes := (s.dropWhile (· ≠ 46)).tail

theorem following_length (s : Bytes) : (following s).length ≤ s.length - 1 := by
  have hlen := (List.dropWhile_sublist (fun c : UInt8 => decide (c ≠ 46)) (l := s)).length_le
  rw [following, List.length_tail]
  omega

def compareVersions (a b : Bytes) : Int :=
  if _h : a = [] ∧ b = [] then 0
  else
    let x := (component a).dropWhile (· = 48)
    let y := (component b).dropWhile (· = 48)
    if x.length ≠ y.length then
      if x.length < y.length then -1 else 1
    else
      -- memcmp ()
      match compare x y with
      | .lt => -1
      | .gt => 1
      | .eq => compareVersions (following a) (following b)
termination_by a.length + b.length
decreasing_by
  have ha := following_length a
  have hb := following_length b
  have hne : a.length ≠ 0 ∨ b.length ≠ 0 := by
    rw [ne_eq, ne_eq, ← not_and_or, List.length_eq_zero_iff, List.length_eq_zero_iff]
    exact _h
  omega

/-! ### Versions as lists of numbers -/

/-- The string of a version. -/
def Version : Type := {s : Bytes // validVersion s = true}

def digitsOf (s : Bytes) : List Nat := s.map fun c => c.toNat - 48

/-- The numbers between the dots. -/
def Version.numbers (v : Version) : List Nat := (v.1.splitOn 46).map fun s => value 10 (digitsOf s)

/-- What is left of a version after some of its components. -/
def Remainder (s : Bytes) : Prop := s = [] ∨ validFrom s = true

def numbersOf (s : Bytes) : List Nat := if s = [] then [] else (s.splitOn 46).map fun s => value 10 (digitsOf s)

theorem isDigit_ne_dot {c : UInt8} (h : isDigit c = true) : c ≠ 46 := by
  rintro rfl
  exact absurd h (by decide)

/-- One component of a version: digits up to the end, or up to a dot and a version. -/
theorem validFrom_cases {s : Bytes} (h : validFrom s = true) :
    ∃ digits, (∀ c ∈ digits, isDigit c = true) ∧
      (s = digits ∨ ∃ rest, s = digits ++ 46 :: rest ∧ validFrom rest = true) := by
  cases s with
  | nil => simp [validFrom] at h
  | cons c s =>
      rw [validFrom] at h
      split at h
      · next hc =>
          have hdigits : ∀ d ∈ c :: s.takeWhile isDigit, isDigit d = true := by
            intro d hd
            obtain rfl | hd := List.mem_cons.1 hd
            · exact hc
            · exact List.mem_takeWhile_imp hd
          have hsplit := List.takeWhile_append_dropWhile (p := isDigit) (l := s)
          refine ⟨c :: s.takeWhile isDigit, hdigits, ?_⟩
          dsimp only at h
          split at h
          · next hend =>
              rw [hend, List.append_nil] at hsplit
              exact .inl (by rw [hsplit])
          · split at h
            · next hdot =>
                refine .inr ⟨_, ?_, h⟩
                rw [List.cons_append, List.cons_head?_tail hdot, hsplit]
            · cases h
      · cases h

theorem takeWhile_digits {digits s : Bytes} (h : ∀ c ∈ digits, isDigit c = true) :
    component (digits ++ 46 :: s) = digits ∧ following (digits ++ 46 :: s) = s := by
  have hdot : ∀ c ∈ digits, decide (c ≠ 46) = true := fun c hc => decide_eq_true (isDigit_ne_dot (h c hc))
  constructor
  · rw [component, List.takeWhile_append_of_pos hdot, List.takeWhile_cons_of_neg (by simp), List.append_nil]
  · rw [following, List.dropWhile_append_of_pos hdot, List.dropWhile_cons_of_neg (by simp), List.tail_cons]

/-- The first number is that of the first component, the others are those of what follows. -/
theorem Remainder.step {s : Bytes} (h : Remainder s) :
    (∀ c ∈ component s, isDigit c = true) ∧ Remainder (following s) ∧
      (numbersOf s).headD 0 = value 10 (digitsOf (component s)) ∧ (numbersOf s).tail = numbersOf (following s) := by
  obtain rfl | h := h
  · exact ⟨by simp [component], .inl rfl, rfl, rfl⟩
  · obtain ⟨digits, hdigits, hs⟩ := validFrom_cases h
    have hnodot : (46 : UInt8) ∉ digits := fun hmem => isDigit_ne_dot (hdigits 46 hmem) rfl
    have hone : digits.splitOn 46 = [digits] := List.splitOn_eq_singleton hnodot
    obtain rfl | ⟨rest, rfl, hrest⟩ := hs
    · have hdot : ∀ c ∈ s, decide (c ≠ 46) = true := fun c hc => decide_eq_true (isDigit_ne_dot (hdigits c hc))
      have hcomponent : component s = s := List.takeWhile_eq_self_iff.2 hdot
      have hfollowing : following s = [] := by
        rw [following, List.dropWhile_eq_nil_iff.2 hdot, List.tail_nil]
      have hne : s ≠ [] := by
        rintro rfl
        simp [validFrom] at h
      rw [hcomponent, hfollowing, numbersOf, if_neg hne, hone]
      exact ⟨hdigits, .inl rfl, rfl, rfl⟩
    · obtain ⟨hcomponent, hfollowing⟩ := takeWhile_digits (s := rest) hdigits
      have hne : rest ≠ [] := by
        rintro rfl
        simp [validFrom] at hrest
      rw [hcomponent, hfollowing, numbersOf, if_neg (by simp), List.splitOn_append_cons_self, hone, numbersOf,
        if_neg hne]
      exact ⟨hdigits, .inr hrest, rfl, rfl⟩

/-! ### The comparison -/

theorem compare_digit {c d : UInt8} (hc : isDigit c = true) (hd : isDigit d = true) :
    compare c d = compare (c.toNat - 48) (d.toNat - 48) := by
  have hc' : 48 ≤ c.toNat := by
    have := (of_decide_eq_true hc).1
    simpa using UInt8.le_iff_toNat_le.1 this
  have hd' : 48 ≤ d.toNat := by
    have := (of_decide_eq_true hd).1
    simpa using UInt8.le_iff_toNat_le.1 this
  have hcmp : compare c d = compare c.toNat d.toNat := by
    simp only [compare, compareOfLessAndEq, UInt8.lt_iff_toNat_lt, UInt8.toNat_inj]
  rw [hcmp, Nat.compare_eq_ite_lt, Nat.compare_eq_ite_lt]
  have hlt : c.toNat < d.toNat ↔ c.toNat - 48 < d.toNat - 48 := by omega
  have hgt : d.toNat < c.toNat ↔ d.toNat - 48 < c.toNat - 48 := by omega
  rw [if_congr hlt rfl (if_congr hgt rfl rfl)]

theorem compare_digits {x y : Bytes} (hx : ∀ c ∈ x, isDigit c = true) (hy : ∀ c ∈ y, isDigit c = true) :
    compare x y = compare (digitsOf x) (digitsOf y) := by
  induction x generalizing y with
  | nil => cases y <;> rfl
  | cons c x ih =>
      cases y with
      | nil => rfl
      | cons d y =>
          rw [digitsOf, List.map_cons, digitsOf, List.map_cons, List.compare_cons_cons, List.compare_cons_cons,
            compare_digit (hx c (.head _)) (hy d (.head _)),
            ih (fun e he => hx e (.tail _ he)) (fun e he => hy e (.tail _ he))]
          rfl

theorem digitsOf_dropWhile {x : Bytes} (hx : ∀ c ∈ x, isDigit c = true) :
    digitsOf (x.dropWhile (· = 48)) = (digitsOf x).dropWhile (· = 0) := by
  induction x with
  | nil => rfl
  | cons c x ih =>
      have hc : 48 ≤ c.toNat := by
        have := (of_decide_eq_true (hx c (.head _))).1
        simpa using UInt8.le_iff_toNat_le.1 this
      by_cases hzero : c = 48
      · have hdigit : c.toNat - 48 = 0 := by rw [hzero]; rfl
        rw [List.dropWhile_cons_of_pos (by simpa using hzero), ih fun d hd => hx d (.tail _ hd), digitsOf, digitsOf,
          List.map_cons, List.dropWhile_cons_of_pos (by simpa using hdigit)]
      · have hdigit : c.toNat - 48 ≠ 0 := by
          intro h
          exact hzero (UInt8.toNat_inj.1 (by simpa using (by omega : c.toNat = 48)))
        rw [List.dropWhile_cons_of_neg (by simpa using hzero), digitsOf, List.map_cons,
          List.dropWhile_cons_of_neg (by simpa using hdigit)]

theorem digitsOf_lt {x : Bytes} (hx : ∀ c ∈ x, isDigit c = true) : ∀ d ∈ digitsOf x, d < 10 := by
  intro d hd
  obtain ⟨c, hc, rfl⟩ := List.mem_map.1 hd
  have := UInt8.le_iff_toNat_le.1 (of_decide_eq_true (hx c hc)).2
  have h57 : (57 : UInt8).toNat = 57 := rfl
  omega

/-- What one round decides. -/
theorem compare_components {a b : Bytes} (ha : ∀ c ∈ component a, isDigit c = true)
    (hb : ∀ c ∈ component b, isDigit c = true) :
    compare (value 10 (digitsOf (component a))) (value 10 (digitsOf (component b))) =
      (compare ((component a).dropWhile (· = 48)).length ((component b).dropWhile (· = 48)).length).then
        (compare ((component a).dropWhile (· = 48)) ((component b).dropWhile (· = 48))) := by
  have hsub : ∀ {s : Bytes}, (∀ c ∈ s, isDigit c = true) → ∀ c ∈ s.dropWhile (· = 48), isDigit c = true :=
    fun hs c hc => hs c ((List.dropWhile_sublist _).subset hc)
  have hlen : ∀ s : Bytes, (digitsOf s).length = s.length := fun s => List.length_map _
  rw [compare_numerals (by decide) (digitsOf_lt ha) (digitsOf_lt hb), ← digitsOf_dropWhile ha, ← digitsOf_dropWhile hb,
    hlen, hlen, compare_digits (hsub ha) (hsub hb)]

def sign : Ordering → Int
  | .lt => -1
  | .eq => 0
  | .gt => 1

/-- A round of the loop. -/
theorem compareVersions_step {a b : Bytes} (ha : ∀ c ∈ component a, isDigit c = true)
    (hb : ∀ c ∈ component b, isDigit c = true) (hne : ¬ (a = [] ∧ b = [])) {o : Ordering}
    (ho : compare (value 10 (digitsOf (component a))) (value 10 (digitsOf (component b))) = o) :
    compareVersions a b = if o = .eq then compareVersions (following a) (following b) else sign o := by
  rw [compare_components ha hb] at ho
  rw [compareVersions, dif_neg hne]
  dsimp only
  rcases Nat.lt_trichotomy ((component a).dropWhile (· = 48)).length ((component b).dropWhile (· = 48)).length with
    hlen | hlen | hlen
  · rw [Nat.compare_eq_lt.2 hlen] at ho
    rw [if_pos hlen.ne, if_pos hlen, ← ho]
    rfl
  · rw [Nat.compare_eq_eq.2 hlen, Ordering.eq_then] at ho
    rw [if_neg (not_not.2 hlen), ho]
    cases o <;> rfl
  · rw [Nat.compare_eq_gt.2 hlen] at ho
    rw [if_pos hlen.ne', if_neg hlen.not_gt, ← ho]
    rfl

theorem compareVersions_remainder {a b : Bytes} (ha : Remainder a) (hb : Remainder b) :
    compareVersions a b = sign (comparePadded (numbersOf a) (numbersOf b)) := by
  -- the rounds get shorter, whichever of the two strings has ended
  induction hn : a.length + b.length using Nat.strong_induction_on generalizing a b with
  | _ n ih =>
      by_cases hnil : a = [] ∧ b = []
      · rw [compareVersions, dif_pos hnil, hnil.1, hnil.2]
        rfl
      · obtain ⟨hdigitsA, hfollowA, hheadA, htailA⟩ := ha.step
        obtain ⟨hdigitsB, hfollowB, hheadB, htailB⟩ := hb.step
        rw [compareVersions_step hdigitsA hdigitsB hnil rfl, comparePadded_step, hheadA, hheadB, htailA, htailB]
        cases compare (value 10 (digitsOf (component a))) (value 10 (digitsOf (component b))) with
        | lt => rfl
        | gt => rfl
        | eq =>
            have hlenA := following_length a
            have hlenB := following_length b
            have hpos : a.length ≠ 0 ∨ b.length ≠ 0 := by
              rw [ne_eq, ne_eq, ← not_and_or, List.length_eq_zero_iff, List.length_eq_zero_iff]
              exact hnil
            exact ih _ (by omega) hfollowA hfollowB rfl

theorem Version.remainder (v : Version) : Remainder v.1 ∧ numbersOf v.1 = v.numbers := by
  obtain ⟨s, hs⟩ := v
  unfold validVersion at hs
  split at hs
  · cases hs
  · next hne => exact ⟨.inr hs, if_neg hne⟩

/-- **`compareVersions` is numeric**: it returns the sign of the comparison of the numbers of two
versions, the shorter one continued with zeros. So it is a total preorder that is reversed with its
arguments, and 0 says that the numbers are the same. -/
theorem compareVersions_numeric (a b c : Version) :
    compareVersions a.1 b.1 = sign (comparePadded a.numbers b.numbers) ∧
      compareVersions b.1 a.1 = - compareVersions a.1 b.1 ∧
      (compareVersions a.1 b.1 ≤ 0 → compareVersions b.1 c.1 ≤ 0 → compareVersions a.1 c.1 ≤ 0) ∧
      (compareVersions a.1 b.1 ≤ 0 ∨ compareVersions b.1 a.1 ≤ 0) ∧
      (compareVersions a.1 b.1 = 0 ↔
        padded (max a.numbers.length b.numbers.length) a.numbers =
          padded (max a.numbers.length b.numbers.length) b.numbers) := by
  have hcompare : ∀ v w : Version, compareVersions v.1 w.1 = sign (comparePadded v.numbers w.numbers) := by
    intro v w
    rw [compareVersions_remainder v.remainder.1 w.remainder.1, v.remainder.2, w.remainder.2]
  have hle : ∀ o : Ordering, sign o ≤ 0 ↔ o.isLE := by
    intro o
    cases o <;> decide
  have hswap : ∀ o : Ordering, sign o.swap = - sign o := by
    intro o
    cases o <;> rfl
  have hzero : ∀ o : Ordering, sign o = 0 ↔ o = .eq := by
    intro o
    cases o <;> decide
  rw [hcompare a b, hcompare b a, hcompare b c, hcompare a c, comparePadded_swap (x := a.numbers), hswap, hle, hle, hle,
    hzero, comparePadded_eq_eq]
  refine ⟨rfl, rfl, comparePadded_trans, ?_, Iff.rfl⟩
  cases comparePadded a.numbers b.numbers <;> decide

/-- `1.9`, `1.10` and `01.010.0`. -/
theorem compareVersions_numeric_tenth :
    ∃ a b c : Version, a.numbers = [1, 9] ∧ b.numbers = [1, 10] ∧ c.numbers = [1, 10, 0] ∧
      compareVersions a.1 b.1 = -1 ∧ compareVersions b.1 c.1 = 0 ∧ compareVersions a.1 c.1 ≤ 0 := by
  let a : Version := ⟨[49, 46, 57], by simp [validVersion, validFrom, isDigit]⟩
  let b : Version := ⟨[49, 46, 49, 48], by simp [validVersion, validFrom, isDigit]⟩
  let c : Version := ⟨[48, 49, 46, 48, 49, 48, 46, 48], by simp [validVersion, validFrom, isDigit]⟩
  have ha : a.numbers = [1, 9] := by decide
  have hb : b.numbers = [1, 10] := by decide
  have hc : c.numbers = [1, 10, 0] := by decide
  obtain ⟨hab, -, htrans, -⟩ := compareVersions_numeric a b c
  have hbc := (compareVersions_numeric b c a).1
  rw [ha, hb] at hab
  rw [hb, hc] at hbc
  have hab' : compareVersions a.1 b.1 = -1 := hab.trans (by decide)
  have hbc' : compareVersions b.1 c.1 = 0 := hbc.trans (by decide)
  exact ⟨a, b, c, ha, hb, hc, hab', hbc', htrans (by rw [hab']; decide) (by rw [hbc'])⟩

end MiniDarwin.Installer
