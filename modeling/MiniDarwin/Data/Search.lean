import Mathlib.Data.List.Sort
import Mathlib.Tactic

/-!
`bsearch ()`, as the C library has it: the elements that may still be the
one looked for are the `lim` elements from `start` on, and the middle one is
compared with the key.
-/

namespace MiniDarwin.Data

variable {α : Type}

/-- `cmp x` is how the key compares with `x`. Each round halves `lim`, so that as many
rounds as there are elements are enough. -/
def bsearchFrom (cmp : α → Ordering) (l : List α) : (rounds start lim : Nat) → Option α
  | 0, _, _ => none
  | rounds + 1, start, lim =>
      if lim = 0 then none
      else
        match l[start + lim / 2]? with
        | none => none
        | some x =>
            match cmp x with
            | .eq => some x
            | .gt => bsearchFrom cmp l rounds (start + lim / 2 + 1) ((lim - 1) / 2)
            | .lt => bsearchFrom cmp l rounds start (lim / 2)

def bsearch (cmp : α → Ordering) (l : List α) : Option α := bsearchFrom cmp l l.length 0 l.length

variable {cmp : α → Ordering} {l : List α} {x : α} {rounds start lim : Nat}

theorem bsearchFrom_eq (hlim : lim ≠ 0) (hx : l[start + lim / 2]? = some x) (h : cmp x = .eq) :
    bsearchFrom cmp l (rounds + 1) start lim = some x := by
  simp only [bsearchFrom, if_neg hlim, hx, h]

theorem bsearchFrom_gt (hlim : lim ≠ 0) (hx : l[start + lim / 2]? = some x) (h : cmp x = .gt) :
    bsearchFrom cmp l (rounds + 1) start lim =
      bsearchFrom cmp l rounds (start + lim / 2 + 1) ((lim - 1) / 2) := by
  simp only [bsearchFrom, if_neg hlim, hx, h]

theorem bsearchFrom_lt (hlim : lim ≠ 0) (hx : l[start + lim / 2]? = some x) (h : cmp x = .lt) :
    bsearchFrom cmp l (rounds + 1) start lim = bsearchFrom cmp l rounds start (lim / 2) := by
  simp only [bsearchFrom, if_neg hlim, hx, h]

/-- What is found is in the list and compares equal. -/
theorem bsearchFrom_sound (h : bsearchFrom cmp l rounds start lim = some x) :
    x ∈ l ∧ cmp x = .eq := by
  induction rounds generalizing start lim with
  | zero => cases h
  | succ rounds ih =>
      by_cases hlim : lim = 0
      · rw [bsearchFrom, if_pos hlim] at h
        cases h
      · cases hm : l[start + lim / 2]? with
        | none =>
            simp only [bsearchFrom, if_neg hlim, hm] at h
            cases h
        | some y =>
            cases hcmp : cmp y with
            | eq =>
                rw [bsearchFrom_eq hlim hm hcmp] at h
                cases h
                exact ⟨List.mem_of_getElem? hm, hcmp⟩
            | gt =>
                rw [bsearchFrom_gt hlim hm hcmp] at h
                exact ih h
            | lt =>
                rw [bsearchFrom_lt hlim hm hcmp] at h
                exact ih h

theorem bsearch_sound (h : bsearch cmp l = some x) : x ∈ l ∧ cmp x = .eq := bsearchFrom_sound h

/-- The key comes later than the elements it exceeds. -/
def Ascending (cmp : α → Ordering) (l : List α) : Prop :=
  l.Pairwise fun a b => (cmp b = .gt → cmp a = .gt) ∧ (cmp a = .lt → cmp b = .lt)

/-- An element in the range that compares equal is found, or another one. -/
theorem bsearchFrom_complete {i : Nat} (hasc : Ascending cmp l) (hi : l[i]? = some x)
    (hx : cmp x = .eq) (hlow : start ≤ i) (hhigh : i < start + lim) (hrounds : lim ≤ rounds)
    (hrange : start + lim ≤ l.length) : (bsearchFrom cmp l rounds start lim).isSome := by
  induction rounds generalizing start lim with
  | zero => omega
  | succ rounds ih =>
      have hlim : lim ≠ 0 := by omega
      obtain ⟨y, hy⟩ : ∃ y, l[start + lim / 2]? = some y :=
        ⟨_, List.getElem?_eq_getElem (show start + lim / 2 < l.length by omega)⟩
      have horder : ∀ (j k : Nat) (a b : α), j < k → l[j]? = some a → l[k]? = some b →
          (cmp b = .gt → cmp a = .gt) ∧ (cmp a = .lt → cmp b = .lt) := by
        intro j k a b hjk ha hb
        obtain ⟨hj, rfl⟩ := List.getElem?_eq_some_iff.1 ha
        obtain ⟨hk, rfl⟩ := List.getElem?_eq_some_iff.1 hb
        exact List.pairwise_iff_getElem.1 hasc j k hj hk hjk
      cases hcmp : cmp y with
      | eq =>
          rw [bsearchFrom_eq hlim hy hcmp]
          rfl
      | gt =>
          rw [bsearchFrom_gt hlim hy hcmp]
          have hlater : start + lim / 2 < i := by
            by_contra hnot
            obtain heq | hlt := eq_or_lt_of_le (not_lt.1 hnot)
            · rw [heq, hy] at hi
              cases hi
              rw [hx] at hcmp
              cases hcmp
            · have := (horder i _ x y hlt hi hy).1 hcmp
              rw [hx] at this
              cases this
          exact ih (by omega) (by omega) (by omega) (by omega)
      | lt =>
          rw [bsearchFrom_lt hlim hy hcmp]
          have hearlier : i < start + lim / 2 := by
            by_contra hnot
            obtain heq | hlt := eq_or_lt_of_le (not_lt.1 hnot)
            · rw [← heq, hy] at hi
              cases hi
              rw [hx] at hcmp
              cases hcmp
            · have := (horder _ i y x hlt hy hi).2 hcmp
              rw [hx] at this
              cases this
          exact ih hlow (by omega) (by omega) (by omega)

/-- **A key is found if and only if it is there.** -/
theorem bsearch_isSome (hasc : Ascending cmp l) : (bsearch cmp l).isSome ↔ ∃ x ∈ l, cmp x = .eq := by
  constructor
  · intro h
    obtain ⟨x, hx⟩ := Option.isSome_iff_exists.1 h
    exact ⟨x, bsearch_sound hx⟩
  · rintro ⟨x, hx, hcmp⟩
    obtain ⟨i, hi⟩ := List.getElem?_of_mem hx
    obtain ⟨hlen, -⟩ := List.getElem?_eq_some_iff.1 hi
    exact bsearchFrom_complete hasc hi hcmp (by omega) (by omega) le_rfl (by omega)

end MiniDarwin.Data
