import Mathlib

/-!
Patterns of the kind that programs write down, as regular expressions.

A program asks whether a whole text matches a pattern, which Mathlib
decides; what is added here is what is needed to argue about the answer.
The letters that occur in a pattern bound those of its texts (`letters`),
and some of them occur in each of its texts (`demands`). Two patterns are
told apart by a letter that the one demands and the other does not have.
-/

namespace MiniDarwin.Data

open RegularExpression

variable {α : Type} {x y : List α} {p q : RegularExpression α}

/-- A class of letters. -/
def oneOf : List α → RegularExpression α
  | [] => 0
  | c :: cs => .char c + oneOf cs

/-- One text. -/
def word : List α → RegularExpression α
  | [] => 1
  | c :: cs => .char c * word cs

/-- Alternatives. -/
def anyOf : List (RegularExpression α) → RegularExpression α
  | [] => 0
  | p :: ps => p + anyOf ps

/-- `p?` -/
def perhaps (p : RegularExpression α) : RegularExpression α := 1 + p

/-- `p+` -/
def repeated (p : RegularExpression α) : RegularExpression α := p * .star p

theorem mem_oneOf {cs : List α} : x ∈ (oneOf cs).matches' ↔ ∃ c ∈ cs, x = [c] := by
  induction cs with
  | nil =>
      simp only [oneOf, matches'_zero, List.not_mem_nil, false_and, exists_false, iff_false]
      exact Language.notMem_zero x
  | cons c cs ih =>
      rw [oneOf, matches'_add, Language.mem_add, ih, matches'_char]
      simp only [List.mem_cons, exists_eq_or_imp]
      exact Iff.rfl

theorem mem_word {w : List α} : x ∈ (word w).matches' ↔ x = w := by
  induction w generalizing x with
  | nil =>
      rw [word, matches'_epsilon]
      exact Language.mem_one x
  | cons c cs ih =>
      rw [word, matches'_mul, Language.mem_mul, matches'_char]
      constructor
      · rintro ⟨a, ha, b, hb, rfl⟩
        obtain rfl : a = [c] := ha
        rw [ih.1 hb]
        rfl
      · rintro rfl
        exact ⟨[c], rfl, cs, ih.2 rfl, rfl⟩

theorem mem_perhaps : x ∈ (perhaps p).matches' ↔ x = [] ∨ x ∈ p.matches' := by
  rw [perhaps, matches'_add, Language.mem_add, matches'_epsilon, Language.mem_one]

theorem mem_star_oneOf {cs : List α} : x ∈ (RegularExpression.star (oneOf cs)).matches' ↔ ∀ c ∈ x, c ∈ cs := by
  rw [matches'_star, Language.mem_kstar]
  constructor
  · rintro ⟨words, rfl, hwords⟩ c hc
    obtain ⟨w, hw, hcw⟩ := List.mem_flatten.1 hc
    obtain ⟨c', hc', rfl⟩ := mem_oneOf.1 (hwords w hw)
    rwa [List.mem_singleton.1 hcw]
  · intro h
    refine ⟨x.map fun c => [c], ?_, ?_⟩
    · rw [← List.flatMap_def, List.flatMap_singleton']
    intro w hw
    obtain ⟨c, hc, rfl⟩ := List.mem_map.1 hw
    exact mem_oneOf.2 ⟨c, h c hc, rfl⟩

theorem mem_repeated_oneOf {cs : List α} :
    x ∈ (repeated (oneOf cs)).matches' ↔ x ≠ [] ∧ ∀ c ∈ x, c ∈ cs := by
  rw [repeated, matches'_mul, Language.mem_mul]
  constructor
  · rintro ⟨a, ha, b, hb, rfl⟩
    obtain ⟨c, hc, rfl⟩ := mem_oneOf.1 ha
    refine ⟨by simp, ?_⟩
    intro c' hc'
    obtain rfl | hc' := List.mem_cons.1 hc'
    · exact hc
    · exact mem_star_oneOf.1 hb c' hc'
  · rintro ⟨hne, hall⟩
    obtain ⟨c, cs', rfl⟩ := List.exists_cons_of_ne_nil hne
    exact ⟨[c], mem_oneOf.2 ⟨c, hall c (.head _), rfl⟩, cs', mem_star_oneOf.2 fun c' hc' => hall c' (.tail _ hc'), rfl⟩

/-! ### Telling patterns apart -/

/-- The letters that occur in a pattern. -/
def letters : RegularExpression α → List α
  | .char a => [a]
  | .plus p q | .comp p q => letters p ++ letters q
  | .star p => letters p
  | _ => []

theorem mem_letters (h : x ∈ p.matches') : ∀ a ∈ x, a ∈ letters p := by
  induction p generalizing x with
  | zero => exact absurd h (Language.notMem_zero x)
  | epsilon =>
      obtain rfl := (Language.mem_one x).1 h
      intro a ha
      cases ha
  | char a =>
      obtain rfl : x = [a] := h
      exact fun _ => id
  | plus p q hp hq =>
      intro a ha
      obtain h | h := (Language.mem_add _ _ _).1 h
      · exact List.mem_append_left _ (hp h a ha)
      · exact List.mem_append_right _ (hq h a ha)
  | comp p q hp hq =>
      obtain ⟨u, hu, v, hv, rfl⟩ := Language.mem_mul.1 h
      intro a ha
      obtain ha | ha := List.mem_append.1 ha
      · exact List.mem_append_left _ (hp hu a ha)
      · exact List.mem_append_right _ (hq hv a ha)
  | star p hp =>
      obtain ⟨words, rfl, hwords⟩ := Language.mem_kstar.1 h
      intro a ha
      obtain ⟨w, hw, ha⟩ := List.mem_flatten.1 ha
      exact hp (hwords w hw) a ha

variable [DecidableEq α]

/-- Each text of the pattern has one of the letters. -/
def demands (cs : List α) : RegularExpression α → Bool
  | .zero => true
  | .char a => a ∈ cs
  | .plus p q => demands cs p && demands cs q
  | .comp p q => demands cs p || demands cs q
  | _ => false

theorem exists_of_demands {cs : List α} (hp : demands cs p = true) (h : x ∈ p.matches') :
    ∃ a ∈ x, a ∈ cs := by
  induction p generalizing x with
  | zero => exact absurd h (Language.notMem_zero x)
  | epsilon => cases hp
  | char a =>
      obtain rfl : x = [a] := h
      exact ⟨a, .head _, of_decide_eq_true hp⟩
  | plus p q ihp ihq =>
      obtain ⟨hp, hq⟩ := Bool.and_eq_true_iff.1 hp
      obtain h | h := (Language.mem_add _ _ _).1 h
      · exact ihp hp h
      · exact ihq hq h
  | comp p q ihp ihq =>
      obtain ⟨u, hu, v, hv, rfl⟩ := Language.mem_mul.1 h
      obtain hp | hq := Bool.or_eq_true_iff.1 hp
      · obtain ⟨a, ha, hc⟩ := ihp hp hu
        exact ⟨a, List.mem_append_left _ ha, hc⟩
      · obtain ⟨a, ha, hc⟩ := ihq hq hv
        exact ⟨a, List.mem_append_right _ ha, hc⟩
  | star p _ => cases hp

/-- Two patterns have no text in common. -/
theorem not_mem_of_demands (cs : List α) (hp : demands cs p = true) (hq : ∀ c ∈ cs, c ∉ letters q)
    (h : x ∈ p.matches') : x ∉ q.matches' := by
  intro hx
  obtain ⟨a, ha, hc⟩ := exists_of_demands hp h
  exact hq a hc (mem_letters hx a ha)

end MiniDarwin.Data
