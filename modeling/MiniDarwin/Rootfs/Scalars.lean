import MiniDarwin.Rootfs.Yaml

/-!
Plain scalars against the core schema of YAML 1.2.

`resolve` is the core schema's table, tag by tag. The reader knows fewer
numbers than the table does: a number with an exponent and no point, and
the octal and hexadecimal forms, it takes for strings, and a token of which
nothing is left is a string to it and null to YAML. On every other token it
either says what the table says or refuses.
-/

namespace MiniDarwin.Rootfs

open Data RegularExpression

/-- What the core schema resolves a plain scalar to. -/
inductive Resolved where
  | null
  | bool (b : Bool)
  | int (n : Int)
  | float
  | str (s : Text)
  deriving DecidableEq

def Scalar.resolved : Scalar → Resolved
  | .null => .null
  | .bool b => .bool b
  | .int n => .int n
  | .str s => .str s

/-- `0o[0-7]+` -/
def octalForm : RegularExpression Nat := word (lit "0o") * repeated (oneOf (lit "01234567"))

/-- `0x[0-9a-fA-F]+` -/
def hexForm : RegularExpression Nat := word (lit "0x") * repeated (oneOf (lit "0123456789abcdefABCDEF"))

/-- `[-+]?(\.[0-9]+|[0-9]+(\.[0-9]*)?)([eE][-+]?[0-9]+)?`, or infinity, or no number. -/
def coreFloat : RegularExpression Nat :=
  sign * ((word (lit ".") * digits + digits * perhaps (word (lit ".") * .star digit)) *
    perhaps exponent) + notANumber

/-- The number that a text of digits stands for, `0o` or `0x` left out. -/
def basedOf (base : Nat) (token : Text) : Int :=
  Data.value base ((token.drop 2).map fun c => (hexDigit c).getD 0)

/-- The core schema. -/
def resolve (token : Text) : Resolved :=
  if token = [] ∨ token ∈ [lit "null", lit "Null", lit "NULL", lit "~"] then .null
  else if token ∈ [lit "true", lit "True", lit "TRUE"] then .bool true
  else if token ∈ [lit "false", lit "False", lit "FALSE"] then .bool false
  else if integerForm.rmatch token then .int (intOf token)
  else if octalForm.rmatch token then .int (basedOf 8 token)
  else if hexForm.rmatch token then .int (basedOf 16 token)
  else if coreFloat.rmatch token then .float
  else .str token

/-- `[-+]?[0-9]+[eE][-+]?[0-9]+` -/
def exponentForm : RegularExpression Nat := sign * (digits * exponent)

variable {place token : Text}

/-- The core schema's floats are the integers, what the reader takes for floats, and
the numbers with an exponent and no point. -/
theorem matches_coreFloat :
    coreFloat.matches' = integerForm.matches' + floatForm.matches' + exponentForm.matches' := by
  simp only [coreFloat, integerForm, floatForm, exponentForm, perhaps, matches'_add, matches'_mul,
    matches'_epsilon, mul_add, add_mul, mul_one, mul_assoc]
  abel

theorem coreFloat_iff :
    coreFloat.rmatch token ↔
      integerForm.rmatch token ∨ floatForm.rmatch token ∨ exponentForm.rmatch token := by
  simp only [rmatch_iff_matches', matches_coreFloat, Language.mem_add, or_assoc]

/-- A token that the reader takes for a string, though the core schema does not. -/
def Missed (token : Text) : Prop :=
  token = [] ∨ octalForm.rmatch token ∨ hexForm.rmatch token ∨ exponentForm.rmatch token

instance : Decidable (Missed token) := inferInstanceAs (Decidable (_ ∨ _ ∨ _ ∨ _))

/-- Such a token has a letter that no integer has. -/
theorem Missed.not_integer (h : Missed token) : ¬ integerForm.rmatch token := by
  simp only [Missed, rmatch_iff_matches'] at h
  rw [rmatch_iff_matches']
  obtain rfl | h | h | h := h
  · rw [← rmatch_iff_matches']
    decide
  · exact not_mem_of_demands (lit "o") (by decide) (by decide) h
  · exact not_mem_of_demands (lit "x") (by decide) (by decide) h
  · exact not_mem_of_demands (lit "eE") (by decide) (by decide) h

/-- What the reader takes for a float has a point, and such a token has none. -/
theorem Missed.not_float (h : Missed token) : ¬ floatForm.rmatch token := by
  simp only [Missed, rmatch_iff_matches'] at h
  rw [rmatch_iff_matches']
  intro hfloat
  have hpoint : demands (lit ".") floatForm = true := by decide
  obtain rfl | h | h | h := h
  · obtain ⟨c, hc, -⟩ := exists_of_demands hpoint hfloat
    cases hc
  · exact not_mem_of_demands _ hpoint (by decide) hfloat h
  · exact not_mem_of_demands _ hpoint (by decide) hfloat h
  · exact not_mem_of_demands _ hpoint (by decide) hfloat h

/-- The words that both know. -/
def keywords : List Text :=
  [lit "null", lit "Null", lit "NULL", lit "~", lit "true", lit "True", lit "TRUE",
   lit "false", lit "False", lit "FALSE"]

theorem not_missed_of_keyword (h : token ∈ keywords) : ¬ Missed token := by
  have hall : ∀ k ∈ keywords, ¬ Missed k := by decide
  exact hall token h

/-- A token that is neither a word nor a number to the reader. -/
theorem plain_of_missed (h : Missed token) : plain place token = .ok (.str token) := by
  have hword : token ∉ keywords := fun hk => not_missed_of_keyword hk h
  simp only [keywords, List.mem_cons, List.not_mem_nil, or_false, not_or] at hword
  simp only [plain, List.mem_cons, List.not_mem_nil, hword, h.not_integer, h.not_float, or_false, if_false,
    Bool.false_eq_true]

theorem resolve_of_missed (h : Missed token) : resolve token ≠ .str token := by
  have hword : token ∉ keywords := fun hk => not_missed_of_keyword hk h
  simp only [keywords, List.mem_cons, List.not_mem_nil, or_false, not_or] at hword
  have hnumber := h.not_integer
  simp only [resolve, List.mem_cons, List.not_mem_nil, hword, hnumber, or_false, if_false]
  obtain rfl | h | h | h := h
  · simp
  · rw [if_pos h]
    split_ifs <;> simp
  · rw [if_pos h]
    split_ifs <;> simp
  · rw [if_pos (coreFloat_iff.2 (.inr (.inr h)))]
    split_ifs <;> simp

/-- **The reader says what the core schema says, or refuses**, of every token but
those it misses. -/
theorem plain_resolves (place token : Text) :
    (∀ s, plain place token = .ok s → s.resolved = resolve token) ↔
      token ≠ [] ∧ ¬ octalForm.rmatch token ∧ ¬ hexForm.rmatch token ∧ ¬ exponentForm.rmatch token := by
  have hcondition : (token ≠ [] ∧ ¬ octalForm.rmatch token ∧ ¬ hexForm.rmatch token ∧ ¬ exponentForm.rmatch token) ↔
      ¬ Missed token := by
    simp only [Missed, not_or, ne_eq]
  constructor
  · intro h
    rw [hcondition]
    intro hmissed
    exact resolve_of_missed hmissed (h _ (plain_of_missed hmissed)).symm
  · rintro ⟨hne, hoctal, hhex, hexponent⟩ s hs
    rw [plain] at hs
    simp only [resolve, hne, false_or]
    by_cases hnull : token ∈ [lit "null", lit "Null", lit "NULL", lit "~"]
    · rw [if_pos hnull] at hs ⊢
      cases hs
      rfl
    rw [if_neg hnull] at hs ⊢
    by_cases htrue : token ∈ [lit "true", lit "True", lit "TRUE"]
    · rw [if_pos htrue] at hs ⊢
      cases hs
      rfl
    rw [if_neg htrue] at hs ⊢
    by_cases hfalse : token ∈ [lit "false", lit "False", lit "FALSE"]
    · rw [if_pos hfalse] at hs ⊢
      cases hs
      rfl
    rw [if_neg hfalse] at hs ⊢
    by_cases hint : integerForm.rmatch token
    · rw [if_pos hint] at hs ⊢
      by_cases hzero : leadingZero.rmatch token
      · rw [if_pos hzero] at hs
        cases hs
      · rw [if_neg hzero] at hs
        cases hs
        rfl
    rw [if_neg hint] at hs ⊢
    by_cases hfloat : floatForm.rmatch token
    · rw [if_pos hfloat] at hs
      cases hs
    · have hcore : ¬ coreFloat.rmatch token := by
        rw [coreFloat_iff]
        exact not_or.2 ⟨hint, not_or.2 ⟨hfloat, hexponent⟩⟩
      rw [if_neg hfloat] at hs
      rw [if_neg hoctal, if_neg hhex, if_neg hcore]
      cases hs
      rfl

/-- A number, an octal and a hexadecimal integer that the reader takes for strings,
and a tab that it takes for the empty one. -/
theorem plain_misses :
    value [] 4 false (lit "1e5") = .ok (.scalar (.str (lit "1e5")), []) ∧ resolve (lit "1e5") = .float ∧
      value [] 4 false (lit "0o17") = .ok (.scalar (.str (lit "0o17")), []) ∧ resolve (lit "0o17") = .int 15 ∧
      value [] 5 false (lit "0x1F") = .ok (.scalar (.str (lit "0x1F")), []) ∧ resolve (lit "0x1F") = .int 31 ∧
      value [] 3 true (lit "\t\x7d") = .ok (.scalar (.str []), lit "\x7d") ∧ resolve [] = .null := by
  refine ⟨rfl, by decide +kernel, rfl, by decide +kernel, rfl, by decide +kernel, rfl, by decide +kernel⟩

end MiniDarwin.Rootfs
