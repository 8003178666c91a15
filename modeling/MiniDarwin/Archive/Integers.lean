import MiniDarwin.Archive.Normalize

/-!
Which strings `parse_uint ()` takes for a number.

Only the first character is looked at before `strtoull ()`, and that skips
white space, a sign and a prefix of its own.
-/

namespace MiniDarwin.Archive

open Posix (Bytes)

variable {base n : Nat} {s t : Bytes}

/-- A number as it should stand in a package. -/
structure Digits (base : Nat) (s : Bytes) : Prop where
  nonempty : s ≠ []
  digits : ∀ c ∈ s, isDigit base c = true
  fits : number base s < 2 ^ 64

/-- White space, a sign, a prefix and the digits of a number. -/
structure Pieces (base : Nat) (s space sign start digits : Bytes) : Prop where
  eq : s = space ++ sign ++ start ++ digits
  space : ∀ c ∈ space, isSpace c = true
  sign : sign ∈ [[], [45], [43]]
  start : start = [] ∨ base = 16 ∧ start ∈ [[48, 120], [48, 88]]
  number : Digits base digits

/-- What is taken for a number although it is not plain digits: it starts with white space other than a blank, or
with a prefix. -/
def Lenient (base : Nat) (s : Bytes) : Prop :=
  s.head? ≠ some 32 ∧ ∃ space sign start digits, Pieces base s space sign start digits ∧
    (space ≠ [] ∨ sign = [] ∧ start ≠ [])

/-! ### Characters -/

theorem isDigit_cases {c : UInt8} (hbase : base ≤ 16) (h : isDigit base c = true) :
    48 ≤ c.toNat ∧ c.toNat ≤ 57 ∨ 97 ≤ c.toNat ∧ c.toNat ≤ 102 ∨ 65 ≤ c.toNat ∧ c.toNat ≤ 70 := by
  obtain ⟨d, hd, hlt⟩ := (Option.any_eq_true _ _).1 h
  have hlt : d < base := of_decide_eq_true hlt
  simp only [digit, UInt8.le_iff_toNat_le] at hd
  split_ifs at hd with h₁ h₂ h₃
  · exact .inl h₁
  · obtain rfl := Option.some.inj hd
    have : 97 ≤ c.toNat := h₂.1
    omega
  · obtain rfl := Option.some.inj hd
    have : 65 ≤ c.toNat := h₃.1
    omega

theorem isSpace_cases {c : UInt8} (h : isSpace c = true) : c.toNat = 32 ∨ 9 ≤ c.toNat ∧ c.toNat ≤ 13 := by
  obtain rfl | h := of_decide_eq_true h
  · exact .inl rfl
  · exact .inr h

theorem not_isSpace_of_isDigit {c : UInt8} (hbase : base ≤ 16) (h : isDigit base c = true) : isSpace c = false := by
  rw [← Bool.not_eq_true]
  intro hspace
  have hdigit := isDigit_cases hbase h
  have hspace := isSpace_cases hspace
  omega

theorem Digits.parseUint (h : Digits base s) (hbase : base ≤ 16) : parseUint s base = .ok (number base s) := by
  refine parseUint_digits h.nonempty h.digits ?_ ⟨?_, ?_⟩ h.fits
  · intro c hc
    have := isDigit_cases hbase (h.digits c hc)
    rw [UInt8.le_iff_toNat_le]
    change 48 ≤ c.toNat
    omega
  · intro hmem
    have := isDigit_cases hbase (h.digits 120 hmem)
    simp at this
  · intro hmem
    have := isDigit_cases hbase (h.digits 88 hmem)
    simp at this

/-! ### What is accepted -/

theorem unsigned_eq (s : Bytes) : ∃ sign ∈ [[], [45], [43]], s = sign ++ (unsigned s).2 := by
  rw [unsigned.eq_def]
  split
  · exact ⟨[45], by simp, rfl⟩
  · exact ⟨[43], by simp, rfl⟩
  · exact ⟨[], by simp, rfl⟩

theorem unprefixed_eq (base : Nat) (s : Bytes) :
    ∃ start, (start = [] ∨ base = 16 ∧ start ∈ [[48, 120], [48, 88]]) ∧ s = start ++ unprefixed base s := by
  rw [unprefixed.eq_def]
  split
  next x d s =>
    split
    next hprefix =>
      obtain ⟨hbase, hx, -⟩ := hprefix
      refine ⟨[48, x], .inr ⟨hbase, ?_⟩, rfl⟩
      obtain rfl | rfl := hx <;> simp
    · exact ⟨[], .inl rfl, rfl⟩
  · exact ⟨[], .inl rfl, rfl⟩

/-- `strtoull ()` reads the pieces of a number when it reads to the end. -/
theorem pieces_of_strtoull (h : strtoull s base = (some n, [])) :
    ∃ space sign start digits, Pieces base s space sign start digits := by
  obtain ⟨sign, hsign, hsigned⟩ := unsigned_eq (s.dropWhile isSpace)
  obtain ⟨start, hstart, hstarted⟩ := unprefixed_eq base (unsigned (s.dropWhile isSpace)).2
  simp only [strtoull] at h
  generalize unprefixed base (unsigned (s.dropWhile isSpace)).2 = rest at h hstarted
  split at h
  · cases h
  next hnone =>
  split at h
  · cases h
  next hlarge =>
  obtain ⟨-, hend⟩ := Prod.mk.inj h
  have hdigits : rest.takeWhile (isDigit base) = rest :=
    (List.takeWhile_prefix _).eq_of_length_le (List.drop_eq_nil_iff.1 hend)
  rw [hdigits] at hnone hlarge
  refine ⟨s.takeWhile isSpace, sign, start, rest, ?_, fun c hc => List.mem_takeWhile_imp hc, hsign, hstart,
    ⟨hnone, List.takeWhile_eq_self_iff.1 hdigits, not_le.1 hlarge⟩⟩
  rw [List.append_assoc, List.append_assoc, ← hstarted, ← hsigned, List.takeWhile_append_dropWhile]

/-- And it reads the pieces of a number to the end. -/
theorem strtoull_of_pieces {space sign start digits : Bytes} (hbase : base ≤ 16)
    (h : Pieces base s space sign start digits) : ∃ n, strtoull s base = (some n, []) := by
  have hnumber := h.number
  obtain ⟨d, rest, rfl⟩ := List.exists_cons_of_ne_nil hnumber.nonempty
  have hd := isDigit_cases hbase (hnumber.digits d (.head _))
  have hrange : ∀ c ∈ d :: rest, c ≠ 120 ∧ c ≠ 88 := by
    intro c hc
    have := isDigit_cases hbase (hnumber.digits c hc)
    constructor <;> rintro rfl <;> simp at this
  -- the prefix is found, and only the prefix
  have hstart : unprefixed base (start ++ d :: rest) = d :: rest := by
    obtain hnil | ⟨rfl, hmem⟩ := h.start
    · rw [hnil, List.nil_append, unprefixed.eq_def]
      split
      next x d' s heq =>
        rw [heq] at hrange
        have hx := hrange x (by simp)
        rw [if_neg, heq]
        rintro ⟨-, hx' | hx', -⟩
        · exact hx.1 hx'
        · exact hx.2 hx'
      · rfl
    · have hdigit := hnumber.digits d (.head _)
      simp only [List.mem_cons, List.not_mem_nil, or_false] at hmem
      obtain rfl | rfl := hmem
      · exact if_pos ⟨rfl, .inl rfl, hdigit⟩
      · exact if_pos ⟨rfl, .inr rfl, hdigit⟩
  -- what follows the sign starts with a digit
  obtain ⟨c, tail, htail, hc⟩ : ∃ c tail, start ++ d :: rest = c :: tail ∧
      (c.toNat = 48 ∨ 48 ≤ c.toNat ∧ c.toNat ≤ 57 ∨ 97 ≤ c.toNat ∧ c.toNat ≤ 102 ∨ 65 ≤ c.toNat ∧ c.toNat ≤ 70) := by
    obtain hnil | ⟨-, hmem⟩ := h.start
    · exact ⟨d, rest, by rw [hnil]; rfl, .inr hd⟩
    · simp only [List.mem_cons, List.not_mem_nil, or_false] at hmem
      obtain rfl | rfl := hmem
      · exact ⟨48, _, rfl, .inl rfl⟩
      · exact ⟨48, _, rfl, .inl rfl⟩
  have hsign : (unsigned (sign ++ (c :: tail))).2 = c :: tail := by
    have hmem := h.sign
    simp only [List.mem_cons, List.not_mem_nil, or_false] at hmem
    obtain rfl | rfl | rfl := hmem
    · rw [List.nil_append, unsigned.eq_def]
      split
      next heq =>
        obtain ⟨rfl, -⟩ := List.cons.inj heq
        simp at hc
      next heq =>
        obtain ⟨rfl, -⟩ := List.cons.inj heq
        simp at hc
      · rfl
    · rfl
    · rfl
  have hspace : s.dropWhile isSpace = sign ++ (c :: tail) := by
    obtain ⟨x, more, hmore, hx⟩ : ∃ x more, sign ++ (c :: tail) = x :: more ∧ isSpace x = false := by
      have hmem := h.sign
      simp only [List.mem_cons, List.not_mem_nil, or_false] at hmem
      obtain rfl | rfl | rfl := hmem
      · refine ⟨c, tail, rfl, ?_⟩
        rw [← Bool.not_eq_true]
        intro hc'
        have := isSpace_cases hc'
        omega
      · exact ⟨45, _, rfl, by decide⟩
      · exact ⟨43, _, rfl, by decide⟩
    rw [h.eq, List.append_assoc, List.append_assoc, htail, List.dropWhile_append_of_pos h.space, hmore,
      List.dropWhile_cons_of_neg (by simp [hx])]
  have htake : (d :: rest).takeWhile (isDigit base) = d :: rest := List.takeWhile_eq_self_iff.2 hnumber.digits
  rw [htail] at hstart
  simp only [strtoull, hspace, hsign, hstart, htake]
  rw [if_neg (List.cons_ne_nil _ _), if_neg (not_le.2 hnumber.fits)]
  exact ⟨_, by rw [List.drop_length]⟩

/-- `parse_uint ()` returns for plain digits and for what is lenient. -/
theorem parseUint_returns (hbase : base ≤ 16) :
    (∃ n, parseUint s base = .ok n) ↔ Digits base s ∨ Lenient base s := by
  constructor
  · rintro ⟨n, h⟩
    rw [parseUint] at h
    split at h
    · cases h
    next hfirst =>
    simp only [not_or] at hfirst
    split at h
    next m hread =>
      obtain ⟨space, sign, start, digits, hpieces⟩ := pieces_of_strtoull hread
      by_cases hlenient : space ≠ [] ∨ sign = [] ∧ start ≠ []
      · exact .inr ⟨hfirst.2.2.2, space, sign, start, digits, hpieces, hlenient⟩
      · -- without white space a sign would be the first character
        rw [not_or, not_not, not_and, not_not] at hlenient
        have heq := hpieces.eq
        rw [hlenient.1, List.nil_append] at heq
        have hsign : sign = [] := by
          have hmem := hpieces.sign
          simp only [List.mem_cons, List.not_mem_nil, or_false] at hmem
          obtain rfl | rfl | rfl := hmem
          · rfl
          · exact absurd (by rw [heq]; rfl) hfirst.2.1
          · exact absurd (by rw [heq]; rfl) hfirst.2.2.1
        rw [hsign, hlenient.2 hsign, List.nil_append, List.nil_append] at heq
        exact .inl (heq ▸ hpieces.number)
    · cases h
  · rintro (h | ⟨hfirst, space, sign, start, digits, hpieces, hlenient⟩)
    · exact ⟨_, h.parseUint hbase⟩
    · obtain ⟨n, hn⟩ := strtoull_of_pieces hbase hpieces
      obtain ⟨c, rest, rfl, hc⟩ : ∃ c rest, s = c :: rest ∧ c ≠ 45 ∧ c ≠ 43 := by
        rw [hpieces.eq]
        obtain hspace | ⟨rfl, hstart⟩ := hlenient
        · obtain ⟨c, rest, rfl⟩ := List.exists_cons_of_ne_nil hspace
          have hc := isSpace_cases (hpieces.space c (.head _))
          refine ⟨c, _, rfl, ?_, ?_⟩ <;> rintro rfl <;> simp at hc
        · obtain ⟨-, hmem⟩ := hpieces.start.resolve_left hstart
          cases space with
          | nil =>
              simp only [List.mem_cons, List.not_mem_nil, or_false] at hmem
              obtain rfl | rfl := hmem
              · exact ⟨48, _, rfl, by decide⟩
              · exact ⟨48, _, rfl, by decide⟩
          | cons c space =>
              have hc := isSpace_cases (hpieces.space c (.head _))
              refine ⟨c, _, rfl, ?_, ?_⟩ <;> rintro rfl <;> simp at hc
      refine ⟨n, ?_⟩
      rw [parseUint, if_neg, hn]
      simp only [List.head?_cons, ne_eq, Option.some.injEq] at hfirst ⊢
      simp [hc, hfirst]

/-- No string is both. -/
theorem Lenient.not_digits (hbase : base ≤ 16) (h : Lenient base s) : ¬ Digits base s := by
  obtain ⟨-, space, sign, start, digits, hpieces, hlenient⟩ := h
  intro hdigits
  rw [hpieces.eq] at hdigits
  obtain hspace | ⟨-, hstart⟩ := hlenient
  · obtain ⟨c, rest, rfl⟩ := List.exists_cons_of_ne_nil hspace
    have hc := not_isSpace_of_isDigit hbase (hdigits.digits c (by simp))
    rw [hpieces.space c (.head _)] at hc
    cases hc
  · obtain ⟨-, hmem⟩ := hpieces.start.resolve_left hstart
    simp only [List.mem_cons, List.not_mem_nil, or_false] at hmem
    obtain rfl | rfl := hmem
    · have := isDigit_cases hbase (hdigits.digits 120 (by simp))
      simp at this
    · have := isDigit_cases hbase (hdigits.digits 88 (by simp))
      simp at this

/-! ### Plain digits -/

/-- What `parse_uint ()` is for: it returns the value of plain digits, and nothing else. -/
def ReadsDigits (base : Nat) (s : Bytes) : Prop :=
  ∀ n, parseUint s base = .ok n ↔ Digits base s ∧ n = number base s

theorem readsDigits_iff (hbase : base ≤ 16) : ReadsDigits base s ↔ ¬ Lenient base s := by
  constructor
  · intro h hlenient
    obtain ⟨n, hn⟩ := (parseUint_returns hbase).2 (.inr hlenient)
    exact hlenient.not_digits hbase ((h n).1 hn).1
  · intro hlenient n
    constructor
    · intro hn
      have hdigits := ((parseUint_returns hbase).1 ⟨n, hn⟩).resolve_right hlenient
      rw [hdigits.parseUint hbase] at hn
      exact ⟨hdigits, (Except.ok.inj hn).symm⟩
    · rintro ⟨hdigits, rfl⟩
      exact hdigits.parseUint hbase

theorem number_lt (base : Nat) {s : Bytes} (h : ∀ c ∈ s, isDigit base c = true) : number base s < base ^ s.length := by
  induction s using List.reverseRecOn with
  | nil => simp [number]
  | append_singleton s c ih =>
      have hs := ih fun d hd => h d (List.mem_append_left _ hd)
      obtain ⟨d, hd, hlt⟩ := (Option.any_eq_true _ _).1 (h c (by simp))
      have hlt : d < base := of_decide_eq_true hlt
      rw [number, List.foldl_append, ← number, List.length_append, List.length_singleton, pow_succ]
      simp only [List.foldl_cons, List.foldl_nil, hd, Option.getD_some]
      calc
        number base s * base + d < number base s * base + base := by omega
        _ = (number base s + 1) * base := by rw [Nat.add_mul, Nat.one_mul]
        _ ≤ base ^ s.length * base := Nat.mul_le_mul_right base hs

/-- The field of a header. -/
def fieldAt (b : Bytes) (start n : Nat) : Bytes := (b.drop start).take n

/-- What `header_field ()` is for: it succeeds on digits, and on nothing else. -/
def FieldIsDigits (b : Bytes) (start n base : Nat) : Prop :=
  (∃ m, headerField b start n base = .ok m) ↔ ∀ c ∈ fieldAt b start n, isDigit base c = true

theorem headerField_eq {b : Bytes} {start : Nat} (hb : start + n ≤ b.length) (hn : n < 24) :
    headerField b start n base = parseUint (cstr (fieldAt b start n)) base := by
  rw [headerField, dieIf_neg (by omega)]
  change (slice b start n >>= fun buf => parseUint (cstr buf) base) = _
  rw [slice, if_pos hb]
  rfl

theorem cstr_of_digits (hbase : base ≤ 16) (h : ∀ c ∈ s, isDigit base c = true) : cstr s = s := by
  refine List.takeWhile_eq_self_iff.2 ?_
  intro c hc
  have := isDigit_cases hbase (h c hc)
  refine decide_eq_true ?_
  rintro rfl
  simp at this

theorem cstr_of_no_zero (h : 0 ∉ s) : cstr s = s :=
  List.takeWhile_eq_self_iff.2 fun _ hc => decide_eq_true fun hzero => h (hzero ▸ hc)

theorem fieldIsDigits_iff {b : Bytes} {start : Nat} (hbase : base ≤ 16) (hb : start + n ≤ b.length) (hpos : 0 < n)
    (hn : n < 24) (hfits : base ^ n ≤ 2 ^ 64) :
    FieldIsDigits b start n base ↔ ¬ Lenient base (cstr (fieldAt b start n)) ∧
      ¬ (0 ∈ fieldAt b start n ∧ Digits base (cstr (fieldAt b start n))) := by
  have hlen : (fieldAt b start n).length = n := by
    rw [fieldAt, List.length_take, List.length_drop]
    omega
  rw [FieldIsDigits, headerField_eq hb hn, parseUint_returns hbase]
  generalize fieldAt b start n = field at hlen
  -- a field of digits is its own string
  have hdigits : (∀ c ∈ field, isDigit base c = true) → cstr field = field ∧ Digits base field := by
    intro h
    refine ⟨cstr_of_digits hbase h, ?_, h, ?_⟩
    · exact List.ne_nil_of_length_pos (by omega)
    · have hlt := number_lt base h
      rw [hlen] at hlt
      omega
  constructor
  · intro h
    constructor
    · intro hlenient
      obtain ⟨hcstr, hfield⟩ := hdigits (h.1 (.inr hlenient))
      rw [hcstr] at hlenient
      exact hlenient.not_digits hbase hfield
    · rintro ⟨hzero, haccepted⟩
      have := isDigit_cases hbase (h.1 (.inl haccepted) 0 hzero)
      simp at this
  · rintro ⟨hlenient, hzero⟩
    constructor
    · rintro (haccepted | haccepted)
      · have hcstr := cstr_of_no_zero fun h => hzero ⟨h, haccepted⟩
        rw [← hcstr]
        exact haccepted.digits
      · exact absurd haccepted hlenient
    · intro h
      obtain ⟨hcstr, hfield⟩ := hdigits h
      exact .inl (hcstr.symm ▸ hfield)

/-- **When integers in packages are plain digits**: for strings that are not lenient, and for fields whose string is not
lenient either and is not digits with a zero byte behind them. -/
theorem integers_are_digits_iff (hbase : base = 8 ∨ base = 10 ∨ base = 16) :
    (∀ s, 0 ∉ s → (ReadsDigits base s ↔ ¬ Lenient base s)) ∧
      ∀ b start n, start + n ≤ b.length → 0 < n → n < 24 → base ^ n ≤ 2 ^ 64 →
        (FieldIsDigits b start n base ↔ ¬ Lenient base (cstr (fieldAt b start n)) ∧
          ¬ (0 ∈ fieldAt b start n ∧ Digits base (cstr (fieldAt b start n)))) := by
  have hle : base ≤ 16 := by omega
  exact ⟨fun _ _ => readsDigits_iff hle, fun _ _ _ hb hpos hn hfits => fieldIsDigits_iff hle hb hpos hn hfits⟩

theorem integers_are_digits_iff_plain : ReadsDigits 10 [52, 50] := by
  refine ((integers_are_digits_iff (.inr (.inl rfl))).1 [52, 50] (by decide)).2 fun hlenient => ?_
  exact hlenient.not_digits (by decide) ⟨by decide, by decide +kernel, by decide +kernel⟩

/-- A tab and a sign, a prefix, and a zero byte after the digits. -/
theorem integers_not_digits : parseUint [9, 45, 49] 10 = .ok (2 ^ 64 - 1) ∧ ¬ ReadsDigits 10 [9, 45, 49] ∧
    ¬ FieldIsDigits (lit "0x0001ed") 0 8 16 ∧ ¬ FieldIsDigits [54, 52, 52, 0, 120, 120] 0 6 8 := by
  refine ⟨by decide, ?_, ?_, ?_⟩
  · intro h
    have hdigits := ((h (2 ^ 64 - 1)).1 (by decide)).1
    exact absurd (hdigits.digits 9 (.head _)) (by decide)
  · intro h
    exact absurd (h.1 ⟨493, by decide⟩ 120 (by decide)) (by decide)
  · intro h
    exact absurd (h.1 ⟨420, by decide⟩ 0 (by decide)) (by decide)

end MiniDarwin.Archive
