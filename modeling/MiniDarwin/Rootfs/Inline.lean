import MiniDarwin.Rootfs.Schema

/-!
What is written on one line is read back: scalars, and flow mappings of them.

The escapes of a string are taken apart character by character. A lone
surrogate is escaped as it is, and two escapes are read as one character
just if they are a high surrogate and a low one; a string that has such a
pair is written like the character that the pair stands for.
-/

namespace MiniDarwin.Rootfs

open Data RegularExpression

variable {s rest : Text} {n : Nat}

/-! ### Strings -/

theorem hexDigit_hexLetter : ∀ k < 16, hexDigit (hexLetter k) = some k := by decide

theorem hex4_unit (hn : n < 0x10000) :
    hex4 (hexLetter (n / 4096 % 16)) (hexLetter (n / 256 % 16)) (hexLetter (n / 16 % 16)) (hexLetter (n % 16)) =
      some n := by
  have h : ∀ k, hexDigit (hexLetter (k % 16)) = some (k % 16) := fun k => hexDigit_hexLetter _ (Nat.mod_lt k (by decide))
  simp only [hex4, h]
  refine congrArg some ?_
  omega

/-- What follows a unit does not change how it is read. -/
def Ends (n : Nat) (rest : Text) : Prop :=
  ∀ a b c d tail, rest = 92 :: 117 :: a :: b :: c :: d :: tail →
    ∃ m, hex4 a b c d = some m ∧ ¬ (isHigh n = true ∧ isLow m = true)

theorem scanString_unit (hn : n < 0x10000) (h : Ends n rest) :
    scanString (escapeUnit n ++ rest) = prepend n (scanString rest) := by
  have hunit := hex4_unit hn
  simp only [escapeUnit, List.cons_append, List.nil_append]
  rw [scanString.eq_def]
  split
  case h_1 heq => cases heq
  case h_2 heq => cases heq
  case h_3 heq =>
    simp only [List.cons.injEq, true_and] at heq
    obtain ⟨rfl, rfl, rfl, rfl, rfl⟩ := heq
    obtain ⟨m, hm, hno⟩ := h _ _ _ _ _ rfl
    simp only [hunit, hm]
    exact if_neg hno
  case h_4 heq =>
    simp only [List.cons.injEq, true_and] at heq
    obtain ⟨rfl, rfl, rfl, rfl, rfl⟩ := heq
    simp only [hunit]
  case h_5 hlater heq =>
    simp only [List.cons.injEq, true_and] at heq
    obtain ⟨rfl, rfl⟩ := heq
    exact absurd rfl (hlater _ _ _ _ _ rfl)
  case h_6 hlater heq =>
    simp only [List.cons.injEq] at heq
    obtain ⟨rfl, rfl⟩ := heq
    exact absurd rfl (hlater _ _ rfl)

theorem scanString_pair {high low : Nat} (hhigh : isHigh high = true) (hlow : isLow low = true) :
    scanString (escapeUnit high ++ (escapeUnit low ++ rest)) =
      prepend (joinSurrogates high low) (scanString rest) := by
  have hhigh' : high < 0x10000 := by
    simp only [isHigh, decide_eq_true_eq] at hhigh
    omega
  have hlow' : low < 0x10000 := by
    simp only [isLow, decide_eq_true_eq] at hlow
    omega
  have hunit := hex4_unit hhigh'
  have hunit' := hex4_unit hlow'
  simp only [escapeUnit, List.cons_append, List.nil_append]
  rw [scanString.eq_def]
  simp only [hunit, hunit']
  exact if_pos ⟨hhigh, hlow⟩

theorem scanString_letter {c c' : Nat} (hc : c ≠ 117) (h : unescape c = some c') :
    scanString (92 :: c :: rest) = prepend c' (scanString rest) := by
  rw [scanString.eq_def]
  split
  case h_1 heq => cases heq
  case h_2 heq => cases heq
  case h_3 heq =>
    simp only [List.cons.injEq, true_and] at heq
    exact absurd heq.1 hc
  case h_4 heq =>
    simp only [List.cons.injEq, true_and] at heq
    exact absurd heq.1 hc
  case h_5 heq =>
    simp only [List.cons.injEq, true_and] at heq
    obtain ⟨rfl, rfl⟩ := heq
    simp only [h]
  case h_6 hlater heq =>
    simp only [List.cons.injEq] at heq
    obtain ⟨rfl, rfl⟩ := heq
    exact absurd rfl (hlater _ _ rfl)

theorem scanString_plain {c : Nat} (hc : 32 ≤ c) (hquote : c ≠ 34) (hslash : c ≠ 92) :
    scanString (c :: rest) = prepend c (scanString rest) := by
  rw [scanString.eq_def]
  split
  case h_6 heq =>
    simp only [List.cons.injEq] at heq
    obtain ⟨rfl, rfl⟩ := heq
    exact if_neg (by omega)
  case h_1 heq => cases heq
  all_goals
    rename_i heq
    simp only [List.cons.injEq] at heq
    omega

/-- A string that can be written: code points, none of them a high surrogate before a low one. -/
structure Writable (s : Text) : Prop where
  points : ∀ c ∈ s, c < 0x110000
  unpaired : s.IsChain fun c d => ¬ (isHigh c = true ∧ isLow d = true)

theorem Writable.tail {c : Nat} (h : Writable (c :: s)) : Writable s :=
  ⟨fun d hd => h.points d (.tail _ hd), h.unpaired.tail⟩

/-- A text that goes on with a unit is the escape of a character, and a low surrogate is its own. -/
theorem unit_of_escape (hs : ∀ c ∈ s, c < 0x110000) {a b c d : Nat} {tail : Text}
    (h : s.flatMap escape ++ 34 :: rest = 92 :: 117 :: a :: b :: c :: d :: tail) :
    ∃ m, hex4 a b c d = some m ∧ (isLow m = true → ∃ s', s = m :: s') := by
  cases s with
  | nil => simp at h
  | cons x s =>
      have hx := hs x (.head _)
      have hunit : ∀ {m r}, m < 0x10000 → escapeUnit m ++ r = 92 :: 117 :: a :: b :: c :: d :: tail →
          hex4 a b c d = some m := by
        intro m r hm heq
        simp only [escapeUnit, List.cons_append, List.nil_append, List.cons.injEq, true_and] at heq
        obtain ⟨rfl, rfl, rfl, rfl, -⟩ := heq
        exact hex4_unit hm
      rw [List.flatMap_cons, List.append_assoc, escape] at h
      split_ifs at h with h₁ h₂ h₃ h₄ h₅ h₆ h₇ h₈ h₉
      iterate 8
        simp only [List.cons_append, List.nil_append, List.cons.injEq] at h
        omega
      · exact ⟨x, hunit h₉ h, fun _ => ⟨s, rfl⟩⟩
      · rw [List.append_assoc] at h
        refine ⟨_, hunit (by omega) h, ?_⟩
        intro hlow
        simp only [isLow, decide_eq_true_eq] at hlow
        omega

theorem scanString_escape {c : Nat} (hc : c < 0x110000) (h : c < 0x10000 → Ends c rest) :
    scanString (escape c ++ rest) = prepend c (scanString rest) := by
  rw [escape]
  split_ifs with h₁ h₂ h₃ h₄ h₅ h₆ h₇ h₈ h₉
  · subst h₁
    exact scanString_letter (by decide) rfl
  · subst h₂
    exact scanString_letter (by decide) rfl
  · subst h₃
    exact scanString_letter (by decide) rfl
  · subst h₄
    exact scanString_letter (by decide) rfl
  · subst h₅
    exact scanString_letter (by decide) rfl
  · subst h₆
    exact scanString_letter (by decide) rfl
  · subst h₇
    exact scanString_letter (by decide) rfl
  · exact scanString_plain h₈.1 h₂ h₁
  · exact scanString_unit h₉ (h h₉)
  · have hjoin : joinSurrogates (0xd800 + (c - 0x10000) / 1024 % 1024) (0xdc00 + (c - 0x10000) % 1024) = c := by
      unfold joinSurrogates
      omega
    rw [List.append_assoc, scanString_pair, hjoin]
    · simp only [isHigh, decide_eq_true_eq]
      omega
    · simp only [isLow, decide_eq_true_eq]
      omega

/-- A string that has been written is read back, whatever follows it. -/
theorem scanString_dumps (h : Writable s) (rest : Text) :
    scanString (s.flatMap escape ++ 34 :: rest) = some (s, rest) := by
  induction s with
  | nil => rfl
  | cons c s ih =>
      rw [List.flatMap_cons, List.append_assoc, scanString_escape (h.points c (.head _)), ih h.tail]
      · rfl
      intro _ x y z w tail heq
      obtain ⟨m, hm, hlow⟩ := unit_of_escape h.tail.points heq
      refine ⟨m, hm, ?_⟩
      rintro ⟨hhigh, hlow'⟩
      obtain ⟨s', rfl⟩ := hlow hlow'
      exact (List.isChain_cons_cons.1 h.unpaired).1 ⟨hhigh, hlow'⟩

/-! ### Numbers -/

theorem natOf_decimal (n : Nat) : natOf (decimal n) = n := by
  rw [natOf, decimal]
  split
  next h => rw [h]; rfl
  next h =>
    have hdigits : ((Nat.digits 10 n).reverse.map (48 + ·)).map (· - 48) = (Nat.digits 10 n).reverse := by
      rw [List.map_map]
      refine (List.map_congr_left fun d _ => ?_).trans (List.map_id _)
      change 48 + d - 48 = d
      omega
    rw [hdigits, Data.value, List.foldl_reverse]
    refine Eq.trans ?_ (Nat.ofDigits_digits 10 n)
    rw [Nat.ofDigits_eq_foldr]
    congr
    funext d v
    simp only [Nat.cast_id]
    ring

theorem mem_decimal {n c : Nat} (h : c ∈ decimal n) : 48 ≤ c ∧ c ≤ 57 := by
  rw [decimal] at h
  split at h
  · rw [List.mem_singleton.1 h]
    decide
  · obtain ⟨d, hd, rfl⟩ := List.mem_map.1 h
    have := Nat.digits_lt_base (by decide) (List.mem_reverse.1 hd)
    omega

theorem decimal_first {n c : Nat} {t : Text} (h : decimal n = c :: t) : 48 ≤ c ∧ c ≤ 57 := by
  refine mem_decimal (n := n) ?_
  rw [h]
  exact .head _

theorem decimal_ne_nil (n : Nat) : decimal n ≠ [] := by
  rw [decimal]
  split
  · exact List.cons_ne_nil _ _
  next h => simpa [Nat.digits_eq_nil_iff_eq_zero] using h

/-- A numeral of more than one digit does not begin with a zero. -/
theorem decimal_head {n : Nat} {t : Text} (h : decimal n = 48 :: t) : t = [] := by
  rw [decimal] at h
  split at h
  · exact (List.cons.inj h).2.symm
  next hn =>
    have hne : Nat.digits 10 n ≠ [] := Nat.digits_ne_nil_iff_ne_zero.2 hn
    have hlast : (Nat.digits 10 n).getLast hne ≠ 0 := Nat.getLast_digit_ne_zero 10 hn
    rw [← List.dropLast_append_getLast hne, List.reverse_append, List.reverse_singleton, List.singleton_append,
      List.map_cons] at h
    have hhead : 48 + (Nat.digits 10 n).getLast hne = 48 := (List.cons.inj h).1
    omega

theorem digits_decimal (n : Nat) : decimal n ∈ digits.matches' := by
  refine mem_repeated_oneOf.2 ⟨decimal_ne_nil n, ?_⟩
  intro c hc
  have hdigit : ∀ c, 48 ≤ c → c ≤ 57 → c ∈ lit "0123456789" := by
    intro c h h'
    interval_cases c <;> decide
  exact hdigit c (mem_decimal hc).1 (mem_decimal hc).2

theorem mem_sign {t : Text} : t ∈ sign.matches' ↔ t = [] ∨ t = [45] ∨ t = [43] := by
  rw [sign, mem_perhaps, mem_oneOf]
  simp [lit]

/-- A numeral, perhaps with a minus, is an integer without a leading zero. -/
theorem plain_numeral (place : Text) {t : Text} (n : Nat) (ht : t = [] ∨ t = [45]) :
    plain place (t ++ decimal n) = .ok (.int (intOf (t ++ decimal n))) := by
  have hword : ∀ words : List Text, (∀ w ∈ words, ∃ c ∈ w, isLetter c = true ∨ c = 126) → t ++ decimal n ∉ words := by
    intro words hall hmem
    obtain ⟨c, hc, hletter⟩ := hall _ hmem
    have hbad : c = 45 ∨ 48 ≤ c ∧ c ≤ 57 := by
      obtain hc | hc := List.mem_append.1 hc
      · obtain rfl | rfl := ht
        · cases hc
        · exact .inl (List.mem_singleton.1 hc)
      · exact .inr (mem_decimal hc)
    simp only [isLetter, decide_eq_true_eq] at hletter
    omega
  have hint : integerForm.rmatch (t ++ decimal n) = true := by
    rw [rmatch_iff_matches', integerForm, matches'_mul, Language.mem_mul]
    exact ⟨t, mem_sign.2 (ht.imp_right .inl), decimal n, digits_decimal n, rfl⟩
  have hzero : ¬ leadingZero.rmatch (t ++ decimal n) = true := by
    rw [rmatch_iff_matches', leadingZero, matches'_mul, Language.mem_mul]
    rintro ⟨u, hu, v, hv, heq⟩
    rw [matches'_mul, Language.mem_mul] at hv
    obtain ⟨z, hz, w, hw, rfl⟩ := hv
    obtain rfl := mem_word.1 hz
    have hdecimal : decimal n = 48 :: w := by
      obtain rfl | rfl | rfl := mem_sign.1 hu <;> obtain rfl | rfl := ht
      · exact heq.symm
      · cases (List.cons.inj heq).1
      · exact absurd (decimal_first heq.symm).1 (by decide)
      · exact (List.cons.inj heq).2.symm
      · exact absurd (decimal_first heq.symm).1 (by decide)
      · cases (List.cons.inj heq).1
    exact (mem_repeated_oneOf.1 hw).1 (decimal_head hdecimal)
  rw [plain, if_neg (hword _ (by decide)), if_neg (hword _ (by decide)), if_neg (hword _ (by decide)), if_pos hint,
    if_neg hzero]

theorem intOf_decimal (n : Nat) : intOf (decimal n) = n ∧ intOf (45 :: decimal n) = - (n : Int) := by
  constructor
  · unfold intOf
    split
    next r heq => exact absurd (decimal_first heq).1 (by decide)
    next r heq => exact absurd (decimal_first heq).1 (by decide)
    · rw [natOf_decimal]
  · rw [intOf, natOf_decimal]

/-- What is written of a number is read as the number. -/
theorem plain_int (place : Text) (n : Int) : plain place (scalar (.int n)) = .ok (.int n) := by
  have hpos := plain_numeral place n.natAbs (.inl rfl)
  have hneg := plain_numeral place n.natAbs (.inr rfl)
  rw [scalar]
  split
  next h =>
    have heq : intOf ([45] ++ decimal n.natAbs) = n := (intOf_decimal n.natAbs).2.trans (by omega)
    rwa [heq] at hneg
  next h =>
    have heq : intOf ([] ++ decimal n.natAbs) = n := (intOf_decimal n.natAbs).1.trans (by omega)
    rwa [heq] at hpos

/-! ### Scalars -/

def Scalar.Writable : Scalar → Prop
  | .str s => Rootfs.Writable s
  | _ => True

/-- The characters of what is written without quotes. -/
def isBare (c : Nat) : Bool := isLetter c || isDigit c || c == 45

/-- Where a value may end. -/
def Stops (flow : Bool) (rest : Text) : Prop :=
  rest = [] ∨ flow = true ∧ ∃ c tail, rest = c :: tail ∧ c ∈ lit ",]\x7d"

theorem bare_ne {c : Nat} (h : isBare c = true) : 45 ≤ c ∧ c ≤ 122 ∧ c ≠ 58 ∧ c ≠ 91 ∧ c ≠ 93 ∧ c ≠ 96 ∧ c ≠ 62 ∧ c ≠ 64 := by
  simp only [isBare, isLetter, isDigit, Bool.or_eq_true, decide_eq_true_eq, beq_iff_eq] at h
  omega

theorem plainEnd_bare {flow : Bool} {token rest : Text} (h : ∀ c ∈ token, isBare c = true) (hrest : Stops flow rest) :
    plainEnd flow (token ++ rest) = (token, rest) := by
  induction token with
  | nil =>
      obtain rfl | ⟨rfl, c, tail, rfl, hc⟩ := hrest
      · rfl
      · rw [List.nil_append, plainEnd, if_pos (.inr ⟨rfl, hc⟩)]
  | cons c token ih =>
      have hc := bare_ne (h c (.head _))
      have hstop : c ∉ lit ",]\x7d" := by
        intro hmem
        have hlit : lit ",]\x7d" = [44, 93, 125] := rfl
        simp only [hlit, List.mem_cons, List.not_mem_nil, or_false] at hmem
        omega
      rw [List.cons_append, plainEnd, if_neg (by
        rintro (⟨h, -⟩ | ⟨-, h⟩)
        · omega
        · exact hstop h), ih fun d hd => h d (.tail _ hd)]

theorem strip_of_ends {text : Text} (hhead : ∀ c ∈ text.head?, isSpace c = false)
    (hlast : ∀ c ∈ text.getLast?, isSpace c = false) : strip text = text := by
  rw [strip]
  have hdrop : text.dropWhile isSpace = text := by
    cases text with
    | nil => rfl
    | cons c rest => exact List.dropWhile_cons_of_neg (by simp [hhead c rfl])
  rw [hdrop, List.rdropWhile_eq_self_iff]
  intro hne
  simp [hlast _ (List.getLast?_eq_some_getLast hne)]

theorem strip_space (text : Text) : strip (32 :: text) = strip text := by
  rw [strip, List.dropWhile_cons_of_pos (by decide), strip]

theorem bare_not_space {c : Nat} (h : isBare c = true) : isSpace c = false := by
  have := bare_ne h
  simp only [isSpace, decide_eq_false_iff_not]
  omega

theorem ambiguous_bare {token : Text} (h : ∀ c ∈ token, isBare c = true) : ambiguous token = false := by
  have hcolon : 58 ∉ token := fun hmem => (bare_ne (h 58 hmem)).2.2.1 rfl
  have hin : 58 ∈ lit ": " ∧ 58 ∈ lit ":" := ⟨by decide, by decide⟩
  simp only [ambiguous, decide_eq_false_iff_not, not_or]
  exact ⟨fun hmid => hcolon (hmid.subset hin.1), fun hsuffix => hcolon (hsuffix.subset hin.2)⟩

theorem skip_bare {rest : Text} {c : Nat} (h : c ≠ 32) : skip (c :: rest) = c :: rest :=
  List.dropWhile_cons_of_neg (by simpa using h)

theorem skip_space (text : Text) : skip (32 :: text) = skip text := List.dropWhile_cons_of_pos (by decide)

theorem value_bare (place : Text) {fuel : Nat} {flow : Bool} {token rest : Text} {s : Scalar}
    (h : ∀ c ∈ token, isBare c = true) (hne : token ≠ []) (hplain : plain place token = .ok s)
    (hrest : Stops flow rest) : value place (fuel + 1) flow (token ++ rest) = .ok (.scalar s, rest) := by
  obtain ⟨c, token, rfl⟩ := List.exists_cons_of_ne_nil hne
  have hc := bare_ne (h c (.head _))
  have hend := plainEnd_bare h hrest
  have hstrip : strip (c :: token) = c :: token :=
    strip_of_ends (fun d hd => bare_not_space (h d (List.mem_of_head? hd)))
      fun d hd => bare_not_space (h d (List.mem_of_getLast? hd))
  have hspecial : c ∉ lit "&*!|>%@`,]\x7d#" := by
    intro hmem
    have hlit : lit "&*!|>%@`,]\x7d#" = [38, 42, 33, 124, 62, 37, 64, 96, 44, 93, 125, 35] := rfl
    simp only [hlit, List.mem_cons, List.not_mem_nil, or_false] at hmem
    omega
  rw [List.cons_append] at hend ⊢
  rw [value, skip_bare (by omega)]
  simp only [hend, hstrip, ambiguous_bare h, hplain]
  rw [if_neg (by omega), if_neg (by omega), if_neg (by omega), if_neg (by omega), if_neg hspecial, if_neg Bool.false_ne_true]
  rfl

theorem scalar_bare {s : Scalar} (h : ∀ t, s ≠ .str t) :
    (∀ c ∈ scalar s, isBare c = true) ∧ scalar s ≠ [] ∧ ∀ place, plain place (scalar s) = .ok s := by
  cases s with
  | null => exact ⟨by decide, by decide, fun _ => rfl⟩
  | bool b => cases b <;> exact ⟨by decide, by decide, fun _ => rfl⟩
  | str t => exact absurd rfl (h t)
  | int n =>
      have hdigit : ∀ c ∈ decimal n.natAbs, isBare c = true := by
        intro c hc
        have := mem_decimal hc
        simp only [isBare, isDigit, Bool.or_eq_true, decide_eq_true_eq]
        exact .inl (.inr this)
      refine ⟨?_, ?_, fun place => plain_int place n⟩
      · rw [scalar]
        split
        · intro c hc
          obtain rfl | hc := List.mem_cons.1 hc
          · decide
          · exact hdigit c hc
        · exact hdigit
      · rw [scalar]
        split
        · exact List.cons_ne_nil _ _
        · exact decimal_ne_nil _

/-- A scalar that has been written is read back. -/
theorem value_scalar (place : Text) {fuel : Nat} {flow : Bool} {rest : Text} {s : Scalar} (hs : s.Writable)
    (hrest : Stops flow rest) : value place (fuel + 1) flow (scalar s ++ rest) = .ok (.scalar s, rest) := by
  by_cases hstr : ∃ t, s = .str t
  · obtain ⟨t, rfl⟩ := hstr
    have hquote : scalar (.str t) ++ rest = 34 :: (t.flatMap escape ++ 34 :: rest) := by
      rw [scalar, dumps, show lit "\"" = [34] from rfl]
      simp
    rw [hquote, value, skip_bare (by decide)]
    simp only [scanString_dumps hs rest]
    rfl
  · obtain ⟨hbare, hne, hplain⟩ := scalar_bare fun t ht => hstr ⟨t, ht⟩
    exact value_bare place hbare hne (hplain place) hrest

theorem value_space (place : Text) {fuel : Nat} {flow : Bool} (text : Text) :
    value place fuel flow (32 :: text) = value place fuel flow text := by
  cases fuel with
  | zero => rw [value, value]
  | succ fuel => rw [value, value, skip_space]

/-! ### Flow mappings -/

/-- A whole key. -/
def IsKey (key : Text) : Prop := matchKey key = some (key, [])

instance (key : Text) : Decidable (IsKey key) := inferInstanceAs (Decidable (_ = _))

theorem matchKey_append {key rest : Text} (h : IsKey key) : matchKey (key ++ 58 :: rest) = some (key, 58 :: rest) := by
  cases key with
  | nil => cases h
  | cons c key =>
      rw [IsKey, matchKey] at h
      rw [List.cons_append, matchKey]
      split at h
      next hc =>
        rw [if_pos hc]
        simp only [Option.some.injEq, Prod.mk.injEq, List.cons.injEq, true_and] at h ⊢
        have hall : ∀ d ∈ key, (isLetter d || isDigit d || d == 95 || d == 45) = true := by
          intro d hd
          rw [← h.1] at hd
          have hmore := List.mem_takeWhile_imp hd
          exact hmore
        rw [List.takeWhile_append_of_pos hall, List.dropWhile_append_of_pos hall]
        exact ⟨by simp [isLetter, isDigit], rfl⟩
      · cases h

theorem IsKey.head {key : Text} (h : IsKey key) :
    ∃ c rest, key = c :: rest ∧ (isLetter c = true ∨ c = 95) := by
  cases key with
  | nil => cases h
  | cons c key =>
      rw [IsKey, matchKey] at h
      split at h
      next hc => exact ⟨c, key, rfl, hc⟩
      · cases h

/-- Fields that a flow mapping may have. -/
structure Flat (fields : List (Text × Scalar)) : Prop where
  keys : ∀ field ∈ fields, IsKey field.1
  nodup : (fields.map (·.1)).Nodup
  writable : ∀ field ∈ fields, field.2.Writable

/-- What is written of a field. -/
def fieldText (field : Text × Scalar) : Text := field.1 ++ lit ": " ++ scalar field.2

def asValue (field : Text × Scalar) : Text × Value := (field.1, .scalar field.2)

theorem skip_key {key rest : Text} (h : IsKey key) : skip (key ++ rest) = key ++ rest := by
  obtain ⟨c, key, rfl, hc⟩ := h.head
  refine skip_bare ?_
  rintro rfl
  simp [isLetter] at hc

theorem flowMapping_space (place : Text) {fuel : Nat} (text : Text) (acc : List (Text × Value)) :
    flowMapping place fuel (32 :: text) acc = flowMapping place fuel text acc := by
  cases fuel with
  | zero => rw [flowMapping, flowMapping]
  | succ fuel => rw [flowMapping, flowMapping, skip_space]

theorem hasKey_eq_false {entries : List (Text × Value)} {key : Text} :
    hasKey entries key = false ↔ key ∉ entries.map (·.1) := by
  rw [hasKey, List.any_eq_false]
  constructor
  · intro h hmem
    obtain ⟨entry, hentry, heq⟩ := List.mem_map.1 hmem
    exact h entry hentry (decide_eq_true heq)
  · intro h entry hentry heq
    exact h (List.mem_map.2 ⟨entry, hentry, of_decide_eq_true heq⟩)

theorem Flat.tail {field : Text × Scalar} {fields : List (Text × Scalar)} (h : Flat (field :: fields)) : Flat fields where
  keys := fun f hf => h.keys f (.tail _ hf)
  nodup := (List.nodup_cons.1 h.nodup).2
  writable := fun f hf => h.writable f (.tail _ hf)

/-- A field is read up to the comma or the brace that follows it. -/
theorem value_field (place : Text) {fuel : Nat} {field : Text × Scalar} {c : Nat} {rest : Text} (hs : field.2.Writable)
    (hc : c ∈ lit ",]\x7d") :
    value place (fuel + 1) true (32 :: (scalar field.2 ++ c :: rest)) = .ok (.scalar field.2, c :: rest) := by
  rw [value_space]
  exact value_scalar place hs (.inr ⟨rfl, c, rest, rfl, hc⟩)

theorem fieldText_append (field : Text × Scalar) (rest : Text) :
    fieldText field ++ rest = field.1 ++ 58 :: 32 :: (scalar field.2 ++ rest) := by
  rw [fieldText, show lit ": " = [58, 32] from rfl]
  simp

theorem flowMapping_comma (place : Text) {fuel : Nat} {field : Text × Scalar} {acc : List (Text × Value)} {rest : Text}
    (hkey : IsKey field.1) (hs : field.2.Writable) (hacc : field.1 ∉ acc.map (·.1)) :
    flowMapping place (fuel + 2) (fieldText field ++ 44 :: rest) acc =
      flowMapping place (fuel + 1) rest (acc ++ [asValue field]) := by
  have hskip : skip (44 :: rest) = 44 :: rest := skip_bare (by decide)
  rw [fieldText_append, flowMapping, skip_key hkey, matchKey_append hkey]
  simp only [hasKey_eq_false.2 hacc, value_field place hs (by decide : 44 ∈ lit ",]\x7d"), bind, Except.bind, hskip]
  rfl

theorem flowMapping_brace (place : Text) {fuel : Nat} {field : Text × Scalar} {acc : List (Text × Value)} {rest : Text}
    (hkey : IsKey field.1) (hs : field.2.Writable) (hacc : field.1 ∉ acc.map (·.1)) :
    flowMapping place (fuel + 2) (fieldText field ++ 125 :: rest) acc = .ok (.map (acc ++ [asValue field]), rest) := by
  have hskip : skip (125 :: rest) = 125 :: rest := skip_bare (by decide)
  rw [fieldText_append, flowMapping, skip_key hkey, matchKey_append hkey]
  simp only [hasKey_eq_false.2 hacc, value_field place hs (by decide : 125 ∈ lit ",]\x7d"), bind, Except.bind, hskip]
  rfl

theorem flowMapping_ok (place : Text) {fuel : Nat} {fields : List (Text × Scalar)} {acc : List (Text × Value)}
    {rest : Text} (hfields : Flat fields) (hne : fields ≠ []) (hfuel : fields.length < fuel)
    (hacc : ∀ field ∈ fields, field.1 ∉ acc.map (·.1)) :
    flowMapping place fuel ((lit ", ").intercalate (fields.map fieldText) ++ 125 :: rest) acc =
      .ok (.map (acc ++ fields.map asValue), rest) := by
  induction fields generalizing fuel acc with
  | nil => exact absurd rfl hne
  | cons field fields ih =>
      rw [List.length_cons] at hfuel
      obtain ⟨fuel, rfl⟩ := Nat.exists_eq_add_of_lt (Nat.lt_of_le_of_lt (Nat.le_add_left 1 _) hfuel)
      rw [show 1 + fuel + 1 = fuel + 2 by omega] at hfuel ⊢
      have hkey := hfields.keys field (.head _)
      have hs := hfields.writable field (.head _)
      have hnew := hacc field (.head _)
      obtain rfl | hne := eq_or_ne fields []
      · rw [List.map_singleton, List.intercalate_singleton, flowMapping_brace place hkey hs hnew]
        rfl
      · have hmap : fields.map fieldText ≠ [] := by simpa using hne
        have hrest : ∀ f ∈ fields, f.1 ∉ (acc ++ [asValue field]).map (·.1) := by
          intro f hf hmem
          rw [List.map_append, List.mem_append] at hmem
          obtain hmem | hmem := hmem
          · exact hacc f (.tail _ hf) hmem
          · have heq : f.1 = field.1 := List.mem_singleton.1 hmem
            exact (List.nodup_cons.1 hfields.nodup).1 (List.mem_map.2 ⟨f, hf, heq⟩)
        have ih := ih hfields.tail hne (show fields.length < fuel + 1 by omega) hrest
        rw [List.map_cons, List.intercalate_cons_of_ne_nil hmap, show lit ", " = [44, 32] from rfl, List.append_assoc,
          List.append_assoc, List.cons_append, flowMapping_comma place hkey hs hnew]
        change flowMapping place (fuel + 1) (32 :: _) _ = _
        rw [flowMapping_space]
        refine ih.trans ?_
        simp

/-- What is written of a flow mapping. -/
def flowText (fields : List (Text × Scalar)) : Text :=
  123 :: ((lit ", ").intercalate (fields.map fieldText) ++ [125])

theorem flow_eq (fields : List (Text × Scalar)) : flow (fields.map asValue) = .ok (flowText fields) := by
  have hitems : (fields.map asValue).mapM (fun entry => do return entry.1 ++ lit ": " ++ (← scalarOf entry.2)) =
      (.ok (fields.map fieldText) : Result (List Text)) := by
    induction fields with
    | nil => rfl
    | cons field fields ih =>
        rw [List.map_cons, List.mapM_cons, ih]
        rfl
  rw [flow, hitems]
  rfl

theorem length_intercalate_le (fields : List (Text × Scalar)) :
    fields.length ≤ ((lit ", ").intercalate (fields.map fieldText)).length := by
  induction fields with
  | nil => exact Nat.zero_le _
  | cons field fields ih =>
      have hfield : 2 ≤ (fieldText field).length := by
        have hcolon : (lit ": ").length = 2 := rfl
        rw [fieldText, List.length_append, List.length_append, hcolon]
        omega
      obtain rfl | hne := eq_or_ne fields []
      · simp
        omega
      · rw [List.map_cons, List.intercalate_cons_of_ne_nil (by simpa using hne), List.length_append, List.length_append,
          List.length_cons]
        omega

/-! ### Values on one line -/

/-- What is written is printable ASCII. -/
def Printable (text : Text) : Prop := ∀ c ∈ text, 32 ≤ c ∧ c ≤ 126

instance (text : Text) : Decidable (Printable text) := inferInstanceAs (Decidable (∀ c ∈ text, _))

theorem Printable.append {a b : Text} (ha : Printable a) (hb : Printable b) : Printable (a ++ b) := by
  intro c hc
  exact (List.mem_append.1 hc).elim (ha c) (hb c)

theorem Printable.intercalate {sep : Text} {texts : List Text} (hsep : Printable sep) (h : ∀ t ∈ texts, Printable t) :
    Printable (sep.intercalate texts) := by
  induction texts with
  | nil =>
      intro c hc
      cases hc
  | cons t texts ih =>
      obtain rfl | hne := eq_or_ne texts []
      · rw [List.intercalate_singleton]
        exact h t (.head _)
      · rw [List.intercalate_cons_of_ne_nil hne]
        exact ((h t (.head _)).append hsep).append (ih fun t ht => h t (.tail _ ht))

theorem printable_escapeUnit (n : Nat) : Printable (escapeUnit n) := by
  have hletter : ∀ k < 16, 32 ≤ hexLetter k ∧ hexLetter k ≤ 126 := by decide
  have h : ∀ k, 32 ≤ hexLetter (k % 16) ∧ hexLetter (k % 16) ≤ 126 := fun k => hletter _ (Nat.mod_lt k (by decide))
  intro c hc
  simp only [escapeUnit, List.mem_cons, List.not_mem_nil, or_false] at hc
  obtain rfl | rfl | rfl | rfl | rfl | rfl := hc
  · decide
  · decide
  · exact h _
  · exact h _
  · exact h _
  · exact h _

theorem printable_escape (c : Nat) : Printable (escape c) := by
  rw [escape]
  split_ifs
  iterate 7 decide
  · intro d hd
    obtain rfl := List.mem_singleton.1 hd
    assumption
  · exact printable_escapeUnit _
  · exact (printable_escapeUnit _).append (printable_escapeUnit _)

theorem printable_scalar (s : Scalar) : Printable (scalar s) := by
  by_cases hstr : ∃ t, s = .str t
  · obtain ⟨t, rfl⟩ := hstr
    have hquote : Printable (lit "\"") := by decide
    refine (hquote.append ?_).append hquote
    intro c hc
    obtain ⟨d, -, hc⟩ := List.mem_flatMap.1 hc
    exact printable_escape d c hc
  · intro c hc
    have := bare_ne ((scalar_bare fun t ht => hstr ⟨t, ht⟩).1 c hc)
    omega

theorem IsKey.printable {key : Text} (h : IsKey key) : Printable key := by
  intro c hc
  obtain ⟨d, rest, rfl, hd⟩ := h.head
  have hmore : isLetter c = true ∨ isDigit c = true ∨ c = 95 ∨ c = 45 := by
    obtain rfl | hc := List.mem_cons.1 hc
    · tauto
    · rw [IsKey, matchKey, if_pos hd] at h
      simp only [Option.some.injEq, Prod.mk.injEq, List.cons.injEq, true_and] at h
      rw [← h.1] at hc
      have hmore := List.mem_takeWhile_imp hc
      simp only [Bool.or_eq_true, beq_iff_eq] at hmore
      tauto
  simp only [isLetter, isDigit, decide_eq_true_eq] at hmore
  omega

theorem printable_fieldText {field : Text × Scalar} (h : IsKey field.1) : Printable (fieldText field) := by
  have hcolon : Printable (lit ": ") := by decide
  exact (h.printable.append hcolon).append (printable_scalar _)

/-- A text that is read as the value, wherever it may be written. -/
structure Renders (text : Text) (v : Value) : Prop where
  read : ∀ place, inline place text = .ok v
  head : ∃ c rest, text = c :: rest ∧ isSpace c = false ∧ c ≠ 35
  last : ∀ c ∈ text.getLast?, isSpace c = false
  noKey : looksLikeKey text = false
  line : Printable text

theorem inline_of_value {place text : Text} {v : Value}
    (h : value place (2 * text.length + 2) false text = .ok (v, [])) : inline place text = .ok v := by
  rw [inline, h]
  rfl

theorem renders_flow {fields : List (Text × Scalar)} (h : Flat fields) :
    Renders (flowText fields) (.map (fields.map asValue)) where
  read := by
    intro place
    refine inline_of_value ?_
    obtain rfl | hne := eq_or_ne fields []
    · rfl
    have hlen : fields.length < 2 * (flowText fields).length + 1 := by
      have := length_intercalate_le fields
      rw [flowText, List.length_cons, List.length_append]
      omega
    have hflow : flowMapping place (2 * (flowText fields).length + 1)
        ((lit ", ").intercalate (fields.map fieldText) ++ [125]) [] = .ok (.map (fields.map asValue), []) :=
      flowMapping_ok place h hne hlen (by simp)
    obtain ⟨field, fields', rfl⟩ := List.exists_cons_of_ne_nil hne
    have hkey := h.keys field (.head _)
    obtain ⟨c, key, hc, hletter⟩ := hkey.head
    have htext : field.1 <+: (lit ", ").intercalate ((field :: fields').map fieldText) ++ [125] := by
      obtain rfl | hne' := eq_or_ne fields' []
      · rw [List.map_singleton, List.intercalate_singleton, fieldText, List.append_assoc, List.append_assoc]
        exact List.prefix_append _ _
      · rw [List.map_cons, List.intercalate_cons_of_ne_nil (by simpa using hne'), fieldText]
        simp only [List.append_assoc]
        exact List.prefix_append _ _
    obtain ⟨rest, hrest⟩ := htext
    have hopen : c ≠ 125 := by
      rintro rfl
      simp [isLetter] at hletter
    rw [flowText] at hflow ⊢
    rw [← hrest] at hflow ⊢
    rw [value, skip_bare (by decide)]
    simp only [reduceIte, Nat.reduceEqDiff, skip_key hkey]
    rw [hc, List.cons_append] at hflow ⊢
    split
    next heq => exact absurd (List.cons.inj heq).1 hopen
    · exact hflow
  head := ⟨123, _, rfl, by decide, by decide⟩
  last := by
    intro c hc
    rw [flowText, ← List.cons_append, List.getLast?_concat] at hc
    cases hc
    decide
  noKey := rfl
  line := by
    have hopen : Printable [123] := by decide
    have hclose : Printable [125] := by decide
    have hcomma : Printable (lit ", ") := by decide
    refine hopen.append ((hcomma.intercalate ?_).append hclose)
    intro t ht
    obtain ⟨field, hfield, rfl⟩ := List.mem_map.1 ht
    exact printable_fieldText (h.keys field hfield)

theorem looksLikeKey_eq_false {text : Text} (h : 58 ∉ text) : looksLikeKey text = false := by
  cases text with
  | nil => rfl
  | cons c rest =>
      rw [looksLikeKey, matchKey]
      split
      next key rest' heq =>
        split at heq
        · simp only [Option.some.injEq, Prod.mk.injEq] at heq
          have hmem : 58 ∈ rest.dropWhile fun c => isLetter c || isDigit c || c == 95 || c == 45 := by
            rw [heq.2]
            exact .head _
          exact absurd (.tail _ ((List.dropWhile_sublist _).subset hmem)) h
        · cases heq
      · rfl

theorem renders_nil : Renders (lit "[]") (.list []) := by
  refine ⟨fun place => rfl, ⟨91, _, rfl, by decide, by decide⟩, by decide, rfl, by decide⟩

theorem renders_scalar {s : Scalar} (h : s.Writable) : Renders (scalar s) (.scalar s) := by
  have hread : ∀ place, inline place (scalar s) = .ok (.scalar s) := by
    intro place
    refine inline_of_value ?_
    have hvalue : value place (2 * (scalar s).length + 2) false (scalar s ++ []) = .ok (.scalar s, []) :=
      value_scalar place h (.inl rfl)
    rwa [List.append_nil] at hvalue
  by_cases hstr : ∃ t, s = .str t
  · obtain ⟨t, rfl⟩ := hstr
    refine ⟨hread, ⟨34, _, rfl, by decide, by decide⟩, ?_, rfl, printable_scalar _⟩
    intro c hc
    rw [scalar, dumps, show lit "\"" = [34] from rfl, List.getLast?_concat] at hc
    cases hc
    decide
  · obtain ⟨hbare, hne, -⟩ := scalar_bare fun t ht => hstr ⟨t, ht⟩
    obtain ⟨c, rest, hc⟩ := List.exists_cons_of_ne_nil hne
    refine ⟨hread, ⟨c, rest, hc, ?_, ?_⟩, ?_, ?_, printable_scalar _⟩
    · exact bare_not_space (hbare c (hc ▸ .head _))
    · have := bare_ne (hbare c (hc ▸ .head _))
      omega
    · exact fun d hd => bare_not_space (hbare d (List.mem_of_getLast? hd))
    · exact looksLikeKey_eq_false fun hmem => (bare_ne (hbare 58 hmem)).2.2.1 rfl

end MiniDarwin.Rootfs
