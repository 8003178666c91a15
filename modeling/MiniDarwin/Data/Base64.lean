import MiniDarwin.Data.Slices

/-!
Base64 over code points, and the lines that a long text is broken into.
-/

namespace MiniDarwin.Data.Base64

/-- The character of six bits. -/
def digit (v : Nat) : Nat :=
  if v < 26 then v + 65 else if v < 52 then v + 71 else if v < 62 then v - 4 else if v = 62 then 43 else 47

def value (c : Nat) : Option Nat :=
  if 65 ≤ c ∧ c ≤ 90 then some (c - 65)
  else if 97 ≤ c ∧ c ≤ 122 then some (c - 71)
  else if 48 ≤ c ∧ c ≤ 57 then some (c + 4)
  else if c = 43 then some 62
  else if c = 47 then some 63
  else none

def pad : Nat := 61

def encode : List UInt8 → List Nat
  | [] => []
  | [a] => [digit (a.toNat / 4), digit (a.toNat % 4 * 16), pad, pad]
  | [a, b] => [digit (a.toNat / 4), digit (a.toNat % 4 * 16 + b.toNat / 16), digit (b.toNat % 16 * 4), pad]
  | a :: b :: c :: rest =>
      digit (a.toNat / 4) :: digit (a.toNat % 4 * 16 + b.toNat / 16) ::
        digit (b.toNat % 16 * 4 + c.toNat / 64) :: digit (c.toNat % 64) :: encode rest

/-- The reader: groups of four, of which the last one may be padded. -/
def decode : List Nat → Option (List UInt8)
  | [] => some []
  | x :: y :: z :: w :: rest => do
      let a ← value x
      let b ← value y
      if z = pad ∧ w = pad ∧ rest = [] then return [UInt8.ofNat (a * 4 + b / 16)]
      let c ← value z
      if w = pad ∧ rest = [] then return [UInt8.ofNat (a * 4 + b / 16), UInt8.ofNat (b % 16 * 16 + c / 4)]
      let d ← value w
      let bytes ← decode rest
      return UInt8.ofNat (a * 4 + b / 16) :: UInt8.ofNat (b % 16 * 16 + c / 4) :: UInt8.ofNat (c % 4 * 64 + d) :: bytes
  | _ => none

theorem value_digit {v : Nat} (h : v < 64) : value (digit v) = some v := by
  unfold digit value
  split_ifs <;> first | omega | exact congrArg some (by omega)

/-- A character of a text in base64. -/
def IsDigit (c : Nat) : Prop := 65 ≤ c ∧ c ≤ 90 ∨ 97 ≤ c ∧ c ≤ 122 ∨ 48 ≤ c ∧ c ≤ 57 ∨ c = 43 ∨ c = 47

theorem isDigit_digit {v : Nat} (h : v < 64) : IsDigit (digit v) := by
  unfold digit IsDigit
  split_ifs <;> omega

theorem digit_ne_pad {v : Nat} (h : v < 64) : digit v ≠ pad := by
  have hdigit := isDigit_digit h
  unfold IsDigit at hdigit
  unfold pad
  omega

theorem ofNat_eq {c : UInt8} {v : Nat} (h : v = c.toNat) : UInt8.ofNat v = c := by
  rw [h, UInt8.ofNat_toNat]

/-- What was encoded is decoded. -/
theorem decode_encode (bytes : List UInt8) : decode (encode bytes) = some bytes := by
  induction bytes using encode.induct with
  | case1 => rfl
  | case2 a =>
      have ha := a.toNat_lt
      rw [encode, decode, value_digit (by omega), value_digit (by omega)]
      simp only [Option.bind_eq_bind, Option.bind_some, and_self, if_true]
      rw [ofNat_eq (c := a) (by omega)]
      rfl
  | case3 a b =>
      have ha := a.toNat_lt
      have hb := b.toNat_lt
      rw [encode, decode, value_digit (by omega), value_digit (by omega), value_digit (by omega)]
      simp only [Option.bind_eq_bind, Option.bind_some, digit_ne_pad (show b.toNat % 16 * 4 < 64 by omega), false_and,
        and_self, if_true, if_false]
      rw [ofNat_eq (c := a) (by omega), ofNat_eq (c := b) (by omega)]
      rfl
  | case4 a b c rest ih =>
      have ha := a.toNat_lt
      have hb := b.toNat_lt
      have hc := c.toNat_lt
      rw [encode, decode, value_digit (by omega), value_digit (by omega), value_digit (by omega),
        value_digit (by omega), ih]
      simp only [Option.bind_eq_bind, Option.bind_some, digit_ne_pad (show c.toNat % 64 < 64 by omega), false_and,
        and_false, if_false]
      rw [ofNat_eq (c := a) (by omega), ofNat_eq (c := b) (by omega), ofNat_eq (c := c) (by omega)]
      rfl

theorem mem_encode {bytes : List UInt8} {c : Nat} (h : c ∈ encode bytes) : IsDigit c ∨ c = pad := by
  induction bytes using encode.induct with
  | case1 => cases h
  | case2 a =>
      have ha := a.toNat_lt
      simp only [encode, List.mem_cons, List.not_mem_nil, or_false] at h
      rcases h with rfl | rfl | rfl | rfl
      · exact .inl (isDigit_digit (by omega))
      · exact .inl (isDigit_digit (by omega))
      · exact .inr rfl
      · exact .inr rfl
  | case3 a b =>
      have ha := a.toNat_lt
      have hb := b.toNat_lt
      simp only [encode, List.mem_cons, List.not_mem_nil, or_false] at h
      rcases h with rfl | rfl | rfl | rfl
      · exact .inl (isDigit_digit (by omega))
      · exact .inl (isDigit_digit (by omega))
      · exact .inl (isDigit_digit (by omega))
      · exact .inr rfl
  | case4 a b d rest ih =>
      have ha := a.toNat_lt
      have hb := b.toNat_lt
      have hd := d.toNat_lt
      simp only [encode, List.mem_cons] at h
      rcases h with rfl | rfl | rfl | rfl | h
      · exact .inl (isDigit_digit (by omega))
      · exact .inl (isDigit_digit (by omega))
      · exact .inl (isDigit_digit (by omega))
      · exact .inl (isDigit_digit (by omega))
      · exact ih h

/-! ### Lines -/

/-- The pieces of `n` characters of which a text consists. -/
def chunks (n : Nat) (text : List Nat) : List (List Nat) :=
  (List.range ((text.length + n - 1) / n)).map fun k => slice text (n * k) n

theorem flatten_slices (n k : Nat) (text : List Nat) :
    ((List.range k).map fun k => slice text (n * k) n).flatten = text.take (n * k) := by
  induction k with
  | zero => rw [Nat.mul_zero, List.take_zero]; rfl
  | succ k ih =>
      rw [List.range_succ, List.map_append, List.flatten_append, ih, Nat.mul_succ, List.take_add]
      simp [slice]

theorem flatten_chunks {n : Nat} (hn : 0 < n) (text : List Nat) : (chunks n text).flatten = text := by
  rw [chunks, flatten_slices, List.take_of_length_le]
  have hceil := Nat.lt_mul_div_succ (text.length + n - 1) hn
  rw [Nat.mul_succ] at hceil
  omega

theorem mem_of_mem_chunks {n c : Nat} {text line : List Nat} (hline : line ∈ chunks n text) (hc : c ∈ line) :
    c ∈ text := by
  obtain ⟨k, -, rfl⟩ := List.mem_map.1 hline
  exact List.mem_of_mem_drop (List.mem_of_mem_take hc)

end MiniDarwin.Data.Base64
