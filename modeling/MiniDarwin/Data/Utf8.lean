import Mathlib.Tactic

/-!
UTF-8 by its bytes: first bytes and the bytes that follow them, the shape
that these give a text, and what is wrong with a text that has the shape
and is not UTF-8.
-/

namespace MiniDarwin.Data.Utf8

/-- How many bytes follow a first byte. -/
def follow (c : UInt8) : Option Nat :=
  if c < 0x80 then some 0
  else if c < 0xc0 then none
  else if c < 0xe0 then some 1
  else if c < 0xf0 then some 2
  else if c < 0xf8 then some 3
  else none

def Continues (d : UInt8) : Prop := 0x80 ≤ d ∧ d < 0xc0

/-- A first byte that begins no character: with the byte after it, it is longer than it need be
(`c0`, `c1`, `e0`, `f0`), a surrogate (`ed`), or above U+10FFFF (`f4` and beyond). -/
def Flaw (c : UInt8) (next : Option UInt8) : Prop :=
  c = 0xc0 ∨ c = 0xc1 ∨ 0xf5 ≤ c ∨
    next.any fun d => c = 0xe0 ∧ d < 0xa0 ∨ c = 0xed ∧ 0xa0 ≤ d ∨ c = 0xf0 ∧ d < 0x90 ∨ c = 0xf4 ∧ 0x90 ≤ d

/-- First bytes with as many bytes after them as they ask for; the last may have fewer. -/
inductive Shaped : List UInt8 → Prop where
  | nil : Shaped []
  | whole {c : UInt8} {tail rest : List UInt8} (hc : follow c = some tail.length)
      (htail : ∀ d ∈ tail, Continues d) (hrest : Shaped rest) : Shaped (c :: (tail ++ rest))
  | cut {c : UInt8} {tail : List UInt8} {n : Nat} (hc : follow c = some n) (hn : tail.length < n)
      (htail : ∀ d ∈ tail, Continues d) : Shaped (c :: tail)

def Flawed : List UInt8 → Prop
  | [] => False
  | c :: rest => Flaw c rest.head? ∨ Flawed rest

/-- The beginning of a text of Unicode characters. -/
def Begins (bytes : List UInt8) : Prop := ∃ cs : List Char, bytes <+: cs.flatMap String.utf8EncodeChar

/-! ### One character -/

section Character

variable {c : UInt8} {tail : List UInt8}

theorem follow_iff (n : Nat) : follow c = some n ↔ n = 0 ∧ c.toNat < 128 ∨
    n = 1 ∧ 192 ≤ c.toNat ∧ c.toNat < 224 ∨ n = 2 ∧ 224 ≤ c.toNat ∧ c.toNat < 240 ∨
      n = 3 ∧ 240 ≤ c.toNat ∧ c.toNat < 248 := by
  simp only [follow, UInt8.lt_iff_toNat_lt, UInt8.reduceToNat]
  split_ifs
  all_goals simp only [Option.some.injEq, false_iff]
  all_goals omega

theorem continues_iff {d : UInt8} : Continues d ↔ 128 ≤ d.toNat ∧ d.toNat < 192 := by
  simp only [Continues, UInt8.lt_iff_toNat_lt, UInt8.le_iff_toNat_le]
  rfl

theorem flaw_none : Flaw c none ↔ c.toNat = 192 ∨ c.toNat = 193 ∨ 245 ≤ c.toNat := by
  simp [Flaw, ← UInt8.toNat_inj, UInt8.le_iff_toNat_le]

theorem flaw_some {d : UInt8} : Flaw c (some d) ↔ c.toNat = 192 ∨ c.toNat = 193 ∨ 245 ≤ c.toNat ∨
    c.toNat = 224 ∧ d.toNat < 160 ∨ c.toNat = 237 ∧ 160 ≤ d.toNat ∨ c.toNat = 240 ∧ d.toNat < 144 ∨
      c.toNat = 244 ∧ 144 ≤ d.toNat := by
  simp [Flaw, ← UInt8.toNat_inj, UInt8.le_iff_toNat_le, UInt8.lt_iff_toNat_lt]

/-- The bytes that a character may have. -/
def Character (c : UInt8) (tail : List UInt8) : Prop :=
  follow c = some tail.length ∧ (∀ d ∈ tail, Continues d) ∧ ¬ Flaw c tail.head?

theorem character_encode (ch : Char) : ∃ c tail, String.utf8EncodeChar ch = c :: tail ∧ Character c tail := by
  have hmax : ch.val.toNat < 0x110000 ∧ ¬ (0xd800 ≤ ch.val.toNat ∧ ch.val.toNat < 0xe000) := by
    obtain hlow | ⟨hlow, hhigh⟩ := ch.valid
    · omega
    · omega
  unfold String.utf8EncodeChar
  generalize ch.val.toNat = v at hmax
  dsimp only
  split_ifs
  · refine ⟨_, _, rfl, ?_, ?_, ?_⟩
    · simp [follow_iff]
      omega
    · simp
    · simp [flaw_none]
      omega
  · refine ⟨_, _, rfl, ?_, ?_, ?_⟩
    · simp [follow_iff]
      omega
    · simp [continues_iff]
      omega
    · simp [flaw_some]
      omega
  · refine ⟨_, _, rfl, ?_, ?_, ?_⟩
    · simp [follow_iff]
      omega
    · simp [continues_iff]
      omega
    · simp [flaw_some]
      omega
  · refine ⟨_, _, rfl, ?_, ?_, ?_⟩
    · simp [follow_iff]
      omega
    · simp [continues_iff]
      omega
    · simp [flaw_some]
      omega

theorem exists_val {v : Nat} (hv : v < 0xd800 ∨ 0xdfff < v ∧ v < 0x110000) : ∃ ch : Char, ch.val.toNat = v := by
  refine ⟨Char.ofNatAux v hv, ?_⟩
  rfl

theorem ofNat_eq {d : UInt8} {n : Nat} (h : n = d.toNat) : UInt8.ofNat n = d := by
  rw [h, UInt8.ofNat_toNat]

theorem exists_char (h : Character c tail) : ∃ ch, String.utf8EncodeChar ch = c :: tail := by
  obtain ⟨hfollow, htail, hflaw⟩ := h
  rcases (follow_iff _).1 hfollow with ⟨hlen, hc⟩ | ⟨hlen, hlow, hhigh⟩ | ⟨hlen, hlow, hhigh⟩ | ⟨hlen, hlow, hhigh⟩
  · obtain rfl := List.eq_nil_of_length_eq_zero hlen
    obtain ⟨ch, hch⟩ := exists_val (v := c.toNat) (by omega)
    refine ⟨ch, ?_⟩
    unfold String.utf8EncodeChar
    simp only [hch]
    rw [if_pos (by omega), ofNat_eq rfl]
  · obtain ⟨d, rfl⟩ := List.length_eq_one_iff.1 hlen
    simp only [List.mem_singleton, forall_eq, continues_iff, List.head?_cons, flaw_some] at htail hflaw
    obtain ⟨ch, hch⟩ := exists_val (v := (c.toNat - 192) * 64 + (d.toNat - 128)) (by omega)
    refine ⟨ch, ?_⟩
    unfold String.utf8EncodeChar
    simp only [hch]
    rw [if_neg (by omega), if_pos (by omega), ofNat_eq (d := c) (by omega), ofNat_eq (d := d) (by omega)]
  · obtain ⟨d, e, rfl⟩ := List.length_eq_two.1 hlen
    simp only [List.forall_mem_cons, continues_iff, List.head?_cons, flaw_some] at htail hflaw
    obtain ⟨hd, he, -⟩ := htail
    obtain ⟨ch, hch⟩ := exists_val
      (v := (c.toNat - 224) * 4096 + (d.toNat - 128) * 64 + (e.toNat - 128)) (by omega)
    refine ⟨ch, ?_⟩
    unfold String.utf8EncodeChar
    simp only [hch]
    rw [if_neg (by omega), if_neg (by omega), if_pos (by omega), ofNat_eq (d := c) (by omega),
      ofNat_eq (d := d) (by omega), ofNat_eq (d := e) (by omega)]
  · obtain ⟨d, e, f, rfl⟩ := List.length_eq_three.1 hlen
    simp only [List.forall_mem_cons, continues_iff, List.head?_cons, flaw_some] at htail hflaw
    obtain ⟨hd, he, hf, -⟩ := htail
    obtain ⟨ch, hch⟩ := exists_val
      (v := (c.toNat - 240) * 262144 + (d.toNat - 128) * 4096 + (e.toNat - 128) * 64 + (f.toNat - 128))
      (by omega)
    refine ⟨ch, ?_⟩
    unfold String.utf8EncodeChar
    simp only [hch]
    rw [if_neg (by omega), if_neg (by omega), if_neg (by omega), ofNat_eq (d := c) (by omega),
      ofNat_eq (d := d) (by omega), ofNat_eq (d := e) (by omega), ofNat_eq (d := f) (by omega)]

/-- A character that has been cut off has an end. -/
theorem exists_end {n : Nat} (hc : follow c = some n) (hn : tail.length < n) (htail : ∀ d ∈ tail, Continues d)
    (hflaw : ¬ Flaw c tail.head?) : ∃ fill, Character c (tail ++ fill) := by
  have hplain : Continues 0x80 := by
    rw [continues_iff]
    decide
  cases tail with
  | nil =>
      have hnext : ∃ d, Continues d ∧ ¬ Flaw c (some d) := by
        rw [List.head?_nil, flaw_none] at hflaw
        have hc' := (follow_iff _).1 hc
        by_cases hthree : c.toNat = 224
        · refine ⟨0xa0, ?_, ?_⟩
          · rw [continues_iff]
            decide
          · simp only [flaw_some, UInt8.reduceToNat]
            omega
        · by_cases hfour : c.toNat = 240
          · refine ⟨0x90, ?_, ?_⟩
            · rw [continues_iff]
              decide
            · simp only [flaw_some, UInt8.reduceToNat]
              omega
          · refine ⟨0x80, hplain, ?_⟩
            simp only [flaw_some, UInt8.reduceToNat]
            omega
      obtain ⟨d, hd, hgood⟩ := hnext
      refine ⟨d :: List.replicate (n - 1) 0x80, ?_, ?_, hgood⟩
      · rw [hc, List.nil_append, List.length_cons, List.length_replicate]
        congr 1
        simp only [List.length_nil] at hn
        omega
      · intro e he
        rcases List.mem_cons.1 he with rfl | he
        · exact hd
        · rw [List.eq_of_mem_replicate he]
          exact hplain
  | cons d tail =>
      refine ⟨List.replicate (n - (d :: tail).length) 0x80, ?_, ?_, hflaw⟩
      · rw [hc, List.length_append, List.length_replicate]
        congr 1
        omega
      · intro e he
        rcases List.mem_append.1 he with he | he
        · exact htail e he
        · rw [List.eq_of_mem_replicate he]
          exact hplain

theorem Continues.not_flaw {d : UInt8} (h : Continues d) (next : Option UInt8) : ¬ Flaw d next := by
  rw [continues_iff] at h
  cases next with
  | none =>
      rw [flaw_none]
      omega
  | some e =>
      rw [flaw_some]
      omega

/-- What is wrong with the beginning of a character is wrong with the character. -/
theorem Flaw.of_prefix {part : List UInt8} (h : Flaw c part.head?) (hpart : part <+: tail) :
    Flaw c tail.head? := by
  obtain ⟨rest, rfl⟩ := hpart
  cases part with
  | nil =>
      rw [List.head?_nil, flaw_none] at h
      unfold Flaw
      simp only [← UInt8.toNat_inj, UInt8.le_iff_toNat_le, UInt8.reduceToNat]
      omega
  | cons d part => exact h

/-- What follows a character has no part in what is wrong with it. -/
theorem flaw_append (hc : follow c = some tail.length) (rest : List UInt8) :
    Flaw c (tail ++ rest).head? ↔ Flaw c tail.head? := by
  cases tail with
  | nil =>
      have hc' := (follow_iff _).1 hc
      rw [List.length_nil] at hc'
      cases rest with
      | nil => rfl
      | cons d rest =>
          rw [List.nil_append, List.head?_cons, List.head?_nil, flaw_some, flaw_none]
          omega
  | cons d tail => rfl

end Character

/-! ### Texts -/

section Text

variable {c : UInt8} {tail rest bytes : List UInt8}

theorem flawed_tail (htail : ∀ d ∈ tail, Continues d) : Flawed (tail ++ rest) ↔ Flawed rest := by
  induction tail with
  | nil => rfl
  | cons d tail ih =>
      obtain ⟨hd, htail⟩ := List.forall_mem_cons.1 htail
      rw [List.cons_append, Flawed, ih htail, or_iff_right (hd.not_flaw _)]

theorem not_flawed_iff (hc : follow c = some tail.length) (htail : ∀ d ∈ tail, Continues d) :
    ¬ Flawed (c :: (tail ++ rest)) ↔ Character c tail ∧ ¬ Flawed rest := by
  rw [Flawed, flaw_append hc, flawed_tail htail, not_or]
  exact and_congr_left' ⟨fun h => ⟨hc, htail, h⟩, fun h => h.2.2⟩

theorem Shaped.begins (h : Shaped bytes) (hflawed : ¬ Flawed bytes) : Begins bytes := by
  induction h with
  | nil => exact ⟨[], List.nil_prefix⟩
  | whole hc htail _ ih =>
      obtain ⟨hcharacter, hrest⟩ := (not_flawed_iff hc htail).1 hflawed
      obtain ⟨ch, hch⟩ := exists_char hcharacter
      obtain ⟨cs, hcs⟩ := ih hrest
      refine ⟨ch :: cs, ?_⟩
      rw [List.flatMap_cons, hch, List.cons_append]
      exact List.cons_prefix_cons.2 ⟨rfl, (List.prefix_append_right_inj _).2 hcs⟩
  | cut hc hn htail =>
      have hflaw := (not_or.1 hflawed).1
      obtain ⟨fill, hfill⟩ := exists_end hc hn htail hflaw
      obtain ⟨ch, hch⟩ := exists_char hfill
      refine ⟨[ch], ?_⟩
      rw [List.flatMap_singleton, hch]
      exact List.cons_prefix_cons.2 ⟨rfl, List.prefix_append _ _⟩

theorem Begins.shaped (h : Begins bytes) : Shaped bytes ∧ ¬ Flawed bytes := by
  obtain ⟨cs, hcs⟩ := h
  induction cs generalizing bytes with
  | nil =>
      rw [List.flatMap_nil, List.prefix_nil] at hcs
      subst hcs
      exact ⟨.nil, not_false⟩
  | cons ch cs ih =>
      obtain ⟨c, tail, hch, hc, htail, hflaw⟩ := character_encode ch
      rw [List.flatMap_cons, hch, List.cons_append] at hcs
      cases bytes with
      | nil => exact ⟨.nil, not_false⟩
      | cons b bytes =>
          obtain ⟨rfl, hrest⟩ := List.cons_prefix_cons.1 hcs
          rcases List.prefix_or_prefix_of_prefix hrest (List.prefix_append _ _) with hshort | ⟨rest, rfl⟩
          · -- the text ends within this character, or with it
            have hpart : ∀ d ∈ bytes, Continues d := fun d hd => htail d (hshort.subset hd)
            have hgood : ¬ Flaw b bytes.head? := fun h => hflaw (h.of_prefix hshort)
            refine ⟨?_, ?_⟩
            · rcases hshort.length_le.lt_or_eq with hlt | heq
              · exact .cut hc hlt hpart
              · have hwhole := Shaped.whole (heq ▸ hc) hpart .nil
                rwa [List.append_nil] at hwhole
            · rw [Flawed, not_or]
              refine ⟨hgood, ?_⟩
              intro hflawed
              rw [← List.append_nil bytes, flawed_tail hpart] at hflawed
              exact hflawed
          · obtain ⟨hshaped, hflawed⟩ := ih ((List.prefix_append_right_inj _).1 hrest)
            exact ⟨.whole hc htail hshaped, (not_flawed_iff hc htail).2 ⟨⟨hc, htail, hflaw⟩, hflawed⟩⟩

/-- **The beginnings of texts** are what has their shape and no flaw. -/
theorem begins_iff : Begins bytes ↔ Shaped bytes ∧ ¬ Flawed bytes :=
  ⟨Begins.shaped, fun h => h.1.begins h.2⟩

end Text

end MiniDarwin.Data.Utf8
