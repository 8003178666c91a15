import MiniDarwin.Data.Utf8
import MiniDarwin.Open.Serve

/-!
What the resolver takes for a text: bytes that have the shape of UTF-8,
which is more than UTF-8.
-/

namespace MiniDarwin.Open

open Posix (Bytes Errno)
open Data.Utf8 (Begins Continues Flawed Shaped follow follow_iff)

namespace Resolver

variable {c : UInt8} {s bytes : Bytes} {n : Nat}

/-! ### Masks -/

theorem mask_lt : ∀ n < 256, (UInt8.ofNat n &&& 0xe0 = 0xc0 ↔ 192 ≤ n ∧ n < 224) ∧
    (UInt8.ofNat n &&& 0xf0 = 0xe0 ↔ 224 ≤ n ∧ n < 240) ∧
      (UInt8.ofNat n &&& 0xf8 = 0xf0 ↔ 240 ≤ n ∧ n < 248) ∧
        (UInt8.ofNat n &&& 0xc0 = 0x80 ↔ 128 ≤ n ∧ n < 192) := by
  decide +kernel

theorem mask (c : UInt8) : (c &&& 0xe0 = 0xc0 ↔ 192 ≤ c.toNat ∧ c.toNat < 224) ∧
    (c &&& 0xf0 = 0xe0 ↔ 224 ≤ c.toNat ∧ c.toNat < 240) ∧
      (c &&& 0xf8 = 0xf0 ↔ 240 ≤ c.toNat ∧ c.toNat < 248) ∧
        (c &&& 0xc0 = 0x80 ↔ 128 ≤ c.toNat ∧ c.toNat < 192) := by
  have h := mask_lt c.toNat c.toNat_lt
  rwa [UInt8.ofNat_toNat] at h

/-- A first byte is read as what it is. -/
theorem validText_cons (hc : c ≠ 0) (s : Bytes) :
    validText 0 (c :: s) = (follow c).any fun n => validText n s := by
  obtain ⟨htwo, hthree, hfour, -⟩ := mask c
  have hone : c < 0x80 ↔ c.toNat < 128 := UInt8.lt_iff_toNat_lt
  have hfollow := follow_iff (c := c)
  rw [validText, if_neg hc]
  simp only [hone, htwo, hthree, hfour]
  split_ifs
  · rw [(hfollow 0).2 (by omega), Option.any_some]
  · rw [(hfollow 1).2 (by omega), Option.any_some]
  · rw [(hfollow 2).2 (by omega), Option.any_some]
  · rw [(hfollow 3).2 (by omega), Option.any_some]
  · have hnone : follow c = none := by
      rw [Option.eq_none_iff_forall_ne_some]
      intro n hn
      have := (hfollow n).1 hn
      omega
    rw [hnone, Option.any_none]

theorem validText_next (n : Nat) (c : UInt8) (s : Bytes) :
    validText (n + 1) (c :: s) = true ↔ Continues c ∧ validText n s = true := by
  rw [validText, Bool.and_eq_true, decide_eq_true_iff, Data.Utf8.continues_iff, (mask c).2.2.2]

/-! ### Texts -/

/-- What may follow a first byte that asks for `n` more. -/
def Rest (n : Nat) (s : Bytes) : Prop :=
  ∃ tail rest, s = tail ++ rest ∧ (∀ d ∈ tail, Continues d) ∧ Shaped rest ∧
    (tail.length = n ∨ tail.length < n ∧ rest = [])

theorem rest_nil (n : Nat) : Rest n [] := by
  refine ⟨[], [], rfl, List.forall_mem_nil _, .nil, ?_⟩
  rcases n.eq_zero_or_pos with rfl | hn
  · exact .inl rfl
  · exact .inr ⟨hn, rfl⟩

theorem rest_zero : Rest 0 s ↔ Shaped s := by
  refine ⟨?_, fun h => ⟨[], s, rfl, List.forall_mem_nil _, h, .inl rfl⟩⟩
  rintro ⟨tail, rest, rfl, -, hrest, hlen | ⟨hlen, -⟩⟩
  · rwa [List.eq_nil_of_length_eq_zero hlen]
  · exact absurd hlen (Nat.not_lt_zero _)

theorem rest_succ : Rest (n + 1) (c :: s) ↔ Continues c ∧ Rest n s := by
  constructor
  · rintro ⟨tail, rest, heq, htail, hrest, hlen⟩
    cases tail with
    | nil =>
        rcases hlen with hlen | ⟨-, rfl⟩
        · simp at hlen
        · simp at heq
    | cons d tail =>
        obtain ⟨rfl, rfl⟩ := List.cons.inj heq
        obtain ⟨hd, htail⟩ := List.forall_mem_cons.1 htail
        rw [List.length_cons, Nat.add_right_cancel_iff, Nat.add_lt_add_iff_right] at hlen
        exact ⟨hd, tail, rest, rfl, htail, hrest, hlen⟩
  · rintro ⟨hc, tail, rest, rfl, htail, hrest, hlen⟩
    refine ⟨c :: tail, rest, rfl, List.forall_mem_cons.2 ⟨hc, htail⟩, hrest, ?_⟩
    rwa [List.length_cons, Nat.add_right_cancel_iff, Nat.add_lt_add_iff_right]

/-- The shape of a text, by what its first byte asks for. -/
theorem shaped_cons : Shaped (c :: s) ↔ ∃ n, follow c = some n ∧ Rest n s := by
  constructor
  · intro h
    cases h with
    | whole hc htail hrest => exact ⟨_, hc, _, _, rfl, htail, hrest, .inl rfl⟩
    | cut hc hn htail => exact ⟨_, hc, s, [], (List.append_nil s).symm, htail, .nil, .inr ⟨hn, rfl⟩⟩
  · rintro ⟨n, hc, tail, rest, rfl, htail, hrest, hlen | ⟨hlen, rfl⟩⟩
    · exact .whole (hlen ▸ hc) htail hrest
    · rw [List.append_nil]
      exact .cut hc hlen htail

theorem validText_rest (n : Nat) (s : Bytes) : validText n s = true ↔ 0 ∉ s ∧ Rest n s := by
  induction s generalizing n with
  | nil => simp [validText, rest_nil]
  | cons c s ih =>
      rw [List.mem_cons, not_or]
      cases n with
      | zero =>
          rw [rest_zero, shaped_cons]
          by_cases hc : c = 0
          · simp [validText, hc]
          · rw [validText_cons hc, Option.any_eq_true]
            simp only [ih]
            constructor
            · rintro ⟨n, hn, hzero, hrest⟩
              exact ⟨⟨Ne.symm hc, hzero⟩, n, hn, hrest⟩
            · rintro ⟨⟨-, hzero⟩, n, hn, hrest⟩
              exact ⟨n, hn, hzero, hrest⟩
      | succ n =>
          rw [validText_next, ih, rest_succ]
          have hzero : Continues c → (0 : UInt8) ≠ c := by
            rintro hc rfl
            exact absurd hc.1 (by decide)
          tauto

/-- **What is taken for a text**: no zero, and the shape of UTF-8. -/
theorem validText_iff (bytes : Bytes) : validText 0 bytes = true ↔ 0 ∉ bytes ∧ Shaped bytes := by
  rw [validText_rest, rest_zero]

/-- **Text detection** is UTF-8 but for texts of its shape that have a flaw: characters that are
longer than they need be, surrogates, and what is above U+10FFFF. -/
theorem text_utf8_iff (r : Resolver) {path : Bytes} {file : File} (hopen : r.sys.openRead false path = .ok file)
    (hread : file.data = .ok bytes) :
    (r.text path = true ↔ 0 ∉ bytes.take 4096 ∧ Begins (bytes.take 4096)) ↔
      (0 ∉ bytes.take 4096 → Shaped (bytes.take 4096) → ¬ Flawed (bytes.take 4096)) := by
  have htext : r.text path = validText 0 (bytes.take 4096) := by
    simp only [text, hopen, hread]
    rfl
  rw [htext, validText_iff, Data.Utf8.begins_iff]
  generalize bytes.take 4096 = first
  tauto

/-- A file system of one file. -/
def holding (bytes : Bytes) : Resolver where
  sys := {
    stat := fun _ => .error .ENOENT
    lstat := fun _ => .error .ENOENT
    openRead := fun _ _ => .ok ⟨true, bytes.length, .ok bytes⟩
    readdir := fun _ => none
    executable := fun _ => false
    strerror := fun _ => []
    getuid := 0
    xmlReadMemory := fun _ => none }
  settings := ⟨[], [], false, 0⟩
  tables := []
  home := []

def accent : Bytes := [0xc3, 0xa9]

theorem text_utf8_iff_accent :
    ((holding accent).text [47] = true ↔ 0 ∉ accent.take 4096 ∧ Begins (accent.take 4096)) ↔
      (0 ∉ accent.take 4096 → Shaped (accent.take 4096) → ¬ Flawed (accent.take 4096)) :=
  text_utf8_iff (holding accent) rfl rfl

/-- The slash in two bytes. -/
def overlong : Bytes := [0xc0, 0xaf]

theorem text_overlong :
    ¬ ((holding overlong).text [47] = true ↔ 0 ∉ overlong.take 4096 ∧ Begins (overlong.take 4096)) := by
  intro h
  obtain ⟨-, hbegins⟩ := h.1 (by decide)
  exact (Data.Utf8.begins_iff.1 hbegins).2 (.inl (.inl rfl))

end Resolver

end MiniDarwin.Open
