import Mathlib.Tactic

/-!
Reading and overwriting pieces of a list: a piece that is written and a
piece elsewhere, several pieces that do not meet, and numbers in
little-endian bytes.
-/

namespace MiniDarwin.Data

section Pieces

variable {α : Type} {f d : List α} {off p n i : Nat}

def slice (f : List α) (off n : Nat) : List α := (f.drop off).take n

/-- `d` over what is at `off`. -/
def patch (f : List α) (off : Nat) (d : List α) : List α := f.take off ++ d ++ f.drop (off + d.length)

theorem getElem?_slice (f : List α) (off n i : Nat) : (slice f off n)[i]? = if i < n then f[off + i]? else none := by
  rw [slice, List.getElem?_take, List.getElem?_drop]

theorem slice_congr {g : List α} (h : ∀ i, off ≤ i → i < off + n → f[i]? = g[i]?) : slice f off n = slice g off n := by
  ext1 i
  rw [getElem?_slice, getElem?_slice]
  split
  · exact h _ (by omega) (by omega)
  · rfl

theorem length_slice (h : off + n ≤ f.length) : (slice f off n).length = n := by
  rw [slice, List.length_take, List.length_drop]
  omega

theorem length_patch (h : off + d.length ≤ f.length) : (patch f off d).length = f.length := by
  simp only [patch, List.length_append, List.length_take, List.length_drop]
  omega

theorem getElem?_patch (h : off + d.length ≤ f.length) (i : Nat) :
    (patch f off d)[i]? = if off ≤ i ∧ i < off + d.length then d[i - off]? else f[i]? := by
  have htake : (f.take off).length = off := by
    rw [List.length_take]
    omega
  rw [patch, List.getElem?_append, List.getElem?_append, List.length_append, htake, List.getElem?_take,
    List.getElem?_drop]
  by_cases hbefore : i < off
  · rw [if_pos (by omega), if_pos hbefore, if_pos hbefore, if_neg (by omega)]
  · by_cases hinside : i < off + d.length
    · rw [if_pos hinside, if_neg hbefore, if_pos ⟨by omega, hinside⟩]
    · rw [if_neg hinside, if_neg (by omega)]
      congr 1
      omega

theorem slice_patch (h : off + d.length ≤ f.length) : slice (patch f off d) off d.length = d := by
  ext1 i
  rw [getElem?_slice]
  split
  · rw [getElem?_patch h, if_pos (by omega), Nat.add_sub_cancel_left]
  · rw [List.getElem?_eq_none (by omega)]

/-- What is elsewhere is not written. -/
theorem slice_patch_of_disjoint (h : off + d.length ≤ f.length) (hapart : p + n ≤ off ∨ off + d.length ≤ p) :
    slice (patch f off d) p n = slice f p n := by
  ext1 i
  rw [getElem?_slice, getElem?_slice]
  split
  · rw [getElem?_patch h, if_neg (by omega)]
  · rfl

theorem slice_slice {q m : Nat} (h : q + m ≤ n) : slice (slice f off n) q m = slice f (off + q) m := by
  ext1 i
  simp only [getElem?_slice]
  split
  · rw [if_pos (by omega), Nat.add_assoc]
  · rfl

theorem slice_add (f : List α) (off n m : Nat) : slice f off (n + m) = slice f off n ++ slice f (off + n) m := by
  rw [slice, slice, slice, List.take_add, List.drop_drop]

/-- Two pieces in a row. -/
theorem slice_eq_append_iff {d e : List α} :
    slice f off (d ++ e).length = d ++ e ↔ slice f off d.length = d ∧ slice f (off + d.length) e.length = e := by
  rw [List.length_append, slice_add]
  constructor
  · intro h
    have hlen := congrArg List.length h
    rw [List.length_append, List.length_append] at hlen
    have hd : (slice f off d.length).length ≤ d.length := List.length_take_le _ _
    have he : (slice f (off + d.length) e.length).length ≤ e.length := List.length_take_le _ _
    exact List.append_inj h (by omega)
  · rintro ⟨hd, he⟩
    rw [hd, he]

theorem slice_append_left {g : List α} (h : off + n ≤ f.length) : slice (f ++ g) off n = slice f off n := by
  ext1 i
  rw [getElem?_slice, getElem?_slice]
  split
  · rw [List.getElem?_append_left (by omega)]
  · rfl

theorem slice_append_mid (f d g : List α) : slice (f ++ d ++ g) f.length d.length = d := by
  rw [slice, List.append_assoc, List.drop_left, List.take_left]

/-- Writing again what is there. -/
theorem patch_slice (h : off + n ≤ f.length) : patch f off (slice f off n) = f := by
  rw [patch, length_slice h, slice, List.append_assoc]
  have hdrop : f.drop (off + n) = (f.drop off).drop n := (List.drop_drop).symm
  rw [hdrop, List.take_append_drop, List.take_append_drop]

/-- The later of two writes at one place counts. -/
theorem patch_patch {e : List α} (h : off + d.length ≤ f.length) (he : e.length = d.length) :
    patch (patch f off d) off e = patch f off e := by
  ext1 i
  have hlen : off + e.length ≤ f.length := by rwa [he]
  rw [getElem?_patch (by rwa [length_patch h]), getElem?_patch hlen, getElem?_patch h]
  split
  · rfl
  · rw [if_neg (by omega)]

/-- The pieces of a list of pieces of one size. -/
theorem slice_flatten {pieces : List (List α)} (h : ∀ b ∈ pieces, b.length = n) {b : List α}
    (hb : pieces[i]? = some b) : slice pieces.flatten (n * i) n = b := by
  induction pieces generalizing i with
  | nil => cases hb
  | cons c pieces ih =>
      obtain ⟨hc, hpieces⟩ := List.forall_mem_cons.1 h
      cases i with
      | zero =>
          cases hb
          rw [List.flatten_cons, slice, Nat.mul_zero, List.drop_zero, ← hc, List.take_left]
      | succ i =>
          rw [List.flatten_cons, slice, Nat.mul_succ, Nat.add_comm, ← List.drop_drop, ← hc, List.drop_left, hc]
          exact ih hpieces hb

theorem slice_self (f : List α) : slice f 0 f.length = f := by
  rw [slice, List.drop_zero, List.take_length]

/-! ### Several pieces -/

/-- A place and what is written there. -/
abbrev Write (α : Type) := Nat × List α

def Write.Apart (v w : Write α) : Prop := v.1 + v.2.length ≤ w.1 ∨ w.1 + w.2.length ≤ v.1

def patches (f : List α) (writes : List (Write α)) : List α := writes.foldl (fun f w => patch f w.1 w.2) f

variable {writes : List (Write α)}

theorem patches_cons (f : List α) (w : Write α) (writes : List (Write α)) :
    patches f (w :: writes) = patches (patch f w.1 w.2) writes := rfl

theorem patches_concat (f : List α) (writes : List (Write α)) (w : Write α) :
    patches f (writes ++ [w]) = patch (patches f writes) w.1 w.2 := by
  rw [patches, List.foldl_append]
  rfl

theorem length_patches (h : ∀ w ∈ writes, w.1 + w.2.length ≤ f.length) :
    (patches f writes).length = f.length := by
  induction writes generalizing f with
  | nil => rfl
  | cons w writes ih =>
      obtain ⟨hw, hwrites⟩ := List.forall_mem_cons.1 h
      have hlen := length_patch hw
      rw [patches_cons, ih (by rwa [hlen]), hlen]

/-- What is apart from every piece is left alone. -/
theorem slice_patches_of_disjoint (h : ∀ w ∈ writes, w.1 + w.2.length ≤ f.length)
    (hapart : ∀ w ∈ writes, p + n ≤ w.1 ∨ w.1 + w.2.length ≤ p) : slice (patches f writes) p n = slice f p n := by
  induction writes generalizing f with
  | nil => rfl
  | cons w writes ih =>
      obtain ⟨hw, hwrites⟩ := List.forall_mem_cons.1 h
      obtain ⟨hp, hrest⟩ := List.forall_mem_cons.1 hapart
      rw [patches_cons, ih (by rwa [length_patch hw]) hrest, slice_patch_of_disjoint hw hp]

/-- Pieces that do not meet are all there. -/
theorem slice_patches (h : ∀ w ∈ writes, w.1 + w.2.length ≤ f.length) (hapart : writes.Pairwise Write.Apart)
    {w : Write α} (hw : w ∈ writes) : slice (patches f writes) w.1 w.2.length = w.2 := by
  induction writes generalizing f with
  | nil => cases hw
  | cons v writes ih =>
      obtain ⟨hv, hwrites⟩ := List.forall_mem_cons.1 h
      obtain ⟨hfirst, hrest⟩ := List.pairwise_cons.1 hapart
      have hlen : ∀ u ∈ writes, u.1 + u.2.length ≤ (patch f v.1 v.2).length := by rwa [length_patch hv]
      rw [patches_cons]
      rcases List.mem_cons.1 hw with rfl | hw
      · rw [slice_patches_of_disjoint hlen hfirst, slice_patch hv]
      · exact ih hlen hrest hw

end Pieces

/-! ### Numbers -/

section Numbers

variable {n v : Nat}

def decodeLE (bytes : List UInt8) : Nat := bytes.foldr (fun c v => c.toNat + 256 * v) 0

def encodeLE : (n : Nat) → Nat → List UInt8
  | 0, _ => []
  | n + 1, v => UInt8.ofNat v :: encodeLE n (v / 256)

@[simp] theorem length_encodeLE (n v : Nat) : (encodeLE n v).length = n := by
  induction n generalizing v with
  | zero => rfl
  | succ n ih => rw [encodeLE, List.length_cons, ih]

theorem decodeLE_encodeLE (n v : Nat) : decodeLE (encodeLE n v) = v % 256 ^ n := by
  induction n generalizing v with
  | zero => exact (Nat.mod_one v).symm
  | succ n ih =>
      rw [encodeLE, decodeLE, List.foldr_cons, ← decodeLE, ih, UInt8.toNat_ofNat', pow_succ' 256 n]
      exact (Nat.mod_mul).symm

theorem decodeLE_encodeLE_of_lt (h : v < 256 ^ n) : decodeLE (encodeLE n v) = v := by
  rw [decodeLE_encodeLE, Nat.mod_eq_of_lt h]

theorem decodeLE_lt (bytes : List UInt8) : decodeLE bytes < 256 ^ bytes.length := by
  induction bytes with
  | nil => exact Nat.one_pos
  | cons c bytes ih =>
      have hc : c.toNat < 256 := c.toNat_lt
      rw [decodeLE, List.foldr_cons, ← decodeLE, List.length_cons, pow_succ]
      omega

end Numbers

end MiniDarwin.Data
