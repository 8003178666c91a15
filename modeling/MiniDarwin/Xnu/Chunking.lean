import MiniDarwin.Xnu.Digest

/-!
How a message is cut into pieces does not matter to a digest.

A byte goes to the place in the buffer that its position in the message says,
whatever piece it comes in, so that contexts agree as a whole: also in the
bytes of the buffer that are left of the block before.
-/

namespace MiniDarwin.Xnu

variable (lib : Library) {d : Digest} {ctx : DigestCtx d} {p q : Bytes}

theorem overwrite_overwrite {dst : Bytes} {i : Nat} (h : i + p.length ≤ dst.length) :
    overwrite (overwrite dst i p) (i + p.length) q = overwrite dst i (p ++ q) := by
  have htake := take_overwrite p (show i ≤ dst.length by omega)
  have hdrop : (overwrite dst i p).drop (i + p.length + q.length) = dst.drop (i + p.length + q.length) := by
    have hlen : (dst.take i ++ p).length = i + p.length := by
      rw [List.length_append, List.length_take, Nat.min_eq_left (by omega)]
    rw [overwrite, ← hlen, List.drop_length_add_append, List.drop_drop, hlen]
  rw [overwrite, htake, hdrop, overwrite, List.length_append, Nat.add_assoc]
  simp only [List.append_assoc]

theorem DigestCtx.eq_of_fields {a b : DigestCtx d} (state : a.state = b.state) (nbits : a.nbits = b.nbits)
    (data : a.data = b.data) (num : a.num = b.num) : a = b := by
  cases a
  cases b
  congr

theorem absorb_part (hp : p.length ≤ d.blockSize - ctx.num) (h : ctx.num + p.length ≠ d.blockSize) :
    (absorb lib ctx p hp).state = ctx.state ∧ (absorb lib ctx p hp).nbits = ctx.nbits ∧
      (absorb lib ctx p hp).data = overwrite ctx.data ctx.num p ∧ (absorb lib ctx p hp).num = ctx.num + p.length := by
  unfold absorb
  dsimp only
  rw [dif_neg h]
  exact ⟨rfl, rfl, rfl, rfl⟩

theorem absorb_full (hp : p.length ≤ d.blockSize - ctx.num) (h : ctx.num + p.length = d.blockSize) :
    (absorb lib ctx p hp).state = lib.transform ctx.state (overwrite ctx.data ctx.num p) ∧
      (absorb lib ctx p hp).nbits = (ctx.nbits + d.blockSize * 8) % 2 ^ 64 ∧
      (absorb lib ctx p hp).data = overwrite ctx.data ctx.num p ∧ (absorb lib ctx p hp).num = 0 := by
  unfold absorb
  dsimp only
  rw [dif_pos h]
  exact ⟨rfl, rfl, rfl, rfl⟩

/-- A piece that does not fill the buffer, and what follows it up to the end of the block. -/
theorem absorb_absorb (hp : p.length < d.blockSize - ctx.num) (hpq : (p ++ q).length ≤ d.blockSize - ctx.num)
    (hq : q.length ≤ d.blockSize - (absorb lib ctx p (Nat.le_of_lt hp)).num) :
    absorb lib (absorb lib ctx p (Nat.le_of_lt hp)) q hq = absorb lib ctx (p ++ q) hpq := by
  have hlt := ctx.num_lt
  have hdata := ctx.data_length
  have htwice := overwrite_overwrite (q := q) (show ctx.num + p.length ≤ ctx.data.length by omega)
  have hlen : (p ++ q).length = p.length + q.length := List.length_append
  obtain ⟨hstate, hnbits, hbuffer, hnum⟩ := absorb_part lib (Nat.le_of_lt hp) (by omega)
  generalize absorb lib ctx p (Nat.le_of_lt hp) = mid at *
  by_cases hfull : ctx.num + (p ++ q).length = d.blockSize
  · obtain ⟨hstate₁, hnbits₁, hbuffer₁, hnum₁⟩ := absorb_full lib hq (by omega)
    obtain ⟨hstate₂, hnbits₂, hbuffer₂, hnum₂⟩ := absorb_full lib hpq hfull
    rw [hbuffer, hnum, htwice] at hbuffer₁ hstate₁
    rw [hstate] at hstate₁
    rw [hnbits] at hnbits₁
    exact DigestCtx.eq_of_fields (hstate₁.trans hstate₂.symm) (hnbits₁.trans hnbits₂.symm)
      (hbuffer₁.trans hbuffer₂.symm) (hnum₁.trans hnum₂.symm)
  · obtain ⟨hstate₁, hnbits₁, hbuffer₁, hnum₁⟩ := absorb_part lib hq (by omega)
    obtain ⟨hstate₂, hnbits₂, hbuffer₂, hnum₂⟩ := absorb_part lib hpq hfull
    rw [hbuffer, hnum, htwice] at hbuffer₁
    rw [hnum] at hnum₁
    refine DigestCtx.eq_of_fields ?_ ?_ (hbuffer₁.trans hbuffer₂.symm) (by omega)
    · rw [hstate₁, hstate, hstate₂]
    · rw [hnbits₁, hnbits, hnbits₂]

theorem ccdigestUpdate_nil (ctx : DigestCtx d) : ccdigestUpdate lib ctx [] = ctx := by
  rw [ccdigestUpdate, dif_pos rfl]

/-- One round of the loop: a piece that fills the buffer, or all that is left. -/
theorem ccdigestUpdate_step {r : Bytes} (hp : p ≠ []) (h : p.length ≤ d.blockSize - ctx.num)
    (hend : p.length = d.blockSize - ctx.num ∨ r = []) :
    ccdigestUpdate lib ctx (p ++ r) = ccdigestUpdate lib (absorb lib ctx p h) r := by
  have hcount : min (d.blockSize - ctx.num) (p ++ r).length = p.length := by
    rw [List.length_append]
    obtain hfull | rfl := hend
    · omega
    · rw [List.length_nil]
      omega
  rw [ccdigestUpdate, dif_neg (by simp [hp])]
  simp only [hcount, List.take_left, List.drop_left]

/-- Piece after piece is as one piece. -/
theorem ccdigestUpdate_append (ctx : DigestCtx d) (p q : Bytes) :
    ccdigestUpdate lib (ccdigestUpdate lib ctx p) q = ccdigestUpdate lib ctx (p ++ q) := by
  induction hn : p.length using Nat.strong_induction_on generalizing ctx p with
  | h n ih =>
      subst hn
      have hlt := ctx.num_lt
      obtain rfl | hp := eq_or_ne p []
      · rw [ccdigestUpdate_nil, List.nil_append]
      have hpos := List.length_pos_of_ne_nil hp
      by_cases hroom : d.blockSize - ctx.num ≤ p.length
      · -- the first round takes the same bytes of both
        obtain ⟨a, r, rfl, ha⟩ : ∃ a r, p = a ++ r ∧ a.length = d.blockSize - ctx.num :=
          ⟨p.take (d.blockSize - ctx.num), p.drop (d.blockSize - ctx.num), (List.take_append_drop _ _).symm,
            List.length_take_of_le hroom⟩
        have hne : a ≠ [] := List.ne_nil_of_length_pos (by omega)
        rw [List.append_assoc, ccdigestUpdate_step lib hne ha.le (.inl ha), ccdigestUpdate_step lib hne ha.le (.inl ha)]
        rw [List.length_append] at ih
        exact ih r.length (by omega) _ r rfl
      · -- all of `p` is taken, and then what there is still room for
        have hshort : p.length < d.blockSize - ctx.num := not_le.1 hroom
        have hpart : ccdigestUpdate lib ctx p = absorb lib ctx p hshort.le := by
          have hstep := ccdigestUpdate_step lib hp hshort.le (.inr rfl)
          rwa [List.append_nil, ccdigestUpdate_nil] at hstep
        obtain ⟨-, -, -, hnum⟩ := absorb_part lib hshort.le (by omega)
        obtain rfl | hq := eq_or_ne q []
        · rw [ccdigestUpdate_nil, List.append_nil]
        obtain ⟨a, r, rfl, ha, hfits, hend⟩ : ∃ a r, q = a ++ r ∧ a ≠ [] ∧ (p ++ a).length ≤ d.blockSize - ctx.num ∧
            ((p ++ a).length = d.blockSize - ctx.num ∨ r = []) := by
          by_cases hmore : d.blockSize - ctx.num - p.length ≤ q.length
          · have hlen := List.length_take_of_le hmore
            refine ⟨q.take (d.blockSize - ctx.num - p.length), q.drop _, (List.take_append_drop _ _).symm, ?_, ?_, ?_⟩
            · exact List.ne_nil_of_length_pos (by omega)
            · rw [List.length_append]
              omega
            · rw [List.length_append]
              omega
          · refine ⟨q, [], (List.append_nil q).symm, hq, ?_, .inr rfl⟩
            rw [List.length_append]
            omega
        have hlen : (p ++ a).length = p.length + a.length := List.length_append
        have hfits' : a.length ≤ d.blockSize - (absorb lib ctx p hshort.le).num := by omega
        have hend' : a.length = d.blockSize - (absorb lib ctx p hshort.le).num ∨ r = [] :=
          hend.imp_left fun hfull => by omega
        rw [hpart, ccdigestUpdate_step lib ha hfits' hend', absorb_absorb lib hshort hfits,
          ← List.append_assoc, ccdigestUpdate_step lib (by simp [hp]) hfits hend]

/-! ### The context as the message says -/

/-- The bits that LibreSSL is given, over the two words of its count. -/
def SplitBits (d : Digest) (c : ShaCtx) (bits : Nat) : Prop :=
  match d with
  | .sha1 | .sha256 => c.Nl = bits % 2 ^ 32 ∧ c.Nh = bits / 2 ^ 32
  | .sha384 | .sha512 => c.Nl = bits ∧ c.Nh = 0

/-- The context after a message. -/
structure Holds (lib : Library) (ctx : DigestCtx d) (m : Bytes) : Prop where
  num : ctx.num = m.length % d.blockSize
  num_lt : ctx.num < d.blockSize
  nbits : ctx.nbits = 8 * (m.length - ctx.num) % 2 ^ 64
  buffer : ctx.data.take ctx.num = m.drop (m.length - ctx.num)
  state : ctx.state = hashBlocks lib.transform d.blockSize d.initialState m
  bits : SplitBits d (shaCtx ctx) (8 * m.length % 2 ^ 64)

theorem splitBits_shaCtx (ctx : DigestCtx d) : SplitBits d (shaCtx ctx) ((ctx.nbits + ctx.num * 8) % 2 ^ 64) := by
  unfold SplitBits shaCtx
  cases d with
  | sha1 => exact ⟨rfl, rfl⟩
  | sha256 => exact ⟨rfl, rfl⟩
  | sha384 => exact ⟨rfl, rfl⟩
  | sha512 => exact ⟨rfl, rfl⟩

variable {lib} {m : Bytes}

theorem Represents.holds (h : Represents lib ctx m) : Holds lib ctx m := by
  obtain ⟨blocks, hblocks, rfl, hstate, hnbits⟩ := h
  have hlt := ctx.num_lt
  have hpos := d.blockSize_pos
  have htail : (ctx.data.take ctx.num).length = ctx.num := by
    rw [List.length_take, ctx.data_length]
    omega
  have hlen : (blocks.flatten ++ ctx.data.take ctx.num).length = blocks.length * d.blockSize + ctx.num := by
    rw [List.length_append, length_flatten hblocks, htail]
  have hbits : ctx.nbits = 8 * ((blocks.flatten ++ ctx.data.take ctx.num).length - ctx.num) % 2 ^ 64 := by
    rw [hlen, hnbits, Nat.add_sub_cancel, Nat.mul_comm]
  refine ⟨?_, hlt, hbits, ?_, ?_, ?_⟩
  · rw [hlen, Nat.mul_comm, Nat.mul_add_mod, Nat.mod_eq_of_lt hlt]
  · rw [hlen, Nat.add_sub_cancel, ← length_flatten hblocks, List.drop_left]
  · rw [hashBlocks_flatten hpos hblocks, hashBlocks, dif_neg (by omega), hstate]
  · have htotal : (ctx.nbits + ctx.num * 8) % 2 ^ 64 =
        8 * (blocks.flatten ++ ctx.data.take ctx.num).length % 2 ^ 64 := by
      rw [hbits, Nat.mod_add_mod, hlen, Nat.add_sub_cancel, Nat.mul_add, Nat.mul_comm ctx.num]
    exact htotal ▸ splitBits_shaCtx ctx

/-- **Digest updates are independent of chunking.** -/
theorem updates_chunk_free (lib : Library) (d : Digest) (pieces : List Bytes) :
    pieces.foldl (ccdigestUpdate lib) (ccdigestInit d) = ccdigestUpdate lib (ccdigestInit d) pieces.flatten ∧
      Holds lib (pieces.foldl (ccdigestUpdate lib) (ccdigestInit d)) pieces.flatten := by
  have hfold : ∀ ctx : DigestCtx d, pieces.foldl (ccdigestUpdate lib) ctx = ccdigestUpdate lib ctx pieces.flatten := by
    induction pieces with
    | nil => exact fun ctx => (ccdigestUpdate_nil lib ctx).symm
    | cons p pieces ih =>
        intro ctx
        rw [List.foldl_cons, ih, ccdigestUpdate_append, List.flatten_cons]
  refine ⟨hfold _, ?_⟩
  rw [hfold]
  exact (represents_init d).update.holds

end MiniDarwin.Xnu
