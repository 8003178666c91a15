import MiniDarwin.Data.Rejection
import MiniDarwin.Xnu.Drbg

/-!
Bounded random numbers (`support/kernel-rng.c`, and `runtime-rng.c` of the
system library).

A generator returns a value of 64 bits or an error. The loop that rejects
has no bound of its own: it is given a number of rounds, and returns nothing
when they do not suffice.
-/

namespace MiniDarwin.Xnu

variable {σ ε : Type}

/-- `-bound % bound` -/
def threshold (bound : UInt64) : UInt64 := (-bound) % bound

/-- The loop of `md_rng_uniform ()` and of `ccrng_uniform ()`. -/
def reject (draw : σ → Except ε UInt64 × σ) (threshold : UInt64) : Nat → σ → Option (Except ε UInt64 × σ)
  | 0, _ => none
  | rounds + 1, s =>
      match draw s with
      | (.error e, s) => some (.error e, s)
      | (.ok value, s) => if value < threshold then reject draw threshold rounds s else some (.ok value, s)

/-- What both functions do once their parameters are checked: the error, what is in `out`, and the generator. -/
def uniform (draw : σ → Except ε UInt64 × σ) (bound old : UInt64) (rounds : Nat) (s : σ) :
    Option (Option ε × Option UInt64 × σ) :=
  (reject draw (threshold bound) rounds s).map fun x =>
    match x with
    | (.error e, s) => (some e, some old, s)
    | (.ok value, s) => (none, some (value % bound), s)

/-! ### The generator of the kernel -/

/-- `struct md_rng` -/
structure MdRng where
  drbg : HmacDrbg
  initialized : Bool

inductive CryptoError where
  | CCERR_PARAMETER
  | drbg (status : Status)
  deriving DecidableEq

/-- A value in memory. -/
def littleEndian (bytes : Bytes) : UInt64 := bytes.foldr (fun c n => n * 256 + c.toUInt64) 0

/-- `md_rng_generate ()` of the bytes of a value. A null pointer is `none`. -/
def mdRngGenerate (limits : Limits) (hmac : Digest → Bytes → Bytes → Bytes) (s : Option MdRng) :
    Except CryptoError UInt64 × Option MdRng :=
  match s with
  | none => (.error .CCERR_PARAMETER, none)
  | some rng =>
      if !rng.initialized then (.error .CCERR_PARAMETER, some rng)
      else
        match generate limits hmac 8 false (.null 0) rng.drbg with
        | (.ok, value, drbg) => (.ok (littleEndian value), some { rng with drbg })
        | (status, _, drbg) => (.error (.drbg status), some { rng with drbg })

/-- `md_rng_uniform ()`. `out` is null or what it points to. -/
def mdRngUniform (limits : Limits) (hmac : Digest → Bytes → Bytes → Bytes) (rounds : Nat) (s : Option MdRng)
    (bound : UInt64) (out : Option UInt64) : Option (Option CryptoError × Option UInt64 × Option MdRng) :=
  match out with
  | none => some (some .CCERR_PARAMETER, none, s)
  | some old =>
      if bound = 0 then some (some .CCERR_PARAMETER, some old, s)
      else uniform (mdRngGenerate limits hmac) bound old rounds s

/-! ### The generators of the system library -/

/-- `EINVAL` -/
def einval : Int := 22

/-- `ccrng_uniform ()`. There is no generator when `rng` or its function is null. -/
def ccrngUniform (generate : Option (σ → Except Int UInt64 × σ)) (rounds : Nat) (s : σ) (bound : UInt64)
    (result : Option UInt64) : Option (Option Int × Option UInt64 × σ) :=
  match generate, result with
  | none, result => some (some einval, result, s)
  | some _, none => some (some einval, none, s)
  | some generate, some old =>
      if bound = 0 then some (some einval, some old, s)
      else uniform generate bound old rounds s

/-! ### Thresholds -/

variable {bound : UInt64}

theorem threshold_eq (h : bound ≠ 0) : (threshold bound).toNat = 2 ^ 64 % bound.toNat := by
  have hpos : 0 < bound.toNat := Nat.pos_of_ne_zero fun hzero => h (UInt64.toNat_inj.1 hzero)
  have hlt := bound.toNat_lt
  have hneg : (-bound).toNat = 2 ^ 64 - bound.toNat := by
    rw [UInt64.toNat_neg, UInt64.size, Nat.mod_eq_of_lt (by omega)]
    norm_num
  rw [threshold, UInt64.toNat_mod, hneg, ← Nat.mod_eq_sub_mod hlt.le]

/-- The draws that are accepted and give `r`, among all draws. -/
def drawsOf (bound r : UInt64) : Finset Nat :=
  (Finset.range (2 ^ 64)).filter fun n => ¬ UInt64.ofNat n < threshold bound ∧ UInt64.ofNat n % bound = r

theorem card_drawsOf (h : bound ≠ 0) {r : UInt64} (hr : r < bound) :
    (drawsOf bound r).card = 2 ^ 64 / bound.toNat := by
  rw [← Data.card_accepted (2 ^ 64) (UInt64.lt_iff_toNat_lt.1 hr), ← threshold_eq h]
  refine congrArg Finset.card (Finset.filter_congr ?_)
  intro n hn
  have hn : (UInt64.ofNat n).toNat = n := UInt64.toNat_ofNat_of_lt (Finset.mem_range.1 hn)
  rw [UInt64.lt_iff_toNat_lt, ← UInt64.toNat_inj, UInt64.toNat_mod, hn]

/-! ### Runs -/

/-- The generator after some draws. -/
def afterDraws (draw : σ → Except ε UInt64 × σ) (s : σ) : Nat → σ
  | 0 => s
  | k + 1 => (draw (afterDraws draw s k)).2

/-- The first draws are values below the threshold. -/
def Rejected (draw : σ → Except ε UInt64 × σ) (bound : UInt64) (s : σ) (k : Nat) : Prop :=
  ∀ i < k, ∃ v, (draw (afterDraws draw s i)).1 = .ok v ∧ v < threshold bound

/-- What a function is that samples: it returns at the first draw that is an error or is accepted. -/
structure Samples (draw : σ → Except ε UInt64 × σ) (bound : UInt64) (s : σ) (old : UInt64) (run : Nat → Option (Option ε × Option UInt64 × σ)) : Prop where
  accepted : ∀ k v, Rejected draw bound s k → (draw (afterDraws draw s k)).1 = .ok v → ¬ v < threshold bound →
    v % bound < bound ∧ ∀ rounds > k, run rounds = some (none, some (v % bound), afterDraws draw s (k + 1))
  failed : ∀ k e, Rejected draw bound s k → (draw (afterDraws draw s k)).1 = .error e →
    ∀ rounds > k, run rounds = some (some e, some old, afterDraws draw s (k + 1))
  endless : (∀ k, Rejected draw bound s k) → ∀ rounds, run rounds = none

variable {draw : σ → Except ε UInt64 × σ} {s : σ}

theorem afterDraws_succ (k : Nat) : afterDraws draw s (k + 1) = afterDraws draw (draw s).2 k := by
  induction k with
  | zero => rfl
  | succ k ih =>
      rw [afterDraws, ih]
      rfl

theorem Rejected.tail {k : Nat} (h : Rejected draw bound s (k + 1)) : Rejected draw bound (draw s).2 k := by
  intro i hi
  obtain ⟨v, hv, hlt⟩ := h (i + 1) (by omega)
  rw [afterDraws_succ] at hv
  exact ⟨v, hv, hlt⟩

/-- A draw that is rejected is not seen. -/
theorem reject_of_lt {rounds : Nat} {v : UInt64} {t : UInt64} (hv : (draw s).1 = .ok v) (hlt : v < t) :
    reject draw t (rounds + 1) s = reject draw t rounds (draw s).2 := by
  rw [reject]
  generalize draw s = x at hv
  obtain ⟨r, s'⟩ := x
  obtain rfl : r = .ok v := hv
  exact if_pos hlt

/-- The loop gets to the draw after those that are rejected. -/
theorem reject_after {k rounds : Nat} (h : Rejected draw bound s k) :
    reject draw (threshold bound) (k + rounds) s = reject draw (threshold bound) rounds (afterDraws draw s k) := by
  induction k generalizing s with
  | zero => rw [Nat.zero_add, afterDraws]
  | succ k ih =>
      obtain ⟨v, hv, hlt⟩ := h 0 (by omega)
      rw [afterDraws] at hv
      rw [Nat.add_right_comm, reject_of_lt hv hlt, ih h.tail, afterDraws_succ]

theorem uniform_samples (h : bound ≠ 0) (old : UInt64) :
    Samples draw bound s old fun rounds => uniform draw bound old rounds s := by
  have hrounds : ∀ {k rounds : Nat}, rounds > k → ∃ more, rounds = k + (more + 1) := by
    intro k rounds hk
    exact ⟨rounds - k - 1, by omega⟩
  refine ⟨?_, ?_, ?_⟩
  · intro k v hrejected hv hge
    refine ⟨UInt64.mod_lt v (UInt64.pos_iff_ne_zero.2 h), ?_⟩
    intro rounds hk
    obtain ⟨more, rfl⟩ := hrounds hk
    rw [uniform, reject_after hrejected, reject, afterDraws]
    generalize draw (afterDraws draw s k) = x at hv
    obtain ⟨r, s'⟩ := x
    obtain rfl : r = .ok v := hv
    simp only
    rw [if_neg hge]
    rfl
  · intro k e hrejected he rounds hk
    obtain ⟨more, rfl⟩ := hrounds hk
    rw [uniform, reject_after hrejected, reject, afterDraws]
    generalize draw (afterDraws draw s k) = x at he
    obtain ⟨r, s'⟩ := x
    obtain rfl : r = .error e := he
    rfl
  · intro hrejected rounds
    have hend : reject draw (threshold bound) (rounds + 0) s = _ := reject_after (hrejected rounds)
    rw [Nat.add_zero, reject] at hend
    rw [uniform, hend]
    rfl

/-- **Bounded random numbers are unbiased.** The threshold is `2 ^ 64` modulo the bound, every residue comes from
equally many draws that are accepted, and both functions return a residue below the bound, or the error of the
generator with `out` as it was. -/
theorem uniform_unbiased (bound : UInt64) (h : bound ≠ 0) :
    (threshold bound).toNat = 2 ^ 64 % bound.toNat ∧
      (∀ r < bound, (drawsOf bound r).card = 2 ^ 64 / bound.toNat) ∧
      (∀ limits hmac s old, Samples (mdRngGenerate limits hmac) bound s old fun rounds =>
        mdRngUniform limits hmac rounds s bound (some old)) ∧
      ∀ (generate : σ → Except Int UInt64 × σ) s old, Samples generate bound s old fun rounds =>
        ccrngUniform (some generate) rounds s bound (some old) := by
  refine ⟨threshold_eq h, fun r hr => card_drawsOf h hr, ?_, ?_⟩
  · intro limits hmac s old
    simp only [mdRngUniform, if_neg h]
    exact uniform_samples h old
  · intro generate s old
    simp only [ccrngUniform, if_neg h]
    exact uniform_samples h old

/-- A generator whose first draw is rejected for the bound 3. -/
theorem uniform_unbiased_three :
    ccrngUniform (some fun n : Nat => ((.ok (UInt64.ofNat n) : Except Int UInt64), n + 1)) 2 0 3 (some 7) =
      some (none, some 1, 2) := by
  have h := (uniform_unbiased (σ := Nat) 3 (by decide)).2.2.2
    (fun n => (.ok (UInt64.ofNat n), n + 1)) 0 7
  refine (h.accepted 1 1 ?_ (by decide) (by decide)).2 2 (by decide)
  intro i hi
  obtain rfl : i = 0 := by omega
  exact ⟨0, rfl, by decide⟩

end MiniDarwin.Xnu
