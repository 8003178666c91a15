import MiniDarwin.Xnu.Digest

/-!
HMAC_DRBG (`support/kernel-drbg.c`).

The limits of the requests are constants of corecrypto's headers, which are
not part of the repository: `Limits` are these constants. HMAC is a function
of a digest, a key and a message. The second half of the file has the
algorithms of SP 800-90A, section 10.1.2, by themselves, and the program is
compared with them.
-/

namespace MiniDarwin.Xnu

/-- `CCDRBG_MAX_ENTROPY_SIZE` and the others. -/
structure Limits where
  entropySize : Nat
  psinputSize : Nat
  additionalinputSize : Nat
  requestSize : Nat
  reseedInterval : Nat

/-- A size and a pointer, which may be null. -/
inductive Input where
  | null (size : Nat)
  | bytes (data : Bytes)

namespace Input

def size : Input → Nat
  | .null size => size
  | .bytes data => data.length

/-- What is read, once it is known to be valid. -/
def contents : Input → Bytes
  | .null _ => []
  | .bytes data => data

def isNull : Input → Bool
  | .null _ => true
  | .bytes _ => false

/-- `valid_input ()` -/
def valid (maximum : Nat) (input : Input) : Bool :=
  input.size ≤ maximum && (input.size = 0 || !input.isNull)

theorem length_contents {maximum : Nat} {input : Input} (h : input.valid maximum = true) :
    input.contents.length = input.size := by
  cases input with
  | null size =>
      simp only [valid, isNull, Bool.not_true, Bool.or_false, Bool.and_eq_true,
        decide_eq_true_eq] at h
      exact h.2.symm
  | bytes data => rfl

end Input

/-- `struct hmac_drbg` -/
structure HmacDrbg where
  di : Option Digest
  reseed_counter : Nat
  key : Bytes
  value : Bytes

/-- `cc_clear (sizeof (*s), s)` -/
def HmacDrbg.cleared : HmacDrbg where
  di := none
  reseed_counter := 0
  key := .replicate 64 0
  value := .replicate 64 0

inductive Status where
  | ok
  | CCDRBG_STATUS_PARAM_ERROR
  | CCDRBG_STATUS_NEED_RESEED
  deriving DecidableEq

variable (limits : Limits) (hmac : Digest → Bytes → Bytes → Bytes)

/-- One round of `update ()`. -/
def updateRound (d : Digest) (separator : UInt8) (inputs : Bytes) (s : HmacDrbg) : HmacDrbg :=
  let key := overwrite s.key 0
    (hmac d (s.key.take d.outputSize) (s.value.take d.outputSize ++ [separator] ++ inputs))
  let value := overwrite s.value 0 (hmac d (key.take d.outputSize) (s.value.take d.outputSize))
  { s with key, value }

def update (d : Digest) (inputs : List Input) (s : HmacDrbg) : HmacDrbg :=
  let provided := inputs.any fun input => input.size ≠ 0
  let bytes := inputs.flatMap Input.contents
  let s := updateRound hmac d 0 bytes s
  if provided then updateRound hmac d 1 bytes s else s

/-- `custom` is the digest of `info->custom`. -/
def instantiate (custom : Option Digest) (entropy nonce personal : Input) (s : HmacDrbg) :
    Status × HmacDrbg :=
  match custom with
  | none => (.CCDRBG_STATUS_PARAM_ERROR, s)
  | some d =>
      if d ≠ .sha256 ∧ d ≠ .sha512 ∨ !entropy.valid limits.entropySize ∨
          !nonce.valid limits.entropySize ∨ !personal.valid limits.psinputSize ∨
          entropy.size < 32 ∨ entropy.size + nonce.size < 48 then
        (.CCDRBG_STATUS_PARAM_ERROR, s)
      else
        let s := { HmacDrbg.cleared with di := some d }
        let s := { s with value := overwrite s.value 0 (.replicate d.outputSize 1) }
        (.ok, { update hmac d [entropy, nonce, personal] s with reseed_counter := 1 })

def reseed (entropy extra : Input) (s : HmacDrbg) : Status × HmacDrbg :=
  match s.di with
  | none => (.CCDRBG_STATUS_PARAM_ERROR, s)
  | some d =>
      if s.reseed_counter = 0 ∨ entropy.size < 32 ∨ !entropy.valid limits.entropySize ∨
          !extra.valid limits.additionalinputSize then
        (.CCDRBG_STATUS_PARAM_ERROR, s)
      else (.ok, { update hmac d [entropy, extra] s with reseed_counter := 1 })

def mustReseed (s : HmacDrbg) : Bool :=
  s.di.isNone || s.reseed_counter = 0 || s.reseed_counter > limits.reseedInterval

/-- The loop of `generate ()`: the bytes it writes, and the state it leaves. -/
def generateLoop (d : Digest) (n : Nat) (s : HmacDrbg) : Bytes × HmacDrbg :=
  if n = 0 then ([], s)
  else
    let value := overwrite s.value 0
      (hmac d (s.key.take d.outputSize) (s.value.take d.outputSize))
    let count := if n < d.outputSize then n else d.outputSize
    let (rest, s) := generateLoop d (n - count) { s with value }
    (value.take count ++ rest, s)
termination_by n
decreasing_by
  have := d.outputSize_pos
  split <;> omega

/-- `null`: `out` is a null pointer. -/
def generate (n : Nat) (null : Bool) (extra : Input) (s : HmacDrbg) : Status × Bytes × HmacDrbg :=
  if n > limits.requestSize ∨ n ≠ 0 ∧ null ∨ !extra.valid limits.additionalinputSize then
    (.CCDRBG_STATUS_PARAM_ERROR, [], s)
  else if mustReseed limits s then (.CCDRBG_STATUS_NEED_RESEED, [], s)
  else match s.di with
  | none => (.CCDRBG_STATUS_NEED_RESEED, [], s)
  | some d =>
      let s := if extra.size ≠ 0 then update hmac d [extra] s else s
      let (out, s) := generateLoop hmac d n s
      let s := update hmac d [extra] s
      (.ok, out, { s with reseed_counter := (s.reseed_counter + 1) % 2 ^ 64 })

/-! ### Calls -/

inductive DrbgCall where
  | instantiate (custom : Option Digest) (entropy nonce personal : Input)
  | reseed (entropy extra : Input)
  | generate (n : Nat) (null : Bool) (extra : Input)
  | done

/-- What a call returns, the bytes it writes and the state it leaves. -/
def DrbgCall.run (s : HmacDrbg) : DrbgCall → Status × Bytes × HmacDrbg
  | .instantiate custom entropy nonce personal =>
      let (status, s) := Xnu.instantiate limits hmac custom entropy nonce personal s
      (status, [], s)
  | .reseed entropy extra =>
      let (status, s) := Xnu.reseed limits hmac entropy extra s
      (status, [], s)
  | .generate n null extra => Xnu.generate limits hmac n null extra s
  | .done => (.ok, [], .cleared)

/-- The state after calls, from a state that is all zeros. -/
def afterCalls (calls : List DrbgCall) : HmacDrbg :=
  calls.foldl (fun s call => (call.run limits hmac s).2.2) .cleared

/-! ### SP 800-90A, 10.1.2 -/

/-- The working state, and the digest it is for. -/
structure Working where
  digest : Digest
  Key : Bytes
  V : Bytes
  reseed_counter : Nat

/-- 10.1.2.2 -/
def HMAC_DRBG_Update (provided_data : Bytes) (w : Working) : Working :=
  let K := hmac w.digest w.Key (w.V ++ [0x00] ++ provided_data)
  let V := hmac w.digest K w.V
  if provided_data = [] then { w with Key := K, V }
  else
    let K := hmac w.digest K (V ++ [0x01] ++ provided_data)
    { w with Key := K, V := hmac w.digest K V }

/-- 10.1.2.3 -/
def HMAC_DRBG_Instantiate (d : Digest) (entropy_input nonce personalization_string : Bytes) :
    Working :=
  let seed_material := entropy_input ++ nonce ++ personalization_string
  { HMAC_DRBG_Update hmac seed_material
      ⟨d, .replicate d.outputSize 0x00, .replicate d.outputSize 0x01, 0⟩ with reseed_counter := 1 }

/-- 10.1.2.4 -/
def HMAC_DRBG_Reseed (w : Working) (entropy_input additional_input : Bytes) : Working :=
  { HMAC_DRBG_Update hmac (entropy_input ++ additional_input) w with reseed_counter := 1 }

/-- `V = HMAC (Key, V)`, `temp = temp || V`, a number of times. -/
def outputBlocks (w : Working) : Nat → Bytes × Bytes
  | 0 => ([], w.V)
  | k + 1 =>
      let (temp, V) := outputBlocks w k
      let V := hmac w.digest w.Key V
      (temp ++ V, V)

/-- 10.1.2.5, unless a reseed is required: as many blocks as it takes for the bytes
that are requested, of which the leftmost are returned. -/
def HMAC_DRBG_Generate (w : Working) (requested : Nat) (additional_input : Bytes) :
    Option (Bytes × Working) :=
  if w.reseed_counter > limits.reseedInterval then none
  else
    let w := if additional_input ≠ [] then HMAC_DRBG_Update hmac additional_input w else w
    let (temp, V) := outputBlocks hmac w
      ((requested + w.digest.outputSize - 1) / w.digest.outputSize)
    let w := HMAC_DRBG_Update hmac additional_input { w with V }
    some (temp.take requested, { w with reseed_counter := w.reseed_counter + 1 })

/-- What a call is to return and leave; `none` is an instance that does not exist. -/
def DrbgCall.algorithm (w : Option Working) : DrbgCall → Option (Bytes × Option Working)
  | .instantiate custom entropy nonce personal => custom.map fun d =>
      ([], some (HMAC_DRBG_Instantiate hmac d entropy.contents nonce.contents personal.contents))
  | .reseed entropy extra => w.map fun w =>
      ([], some (HMAC_DRBG_Reseed hmac w entropy.contents extra.contents))
  | .generate n _ extra =>
      (w.bind fun w => HMAC_DRBG_Generate limits hmac w n extra.contents).map fun r => (r.1, some r.2)
  | .done => some ([], none)

/-! ### The program follows the algorithms -/

variable {limits} {hmac} {s : HmacDrbg} {w : Working}

/-- The state holds the working state, at the front of its two arrays. -/
structure Tracks (s : HmacDrbg) (w : Working) : Prop where
  di : s.di = some w.digest
  key : s.key.take w.digest.outputSize = w.Key
  value : s.value.take w.digest.outputSize = w.V
  counter : s.reseed_counter = w.reseed_counter
  key_length : s.key.length = 64
  value_length : s.value.length = 64

theorem outputSize_le_64 (d : Digest) : d.outputSize ≤ 64 := by cases d <;> decide

/-- An array into whose front a digest has been written. -/
theorem front_overwrite {dst src : Bytes} {d : Digest} (hdst : dst.length = 64)
    (hsrc : src.length = d.outputSize) :
    (overwrite dst 0 src).take d.outputSize = src ∧ (overwrite dst 0 src).length = 64 := by
  have hle := outputSize_le_64 d
  constructor
  · have htake := take_overwrite src (Nat.zero_le dst.length)
    rwa [Nat.zero_add, hsrc, List.take_zero, List.nil_append] at htake
  · rw [length_overwrite (by omega), hdst]

section

variable (hlen : ∀ d key m, (hmac d key m).length = Digest.outputSize d)
include hlen

theorem Tracks.round (h : Tracks s w) (separator : UInt8) (inputs : Bytes) :
    Tracks (updateRound hmac w.digest separator inputs s)
      { w with
        Key := hmac w.digest w.Key (w.V ++ [separator] ++ inputs)
        V := hmac w.digest (hmac w.digest w.Key (w.V ++ [separator] ++ inputs)) w.V } := by
  obtain ⟨hkey, hkeylen⟩ := front_overwrite (d := w.digest) h.key_length
    (hlen w.digest w.Key (w.V ++ [separator] ++ inputs))
  obtain ⟨hvalue, hvaluelen⟩ := front_overwrite (d := w.digest) h.value_length
    (hlen w.digest (hmac w.digest w.Key (w.V ++ [separator] ++ inputs)) w.V)
  unfold updateRound
  rw [h.key, h.value]
  dsimp only
  rw [hkey]
  exact ⟨h.di, hkey, hvalue, h.counter, hkeylen, hvaluelen⟩

theorem Tracks.update (h : Tracks s w) (inputs : List Input)
    (hinputs : ∀ input ∈ inputs, input.contents.length = input.size) :
    Tracks (update hmac w.digest inputs s)
      (HMAC_DRBG_Update hmac (inputs.flatMap Input.contents) w) := by
  have hfirst := h.round hlen 0 (inputs.flatMap Input.contents)
  have hprovided : (inputs.any fun input => input.size ≠ 0) = true ↔
      inputs.flatMap Input.contents ≠ [] := by
    rw [List.any_eq_true, Ne, List.flatMap_eq_nil_iff]
    push Not
    refine exists_congr fun input => and_congr_right fun hm => ?_
    rw [← hinputs input hm, decide_eq_true_iff]
    exact not_congr List.length_eq_zero_iff
  unfold Xnu.update HMAC_DRBG_Update
  dsimp only
  by_cases hp : inputs.flatMap Input.contents = []
  · rw [if_neg (fun h => hprovided.1 h hp), if_pos hp]
    exact hfirst
  · rw [if_pos (hprovided.2 hp), if_neg hp]
    exact hfirst.round hlen 1 (inputs.flatMap Input.contents)

omit hlen in
/-- The blocks of output, from the first one on. -/
theorem outputBlocks_succ (w : Working) (k : Nat) :
    outputBlocks hmac w (k + 1) =
      (hmac w.digest w.Key w.V ++
          (outputBlocks hmac { w with V := hmac w.digest w.Key w.V } k).1,
        (outputBlocks hmac { w with V := hmac w.digest w.Key w.V } k).2) := by
  induction k with
  | zero => simp [outputBlocks]
  | succ k ih =>
      rw [outputBlocks, ih, outputBlocks]
      simp only [List.append_assoc]

omit hlen in
/-- How many blocks it takes. -/
theorem blocks_succ {n o : Nat} (hn : n ≠ 0) (ho : 0 < o) :
    (n + o - 1) / o = (n - (if n < o then n else o) + o - 1) / o + 1 := by
  split
  · have hzero : (n - n + o - 1) / o = 0 := Nat.div_eq_of_lt (by omega)
    rw [hzero, Nat.div_eq_of_lt_le] <;> omega
  · rw [← Nat.add_div_right _ ho]
    congr 1
    omega

theorem Tracks.generateLoop (h : Tracks s w) (n : Nat) :
    (generateLoop hmac w.digest n s).1 =
        (outputBlocks hmac w ((n + w.digest.outputSize - 1) / w.digest.outputSize)).1.take n ∧
      Tracks (generateLoop hmac w.digest n s).2
        { w with V :=
            (outputBlocks hmac w ((n + w.digest.outputSize - 1) / w.digest.outputSize)).2 } := by
  have hpos := w.digest.outputSize_pos
  induction n using Nat.strong_induction_on generalizing s w with
  | h n ih =>
      rw [Xnu.generateLoop]
      by_cases hn : n = 0
      · have hzero : (n + w.digest.outputSize - 1) / w.digest.outputSize = 0 :=
          Nat.div_eq_of_lt (by omega)
        rw [if_pos hn, hzero]
        exact ⟨by simp [outputBlocks], h⟩
      · obtain ⟨hvalue, hvaluelen⟩ := front_overwrite (d := w.digest) h.value_length
          (hlen w.digest w.Key w.V)
        obtain ⟨count, hcount⟩ : ∃ c, (if n < w.digest.outputSize then n else w.digest.outputSize) =
          c := ⟨_, rfl⟩
        have hrange : count ≤ n ∧ 0 < count ∧ count ≤ w.digest.outputSize ∧
            (count < n → count = w.digest.outputSize) := by
          split at hcount <;> omega
        have hnext : Tracks { s with value := overwrite s.value 0 (hmac w.digest w.Key w.V) }
            { w with V := hmac w.digest w.Key w.V } :=
          ⟨h.di, h.key, hvalue, h.counter, h.key_length, hvaluelen⟩
        have hrest := ih (n - count) (by omega) hnext hpos
        rw [if_neg hn, blocks_succ hn hpos, hcount, outputBlocks_succ]
        dsimp only
        rw [h.key, h.value]
        refine ⟨?_, hrest.2⟩
        rw [hrest.1, List.take_append, hlen]
        congr 1
        · have hfront : (overwrite s.value 0 (hmac w.digest w.Key w.V)).take count =
              (hmac w.digest w.Key w.V).take count := by
            rw [← hvalue, List.take_take, hvalue, min_eq_left hrange.2.2.1]
          rw [hfront, List.take_eq_take_iff, hlen]
          omega
        · obtain heq | hlt := Nat.eq_or_lt_of_le hrange.1
          · rw [heq, Nat.sub_self, show n - w.digest.outputSize = 0 by omega]
          · rw [hrange.2.2.2 hlt]

end

/-- The working state that a state holds. -/
def HmacDrbg.working (s : HmacDrbg) : Option Working :=
  s.di.bind fun d =>
    if s.reseed_counter = 0 then none
    else some ⟨d, s.key.take d.outputSize, s.value.take d.outputSize, s.reseed_counter⟩

theorem Tracks.working (h : Tracks s w) (hw : w.reseed_counter ≠ 0) : s.working = some w := by
  rw [HmacDrbg.working, h.di, Option.bind_some, if_neg (by rwa [h.counter]), h.key, h.value, h.counter]

/-- What holds of the state between two calls. -/
structure Sane (limits : Limits) (s : HmacDrbg) : Prop where
  key_length : s.key.length = 64
  value_length : s.value.length = 64
  counter : s.reseed_counter ≤ limits.reseedInterval + 1

theorem Sane.tracks (h : Sane limits s) (hw : s.working = some w) :
    Tracks s w ∧ w.reseed_counter ≠ 0 := by
  obtain ⟨d, hd, hs⟩ := Option.bind_eq_some_iff.1 hw
  split at hs
  · cases hs
  · next hc =>
      cases hs
      exact ⟨⟨hd, rfl, rfl, rfl, h.key_length, h.value_length⟩, hc⟩

/-! ### Calls -/

theorem length_outputBlocks (hlen : ∀ d key m, (hmac d key m).length = Digest.outputSize d)
    (w : Working) (k : Nat) : (outputBlocks hmac w k).1.length = k * w.digest.outputSize := by
  induction k with
  | zero => simp [outputBlocks]
  | succ k ih =>
      rw [outputBlocks, List.length_append, ih, hlen]
      ring

theorem instantiate_spec (hlen : ∀ d key m, (hmac d key m).length = Digest.outputSize d)
    (limits : Limits) (s : HmacDrbg) (custom : Option Digest) (entropy nonce personal : Input) :
    (∃ d, custom = some d ∧
      (instantiate limits hmac custom entropy nonce personal s).1 = .ok ∧
      Tracks (instantiate limits hmac custom entropy nonce personal s).2
        (HMAC_DRBG_Instantiate hmac d entropy.contents nonce.contents personal.contents)) ∨
    (instantiate limits hmac custom entropy nonce personal s).1 = .CCDRBG_STATUS_PARAM_ERROR ∧
      (instantiate limits hmac custom entropy nonce personal s).2 = s := by
  unfold instantiate
  cases custom with
  | none => exact .inr ⟨rfl, rfl⟩
  | some d =>
      dsimp only
      split
      · exact .inr ⟨rfl, rfl⟩
      · next hvalid =>
          push Not at hvalid
          obtain ⟨-, hentropy, hnonce, hpersonal, -⟩ := hvalid
          simp only [ne_eq, Bool.not_eq_true', Bool.not_eq_false] at hentropy hnonce hpersonal
          have hzeros : (List.replicate 64 (0 : UInt8)).length = 64 := List.length_replicate
          have hones : (List.replicate d.outputSize (1 : UInt8)).length = d.outputSize :=
            List.length_replicate
          obtain ⟨hvalue, hvaluelen⟩ := front_overwrite hzeros hones
          have hle := outputSize_le_64 d
          have hstart : Tracks
              { HmacDrbg.cleared with
                di := some d
                value := overwrite (.replicate 64 0) 0 (.replicate d.outputSize 1) }
              ⟨d, .replicate d.outputSize 0, .replicate d.outputSize 1, 0⟩ :=
            ⟨rfl, (List.take_replicate ..).trans (by rw [min_eq_left hle]), hvalue, rfl,
              List.length_replicate, hvaluelen⟩
          have hupdate := hstart.update hlen [entropy, nonce, personal] (by
            simp only [List.forall_mem_cons]
            exact ⟨Input.length_contents hentropy, Input.length_contents hnonce,
              Input.length_contents hpersonal, by simp⟩)
          refine .inl ⟨d, rfl, rfl, ?_⟩
          simp only [List.flatMap_cons, List.flatMap_nil, List.append_nil] at hupdate
          rw [HMAC_DRBG_Instantiate, List.append_assoc]
          exact ⟨hupdate.di, hupdate.key, hupdate.value, rfl, hupdate.key_length,
            hupdate.value_length⟩

theorem reseed_spec (hlen : ∀ d key m, (hmac d key m).length = Digest.outputSize d)
    (hs : Sane limits s) (entropy extra : Input) :
    (∃ w, s.working = some w ∧ (reseed limits hmac entropy extra s).1 = .ok ∧
      Tracks (reseed limits hmac entropy extra s).2
        (HMAC_DRBG_Reseed hmac w entropy.contents extra.contents)) ∨
    (reseed limits hmac entropy extra s).1 = .CCDRBG_STATUS_PARAM_ERROR ∧
      (reseed limits hmac entropy extra s).2 = s := by
  unfold reseed
  cases hd : s.di with
  | none => exact .inr ⟨rfl, rfl⟩
  | some d =>
      dsimp only
      split
      · exact .inr ⟨rfl, rfl⟩
      · next hvalid =>
          push Not at hvalid
          obtain ⟨hcounter, -, hentropy, hextra⟩ := hvalid
          simp only [ne_eq, Bool.not_eq_true', Bool.not_eq_false] at hentropy hextra
          have htracks : Tracks s ⟨d, s.key.take d.outputSize, s.value.take d.outputSize,
            s.reseed_counter⟩ := ⟨hd, rfl, rfl, rfl, hs.key_length, hs.value_length⟩
          have hupdate := htracks.update hlen [entropy, extra] (by
            simp only [List.forall_mem_cons]
            exact ⟨Input.length_contents hentropy, Input.length_contents hextra, by simp⟩)
          refine .inl ⟨_, htracks.working hcounter, rfl, ?_⟩
          simp only [List.flatMap_cons, List.flatMap_nil, List.append_nil] at hupdate
          exact ⟨hupdate.di, hupdate.key, hupdate.value, rfl, hupdate.key_length,
            hupdate.value_length⟩

theorem mustReseed_iff : mustReseed limits s = true ↔
    ∀ w, s.working = some w → w.reseed_counter > limits.reseedInterval := by
  unfold mustReseed HmacDrbg.working
  cases hd : s.di with
  | none => simp
  | some d =>
      by_cases hc : s.reseed_counter = 0
      · simp [hc]
      · simp [hc]

/-- The requests that `generate ()` does not refuse as such. -/
def Requestable (limits : Limits) (n : Nat) (null : Bool) (extra : Input) : Prop :=
  n ≤ limits.requestSize ∧ (n ≠ 0 → null = false) ∧
    extra.valid limits.additionalinputSize = true

theorem update_counter (provided : Bytes) (w : Working) :
    (HMAC_DRBG_Update hmac provided w).reseed_counter = w.reseed_counter ∧
      (HMAC_DRBG_Update hmac provided w).digest = w.digest := by
  unfold HMAC_DRBG_Update
  dsimp only
  split <;> exact ⟨rfl, rfl⟩

theorem generate_spec (hlen : ∀ d key m, (hmac d key m).length = Digest.outputSize d)
    (hinterval : limits.reseedInterval + 1 < 2 ^ 64) (hs : Sane limits s) (n : Nat) (null : Bool)
    (extra : Input) :
    (∃ w w' out, s.working = some w ∧ w.reseed_counter ≤ limits.reseedInterval ∧
      Requestable limits n null extra ∧
      (generate limits hmac n null extra s).1 = .ok ∧
      HMAC_DRBG_Generate limits hmac w n extra.contents = some (out, w') ∧ out.length = n ∧
      (generate limits hmac n null extra s).2.1 = out ∧
      Tracks (generate limits hmac n null extra s).2.2 w' ∧
      w'.reseed_counter = w.reseed_counter + 1) ∨
    ((generate limits hmac n null extra s).1 = .CCDRBG_STATUS_PARAM_ERROR ∧
        ¬ Requestable limits n null extra ∨
      (generate limits hmac n null extra s).1 = .CCDRBG_STATUS_NEED_RESEED ∧
        Requestable limits n null extra ∧ ∀ w, s.working = some w → w.reseed_counter > limits.reseedInterval) ∧
      (generate limits hmac n null extra s).2.2 = s := by
  unfold generate
  split
  · next hbad =>
      refine .inr ⟨.inl ⟨rfl, ?_⟩, rfl⟩
      rintro ⟨hn, hnull, hextra⟩
      obtain h | ⟨h, h'⟩ | h := hbad
      · omega
      · rw [hnull h] at h'
        cases h'
      · rw [hextra] at h
        cases h
  · next hgood =>
      push Not at hgood
      obtain ⟨hn, hnull, hextra⟩ := hgood
      simp only [ne_eq, Bool.not_eq_true', Bool.not_eq_false] at hextra
      have hreq : Requestable limits n null extra := ⟨hn, fun h => by simpa using hnull h, hextra⟩
      split
      · next hmust => exact .inr ⟨.inr ⟨rfl, hreq, mustReseed_iff.1 hmust⟩, rfl⟩
      · next hmust =>
          rw [mustReseed_iff] at hmust
          push Not at hmust
          obtain ⟨w, hw, hcounter⟩ := hmust
          obtain ⟨htracks, hne⟩ := hs.tracks hw
          have hcontents := Input.length_contents hextra
          have hinput : ∀ input ∈ [extra], input.contents.length = input.size := by
            simpa using hcontents
          have hflat : [extra].flatMap Input.contents = extra.contents := by simp
          -- the working state once the additional input has been taken in
          obtain ⟨w1, hw1⟩ : ∃ w1, (if extra.contents ≠ [] then
            HMAC_DRBG_Update hmac extra.contents w else w) = w1 := ⟨_, rfl⟩
          have hdigest : w1.digest = w.digest ∧ w1.reseed_counter = w.reseed_counter := by
            rw [← hw1]
            split
            · exact ⟨(update_counter _ w).2, (update_counter _ w).1⟩
            · exact ⟨rfl, rfl⟩
          have h1 : Tracks (if extra.size ≠ 0 then update hmac w.digest [extra] s else s) w1 := by
            rw [← hw1]
            have hiff : extra.contents ≠ [] ↔ extra.size ≠ 0 := by
              rw [← hcontents]
              exact not_congr List.length_eq_zero_iff.symm
            by_cases hsize : extra.size ≠ 0
            · rw [if_pos hsize, if_pos (hiff.2 hsize), ← hflat]
              exact htracks.update hlen [extra] hinput
            · rw [if_neg hsize, if_neg (fun h => hsize (hiff.1 h))]
              exact htracks
          rw [← hdigest.1] at h1
          obtain ⟨hout, h2⟩ := h1.generateLoop hlen n
          have h3 := h2.update hlen [extra] hinput
          rw [hflat] at h3
          obtain ⟨w2, hw2⟩ : ∃ w2, HMAC_DRBG_Update hmac extra.contents { w1 with V :=
            (outputBlocks hmac w1 ((n + w1.digest.outputSize - 1) / w1.digest.outputSize)).2 } =
            w2 := ⟨_, rfl⟩
          have hcounter2 : w2.reseed_counter = w.reseed_counter := by
            rw [← hw2, (update_counter extra.contents _).1, hdigest.2]
          rw [hw2] at h3
          rw [htracks.di]
          dsimp only
          rw [← hdigest.1]
          refine .inl ⟨w, { w2 with reseed_counter := w2.reseed_counter + 1 }, _, hw, hcounter, hreq,
            rfl, ?_, ?_, hout, ?_, ?_⟩
          · rw [HMAC_DRBG_Generate, if_neg (by omega)]
            dsimp only
            rw [hw1, hw2]
          · rw [List.length_take, length_outputBlocks hlen]
            have hpos := w1.digest.outputSize_pos
            have hdiv := Nat.lt_div_mul_add (a := n + w1.digest.outputSize - 1) hpos
            omega
          · refine ⟨h3.di, h3.key, h3.value, ?_, h3.key_length, h3.value_length⟩
            dsimp only at h3 ⊢
            rw [h3.counter, Nat.mod_eq_of_lt]
            omega
          · dsimp only
            rw [hcounter2]

/-- A state that holds a working state is sane. -/
theorem Tracks.sane (h : Tracks s w) (hw : w.reseed_counter ≤ limits.reseedInterval + 1) :
    Sane limits s :=
  ⟨h.key_length, h.value_length, by rw [h.counter]; exact hw⟩

/-- What one call does. -/
theorem run_spec (hlen : ∀ d key m, (hmac d key m).length = Digest.outputSize d)
    (hinterval : limits.reseedInterval + 1 < 2 ^ 64) (hs : Sane limits s) (call : DrbgCall) :
    Sane limits (call.run limits hmac s).2.2 ∧
      ((call.run limits hmac s).1 = .ok → call.algorithm limits hmac s.working =
        some ((call.run limits hmac s).2.1, (call.run limits hmac s).2.2.working)) ∧
      ((call.run limits hmac s).1 ≠ .ok → (call.run limits hmac s).2.2 = s) := by
  cases call with
  | instantiate custom entropy nonce personal =>
      obtain ⟨d, rfl, hok, htracks⟩ | ⟨herror, hsame⟩ :=
        instantiate_spec hlen limits s custom entropy nonce personal
      · exact ⟨htracks.sane (Nat.le_add_left 1 _),
          fun _ => by rw [DrbgCall.run, htracks.working one_ne_zero]; rfl,
          fun hne => absurd hok hne⟩
      · refine ⟨by rw [DrbgCall.run, hsame]; exact hs, fun h => ?_, fun _ => hsame⟩
        exact absurd (herror.symm.trans h) (by decide)
  | reseed entropy extra =>
      obtain ⟨w, hw, hok, htracks⟩ | ⟨herror, hsame⟩ := reseed_spec hlen hs entropy extra
      · exact ⟨htracks.sane (Nat.le_add_left 1 _),
          fun _ => by rw [DrbgCall.run, htracks.working one_ne_zero, hw]; rfl,
          fun hne => absurd hok hne⟩
      · refine ⟨by rw [DrbgCall.run, hsame]; exact hs, fun h => ?_, fun _ => hsame⟩
        exact absurd (herror.symm.trans h) (by decide)
  | generate n null extra =>
      obtain ⟨w, w', out, hw, hle, -, hok, hgen, -, hout, htracks, hcounter⟩ | ⟨herror, hsame⟩ :=
        generate_spec hlen hinterval hs n null extra
      · refine ⟨htracks.sane (by omega), fun _ => ?_, fun hne => absurd hok hne⟩
        rw [DrbgCall.run, hout, htracks.working (by omega), hw, DrbgCall.algorithm,
          Option.bind_some, hgen]
        rfl
      · refine ⟨by rw [DrbgCall.run, hsame]; exact hs, fun h => ?_, fun _ => hsame⟩
        obtain ⟨h', -⟩ | ⟨h', -⟩ := herror
        · exact absurd (h'.symm.trans h) (by decide)
        · exact absurd (h'.symm.trans h) (by decide)
  | done =>
      exact ⟨⟨List.length_replicate, List.length_replicate, Nat.zero_le _⟩, fun _ => rfl,
        fun hne => absurd rfl hne⟩

theorem sane_afterCalls (hlen : ∀ d key m, (hmac d key m).length = Digest.outputSize d)
    (hinterval : limits.reseedInterval + 1 < 2 ^ 64) (calls : List DrbgCall) :
    Sane limits (afterCalls limits hmac calls) := by
  induction calls using List.reverseRecOn with
  | nil => exact ⟨List.length_replicate, List.length_replicate, Nat.zero_le _⟩
  | append_singleton calls call ih =>
      rw [afterCalls, List.foldl_append]
      exact (run_spec hlen hinterval ih call).1

/-- **The generator is the HMAC_DRBG of SP 800-90A** after every sequence of calls: a call
that succeeds returns and leaves what the algorithms give, one that fails leaves the
state as it was, and bytes are generated exactly when there is an instance that need
not be reseeded. -/
theorem drbg_refines (hlen : ∀ d key m, (hmac d key m).length = Digest.outputSize d)
    (hinterval : limits.reseedInterval + 1 < 2 ^ 64) (calls : List DrbgCall) (call : DrbgCall) :
    let s := afterCalls limits hmac calls
    let r := call.run limits hmac s
    (r.1 = .ok → call.algorithm limits hmac s.working = some (r.2.1, r.2.2.working)) ∧
    (r.1 ≠ .ok → r.2.2 = s) ∧
    (call = .done → r.2.2 = .cleared) ∧ HmacDrbg.cleared.working = none ∧
    ∀ n null extra, call = .generate n null extra →
      (¬ Requestable limits n null extra → r.1 = .CCDRBG_STATUS_PARAM_ERROR) ∧
      (Requestable limits n null extra →
        ((∀ w, s.working = some w → w.reseed_counter > limits.reseedInterval) →
          r.1 = .CCDRBG_STATUS_NEED_RESEED) ∧
        ∀ w, s.working = some w → w.reseed_counter ≤ limits.reseedInterval →
          r.1 = .ok ∧ r.2.1.length = n) := by
  intro s r
  have hs : Sane limits s := sane_afterCalls hlen hinterval calls
  obtain ⟨-, hok, herror⟩ := run_spec hlen hinterval hs call
  refine ⟨hok, herror, ?_, rfl, ?_⟩
  · rintro rfl
    rfl
  · rintro n null extra rfl
    obtain ⟨w, w', out, hw, hle, hreq, hstatus, -, hlength, hout, -⟩ | ⟨hstatus, -⟩ :=
      generate_spec hlen hinterval hs n null extra
    · refine ⟨fun h => absurd hreq h, fun _ => ⟨fun h => ?_, fun _ _ _ => ⟨hstatus, ?_⟩⟩⟩
      · have := h w hw
        omega
      · exact (congrArg List.length hout).trans hlength
    · obtain ⟨hparam, hreq⟩ | ⟨hneed, hreq, hall⟩ := hstatus
      · exact ⟨fun _ => hparam, fun h => absurd h hreq⟩
      · refine ⟨fun h => absurd hreq h, fun _ => ⟨fun _ => hneed, fun w hw hle => ?_⟩⟩
        have := hall w hw
        omega

/-- The limits that corecrypto has. -/
def demoLimits : Limits := ⟨2 ^ 16, 2 ^ 16, 2 ^ 16, 2 ^ 16, 2 ^ 48⟩

/-- HMAC with SHA-256; the other digests are not used. -/
def demoHmac (d : Digest) (key m : Bytes) : Bytes :=
  match d with
  | .sha256 => rfcHmac sha256 .sha256 key m
  | d => List.replicate d.outputSize 0

theorem length_demoHmac (d : Digest) (key m : Bytes) :
    (demoHmac d key m).length = d.outputSize := by
  cases d with
  | sha256 => exact length_rfcHmac pads_sha256
  | sha1 | sha384 | sha512 => exact List.length_replicate

/-- An instance that is asked for bytes. -/
def demoCalls : List DrbgCall :=
  [.instantiate (some .sha256) (.bytes (.replicate 32 7)) (.bytes (.replicate 16 8)) (.null 0)]

/-- The instance is there. -/
theorem working_demoCalls : ∃ w, (afterCalls demoLimits demoHmac demoCalls).working = some w ∧
    w.reseed_counter = 1 := by
  obtain ⟨d, -, -, htracks⟩ | ⟨herror, -⟩ := instantiate_spec length_demoHmac demoLimits .cleared
    (some .sha256) (.bytes (.replicate 32 7)) (.bytes (.replicate 16 8)) (.null 0)
  · exact ⟨_, htracks.working one_ne_zero, rfl⟩
  · simp [instantiate, Input.valid, Input.size, Input.isNull, demoLimits] at herror

theorem drbg_refines_instantiated :
    ((DrbgCall.generate 100 false (.null 0)).run demoLimits demoHmac
        (afterCalls demoLimits demoHmac demoCalls)).1 = .ok ∧
      ((DrbgCall.generate 100 false (.null 0)).run demoLimits demoHmac
        (afterCalls demoLimits demoHmac demoCalls)).2.1.length = 100 := by
  obtain ⟨w, hw, hcounter⟩ := working_demoCalls
  have hreq : Requestable demoLimits 100 false (.null 0) := ⟨by decide, fun _ => rfl, by decide⟩
  obtain ⟨-, -, -, -, hgenerate⟩ := drbg_refines length_demoHmac (by decide : demoLimits.reseedInterval + 1 < 2 ^ 64) demoCalls
    (.generate 100 false (.null 0))
  exact ((hgenerate 100 false (.null 0) rfl).2 hreq).2 w hw (by rw [hcounter]; decide)

end MiniDarwin.Xnu
