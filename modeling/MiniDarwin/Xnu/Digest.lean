import Mathlib

/-!
Digests and HMAC (`support/kernel-digests.c`, `support/kernel-crypto-api.c`).

A pointer and a size are a list of bytes. LibreSSL, which compresses the
blocks and pads the last one, is not part of the repository: `Library` are the
two functions of it that a digest is given, and `Pads` says what they do.
-/

namespace MiniDarwin.Xnu

abbrev Bytes := List UInt8

/-- The digests there are a `ccdigest_info` of. -/
inductive Digest where
  | sha1
  | sha256
  | sha384
  | sha512
  deriving DecidableEq

namespace Digest

def outputSize : Digest → Nat
  | sha1 => 20
  | sha256 => 32
  | sha384 => 48
  | sha512 => 64

def blockSize : Digest → Nat
  | sha1 | sha256 => 64
  | sha384 | sha512 => 128

/-- The words of the state. -/
def initialState : Digest → List Nat
  | sha1 => [0x67452301, 0xefcdab89, 0x98badcfe, 0x10325476, 0xc3d2e1f0]
  | sha256 => [0x6a09e667, 0xbb67ae85, 0x3c6ef372, 0xa54ff53a, 0x510e527f, 0x9b05688c, 0x1f83d9ab,
      0x5be0cd19]
  | sha384 => [0xcbbb9d5dc1059ed8, 0x629a292a367cd507, 0x9159015a3070dd17, 0x152fecd8f70e5939,
      0x67332667ffc00b31, 0x8eb44a8768581511, 0xdb0c2e0d64f98fa7, 0x47b5481dbefa4fa4]
  | sha512 => [0x6a09e667f3bcc908, 0xbb67ae8584caa73b, 0x3c6ef372fe94f82b, 0xa54ff53a5f1d36f1,
      0x510e527fade682d1, 0x9b05688c2b3e6c1f, 0x1f83d9abfb41bd6b, 0x5be0cd19137e2179]

theorem blockSize_pos (d : Digest) : 0 < d.blockSize := by cases d <;> decide

theorem outputSize_le (d : Digest) : d.outputSize ≤ d.blockSize := by cases d <;> decide

theorem outputSize_pos (d : Digest) : 0 < d.outputSize := by cases d <;> decide

end Digest

/-- `SHA_CTX`, `SHA256_CTX` and `SHA512_CTX` as they are handed to LibreSSL. -/
structure ShaCtx where
  h : List Nat
  Nl : Nat
  Nh : Nat
  num : Nat
  data : Bytes
  md_len : Nat

/-- `SHA*_Transform ()` and `SHA*_Final ()` of one digest. -/
structure Library where
  transform : List Nat → Bytes → List Nat
  final : ShaCtx → Bytes

/-! ### Digests -/

/-- `ccdigest_ctx_t`. The buffer is never full between two calls. -/
structure DigestCtx (d : Digest) where
  state : List Nat
  nbits : Nat
  data : Bytes
  num : Nat
  data_length : data.length = d.blockSize
  num_lt : num < d.blockSize

variable (lib : Library) {d : Digest}

def ccdigestInit (d : Digest) : DigestCtx d where
  state := d.initialState
  nbits := 0
  data := .replicate d.blockSize 0
  num := 0
  data_length := List.length_replicate
  num_lt := d.blockSize_pos

/-- `memcpy (dst + i, src, n)` -/
def overwrite (dst : Bytes) (i : Nat) (src : Bytes) : Bytes :=
  dst.take i ++ src ++ dst.drop (i + src.length)

theorem length_overwrite {dst src : Bytes} {i : Nat} (h : i + src.length ≤ dst.length) :
    (overwrite dst i src).length = dst.length := by
  simp only [overwrite, List.length_append, List.length_take, List.length_drop]
  omega

/-- The body of the loop of `ccdigest_update ()`, which takes `p` into the buffer as
far as there is room. -/
def absorb (ctx : DigestCtx d) (p : Bytes) (h : p.length ≤ d.blockSize - ctx.num) : DigestCtx d :=
  have := ctx.num_lt
  have := ctx.data_length
  let data := overwrite ctx.data ctx.num p
  have hdata : data.length = d.blockSize := (length_overwrite (by omega)).trans ctx.data_length
  if hfull : ctx.num + p.length = d.blockSize then
    { state := lib.transform ctx.state data
      nbits := (ctx.nbits + d.blockSize * 8) % 2 ^ 64
      data, num := 0, data_length := hdata, num_lt := d.blockSize_pos }
  else
    { ctx with data, num := ctx.num + p.length, data_length := hdata, num_lt := by omega }

def ccdigestUpdate (ctx : DigestCtx d) (p : Bytes) : DigestCtx d :=
  if h : p = [] then ctx
  else
    let count := min (d.blockSize - ctx.num) p.length
    ccdigestUpdate (absorb lib ctx (p.take count) (by simp [count])) (p.drop count)
termination_by p.length
decreasing_by
  have := ctx.num_lt
  have := List.length_pos_of_ne_nil h
  simp only [List.length_drop]
  omega

/-- `final ()`: what LibreSSL is given depends on the digest. -/
def shaCtx (ctx : DigestCtx d) : ShaCtx :=
  let bits := (ctx.nbits + ctx.num * 8) % 2 ^ 64
  match d with
  | .sha1 =>
      { h := ctx.state, Nl := bits % 2 ^ 32, Nh := bits / 2 ^ 32, num := ctx.num, data := ctx.data,
        md_len := 0 }
  | .sha256 =>
      { h := ctx.state, Nl := bits % 2 ^ 32, Nh := bits / 2 ^ 32, num := ctx.num, data := ctx.data,
        md_len := 32 }
  | d =>
      { h := ctx.state, Nl := bits, Nh := 0, num := ctx.num, data := ctx.data,
        md_len := d.outputSize }

def ccdigestFinal (ctx : DigestCtx d) : Bytes := lib.final (shaCtx ctx)

def ccdigest (d : Digest) (data : Bytes) : Bytes :=
  ccdigestFinal lib (ccdigestUpdate lib (ccdigestInit d) data)

/-! ### HMAC -/

/-- `cchmac_ctx_t` -/
structure HmacCtx (d : Digest) where
  digest : DigestCtx d
  ostate : List Nat

/-- The key, hashed if it is longer than a block, with zeros behind it. -/
def keyPad (d : Digest) (key : Bytes) : Bytes :=
  let pad := List.replicate d.blockSize 0
  if key.length > d.blockSize then overwrite pad 0 (ccdigest lib d key)
  else overwrite pad 0 key

def cchmacInit (d : Digest) (key : Bytes) : HmacCtx d :=
  let pad := (keyPad lib d key).map (· ^^^ 0x5c)
  let outer := ccdigestUpdate lib (ccdigestInit d) pad
  let pad := pad.map (· ^^^ (0x5c ^^^ 0x36))
  { digest := ccdigestUpdate lib (ccdigestInit d) pad, ostate := outer.state }

def cchmacUpdate (ctx : HmacCtx d) (data : Bytes) : HmacCtx d :=
  { ctx with digest := ccdigestUpdate lib ctx.digest data }

def cchmacFinal (ctx : HmacCtx d) : Bytes :=
  let inner := ccdigestFinal lib ctx.digest
  let outer : DigestCtx d :=
    { ctx.digest with
      state := ctx.ostate, nbits := d.blockSize * 8, num := 0, num_lt := d.blockSize_pos }
  ccdigestFinal lib (ccdigestUpdate lib outer inner)

def cchmac (d : Digest) (key data : Bytes) : Bytes :=
  cchmacFinal lib (cchmacUpdate lib (cchmacInit lib d key) data)

/-! ### The function table -/

/-- `cc_clear ()` of a whole context. -/
def HmacCtx.clear (ctx : HmacCtx d) : HmacCtx d where
  digest :=
    { state := ctx.digest.state.map fun _ => 0, nbits := 0, data := .replicate d.blockSize 0, num := 0
      data_length := List.length_replicate, num_lt := d.blockSize_pos }
  ostate := ctx.ostate.map fun _ => 0

/-- `hmac_final ()`, for a size that it does not panic at. -/
def hmacFinal (ctx : HmacCtx d) (len : Nat) : Bytes × HmacCtx d :=
  ((cchmacFinal lib ctx).take len, ctx.clear)

/-- `for (i = 0; i < len; i++) diff |= full[i] ^ p[i]` -/
def diff (full p : Bytes) : UInt8 := (List.zipWith (· ^^^ ·) full p).foldl (· ||| ·) 0

def hmacVerifyFinal (ctx : HmacCtx d) (tag : Bytes) : Bool × HmacCtx d :=
  if tag.length = 0 ∨ tag.length > d.outputSize then (false, ctx.clear)
  else
    let (full, ctx) := hmacFinal lib ctx tag.length
    (diff full tag = 0, ctx)

def hmacVerifyOnce (d : Digest) (key data tag : Bytes) : Bool × HmacCtx d :=
  hmacVerifyFinal lib (cchmacUpdate lib (cchmacInit lib d key) data) tag

/-! ### What a context stands for -/

/-- The count of bits in a LibreSSL context, over its two words. -/
def ShaCtx.bits (d : Digest) (c : ShaCtx) : Nat :=
  match d with
  | .sha1 | .sha256 => c.Nl + 2 ^ 32 * c.Nh
  | _ => c.Nl + 2 ^ 64 * c.Nh

/-- **What is assumed of LibreSSL**: `SHA*_Final ()` of a context with the state after some
blocks, a part of the next block and the count of all bits is the hash `H` of what
these are, and that has the size of the digest. -/
structure Pads (d : Digest) (lib : Library) (H : Bytes → Bytes) : Prop where
  length : ∀ m, (H m).length = d.outputSize
  final : ∀ (blocks : List Bytes) (c : ShaCtx), (∀ b ∈ blocks, b.length = d.blockSize) →
    c.num < d.blockSize → c.data.length = d.blockSize →
    c.h = blocks.foldl lib.transform d.initialState →
    c.bits d = 8 * (blocks.length * d.blockSize + c.num) → c.bits d < 2 ^ 64 →
    (d ≠ .sha1 → c.md_len = d.outputSize) →
    lib.final c = H (blocks.flatten ++ c.data.take c.num)

/-- The context after `m`. -/
def Represents (ctx : DigestCtx d) (m : Bytes) : Prop :=
  ∃ blocks : List Bytes, (∀ b ∈ blocks, b.length = d.blockSize) ∧
    m = blocks.flatten ++ ctx.data.take ctx.num ∧
    ctx.state = blocks.foldl lib.transform d.initialState ∧
    ctx.nbits = blocks.length * d.blockSize * 8 % 2 ^ 64

variable {lib} {H : Bytes → Bytes} {m p : Bytes} {ctx : DigestCtx d}

theorem represents_init (d : Digest) : Represents lib (ccdigestInit d) [] :=
  ⟨[], by simp, rfl, rfl, by simp [ccdigestInit]⟩

theorem take_overwrite {dst : Bytes} {i : Nat} (src : Bytes) (h : i ≤ dst.length) :
    (overwrite dst i src).take (i + src.length) = dst.take i ++ src := by
  have hlen : (dst.take i ++ src).length = i + src.length := by
    rw [List.length_append, List.length_take]
    omega
  rw [overwrite, ← hlen, List.take_left]

theorem Represents.absorb (h : Represents lib ctx m) (hp : p.length ≤ d.blockSize - ctx.num) :
    Represents lib (absorb lib ctx p hp) (m ++ p) := by
  have hlt := ctx.num_lt
  have hdata := ctx.data_length
  have htake := take_overwrite p (show ctx.num ≤ ctx.data.length by omega)
  obtain ⟨blocks, hblocks, rfl, hstate, hbits⟩ := h
  unfold Xnu.absorb
  dsimp only
  split
  · next hfull =>
      have hlen : (overwrite ctx.data ctx.num p).length = d.blockSize :=
        (length_overwrite (by omega)).trans hdata
      have hblock : overwrite ctx.data ctx.num p = ctx.data.take ctx.num ++ p := by
        rw [hfull, ← hlen, List.take_length] at htake
        exact htake
      refine ⟨blocks ++ [overwrite ctx.data ctx.num p], ?_, ?_, ?_, ?_⟩
      · intro b hb
        obtain hb | hb := List.mem_append.1 hb
        · exact hblocks b hb
        · rw [List.mem_singleton.1 hb, hlen]
      · simp [hblock]
      · simp [hstate]
      · rw [hbits, List.length_append, List.length_singleton, Nat.mod_add_mod, Nat.add_mul,
          Nat.add_mul, Nat.one_mul]
  · refine ⟨blocks, hblocks, ?_, hstate, hbits⟩
    rw [htake, List.append_assoc]

theorem Represents.update (h : Represents lib ctx m) :
    Represents lib (ccdigestUpdate lib ctx p) (m ++ p) := by
  induction hn : p.length using Nat.strong_induction_on generalizing ctx m p with
  | h n ih =>
      subst hn
      rw [ccdigestUpdate]
      split
      · next hnil =>
          rw [hnil, List.append_nil]
          exact h
      · next hne =>
          obtain ⟨count, hcount⟩ : ∃ c, min (d.blockSize - ctx.num) p.length = c := ⟨_, rfl⟩
          simp only [hcount]
          have hlt := ctx.num_lt
          have hpos := List.length_pos_of_ne_nil hne
          have hstep := h.absorb (p := p.take count) (by rw [List.length_take]; omega)
          have hrest := ih (p.drop count).length (by rw [List.length_drop]; omega) hstep rfl
          rwa [List.append_assoc, List.take_append_drop] at hrest

/-- The count of bits that LibreSSL is given. -/
theorem bits_shaCtx (ctx : DigestCtx d) :
    (shaCtx ctx).bits d = (ctx.nbits + ctx.num * 8) % 2 ^ 64 := by
  unfold ShaCtx.bits shaCtx
  cases d with
  | sha1 => exact Nat.mod_add_div _ _
  | sha256 => exact Nat.mod_add_div _ _
  | sha384 => rfl
  | sha512 => rfl

theorem shaCtx_fields (ctx : DigestCtx d) :
    (shaCtx ctx).h = ctx.state ∧ (shaCtx ctx).num = ctx.num ∧ (shaCtx ctx).data = ctx.data ∧
      (d ≠ .sha1 → (shaCtx ctx).md_len = d.outputSize) := by
  unfold shaCtx
  cases d with
  | sha1 => exact ⟨rfl, rfl, rfl, fun h => absurd rfl h⟩
  | sha256 => exact ⟨rfl, rfl, rfl, fun _ => rfl⟩
  | sha384 => exact ⟨rfl, rfl, rfl, fun _ => rfl⟩
  | sha512 => exact ⟨rfl, rfl, rfl, fun _ => rfl⟩

theorem length_flatten {blocks : List Bytes} (h : ∀ b ∈ blocks, b.length = d.blockSize) :
    blocks.flatten.length = blocks.length * d.blockSize := by
  rw [List.length_flatten, List.map_congr_left h, List.map_const', List.sum_replicate, smul_eq_mul]

theorem Represents.final (hlib : Pads d lib H) (h : Represents lib ctx m)
    (hm : m.length < 2 ^ 61) : ccdigestFinal lib ctx = H m := by
  obtain ⟨blocks, hblocks, rfl, hstate, hbits⟩ := h
  obtain ⟨hh, hnum, hdata, hlen⟩ := shaCtx_fields ctx
  have hlt := ctx.num_lt
  have hbuffer := ctx.data_length
  have hsize : blocks.length * d.blockSize + ctx.num < 2 ^ 61 := by
    rw [List.length_append, length_flatten hblocks, List.length_take] at hm
    omega
  have hcount : (shaCtx ctx).bits d = 8 * (blocks.length * d.blockSize + ctx.num) := by
    rw [bits_shaCtx, hbits, Nat.mod_add_mod, Nat.mod_eq_of_lt]
    · ring
    · omega
  have hfinal := hlib.final blocks (shaCtx ctx) hblocks (by rw [hnum]; exact hlt)
    (by rw [hdata]; exact hbuffer) (hh.trans hstate) (by rw [hcount, hnum]) (by omega) hlen
  rw [hdata, hnum] at hfinal
  exact hfinal

theorem ccdigest_eq (hlib : Pads d lib H) (hm : m.length < 2 ^ 61) : ccdigest lib d m = H m := by
  have h : Represents lib (ccdigestUpdate lib (ccdigestInit d) m) ([] ++ m) :=
    (represents_init d).update
  exact h.final hlib hm

/-! ### RFC 2104 -/

/-- The key of the block size. -/
def rfcKey (H : Bytes → Bytes) (d : Digest) (key : Bytes) : Bytes :=
  let key := if key.length > d.blockSize then H key else key
  key ++ List.replicate (d.blockSize - key.length) 0

/-- `H (K XOR opad, H (K XOR ipad, text))` -/
def rfcHmac (H : Bytes → Bytes) (d : Digest) (key text : Bytes) : Bytes :=
  let K := rfcKey H d key
  H (K.map (· ^^^ 0x5c) ++ H (K.map (· ^^^ 0x36) ++ text))

theorem overwrite_zero {n : Nat} {src : Bytes} :
    overwrite (List.replicate n 0) 0 src = src ++ List.replicate (n - src.length) 0 := by
  simp [overwrite]

theorem keyPad_eq (hlib : Pads d lib H) {key : Bytes} (hkey : key.length < 2 ^ 60) :
    keyPad lib d key = rfcKey H d key := by
  unfold keyPad rfcKey
  dsimp only
  split
  · rw [ccdigest_eq hlib (by omega), overwrite_zero]
  · rw [overwrite_zero]

theorem length_rfcKey (hlib : Pads d lib H) {key : Bytes} : (rfcKey H d key).length = d.blockSize := by
  have hout := d.outputSize_le
  unfold rfcKey
  dsimp only
  rw [List.length_append, List.length_replicate]
  split
  · rw [hlib.length]
    omega
  · omega

/-- A block that is taken into a new context is compressed at once. -/
theorem update_block {block : Bytes} (h : block.length = d.blockSize) :
    (ccdigestUpdate lib (ccdigestInit d) block).state = lib.transform d.initialState block := by
  have hpos := d.blockSize_pos
  have hne : block ≠ [] := by
    rintro rfl
    rw [List.length_nil] at h
    omega
  have hcount : min (d.blockSize - (ccdigestInit d).num) block.length = block.length := by
    simp [ccdigestInit, h]
  have hdata : overwrite (ccdigestInit d).data (ccdigestInit d).num block = block := by
    simp [ccdigestInit, overwrite, h]
  rw [ccdigestUpdate, dif_neg hne]
  simp only [hcount, List.take_length, List.drop_length]
  rw [ccdigestUpdate, dif_pos rfl, Xnu.absorb]
  have hfull : (ccdigestInit d).num + block.length = d.blockSize := by
    rw [h]
    exact Nat.zero_add _
  rw [dif_pos hfull]
  dsimp only
  rw [hdata]
  rfl

/-- The two contexts of a key. -/
theorem cchmacInit_spec (hlib : Pads d lib H) {key : Bytes} (hkey : key.length < 2 ^ 60) :
    Represents lib (cchmacInit lib d key).digest ((rfcKey H d key).map (· ^^^ 0x36)) ∧
      (cchmacInit lib d key).ostate =
        lib.transform d.initialState ((rfcKey H d key).map (· ^^^ 0x5c)) := by
  have hmap : ((rfcKey H d key).map (· ^^^ 0x5c)).map (· ^^^ (0x5c ^^^ 0x36)) =
      (rfcKey H d key).map (· ^^^ 0x36) := by
    rw [List.map_map]
    refine List.map_congr_left fun c _ => ?_
    show c ^^^ 0x5c ^^^ (0x5c ^^^ 0x36) = c ^^^ 0x36
    rw [UInt8.xor_assoc, ← UInt8.xor_assoc 0x5c, UInt8.xor_self, UInt8.zero_xor]
  unfold cchmacInit
  dsimp only
  rw [keyPad_eq hlib hkey, hmap]
  constructor
  · exact (represents_init d).update
  · have hlen : ((rfcKey H d key).map (· ^^^ 0x5c)).length = d.blockSize := by
      rw [List.length_map, length_rfcKey hlib]
    rw [update_block hlen]

theorem foldl_cchmacUpdate (pieces : List Bytes) (ctx : HmacCtx d)
    (h : Represents lib ctx.digest m) :
    Represents lib (pieces.foldl (cchmacUpdate lib) ctx).digest (m ++ pieces.flatten) ∧
      (pieces.foldl (cchmacUpdate lib) ctx).ostate = ctx.ostate := by
  induction pieces generalizing ctx m with
  | nil => exact ⟨by simpa using h, rfl⟩
  | cons p pieces ih =>
      have hstep : Represents lib (cchmacUpdate lib ctx p).digest (m ++ p) := h.update
      obtain ⟨hrest, hostate⟩ := ih (cchmacUpdate lib ctx p) hstep
      rw [List.foldl_cons, List.flatten_cons, ← List.append_assoc]
      exact ⟨hrest, hostate⟩

/-- The outer hash goes on from the state after its first block. -/
theorem cchmacFinal_eq (hlib : Pads d lib H) {ctx : HmacCtx d} {block : Bytes}
    (h : Represents lib ctx.digest m) (hm : m.length < 2 ^ 61)
    (hblock : block.length = d.blockSize)
    (hostate : ctx.ostate = lib.transform d.initialState block) :
    cchmacFinal lib ctx = H (block ++ H m) := by
  have hout := hlib.length m
  have hsizes : d.outputSize ≤ 64 ∧ d.blockSize ≤ 128 := by cases d <;> decide
  unfold cchmacFinal
  dsimp only
  rw [h.final hlib hm]
  refine Represents.final hlib (Represents.update ⟨[block], ?_, ?_, ?_, ?_⟩) ?_
  · intro b hb
    rw [List.mem_singleton.1 hb, hblock]
  · simp
  · simpa using hostate
  · dsimp only
    rw [List.length_singleton, Nat.one_mul, Nat.mod_eq_of_lt]
    omega
  · rw [List.length_append]
    omega

/-- A tag differs nowhere from what it is compared with. -/
theorem diff_eq_zero {full p : Bytes} (h : full.length = p.length) : diff full p = 0 ↔ full = p := by
  have hfold : ∀ (l : Bytes) (a : UInt8), l.foldl (· ||| ·) a = 0 ↔ a = 0 ∧ ∀ c ∈ l, c = 0 := by
    intro l
    induction l with
    | nil => simp
    | cons c l ih =>
        intro a
        rw [List.foldl_cons, ih, UInt8.or_eq_zero_iff]
        simp [and_assoc]
  have hxor : ∀ a b : UInt8, a ^^^ b = 0 ↔ a = b := fun a b => UInt8.xor_eq_zero_iff
  rw [diff, hfold]
  simp only [true_and]
  induction full generalizing p with
  | nil =>
      cases p with
      | nil => simp
      | cons c p => simp at h
  | cons a full ih =>
      cases p with
      | nil => simp at h
      | cons b p =>
          have hlen : full.length = p.length := by simpa using h
          simp only [List.zipWith_cons_cons, List.forall_mem_cons, hxor, List.cons.injEq, ih hlen]

/-- Every byte of the context is zero. -/
def Cleared (ctx : HmacCtx d) : Prop :=
  (∀ x ∈ ctx.digest.state, x = 0) ∧ ctx.digest.nbits = 0 ∧ (∀ c ∈ ctx.digest.data, c = 0) ∧
    ctx.digest.num = 0 ∧ ∀ x ∈ ctx.ostate, x = 0

theorem cleared_clear (ctx : HmacCtx d) : Cleared ctx.clear := by
  refine ⟨?_, rfl, ?_, rfl, ?_⟩
  · simp [HmacCtx.clear]
  · intro c hc
    exact List.eq_of_mem_replicate hc
  · simp [HmacCtx.clear]

theorem cchmac_pieces (hlib : Pads d lib H) {key : Bytes} (pieces : List Bytes)
    (hkey : key.length < 2 ^ 60) (hm : pieces.flatten.length < 2 ^ 60) :
    cchmacFinal lib (pieces.foldl (cchmacUpdate lib) (cchmacInit lib d key)) =
      rfcHmac H d key pieces.flatten := by
  obtain ⟨hinner, houter⟩ := cchmacInit_spec hlib hkey
  obtain ⟨hrep, hostate⟩ := foldl_cchmacUpdate pieces _ hinner
  have hblock : d.blockSize ≤ 128 := by cases d <;> decide
  refine cchmacFinal_eq hlib hrep ?_ ?_ (hostate.trans houter)
  · rw [List.length_append, List.length_map, length_rfcKey hlib]
    omega
  · rw [List.length_map, length_rfcKey hlib]

theorem length_rfcHmac (hlib : Pads d lib H) {key text : Bytes} :
    (rfcHmac H d key text).length = d.outputSize := hlib.length _

theorem hmacVerifyFinal_spec {ctx : HmacCtx d} {tag full : Bytes}
    (hfull : cchmacFinal lib ctx = full) (hlen : full.length = d.outputSize) :
    ((hmacVerifyFinal lib ctx tag).1 = true ↔
      1 ≤ tag.length ∧ tag.length ≤ d.outputSize ∧ tag <+: full) ∧
    Cleared (hmacVerifyFinal lib ctx tag).2 := by
  unfold hmacVerifyFinal
  split
  · next hbad =>
      refine ⟨?_, cleared_clear ctx⟩
      simp only [Bool.false_eq_true, false_iff, not_and]
      omega
  · next hgood =>
      refine ⟨?_, cleared_clear ctx⟩
      have htake : (full.take tag.length).length = tag.length := by
        rw [List.length_take]
        omega
      simp only [hmacFinal, hfull, decide_eq_true_eq, diff_eq_zero htake]
      constructor
      · intro heq
        exact ⟨by omega, by omega, heq ▸ List.take_prefix _ _⟩
      · rintro ⟨-, -, hinit⟩
        exact (List.prefix_iff_eq_take.1 hinit).symm

/-- **HMAC is that of RFC 2104**, however the message is split, and a tag is accepted
exactly if it is a nonempty prefix of it. -/
theorem hmac_is_rfc2104 (hlib : Pads d lib H) (key : Bytes) (pieces : List Bytes)
    (hkey : key.length < 2 ^ 60) (hm : pieces.flatten.length < 2 ^ 60) :
    cchmacFinal lib (pieces.foldl (cchmacUpdate lib) (cchmacInit lib d key)) =
      rfcHmac H d key pieces.flatten ∧
    ∀ tag : Bytes,
      ((hmacVerifyOnce lib d key pieces.flatten tag).1 = true ↔
        1 ≤ tag.length ∧ tag.length ≤ d.outputSize ∧ tag <+: rfcHmac H d key pieces.flatten) ∧
      Cleared (hmacVerifyOnce lib d key pieces.flatten tag).2 := by
  refine ⟨cchmac_pieces hlib pieces hkey hm, fun tag => ?_⟩
  have hone := cchmac_pieces hlib [pieces.flatten] hkey (by simpa using hm)
  rw [List.flatten_singleton] at hone
  exact hmacVerifyFinal_spec hone (length_rfcHmac hlib)

/-! ### SHA-256

As FIPS 180-4 has it, to have one library that pads. -/

def sha256Constants : List UInt32 :=
  [0x428a2f98, 0x71374491, 0xb5c0fbcf, 0xe9b5dba5, 0x3956c25b, 0x59f111f1, 0x923f82a4, 0xab1c5ed5,
   0xd807aa98, 0x12835b01, 0x243185be, 0x550c7dc3, 0x72be5d74, 0x80deb1fe, 0x9bdc06a7, 0xc19bf174,
   0xe49b69c1, 0xefbe4786, 0x0fc19dc6, 0x240ca1cc, 0x2de92c6f, 0x4a7484aa, 0x5cb0a9dc, 0x76f988da,
   0x983e5152, 0xa831c66d, 0xb00327c8, 0xbf597fc7, 0xc6e00bf3, 0xd5a79147, 0x06ca6351, 0x14292967,
   0x27b70a85, 0x2e1b2138, 0x4d2c6dfc, 0x53380d13, 0x650a7354, 0x766a0abb, 0x81c2c92e, 0x92722c85,
   0xa2bfe8a1, 0xa81a664b, 0xc24b8b70, 0xc76c51a3, 0xd192e819, 0xd6990624, 0xf40e3585, 0x106aa070,
   0x19a4c116, 0x1e376c08, 0x2748774c, 0x34b0bcb5, 0x391c0cb3, 0x4ed8aa4a, 0x5b9cca4f, 0x682e6ff3,
   0x748f82ee, 0x78a5636f, 0x84c87814, 0x8cc70208, 0x90befffa, 0xa4506ceb, 0xbef9a3f7, 0xc67178f2]

def rotr (x : UInt32) (n : UInt32) : UInt32 := (x >>> n) ||| (x <<< (32 - n))

def wordOf (l : Bytes) : UInt32 := l.foldl (fun n c => n * 256 + c.toUInt32) 0

def bytesOf (n k : Nat) : Bytes := (List.range k).map fun i => UInt8.ofNat (n / 256 ^ (k - 1 - i))

/-- The schedule, the latest word first. -/
def sha256Schedule (block : Bytes) : Nat → List UInt32
  | 0 => []
  | t + 1 =>
      let w := sha256Schedule block t
      let x := w.getD 1 0
      let y := w.getD 14 0
      (if t < 16 then wordOf ((block.drop (4 * t)).take 4)
       else (rotr x 17 ^^^ rotr x 19 ^^^ (x >>> 10)) + w.getD 6 0 +
         (rotr y 7 ^^^ rotr y 18 ^^^ (y >>> 3)) + w.getD 15 0) :: w

def sha256Round (k w : UInt32) : List UInt32 → List UInt32
  | [a, b, c, d, e, f, g, h] =>
      let t1 := h + (rotr e 6 ^^^ rotr e 11 ^^^ rotr e 25) + ((e &&& f) ^^^ (~~~ e &&& g)) + k + w
      let t2 := (rotr a 2 ^^^ rotr a 13 ^^^ rotr a 22) +
        ((a &&& b) ^^^ (a &&& c) ^^^ (b &&& c))
      [t1 + t2, a, b, c, d + t1, e, f, g]
  | l => l

def sha256Transform (h : List Nat) (block : Bytes) : List Nat :=
  let h := h.map UInt32.ofNat
  let rounds := (sha256Constants.zip (sha256Schedule block 64).reverse).foldl
    (fun s x => sha256Round x.1 x.2 s) h
  (List.zipWith (· + ·) h rounds).map UInt32.toNat

/-- `block` bytes at a time. -/
def hashBlocks (transform : List Nat → Bytes → List Nat) (block : Nat) (h : List Nat) (m : Bytes) :
    List Nat :=
  if _hm : 0 < block ∧ block ≤ m.length then
    hashBlocks transform block (transform h (m.take block)) (m.drop block)
  else h
termination_by m.length
decreasing_by
  rw [List.length_drop]
  omega

theorem hashBlocks_flatten {transform : List Nat → Bytes → List Nat} {block : Nat} {h : List Nat}
    {blocks : List Bytes} {rest : Bytes} (hpos : 0 < block) (hb : ∀ b ∈ blocks, b.length = block) :
    hashBlocks transform block h (blocks.flatten ++ rest) =
      hashBlocks transform block (blocks.foldl transform h) rest := by
  induction blocks generalizing h with
  | nil => rfl
  | cons b blocks ih =>
      have hlen := hb b (.head _)
      have hsplit : (b :: blocks).flatten ++ rest = b ++ (blocks.flatten ++ rest) := by simp
      have hlong : 0 < block ∧ block ≤ (b ++ (blocks.flatten ++ rest)).length := by
        rw [List.length_append]
        omega
      rw [hsplit, hashBlocks, dif_pos hlong, ← hlen, List.take_left, List.drop_left, hlen,
        ih fun b' hb' => hb b' (.tail _ hb')]
      rfl

/-- The padding behind a message that ends `num` bytes into a block. -/
def sha256Padding (num bits : Nat) : Bytes :=
  0x80 :: (List.replicate ((119 - num % 64) % 64) 0 ++ bytesOf bits 8)

def sha256Output (h : List Nat) : Bytes := (List.range 8).flatMap fun i => bytesOf (h.getD i 0) 4

def sha256 (m : Bytes) : Bytes :=
  sha256Output (hashBlocks sha256Transform 64 Digest.sha256.initialState
    (m ++ sha256Padding m.length (8 * m.length)))

def sha256Library : Library where
  transform := sha256Transform
  final c := sha256Output (hashBlocks sha256Transform 64 c.h
    (c.data.take c.num ++ sha256Padding c.num (c.bits .sha256)))

theorem pads_sha256 : Pads .sha256 sha256Library sha256 := by
  constructor
  · intro m
    simp [sha256, sha256Output, bytesOf, Digest.outputSize]
  · intro blocks c hblocks hnum hdata hstate hbits _ _
    have hlen : (blocks.flatten ++ c.data.take c.num).length = blocks.length * 64 + c.num := by
      rw [List.length_append, length_flatten hblocks, List.length_take, hdata]
      simp only [Digest.blockSize] at hnum ⊢
      omega
    have hpadding : sha256Padding (blocks.length * 64 + c.num) (8 * (blocks.length * 64 + c.num)) =
        sha256Padding c.num (c.bits .sha256) := by
      rw [hbits, sha256Padding, sha256Padding, Nat.mul_add_mod_self_right]
      rfl
    have hblocks' : ∀ b ∈ blocks, b.length = 64 := hblocks
    rw [sha256, hlen, hpadding, List.append_assoc, hashBlocks_flatten (by decide) hblocks']
    simp only [sha256Library, hstate]

theorem hmac_is_rfc2104_sha256 :
    cchmacFinal sha256Library ([[1], [2, 3]].foldl (cchmacUpdate sha256Library)
      (cchmacInit sha256Library .sha256 (List.replicate 70 9))) =
      rfcHmac sha256 .sha256 (List.replicate 70 9) [1, 2, 3] ∧
    ((hmacVerifyOnce sha256Library .sha256 (List.replicate 70 9) [1, 2, 3] []).1 = true ↔ False) := by
  obtain ⟨hmac, hverify⟩ := hmac_is_rfc2104 pads_sha256 (List.replicate 70 9) [[1], [2, 3]] (by simp)
    (by simp)
  refine ⟨hmac, (hverify []).1.trans ?_⟩
  simp

end MiniDarwin.Xnu
