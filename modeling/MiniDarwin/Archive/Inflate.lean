import MiniDarwin.Archive.Basic

/-!
Decompression and digests (`util.c`).

zlib and the digest functions of OpenSSL are parameters. A stream of zlib is
whatever `inflateInit2 ()` makes; `inflate ()` consumes some of the input it
is offered and produces at most as many bytes as there is room for, and
says `Z_OK` only if it did something.
-/

namespace MiniDarwin.Archive

open Posix (Bytes)

/-! ### zlib -/

inductive Status where
  | ok
  | streamEnd
  | error
  deriving DecidableEq

/-- What a call of `inflate ()` does. -/
structure Step (σ : Type) where
  status : Status
  stream : σ
  consumed : Nat
  produced : Bytes

structure Zlib where
  Stream : Type
  /-- `inflateInit2 ()` -/
  init : (windowBits : Nat) → Option Stream
  /-- `inflate (&z, Z_NO_FLUSH)`, with `avail_in` and `avail_out` -/
  inflate : Stream → (input : Bytes) → (room : Nat) → Step Stream
  consumed_le : ∀ s input room, (inflate s input room).consumed ≤ input.length
  produced_le : ∀ s input room, (inflate s input room).produced.length ≤ room
  progress : ∀ s input room, (inflate s input room).status = .ok →
    0 < (inflate s input room).consumed ∨ (inflate s input room).produced ≠ []

/-- From a stream and an input, calls of `inflate ()` in whatever pieces produce `out` and
come to the end of the stream with `rest` left over. -/
inductive Zlib.Produces (z : Zlib) : z.Stream → (input out rest : Bytes) → Prop where
  | done {s : z.Stream} {input : Bytes} (room : Nat) (h : (z.inflate s input room).status = .streamEnd) :
      Produces z s input (z.inflate s input room).produced
        (input.drop (z.inflate s input room).consumed)
  | more {s : z.Stream} {input out rest : Bytes} (room : Nat) (h : (z.inflate s input room).status = .ok)
      (hrest : Produces z (z.inflate s input room).stream (input.drop (z.inflate s input room).consumed)
        out rest) :
      Produces z s input ((z.inflate s input room).produced ++ out) rest

/-- **What is assumed of zlib**: it decodes its format, however it is called. -/
def Zlib.Decodes (z : Zlib) (decode : (windowBits : Nat) → Bytes → Option Bytes) : Prop :=
  ∀ windowBits s input out, z.init windowBits = some s → z.Produces s input out [] →
    decode windowBits input = some out

/-! ### `inflate_limited ()` -/

/-- `decoded_total` -/
abbrev M := StateT Nat Result

def dieM {α : Type} (message : String) : M α := fun _ => die message

def decodedAccount (n : Nat) : M Unit := fun total => do
  let room ← minus limitDecoded total
  dieIf (n > room) "total decompression limit"
  return ((), total + n)

def uintMax : Nat := 2 ^ 32 - 1

/-- More room, where there is none. -/
def grow (limit cap : Nat) (out : Bytes) : Result Nat :=
  if out.length = cap then
    if cap = limit then die "decompression limit"
    else .ok (if cap > limit / 2 then limit else cap * 2)
  else .ok cap

/-- The loop, with the rounds that are left: every round consumes or produces something. -/
def inflateRounds (z : Zlib) (limit : Nat) :
    (rounds : Nat) → z.Stream → (input out : Bytes) → (cap : Nat) → Result (Bytes × Bytes)
  | 0, _, _, _, _ => .error .fault
  | rounds + 1, s, input, out, cap => do
      let cap ← grow limit cap out
      let room ← minus cap out.length
      let step := z.inflate s input (min room uintMax)
      let out := out ++ step.produced
      let input := input.drop step.consumed
      dieIf (step.status = .error) "corrupt compressed stream"
      dieIf (step.status ≠ .streamEnd ∧ input = [] ∧ step.produced.length < min room uintMax)
        "truncated compressed stream"
      if step.status = .streamEnd then return (out, input)
      else inflateRounds z limit rounds step.stream input out cap

/-- `inflateInit2 (&z, window_bits) == Z_OK` -/
def inflateInit (z : Zlib) (windowBits : Nat) : Result z.Stream :=
  match z.init windowBits with
  | some s => .ok s
  | none => die "invalid compressed stream"

def inflateLimited (z : Zlib) (input : Bytes) (windowBits expected limit : Nat) : M Bytes := do
  dieIf (input.length > uintMax) "invalid compressed stream"
  let s ← inflateInit z windowBits
  let cap := if expected ≠ 0 then expected else 65536
  dieIf (cap > limit) "decompression limit"
  let (out, rest) ← inflateRounds z limit (input.length + limit + 1) s input [] cap
  dieIf (rest ≠ [] ∨ expected ≠ 0 ∧ out.length ≠ expected) "compressed stream size mismatch"
  decodedAccount out.length
  return out

/-! ### Digests -/

inductive Algorithm where
  | sha1
  | md5
  | sha256
  | sha512
  deriving DecidableEq

def algorithmOf (name : Bytes) : Option Algorithm :=
  if name = lit "sha1" then some .sha1
  else if name = lit "md5" then some .md5
  else if name = lit "sha256" then some .sha256
  else if name = lit "sha512" then some .sha512
  else none

/-- `evp` is `EVP_Digest ()`. -/
def digest (evp : Algorithm → Bytes → Option Bytes) (data name : Bytes) : Result Bytes :=
  match algorithmOf name with
  | none => die s!"unsupported checksum algorithm: {text name}"
  | some a =>
      match evp a data with
      | none => die "checksum failure"
      | some d => .ok d

def hexDigit (n : Nat) : UInt8 := UInt8.ofNat (if n < 10 then 48 + n else 87 + n)

def hexEncode (b : Bytes) : Bytes := b.flatMap fun c => [hexDigit (c.toNat / 16), hexDigit (c.toNat % 16)]

def toLower (c : UInt8) : UInt8 := if 65 ≤ c ∧ c ≤ 90 then c + 32 else c

/-- `!strcasecmp ()` -/
def sameCaseless (a b : Bytes) : Bool := a.map toLower = b.map toLower

/-! ### Rules -/

/-- There is no fault, and a result meets `Q` together with the new total. -/
def SafelyM {α : Type} (x : M α) (total : Nat) (Q : α → Nat → Prop) : Prop :=
  Safely (x.run total) fun p => Q p.1 p.2

section Rules

variable {α β : Type} {x : M α} {f : α → M β} {total : Nat} {Q R : α → Nat → Prop} {P : β → Nat → Prop}

theorem safelyM_pure {a : α} (h : Q a total) : SafelyM (pure a) total Q := safely_ok h

theorem safelyM_bind (h : SafelyM x total fun a total' => SafelyM (f a) total' P) :
    SafelyM (x >>= f) total P := by
  unfold SafelyM
  rw [StateT.run_bind]
  exact safely_bind h

theorem safelyM_lift {y : Result α} (h : Safely y fun a => Q a total) :
    SafelyM (liftM y : M α) total Q := by
  apply safely_bind
  apply h.mono
  intro a ha
  exact safely_ok ha

theorem SafelyM.mono (h : SafelyM x total Q) (hQ : ∀ a t, Q a t → R a t) : SafelyM x total R :=
  Safely.mono h fun p hp => hQ p.1 p.2 hp

theorem safelyM_decodedAccount {n : Nat} {Q : Unit → Nat → Prop} (htotal : total ≤ limitDecoded)
    (h : total + n ≤ limitDecoded → Q () (total + n)) : SafelyM (decodedAccount n) total Q := by
  apply safely_bind
  apply safely_minus htotal
  apply safely_bind
  apply safely_dieIf
  intro hroom
  exact safely_pure (h (by omega))

/-- There is room afterwards. -/
theorem safely_grow {limit cap : Nat} {out : Bytes} (hpos : 0 < cap) (hout : out.length ≤ cap)
    (hcap : cap ≤ limit) : Safely (grow limit cap out) fun cap' => out.length < cap' ∧ cap' ≤ limit := by
  unfold grow
  split
  · next heq =>
      split
      · exact safely_die
      · apply safely_ok
        split
        · omega
        · omega
  · next hne => exact safely_ok ⟨by omega, hcap⟩

/-- The rounds are enough, and what comes out is what zlib produces. -/
theorem safely_inflateRounds (z : Zlib) {limit rounds cap : Nat} {s : z.Stream} {input out : Bytes}
    (hpos : 0 < cap) (hout : out.length ≤ cap) (hcap : cap ≤ limit)
    (hrounds : input.length + (limit - out.length) < rounds) :
    Safely (inflateRounds z limit rounds s input out cap) fun r =>
      ∃ tail, r.1 = out ++ tail ∧ z.Produces s input tail r.2 := by
  induction rounds generalizing s input out cap with
  | zero => omega
  | succ rounds ih =>
      apply safely_bind
      apply (safely_grow hpos hout hcap).mono
      rintro cap' ⟨hroom, hcap'⟩
      apply safely_bind
      apply safely_minus hroom.le
      obtain ⟨room, hroom'⟩ : ∃ n, min (cap' - out.length) uintMax = n := ⟨_, rfl⟩
      simp only [hroom']
      have hconsumed := z.consumed_le s input room
      have hproduced := z.produced_le s input room
      apply safely_bind
      apply safely_dieIf
      intro herror
      apply safely_bind
      apply safely_dieIf
      intro _
      split
      · next hend => exact safely_pure ⟨_, rfl, .done room hend⟩
      · next hend =>
          have hok : (z.inflate s input room).status = .ok := by
            cases hstatus : (z.inflate s input room).status with
            | ok => rfl
            | streamEnd => exact absurd hstatus hend
            | error => exact absurd hstatus herror
          have hprogress := (z.progress s input room hok).imp_right List.length_pos_iff.2
          have hsum : (out ++ (z.inflate s input room).produced).length =
              out.length + (z.inflate s input room).produced.length := List.length_append
          have hdrop : (input.drop (z.inflate s input room).consumed).length =
              input.length - (z.inflate s input room).consumed := List.length_drop
          refine (ih (by omega) (by omega) hcap' (by omega)).mono ?_
          rintro r ⟨tail, hr, htail⟩
          exact ⟨_, by rw [hr, List.append_assoc], .more room hok htail⟩

theorem safelyM_inflateLimited (z : Zlib) {input : Bytes} {windowBits expected limit : Nat}
    (htotal : total ≤ limitDecoded) :
    SafelyM (inflateLimited z input windowBits expected limit) total fun out total' =>
      total' ≤ limitDecoded ∧ ∃ s, z.init windowBits = some s ∧ z.Produces s input out [] := by
  apply safelyM_bind
  apply safelyM_lift
  apply safely_dieIf
  intro _
  apply safelyM_bind
  apply safelyM_lift
  unfold inflateInit
  split
  · next s hs =>
      apply safely_ok
      apply safelyM_bind
      apply safelyM_lift
      apply safely_dieIf
      intro hcap
      apply safelyM_bind
      apply safelyM_lift
      have hpos : 0 < (if expected ≠ 0 then expected else 65536) := by
        split
        · omega
        · omega
      apply (safely_inflateRounds z hpos (by simp) (not_lt.1 hcap) (by simp)).mono
      rintro ⟨out, rest⟩ ⟨tail, hout, hproduces⟩
      apply safelyM_bind
      apply safelyM_lift
      apply safely_dieIf
      intro hrest
      have hnil : rest = [] := not_not.1 fun hne => hrest (.inl hne)
      have htail : out = tail := by simpa using hout
      apply safelyM_bind
      apply safelyM_decodedAccount htotal
      intro htotal'
      apply safelyM_pure
      rw [hnil, ← htail] at hproduces
      exact ⟨htotal', s, hs, hproduces⟩
  · exact safely_die

end Rules

end MiniDarwin.Archive
