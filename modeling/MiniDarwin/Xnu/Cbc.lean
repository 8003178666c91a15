import Mathlib
import MiniDarwin.Data.Chaining

/-!
CBC (`support/kernel-aes.c`).

Memory is a function of the address, and 0 is the null pointer. The block
cipher is LibreSSL's and a parameter. The input and the output are the same
blocks or do not meet, and the chaining value lies apart from both.
-/

namespace MiniDarwin.Xnu.Cbc

open Data

/-- 16 bytes. -/
abbrev Block := Fin 16 → UInt8

abbrev Memory := Nat → UInt8

def load (mem : Memory) (a : Nat) : Block := fun j => mem (a + j)

/-- `memcpy (a, block, 16)` -/
def store (mem : Memory) (a : Nat) (block : Block) : Memory := fun x =>
  if h : a ≤ x ∧ x < a + 16 then block ⟨x - a, by omega⟩ else mem x

/-- `a[j] ^ b[j]` for all 16 of them. -/
def xorBlock (a b : Block) : Block := fun j => a j ^^^ b j

/-- `aes_encrypt_generic ()` and `aes_decrypt_generic ()` of a key schedule. -/
structure Cipher (K : Type) where
  encrypt : K → Block → Block
  decrypt : K → Block → Block

def ENCRYPT : UInt32 := 0x4d444145

def DECRYPT : UInt32 := 0x4d444144

/-- `struct aes_context` -/
structure AesContext (K : Type) where
  key : K
  valid : UInt32

variable {K : Type} (aes : Cipher K)

/-- `SIZE_MAX` -/
def sizeMax : Nat := 2 ^ 64 - 1

/-- `!check ()` -/
def check (ctx : Option (AesContext K)) (direction : UInt32) (blocks input output : Nat) : Bool :=
  ctx.any fun c => c.valid = direction ∧ blocks ≤ sizeMax / 16 ∧ (blocks = 0 ∨ input ≠ 0 ∧ output ≠ 0)

/-- A round of `encrypt_cbc ()`. -/
def encryptRound (key : K) (iv input output : Nat) (mem : Memory) (i : Nat) : Memory :=
  let block := xorBlock (load mem (input + i * 16)) (load mem iv)
  let mem := store mem (output + i * 16) (aes.encrypt key block)
  store mem iv (load mem (output + i * 16))

/-- `for (j = 0; j < 16; ++j) out[j] = block[j] ^ chain[j]` -/
def storeXor (mem : Memory) (out chain : Nat) (block : Block) : Memory :=
  (List.finRange 16).foldl (fun mem (j : Fin 16) => Function.update mem (out + j) (block j ^^^ mem (chain + j))) mem

/-- A round of `decrypt_cbc ()`. -/
def decryptRound (key : K) (iv input output : Nat) (mem : Memory) (i : Nat) : Memory :=
  let saved := load mem (input + i * 16)
  let mem := storeXor mem (output + i * 16) iv (aes.decrypt key saved)
  store mem iv saved

/-- What `encrypt_cbc ()` and `decrypt_cbc ()` share: the checks and the loop. -/
def cbc (round : K → Nat → Nat → Nat → Memory → Nat → Memory) (direction : UInt32) (ctx : Option (AesContext K))
    (iv n input output : Nat) (mem : Memory) : Int × Memory :=
  match ctx with
  | none => (-1, mem)
  | some c =>
      if iv = 0 ∨ !check ctx direction n input output then (-1, mem)
      else (0, (List.range n).foldl (round c.key iv input output) mem)

def encryptCbc : Option (AesContext K) → Nat → Nat → Nat → Nat → Memory → Int × Memory :=
  cbc (encryptRound aes) ENCRYPT

def decryptCbc : Option (AesContext K) → Nat → Nat → Nat → Nat → Memory → Int × Memory :=
  cbc (decryptRound aes) DECRYPT

/-! ### Memory -/

variable {aes} {mem : Memory} {a b x : Nat} {block : Block}

theorem store_at (j : Fin 16) : store mem a block (a + j) = block j := by
  have hj := j.isLt
  rw [store, dif_pos (by omega)]
  congr
  omega

theorem store_of_not_mem (h : ¬ (a ≤ x ∧ x < a + 16)) : store mem a block x = mem x := dif_neg h

theorem load_store : load (store mem a block) a = block := funext fun j => store_at j

theorem load_store_of_apart (h : a + 16 ≤ b ∨ b + 16 ≤ a) : load (store mem a block) b = load mem b := by
  ext j
  have hj := j.isLt
  exact congrArg UInt8.toNat (store_of_not_mem (by omega))

theorem xorBlock_xorBlock (a b : Block) : xorBlock (xorBlock a b) b = a := by
  ext j
  simp [xorBlock]

/-- The bytes of a block, one after the other, where the chain lies apart from them. -/
theorem storeXor_eq {out chain : Nat} (h : out + 16 ≤ chain ∨ chain + 16 ≤ out) :
    storeXor mem out chain block = store mem out (xorBlock block (load mem chain)) := by
  have hloop : ∀ l : List (Fin 16),
      (∀ j ∈ l, l.foldl (fun mem (j : Fin 16) => Function.update mem (out + j) (block j ^^^ mem (chain + j))) mem (out + j) =
        block j ^^^ mem (chain + j)) ∧
      ∀ x, (∀ j ∈ l, x ≠ out + j) →
        l.foldl (fun mem (j : Fin 16) => Function.update mem (out + j) (block j ^^^ mem (chain + j))) mem x = mem x := by
    intro l
    induction l using List.reverseRecOn with
    | nil => exact ⟨by simp, fun _ _ => rfl⟩
    | append_singleton l k ih =>
        rw [List.foldl_append, List.foldl_cons, List.foldl_nil]
        have hk := k.isLt
        have hchain := ih.2 (chain + k) fun j _ => by
          have := j.isLt
          omega
        rw [hchain]
        constructor
        · intro j hj
          by_cases hjk : j = k
          · rw [hjk, Function.update_self]
          · have hne : out + (j : Nat) ≠ out + k := fun heq => hjk (Fin.ext (by omega))
            rw [Function.update_of_ne hne]
            exact ih.1 j ((List.mem_append.1 hj).resolve_right fun hmem => hjk (List.mem_singleton.1 hmem))
        · intro x hx
          rw [Function.update_of_ne (hx k (by simp))]
          exact ih.2 x fun j hj => hx j (List.mem_append_left _ hj)
  obtain ⟨hin, hout⟩ := hloop (List.finRange 16)
  funext x
  by_cases hx : out ≤ x ∧ x < out + 16
  · obtain ⟨j, rfl⟩ : ∃ j : Fin 16, x = out + j := ⟨⟨x - out, by omega⟩, by simp; omega⟩
    rw [store_at]
    exact hin j (List.mem_finRange j)
  · rw [store_of_not_mem hx]
    refine hout x fun j _ => ?_
    have := j.isLt
    omega

/-! ### Runs -/

/-- The blocks from an address on. -/
def blocksAt (mem : Memory) (a n : Nat) : List Block := (List.range n).map fun i => load mem (a + i * 16)

/-- The buffers of a call: in place or apart, and the chaining value by itself. -/
structure Layout (iv n input output : Nat) : Prop where
  buffers : output = input ∨ output + 16 * n ≤ input ∨ input + 16 * n ≤ output
  ivInput : iv + 16 ≤ input ∨ input + 16 * n ≤ iv
  ivOutput : iv + 16 ≤ output ∨ output + 16 * n ≤ iv

/-- What a loop leaves: the output, the chaining value, and everything else as it was. -/
structure Leaves (mem after : Memory) (iv n output : Nat) (result : List Block × Block) : Prop where
  blocks : blocksAt after output n = result.1
  chain : load after iv = result.2
  frame : ∀ x, ¬ (output ≤ x ∧ x < output + 16 * n) → ¬ (iv ≤ x ∧ x < iv + 16) → after x = mem x

theorem blocksAt_succ (mem : Memory) (a n : Nat) :
    blocksAt mem a (n + 1) = blocksAt mem a n ++ [load mem (a + n * 16)] := by
  rw [blocksAt, List.range_succ, List.map_append]
  rfl

theorem load_congr {mem' : Memory} (h : ∀ x, a ≤ x → x < a + 16 → mem x = mem' x) : load mem a = load mem' a := by
  funext j
  have hj := j.isLt
  exact h (a + j) (by omega) (by omega)

theorem blocksAt_congr {mem' : Memory} {n : Nat} (h : ∀ x, a ≤ x → x < a + 16 * n → mem x = mem' x) :
    blocksAt mem a n = blocksAt mem' a n := by
  refine List.map_congr_left ?_
  intro i hi
  rw [List.mem_range] at hi
  exact load_congr fun x hx hlt => h x (by omega) (by omega)

section Loops

variable {after : Memory} {iv n k input output : Nat} {result : List Block × Block} (hlayout : Layout iv n input output)
include hlayout

/-- A round that puts a block at its place in the output and a value to chain to. -/
theorem Leaves.round {c chain : Block} (hk : k < n) (h : Leaves mem after iv k output result) :
    Leaves mem (store (store after (output + k * 16) c) iv chain) iv (k + 1) output (result.1 ++ [c], chain) where
  blocks := by
    have hiv := hlayout.ivOutput
    have hlast : load (store (store after (output + k * 16) c) iv chain) (output + k * 16) = c := by
      rw [load_store_of_apart (by omega), load_store]
    rw [blocksAt_succ, hlast, ← h.blocks]
    refine congrArg (· ++ [c]) (blocksAt_congr fun x hx hlt => ?_)
    rw [store_of_not_mem (by omega), store_of_not_mem (by omega)]
  chain := load_store
  frame := by
    intro x hx hiv
    rw [store_of_not_mem hiv, store_of_not_mem (by omega)]
    exact h.frame x (by omega) hiv

/-- The next block of the input is still there. -/
theorem Leaves.unread (hk : k < n) (h : Leaves mem after iv k output result) :
    load after (input + k * 16) = load mem (input + k * 16) := by
  refine load_congr fun x hx hlt => h.frame x ?_ ?_
  · obtain rfl | hbuffers | hbuffers := hlayout.buffers <;> omega
  · have := hlayout.ivInput
    omega

theorem encryptLoop (key : K) (hk : k ≤ n) :
    Leaves mem ((List.range k).foldl (encryptRound aes key iv input output) mem) iv k output
      (encryptChain xorBlock (aes.encrypt key) (load mem iv) (blocksAt mem input k)) := by
  induction k with
  | zero => exact ⟨rfl, rfl, fun _ _ _ => rfl⟩
  | succ k ih =>
      have h := ih (by omega)
      have hiv := hlayout.ivOutput
      rw [List.range_succ, List.foldl_append, List.foldl_cons, List.foldl_nil, blocksAt_succ, encryptChain_concat,
        encryptRound]
      generalize (List.range k).foldl (encryptRound aes key iv input output) mem = after at h
      simp only [h.unread hlayout hk, h.chain, load_store]
      exact h.round hlayout hk

theorem decryptLoop (key : K) (hk : k ≤ n) :
    Leaves mem ((List.range k).foldl (decryptRound aes key iv input output) mem) iv k output
      (decryptChain xorBlock (aes.decrypt key) (load mem iv) (blocksAt mem input k)) := by
  induction k with
  | zero => exact ⟨rfl, rfl, fun _ _ _ => rfl⟩
  | succ k ih =>
      have h := ih (by omega)
      have hiv := hlayout.ivOutput
      rw [List.range_succ, List.foldl_append, List.foldl_cons, List.foldl_nil, blocksAt_succ, decryptChain_concat,
        decryptRound]
      generalize (List.range k).foldl (decryptRound aes key iv input output) mem = after at h
      simp only [h.unread hlayout hk]
      rw [storeXor_eq (by omega), h.chain]
      exact h.round hlayout hk

end Loops

/-! ### Calls -/

section Calls

variable {round : K → Nat → Nat → Nat → Memory → Nat → Memory} {direction : UInt32} {ctx : Option (AesContext K)}
  {iv n input output : Nat} {after : Memory}

/-- A call is accepted. -/
def Accepted (ctx : Option (AesContext K)) (direction : UInt32) (iv n input output : Nat) : Prop :=
  iv ≠ 0 ∧ check ctx direction n input output = true

instance (ctx : Option (AesContext K)) (direction : UInt32) (iv n input output : Nat) :
    Decidable (Accepted ctx direction iv n input output) := inferInstanceAs (Decidable (_ ∧ _))

theorem cbc_some (c : AesContext K) :
    cbc round direction (some c) iv n input output mem = (0, after) ↔
      Accepted (some c) direction iv n input output ∧
        (List.range n).foldl (round c.key iv input output) mem = after := by
  rw [cbc, Accepted]
  split
  next h =>
    simp only [Bool.not_eq_true', Prod.mk.injEq, reduceCtorEq, false_and, false_iff, not_and] at h ⊢
    rintro ⟨hiv, hcheck⟩
    obtain h | h := h
    · exact absurd h hiv
    · rw [h] at hcheck
      cases hcheck
  next h =>
    simp only [not_or, Bool.not_eq_true', Bool.not_eq_false, Prod.mk.injEq, true_and] at h ⊢
    simp [h]

/-- A call returns 0 if it is accepted and -1 if not. -/
theorem cbc_returns : (cbc round direction ctx iv n input output mem).1 =
    if Accepted ctx direction iv n input output then 0 else -1 := by
  cases ctx with
  | none =>
      rw [if_neg fun h => by cases h.2]
      rfl
  | some c =>
      rw [cbc]
      by_cases h : Accepted (some c) direction iv n input output
      · rw [if_neg (by simp [h.1, h.2]), if_pos h]
      · have hbad : iv = 0 ∨ !check (some c) direction n input output := by
          by_contra hgood
          simp only [not_or, Bool.not_eq_true', Bool.not_eq_false] at hgood
          exact h hgood
        rw [if_pos hbad, if_neg h]

/-- A call that is not accepted changes nothing. -/
theorem cbc_failed (h : (cbc round direction ctx iv n input output mem).1 ≠ 0) :
    (cbc round direction ctx iv n input output mem).2 = mem := by
  cases ctx with
  | none => rfl
  | some c =>
      rw [cbc] at h ⊢
      split at h
      next hbad => rw [if_pos hbad]
      · exact absurd rfl h

/-- The message in consecutive pieces, of so many blocks each. -/
def inPieces (call : Nat → Nat → Nat → Memory → Int × Memory) : List Nat → Nat → Nat → Memory → Int × Memory
  | [], _, _, mem => (0, mem)
  | n :: sizes, input, output, mem =>
      match call n input output mem with
      | (0, mem) => inPieces call sizes (input + n * 16) (output + n * 16) mem
      | r => r

theorem Accepted.split {m : Nat} (h : Accepted ctx direction iv (n + m) input output) :
    Accepted ctx direction iv n input output ∧ Accepted ctx direction iv m (input + n * 16) (output + n * 16) := by
  obtain ⟨hiv, hcheck⟩ := h
  cases ctx with
  | none => cases hcheck
  | some c =>
      have hcheck := of_decide_eq_true hcheck
      refine ⟨⟨hiv, decide_eq_true ⟨hcheck.1, by omega, by omega⟩⟩, ⟨hiv, decide_eq_true ⟨hcheck.1, by omega, by omega⟩⟩⟩

/-- The pieces of a call that is accepted leave what the call leaves. -/
theorem cbc_pieces (hround : ∀ key n i input output mem,
      round key iv input output mem (n + i) = round key iv (input + n * 16) (output + n * 16) mem i)
    {sizes : List Nat} (h : cbc round direction ctx iv sizes.sum input output mem = (0, after)) :
    inPieces (cbc round direction ctx iv) sizes input output mem = (0, after) := by
  cases ctx with
  | none => cases h
  | some c =>
      induction sizes generalizing input output mem with
      | nil =>
          obtain ⟨-, rfl⟩ := (cbc_some c).1 h
          rfl
      | cons n sizes ih =>
          rw [List.sum_cons] at h
          obtain ⟨haccepted, hafter⟩ := (cbc_some c).1 h
          obtain ⟨hfirst, hrest⟩ := haccepted.split
          rw [List.range_add, List.foldl_append, List.foldl_map] at hafter
          simp only [hround] at hafter
          rw [inPieces, (cbc_some c).2 ⟨hfirst, rfl⟩]
          exact ih ((cbc_some c).2 ⟨hrest, hafter⟩)

end Calls

theorem encryptRound_add (key : K) (iv n i input output : Nat) (mem : Memory) :
    encryptRound aes key iv input output mem (n + i) =
      encryptRound aes key iv (input + n * 16) (output + n * 16) mem i := by
  have hadd : ∀ a, a + (n + i) * 16 = a + n * 16 + i * 16 := fun a => by omega
  rw [encryptRound, encryptRound, hadd, hadd]

theorem decryptRound_add (key : K) (iv n i input output : Nat) (mem : Memory) :
    decryptRound aes key iv input output mem (n + i) =
      decryptRound aes key iv (input + n * 16) (output + n * 16) mem i := by
  have hadd : ∀ a, a + (n + i) * 16 = a + n * 16 + i * 16 := fun a => by omega
  rw [decryptRound, decryptRound, hadd, hadd]

variable {c : AesContext K} {iv n input output : Nat} {after : Memory}

theorem encryptCbc_leaves (hlayout : Layout iv n input output)
    (h : encryptCbc aes (some c) iv n input output mem = (0, after)) :
    Leaves mem after iv n output
      (encryptChain xorBlock (aes.encrypt c.key) (load mem iv) (blocksAt mem input n)) := by
  obtain ⟨-, rfl⟩ := (cbc_some c).1 h
  exact encryptLoop hlayout c.key le_rfl

theorem decryptCbc_leaves (hlayout : Layout iv n input output)
    (h : decryptCbc aes (some c) iv n input output mem = (0, after)) :
    Leaves mem after iv n output
      (decryptChain xorBlock (aes.decrypt c.key) (load mem iv) (blocksAt mem input n)) := by
  obtain ⟨-, rfl⟩ := (cbc_some c).1 h
  exact decryptLoop hlayout c.key le_rfl

/-- What both calls have in common: which calls return 0, what these leave, that pieces are as the whole and in place is
as out of place, and that a call that fails changes nothing. -/
structure Chains (ctx : Option (AesContext K)) (direction : UInt32)
    (chain : K → Block → List Block → List Block × Block)
    (call : Nat → Nat → Nat → Nat → Memory → Int × Memory) : Prop where
  returns : ∀ iv n input output mem, (call iv n input output mem).1 =
    if Accepted ctx direction iv n input output then 0 else -1
  leaves : ∀ c ∈ ctx, ∀ iv n input output mem after, Layout iv n input output →
    call iv n input output mem = (0, after) →
      Leaves mem after iv n output (chain c.key (load mem iv) (blocksAt mem input n))
  pieces : ∀ iv sizes input output mem after, call iv sizes.sum input output mem = (0, after) →
    inPieces (call iv) sizes input output mem = (0, after)
  inPlace : ∀ iv n input output mem after, Layout iv n input output → call iv n input output mem = (0, after) →
    ∃ after', call iv n input input mem = (0, after') ∧ blocksAt after' input n = blocksAt after output n ∧
      load after' iv = load after iv
  failed : ∀ iv n input output mem, (call iv n input output mem).1 ≠ 0 → (call iv n input output mem).2 = mem

theorem Layout.inPlace (h : Layout iv n input output) : Layout iv n input input := ⟨.inl rfl, h.ivInput, h.ivInput⟩

theorem Accepted.inPlace {ctx : Option (AesContext K)} {direction : UInt32}
    (h : Accepted ctx direction iv n input output) : Accepted ctx direction iv n input input := by
  obtain ⟨hiv, hcheck⟩ := h
  cases ctx with
  | none => cases hcheck
  | some c =>
      have hcheck := of_decide_eq_true hcheck
      exact ⟨hiv, decide_eq_true ⟨hcheck.1, hcheck.2.1, by omega⟩⟩

theorem encryptCbc_chains (aes : Cipher K) (ctx : Option (AesContext K)) :
    Chains ctx ENCRYPT (fun key => encryptChain xorBlock (aes.encrypt key)) (encryptCbc aes ctx) where
  returns := fun _ _ _ _ _ => cbc_returns
  leaves := by
    rintro c rfl iv n input output mem after hlayout h
    exact encryptCbc_leaves hlayout h
  pieces := fun iv _ _ _ _ _ h => cbc_pieces (fun key n => encryptRound_add key iv n) h
  inPlace := by
    intro iv n input output mem after hlayout h
    cases ctx with
    | none => cases h
    | some c =>
        have hthere := encryptCbc_leaves hlayout h
        have hcall : encryptCbc aes (some c) iv n input input mem = (0, _) :=
          (cbc_some c).2 ⟨((cbc_some c).1 h).1.inPlace, rfl⟩
        have hhere := encryptCbc_leaves hlayout.inPlace hcall
        exact ⟨_, hcall, hhere.blocks.trans hthere.blocks.symm, hhere.chain.trans hthere.chain.symm⟩
  failed := fun _ _ _ _ _ h => cbc_failed h

theorem decryptCbc_chains (aes : Cipher K) (ctx : Option (AesContext K)) :
    Chains ctx DECRYPT (fun key => decryptChain xorBlock (aes.decrypt key)) (decryptCbc aes ctx) where
  returns := fun _ _ _ _ _ => cbc_returns
  leaves := by
    rintro c rfl iv n input output mem after hlayout h
    exact decryptCbc_leaves hlayout h
  pieces := fun iv _ _ _ _ _ h => cbc_pieces (fun key n => decryptRound_add key iv n) h
  inPlace := by
    intro iv n input output mem after hlayout h
    cases ctx with
    | none => cases h
    | some c =>
        have hthere := decryptCbc_leaves hlayout h
        have hcall : decryptCbc aes (some c) iv n input input mem = (0, _) :=
          (cbc_some c).2 ⟨((cbc_some c).1 h).1.inPlace, rfl⟩
        have hhere := decryptCbc_leaves hlayout.inPlace hcall
        exact ⟨_, hcall, hhere.blocks.trans hthere.blocks.symm, hhere.chain.trans hthere.chain.symm⟩
  failed := fun _ _ _ _ _ h => cbc_failed h

/-- **CBC is a chaining of blocks.** An accepted decryption with the same chaining value undoes an accepted encryption
and leaves the same chaining value, wherever the buffers are; and both calls chain. -/
theorem cbc_is_chaining (aes : Cipher K) (ce cd : AesContext K)
    (hinverse : ∀ b, aes.decrypt cd.key (aes.encrypt ce.key b) = b) :
    (∀ iv n input output mem, Layout iv n input output → Accepted (some ce) ENCRYPT iv n input output →
      ∃ after, encryptCbc aes (some ce) iv n input output mem = (0, after) ∧
        ∀ iv' input' output' mem', Layout iv' n input' output' → Accepted (some cd) DECRYPT iv' n input' output' →
          load mem' iv' = load mem iv → blocksAt mem' input' n = blocksAt after output n →
            ∃ after', decryptCbc aes (some cd) iv' n input' output' mem' = (0, after') ∧
              blocksAt after' output' n = blocksAt mem input n ∧ load after' iv' = load after iv) ∧
      (∀ ctx, Chains ctx ENCRYPT (fun key => encryptChain xorBlock (aes.encrypt key)) (encryptCbc aes ctx)) ∧
        ∀ ctx, Chains ctx DECRYPT (fun key => decryptChain xorBlock (aes.decrypt key)) (decryptCbc aes ctx) := by
  refine ⟨?_, encryptCbc_chains aes, decryptCbc_chains aes⟩
  intro iv n input output mem hlayout haccepted
  obtain ⟨after, hafter⟩ : ∃ after, encryptCbc aes (some ce) iv n input output mem = (0, after) :=
    ⟨_, (cbc_some ce).2 ⟨haccepted, rfl⟩⟩
  refine ⟨after, hafter, ?_⟩
  intro iv' input' output' mem' hlayout' haccepted' hiv hblocks
  obtain ⟨after', hafter'⟩ : ∃ after', decryptCbc aes (some cd) iv' n input' output' mem' = (0, after') :=
    ⟨_, (cbc_some cd).2 ⟨haccepted', rfl⟩⟩
  have hthere := encryptCbc_leaves hlayout hafter
  have hback := decryptCbc_leaves hlayout' hafter'
  rw [hiv, hblocks, hthere.blocks, decryptChain_encryptChain xorBlock_xorBlock hinverse] at hback
  exact ⟨after', hafter', hback.blocks, hback.chain.trans hthere.chain.symm⟩

/-- A cipher that turns a block around. -/
def turned : Cipher Unit := ⟨fun _ b j => b j.rev, fun _ b j => b j.rev⟩

def numbered : Memory := fun x => x.toUInt8

/-- Two blocks are encrypted from 100 to 200, and decrypted from there to 300 with the chaining value put back. -/
theorem cbc_is_chaining_turned : ∃ after after',
    encryptCbc turned (some ⟨(), ENCRYPT⟩) 16 2 100 200 numbered = (0, after) ∧
      decryptCbc turned (some ⟨(), DECRYPT⟩) 16 2 200 300 (store after 16 (load numbered 16)) = (0, after') ∧
        blocksAt after' 300 2 = blocksAt numbered 100 2 ∧ load after' 16 = load after 16 := by
  have hinverse : ∀ b : Block, (fun j : Fin 16 => b j.rev.rev) = b := by
    intro b
    simp
  obtain ⟨after, hafter, hback⟩ := (cbc_is_chaining turned ⟨(), ENCRYPT⟩ ⟨(), DECRYPT⟩ hinverse).1 16 2 100 200 numbered
    (by constructor <;> omega) (by decide)
  have hblocks : blocksAt (store after 16 (load numbered 16)) 200 2 = blocksAt after 200 2 :=
    blocksAt_congr fun x hx hlt => store_of_not_mem (by omega)
  obtain ⟨after', hafter', hsame⟩ := hback 16 200 300 (store after 16 (load numbered 16))
    (by constructor <;> omega) (by decide) load_store hblocks
  exact ⟨after, after', hafter, hafter', hsame⟩

end MiniDarwin.Xnu.Cbc
