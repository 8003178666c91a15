import Mathlib.Data.List.Basic

/-!
Cipher block chaining, over blocks of any kind.

`op` adds a block to another and takes it away again. Encryption and
decryption return the blocks and the value that the next block is chained to.
-/

namespace MiniDarwin.Data

variable {β : Type} (op : β → β → β) (encrypt decrypt : β → β)

def encryptChain : β → List β → List β × β
  | chain, [] => ([], chain)
  | chain, block :: blocks =>
      let c := encrypt (op block chain)
      (c :: (encryptChain c blocks).1, (encryptChain c blocks).2)

def decryptChain : β → List β → List β × β
  | chain, [] => ([], chain)
  | chain, block :: blocks =>
      (op (decrypt block) chain :: (decryptChain block blocks).1, (decryptChain block blocks).2)

variable {op encrypt decrypt}

theorem encryptChain_concat (chain : β) (blocks : List β) (block : β) :
    encryptChain op encrypt chain (blocks ++ [block]) =
      ((encryptChain op encrypt chain blocks).1 ++
          [encrypt (op block (encryptChain op encrypt chain blocks).2)],
        encrypt (op block (encryptChain op encrypt chain blocks).2)) := by
  induction blocks generalizing chain with
  | nil => rfl
  | cons b blocks ih =>
      rw [List.cons_append, encryptChain, encryptChain]
      simp only [ih, List.cons_append]

theorem decryptChain_concat (chain : β) (blocks : List β) (block : β) :
    decryptChain op decrypt chain (blocks ++ [block]) =
      ((decryptChain op decrypt chain blocks).1 ++
        [op (decrypt block) (decryptChain op decrypt chain blocks).2], block) := by
  induction blocks generalizing chain with
  | nil => rfl
  | cons b blocks ih =>
      rw [List.cons_append, decryptChain, decryptChain]
      simp only [ih, List.cons_append]

/-- **Decryption undoes encryption**, and leaves the same value to chain to. -/
theorem decryptChain_encryptChain (hop : ∀ a b, op (op a b) b = a) (hinverse : ∀ b, decrypt (encrypt b) = b)
    (chain : β) (blocks : List β) :
    decryptChain op decrypt chain (encryptChain op encrypt chain blocks).1 =
      (blocks, (encryptChain op encrypt chain blocks).2) := by
  induction blocks generalizing chain with
  | nil => rfl
  | cons b blocks ih =>
      rw [encryptChain]
      simp only [decryptChain, ih, hinverse, hop]

end MiniDarwin.Data
