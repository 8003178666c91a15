import MiniDarwin.Xnu.Relocations

/-!
The load commands of a kernel collection, as two scripts go through them:
`prepare-collection.py` takes the kernel's code signature out of them, and
`verify-collection.py` checks the headers and identities of the result.

An assertion that fails and a read past the end of the file both end a
script; here it has no result then. The arguments of the verifier are the
names as bytes.
-/

namespace MiniDarwin.Xnu.Collection

open Data
open Relocation (unpack)

/-- `struct mach_header_64` -/
structure Header where
  magic : Nat
  cpu : Nat
  subtype : Nat
  kind : Nat
  count : Nat
  size : Nat
  flags : Nat
  reserved : Nat
  deriving DecidableEq

/-- `struct.unpack_from ('<8I', image, off)` -/
def header (image : Relocation.Bytes) (off : Nat) : Option Header := do
  let magic ← unpack image off 4
  let cpu ← unpack image (off + 4) 4
  let subtype ← unpack image (off + 8) 4
  let kind ← unpack image (off + 12) 4
  let count ← unpack image (off + 16) 4
  let size ← unpack image (off + 20) 4
  let flags ← unpack image (off + 24) 4
  let reserved ← unpack image (off + 28) 4
  return { magic, cpu, subtype, kind, count, size, flags, reserved }

def MH_MAGIC_64 : Nat := 0xFEEDFACF

def CPU_TYPE_X86_64 : Nat := 0x01000007

def MH_FILESET : Nat := 12

def MH_KEXT_BUNDLE : Nat := 11

def MH_DYLIB_IN_CACHE : Nat := 0x80000000

def LC_UNIXTHREAD : Nat := 5

def LC_SEGMENT_64 : Nat := 0x19

def LC_CODE_SIGNATURE : Nat := 0x1D

def LC_FILESET_ENTRY : Nat := 0x80000035

/-- `command`, `length` and `offset` in a round of the loops. -/
structure Load where
  command : Nat
  length : Nat
  offset : Nat

/-- The loop over the load commands. -/
def walk {σ : Type} (image : Relocation.Bytes) (limit : Nat) (body : σ → Load → Option σ) :
    (count offset : Nat) → σ → Option (Nat × σ)
  | 0, offset, s => some (offset, s)
  | count + 1, offset, s => do
      let command ← unpack image offset 4
      let length ← unpack image (offset + 4) 4
      guard (length ≥ 8 ∧ length % 8 = 0 ∧ offset + length ≤ limit)
      let s ← body s { command, length, offset }
      walk image limit body count (offset + length) s

/-! ### `prepare-collection.py` -/

structure Compacting where
  commands : List Relocation.Bytes := []
  removed : Nat := 0

/-- A round of the loop. -/
def compactCommand (image : Relocation.Bytes) (s : Compacting) (l : Load) : Option Compacting :=
  if l.command = LC_CODE_SIGNATURE then do
    guard (l.length = 16)
    let blobOffset ← unpack image (l.offset + 8) 4
    let blobSize ← unpack image (l.offset + 12) 4
    guard (blobOffset + blobSize ≤ image.length)
    return { s with removed := s.removed + 1 }
  else return { s with commands := s.commands ++ [slice image l.offset l.length] }

/-- `bytes (n)` -/
def zeros (n : Nat) : Relocation.Bytes := List.replicate n 0

def prepare (image : Relocation.Bytes) : Option Relocation.Bytes := do
  let h ← header image 0
  guard (h.magic = MH_MAGIC_64 ∧ h.kind = MH_FILESET)
  let limit := 32 + h.size
  guard (limit ≤ image.length)
  let (offset, s) ← walk image limit (compactCommand image) h.count 32 {}
  guard (offset = limit ∧ s.removed ≤ 1)
  let new := s.commands.flatten
  let image := patch image 32 (new ++ zeros (h.size - new.length))
  return patch image 16 (encodeLE 4 (h.count - s.removed) ++ encodeLE 4 new.length)

/-! ### `verify-collection.py` -/

/-- An element of `entries`. -/
structure Entry where
  name : Relocation.Bytes
  vmaddr : Nat
  fileoff : Nat
  deriving DecidableEq

/-- An element of `segments`. -/
structure Segment where
  vmaddr : Nat
  vmsize : Nat
  fileoff : Nat
  filesize : Nat
  deriving DecidableEq

structure Fileset where
  entries : List Entry := []
  segments : List Segment := []
  thread : Bool := false

/-- A round of the loop. -/
def verifyCommand (image : Relocation.Bytes) (s : Fileset) (l : Load) : Option Fileset := do
  guard (l.command ≠ LC_CODE_SIGNATURE)
  if l.command = LC_FILESET_ENTRY then
    guard (l.length ≥ 32)
    let vmaddr ← unpack image (l.offset + 8) 8
    let fileoff ← unpack image (l.offset + 16) 8
    let nameoff ← unpack image (l.offset + 24) 4
    let reserved ← unpack image (l.offset + 28) 4
    guard (32 ≤ nameoff ∧ nameoff < l.length ∧ reserved = 0)
    -- up to the first zero byte
    let name := (slice image (l.offset + nameoff) (l.length - nameoff)).takeWhile (· ≠ 0)
    return { s with entries := s.entries ++ [{ name, vmaddr, fileoff }] }
  else if l.command = LC_SEGMENT_64 then
    guard (l.length ≥ 72)
    let vmaddr ← unpack image (l.offset + 24) 8
    let vmsize ← unpack image (l.offset + 32) 8
    let fileoff ← unpack image (l.offset + 40) 8
    let filesize ← unpack image (l.offset + 48) 8
    guard (fileoff + filesize ≤ image.length)
    return { s with segments := s.segments ++ [{ vmaddr, vmsize, fileoff, filesize }] }
  else if l.command = LC_UNIXTHREAD then return { s with thread := true }
  else return s

/-- `b'com.apple.kernel'` -/
def kernelName : Relocation.Bytes := "com.apple.kernel".toList.map fun c => UInt8.ofNat c.toNat

/-- A round of the loop over the drivers. -/
def verifyDriver (image : Relocation.Bytes) (cpu : Nat) (segments : List Segment) (e : Entry) : Option Unit := do
  guard (e.fileoff + 32 ≤ image.length)
  let nested ← header image e.fileoff
  guard (nested.magic = MH_MAGIC_64 ∧ nested.cpu = cpu ∧ nested.kind = MH_KEXT_BUNDLE)
  guard (∃ s ∈ segments, s.vmaddr ≤ e.vmaddr ∧ e.vmaddr < s.vmaddr + s.vmsize)

def verify (image : Relocation.Bytes) (names : List Relocation.Bytes) : Option Unit := do
  let h ← header image 0
  guard (h.magic = MH_MAGIC_64 ∧ h.cpu = CPU_TYPE_X86_64 ∧ h.kind = MH_FILESET)
  guard (h.flags &&& MH_DYLIB_IN_CACHE ≠ 0)
  let limit := 32 + h.size
  guard (limit ≤ image.length)
  let (offset, s) ← walk image limit (verifyCommand image) h.count 32 {}
  guard (offset = limit ∧ s.thread)
  let expected := kernelName :: names
  guard (s.entries.map (·.name) = expected)
  guard expected.Nodup
  s.entries.tail.forM (verifyDriver image h.cpu s.segments)
  let kernel ← s.entries.head?
  guard (kernel.fileoff = 0)
  guard (∃ g ∈ s.segments, g.vmaddr = kernel.vmaddr ∧ g.fileoff = 0 ∧ g.filesize ≥ limit)

end MiniDarwin.Xnu.Collection
