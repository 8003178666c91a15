import MiniDarwin.Data.Slices

/-!
The dynamic relocations of a kext, twice: as they are done in place
(`kc/dysymtab-relocations.c.inc`), and what `verify-kext-relocations.py`
expects of them.

Reading and writing words is the linker's and a parameter. So is what
LC_DYSYMTAB says of its tables: the command may lie in the file that is
relocated. An address in the file is an offset into it.
-/

namespace MiniDarwin.Xnu.Relocation

open Data

abbrev Bytes := List UInt8

structure Segment where
  vmaddr : UInt64
  fileoff : UInt64
  filesize : UInt64

/-- `struct dysymtab_command`, as far as it is read. -/
structure Dysymtab where
  locreloff : UInt32
  nlocrel : UInt32
  extreloff : UInt32
  nextrel : UInt32

/-- `off` -/
def Dysymtab.off (d : Dysymtab) (external : Bool) : Nat :=
  if external then d.extreloff.toNat else d.locreloff.toNat

/-- `count` -/
def Dysymtab.count (d : Dysymtab) (external : Bool) : Nat :=
  if external then d.nextrel.toNat else d.nlocrel.toNat

/-- What `link_kext ()` has when it comes to the relocations. -/
structure Kext where
  buf : Bytes
  size_lt : buf.length < 2 ^ 64
  seginfo : List Segment
  symAddrs : List UInt64
  loadVmaddr : UInt64
  /-- the command when the file has these bytes -/
  dysymcmd : Bytes → Dysymtab

/-- The bytes of words. -/
structure Words where
  r32 : Bytes → UInt32
  r64 : Bytes → UInt64
  w32 : UInt32 → Bytes
  w64 : UInt64 → Bytes

/-! ### The linker -/

inductive Stop where
  | invalidTable
  | badDynamicReloc (external : Bool) (i : Nat)
  /-- an access outside the file -/
  | fault
  deriving DecidableEq

def load (buf : Bytes) (off n : Nat) : Except Stop Bytes :=
  if off + n ≤ buf.length then .ok (slice buf off n) else .error .fault

def store (buf : Bytes) (off : Nat) (b : Bytes) : Except Stop Bytes :=
  if off + b.length ≤ buf.length then .ok (patch buf off b) else .error .fault

/-- `struct relocation_info` -/
structure RelocationInfo where
  address : Int32
  symbolnum : Nat
  pcrel : Bool
  length : Nat
  ext : Bool
  type : Nat

/-- The address, and the bit-fields from the low bits up. -/
def relocationInfo (b : Bytes) : RelocationInfo :=
  let bits := decodeLE (slice b 4 4)
  { address := (UInt32.ofNat (decodeLE (slice b 0 4))).toInt32
    symbolnum := bits % 2 ^ 24
    pcrel := bits / 2 ^ 24 % 2 = 1
    length := bits / 2 ^ 25 % 4
    ext := bits / 2 ^ 27 % 2 = 1
    type := bits / 2 ^ 28 % 16 }

def X86_64_RELOC_UNSIGNED : Nat := 0

def X86_64_RELOC_BRANCH : Nat := 2

/-- The search for the location; nothing when there is none in the file. -/
def locate (sl addr width : UInt64) : List Segment → Option UInt64
  | [] => none
  | s :: seginfo =>
      if addr ≥ s.vmaddr ∧ addr - s.vmaddr + width ≤ s.filesize then
        let fileoff := s.fileoff + addr - s.vmaddr
        if fileoff + width > sl then none else some fileoff
      else locate sl addr width seginfo

/-- The displacement of a branch. Signed arithmetic wraps around: the language leaves that undefined,
the processors do it. -/
def displacement (target loadVmaddr : UInt64) (address : Int32) (addend : UInt32) : Int64 :=
  target.toInt64 - (loadVmaddr + address.toInt64.toUInt64 + 4).toInt64 + addend.toInt32.toInt64

variable (w : Words) (k : Kext)

/-- A round of the loop over a table. -/
def relocateEntry (external : Bool) (off i : Nat) (buf : Bytes) : Except Stop Bytes := do
  let r := relocationInfo (← load buf (off + i * 8) 8)
  if r.address < 0 ∨ r.ext ≠ external then throw (.badDynamicReloc external i)
  else
    match locate (UInt64.ofNat buf.length) r.address.toUInt32.toUInt64 (UInt64.ofNat (2 ^ r.length)) k.seginfo with
    | none => throw (.badDynamicReloc external i)
    | some loc =>
        if !external then
          if r.type ≠ X86_64_RELOC_UNSIGNED ∨ r.pcrel ∨ r.length ≠ 3 then throw (.badDynamicReloc external i)
          else store buf loc.toNat (w.w64 (w.r64 (← load buf loc.toNat 8) + k.loadVmaddr))
        else
          match k.symAddrs[r.symbolnum]? with
          | none => throw (.badDynamicReloc external i)
          | some target =>
              if target = 0 then throw (.badDynamicReloc external i)
              else if r.type = X86_64_RELOC_UNSIGNED ∧ !r.pcrel ∧ r.length = 3 then
                store buf loc.toNat (w.w64 (target + w.r64 (← load buf loc.toNat 8)))
              else if r.type = X86_64_RELOC_BRANCH ∧ r.pcrel ∧ r.length = 2 then do
                let value := displacement target k.loadVmaddr r.address (w.r32 (← load buf loc.toNat 4))
                if value < Int32.minValue.toInt64 ∨ value > Int32.maxValue.toInt64 then
                  throw (.badDynamicReloc external i)
                else store buf loc.toNat (w.w32 value.toInt32.toUInt32)
              else throw (.badDynamicReloc external i)

/-- The loop over a table, from the entry `i` on. -/
def relocateEntries (external : Bool) (off : Nat) : (left i : Nat) → Bytes → Except Stop Bytes
  | 0, _, buf => .ok buf
  | left + 1, i, buf => do relocateEntries external off left (i + 1) (← relocateEntry w k external off i buf)

def relocateTable (external : Bool) (buf : Bytes) : Except Stop Bytes :=
  let off := (k.dysymcmd buf).off external
  let count := (k.dysymcmd buf).count external
  if off + count * 8 > buf.length then throw .invalidTable
  else relocateEntries w k external off count 0 buf

/-- The dynamic relocations of a kext for x86_64 that has a LC_DYSYMTAB. -/
def relocate : Except Stop Bytes := do relocateTable w k true (← relocateTable w k false k.buf)

/-! ### The verifier -/

/-- `struct.unpack_from ('<Q', ..)` and `('<I', ..)` -/
def unpack (data : Bytes) (off n : Nat) : Option Nat :=
  if off + n ≤ data.length then some (decodeLE (slice data off n)) else none

/-- 32 bits with a sign. -/
def signed (v : Nat) : Int := if v < 2 ^ 31 then v else (v : Int) - 2 ^ 32

/-- `struct.unpack_from ('<i', ..)` -/
def unpackSigned (data : Bytes) (off : Nat) : Option Int := (unpack data off 4).map signed

def fileoff (vm size : Nat) : List Segment → Option Nat
  | [] => none
  | s :: segments =>
      if s.vmaddr.toNat ≤ vm ∧ vm - s.vmaddr.toNat + size ≤ s.filesize.toNat then
        some (s.fileoff.toNat + vm - s.vmaddr.toNat)
      else fileoff vm size segments

/-- An entry of a table, unpacked. -/
structure Unpacked where
  address : Int
  symbol : Nat
  pcrel : Nat
  width : Nat
  ext : Nat
  kind : Nat

def unpackEntry (data : Bytes) (off : Nat) : Option Unpacked := do
  let address ← unpackSigned data off
  let bits ← unpack data (off + 4) 4
  return ⟨address, bits &&& 0xffffff, (bits >>> 24) &&& 1, 1 <<< ((bits >>> 25) &&& 3), (bits >>> 27) &&& 1, bits >>> 28⟩

/-- `before`, and how wide it is. -/
def location (data : Bytes) (segments : List Segment) (external : Bool) (off : Nat) : Option (Nat × Nat) := do
  let e ← unpackEntry data off
  guard (e.ext = external.toNat ∧ e.address ≥ 0)
  return (← fileoff e.address.toNat e.width segments, e.width)

/-- What a place of the file is to hold. -/
structure Expectation where
  before : Nat
  width : Nat
  expected : Int

/-- A round of the verifier's loop, as far as it is about the original file. -/
def expect (data : Bytes) (segments : List Segment) (targets : List UInt64) (vm : Nat) (external : Bool)
    (off : Nat) : Option Expectation := do
  let e ← unpackEntry data off
  let (before, width) ← location data segments external off
  if !external then
    guard (e.kind = 0 ∧ width = 8 ∧ e.pcrel = 0)
    return ⟨before, width, (← unpack data before 8) + vm⟩
  else
    let target ← targets[e.symbol]?
    if e.kind = 0 then
      guard (width = 8 ∧ e.pcrel = 0)
      return ⟨before, width, target.toNat + (← unpack data before 8)⟩
    else
      guard (e.kind = 2 ∧ width = 4 ∧ e.pcrel ≠ 0)
      return ⟨before, width, target.toNat - (vm + e.address + 4) + (← unpackSigned data before)⟩

/-- `actual`, of the file as it has become -/
def actual (data : Bytes) (before width : Nat) : Option Int :=
  if width = 8 then (unpack data before 8).map Int.ofNat else unpackSigned data before

end MiniDarwin.Xnu.Relocation
