import MiniDarwin.Data.Slices

/-!
The boot disk (`scripts/make-efi-disk.py`): a GPT with the EFI system
partition and perhaps a root partition.

A file is its bytes. The digests of `hashlib` and `uuid` are a parameter: the
disk's identifiers come from them.
-/

namespace MiniDarwin.Boot

open Data

abbrev Bytes := List UInt8

/-- A literal of ASCII characters. -/
def ascii (s : String) : Bytes := s.toList.map fun c => UInt8.ofNat c.toNat

inductive Error where
  | valueError (message : String)
  /-- `struct.error`: a number that its field has no room for -/
  | structError
  deriving DecidableEq

def zeros (n : Nat) : Bytes := List.replicate n 0

def ljust (b : Bytes) (n : Nat) : Bytes := b ++ zeros (n - b.length)

/-! ### `struct` -/

/-- A part of a format: `I`, `Q` and the like, or a string `16s`. -/
inductive Field where
  | int (width value : Nat)
  | bytes (width : Nat) (b : Bytes)

namespace Field

def width : Field → Nat
  | .int width _ => width
  | .bytes width _ => width

/-- The bytes of a field; a string is cut or filled up with zeros. -/
def raw : Field → Bytes
  | .int width value => encodeLE width value
  | .bytes width b => (b ++ zeros width).take width

def Fits : Field → Prop
  | .int width value => value < 256 ^ width
  | .bytes _ _ => True

instance (f : Field) : Decidable f.Fits := by
  cases f <;> unfold Fits <;> infer_instance

end Field

def pack : List Field → Except Error Bytes
  | [] => .ok []
  | f :: fields => do
      if f.Fits then return f.raw ++ (← pack fields)
      else throw .structError

/-! ### `zlib` -/

/-- A byte shifted through the reflected polynomial. -/
def crcByte (crc : UInt32) (c : UInt8) : UInt32 :=
  (List.range 8).foldl (fun crc _ => if crc &&& 1 = 1 then (crc >>> 1) ^^^ 0xedb88320 else crc >>> 1)
    (crc ^^^ c.toUInt32)

def crc32 (data : Bytes) : UInt32 := ~~~ (data.foldl crcByte 0xffffffff)

example : crc32 (ascii "123456789") = 0xcbf43926 := by decide +kernel

/-! ### `uuid` -/

structure UUID where
  bytes : Bytes
  length_eq : bytes.length = 16

/-- The first three numbers of an identifier with their low bytes first. -/
def UUID.bytesLe (id : UUID) : Bytes :=
  (slice id.bytes 0 4).reverse ++ (slice id.bytes 4 2).reverse ++ (slice id.bytes 6 2).reverse ++ id.bytes.drop 8

structure Digests where
  sha256 : Bytes → Bytes
  sha1 : Bytes → { d : Bytes // d.length = 20 }

def hexDigit (n : Nat) : UInt8 := UInt8.ofNat (if n < 10 then 48 + n else 87 + n)

def hexdigest (b : Bytes) : Bytes := b.flatMap fun c => [hexDigit (c.toNat / 16), hexDigit (c.toNat % 16)]

/-- A name-based identifier: the version is 5, and the variant that of RFC 4122. -/
def uuid5 (digests : Digests) (space : UUID) (name : Bytes) : UUID where
  bytes := ((digests.sha1 (space.bytes ++ name)).1.take 16).zipIdx.map fun c =>
    if c.2 = 6 then c.1 &&& 0x0f ||| 0x50 else if c.2 = 8 then c.1 &&& 0x3f ||| 0x80 else c.1
  length_eq := by
    rw [List.length_map, List.length_zipIdx, List.length_take, (digests.sha1 _).2]
    rfl

/-- `c12a7328-f81f-11d2-ba4b-00a0c93ec93b` -/
def ESP_TYPE : UUID :=
  ⟨[0xc1, 0x2a, 0x73, 0x28, 0xf8, 0x1f, 0x11, 0xd2, 0xba, 0x4b, 0x00, 0xa0, 0xc9, 0x3e, 0xc9, 0x3b], rfl⟩

/-- `0fc63daf-8483-4772-8e79-3d69d8477de4` -/
def ROOT_TYPE : UUID :=
  ⟨[0x0f, 0xc6, 0x3d, 0xaf, 0x84, 0x83, 0x47, 0x72, 0x8e, 0x79, 0x3d, 0x69, 0xd8, 0x47, 0x7d, 0xe4], rfl⟩

/-- `da41c826-7cac-4870-90ee-12b31d14b270` -/
def NAMESPACE : UUID :=
  ⟨[0xda, 0x41, 0xc8, 0x26, 0x7c, 0xac, 0x48, 0x70, 0x90, 0xee, 0x12, 0xb3, 0x1d, 0x14, 0xb2, 0x70], rfl⟩

/-! ### Files -/

/-- A file that is open for writing. -/
structure Stream where
  content : Bytes
  position : Nat

namespace Stream

/-- `open ("wb")` -/
def opened : Stream := ⟨[], 0⟩

def truncate (s : Stream) (size : Nat) : Stream := { s with content := ljust (s.content.take size) size }

def seek (s : Stream) (position : Nat) : Stream := { s with position }

/-- Up to where it is written, a file that ends before is filled up with zeros. -/
def write (s : Stream) (b : Bytes) : Stream :=
  ⟨patch (ljust s.content s.position) s.position b, s.position + b.length⟩

end Stream

/-! ### The disk -/

def SECTOR : Nat := 512

structure Payload where
  file : Bytes
  first : Nat
  last : Nat
  kind : UUID
  name : String

/-- The fields of a header with a checksum. -/
def headerFields (current backup lastUsable : Nat) (diskId : UUID) (entriesLba : Nat) (entriesCrc : UInt32)
    (crc : Nat) : List Field :=
  [.bytes 8 (ascii "EFI PART"), .int 4 0x10000, .int 4 92, .int 4 crc, .int 4 0, .int 8 current, .int 8 backup,
    .int 8 34, .int 8 lastUsable, .bytes 16 diskId.bytesLe, .int 8 entriesLba, .int 4 128, .int 4 128,
    .int 4 entriesCrc.toNat]

def header (current backup lastUsable : Nat) (diskId : UUID) (entriesLba : Nat) (entriesCrc : UInt32) :
    Except Error Bytes := do
  let data ← pack (headerFields current backup lastUsable diskId entriesLba entriesCrc 0)
  let crc := crc32 data
  return ljust (data.take 16 ++ (← pack [.int 4 crc.toNat]) ++ data.drop 20) SECTOR

/-- The payloads, and the disk's sectors. -/
def layout (esp : Bytes) (root : Option Bytes) : Except Error (List Payload × Nat) :=
  let espSectors := esp.length / SECTOR
  let first := 2048
  let last := 2048 + espSectors - 1
  let payloads : List Payload := [⟨esp, first, last, ESP_TYPE, "MiniDarwin EFI"⟩]
  match root with
  | none => .ok (payloads, (last + 34 + 2047) / 2048 * 2048)
  | some root =>
      let length := root.length
      if length = 0 ∨ length % SECTOR ≠ 0 then
        .error (.valueError "root partition must be nonempty and sector-aligned")
      else
        let start := (last + 1 + 2047) / 2048 * 2048
        let last := start + length / SECTOR - 1
        .ok (payloads ++ [⟨root, start, last, ROOT_TYPE, "MiniDarwin Root"⟩], (last + 34 + 2047) / 2048 * 2048)

/-- What the disk's identifier is made from. -/
def digested : List Payload → Except Error Bytes
  | [] => .ok []
  | p :: payloads => do return (← pack [.int 8 p.file.length]) ++ p.file ++ (← digested payloads)

/-- `name.encode ("utf-16le")` of an ASCII name -/
def utf16le (name : String) : Bytes := (ascii name).flatMap fun c => [c, 0]

def entryFields (digests : Digests) (diskId : UUID) (p : Payload) : List Field :=
  [.bytes 16 p.kind.bytesLe, .bytes 16 (uuid5 digests diskId (ascii p.name)).bytesLe, .int 8 p.first, .int 8 p.last,
    .int 8 0, .bytes 72 (ljust (utf16le p.name) 72)]

def entriesOf (digests : Digests) (diskId : UUID) : List Payload → Except Error Bytes
  | [] => .ok []
  | p :: payloads => do return (← pack (entryFields digests diskId p)) ++ (← entriesOf digests diskId payloads)

def mbrOf (sectors : Nat) : Except Error Bytes := do
  let entry ← pack [.int 1 0, .bytes 3 [0, 2, 0], .int 1 0xEE, .bytes 3 [0xff, 0xff, 0xff], .int 4 1,
    .int 4 (min (sectors - 1) 0xFFFFFFFF)]
  return patch (patch (zeros SECTOR) 446 entry) 510 [0x55, 0xaa]

def assemble (digests : Digests) (esp : Bytes) (root : Option Bytes) : Except Error Bytes := do
  let (payloads, sectors) ← layout esp root
  let diskId := uuid5 digests NAMESPACE (hexdigest (digests.sha256 (← digested payloads)))
  let entries := ljust (← entriesOf digests diskId payloads) (128 * 128)
  let entriesCrc := crc32 entries
  let mbr ← mbrOf sectors
  let disk := ((Stream.opened.truncate (sectors * SECTOR)).write mbr).write
    (← header 1 (sectors - 1) (sectors - 34) diskId 2 entriesCrc)
  let disk := payloads.foldl (fun disk p => (disk.seek (p.first * SECTOR)).write p.file) (disk.write entries)
  let disk := (disk.seek ((sectors - 33) * SECTOR)).write entries
  let disk := disk.write (← header (sectors - 1) 1 (sectors - 34) diskId (sectors - 33) entriesCrc)
  return disk.content

end MiniDarwin.Boot
