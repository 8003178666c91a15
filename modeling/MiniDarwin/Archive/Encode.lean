import MiniDarwin.Archive.Cpio

/-!
CPIO archives as they are written, and that `cpio_parse ()` reads them again.

`encode` writes an archive as the tests of the installer do
(`test_mdpkg.py`). The numbers of devices and inodes, which nobody reads,
may be any.
-/

namespace MiniDarwin.Archive

open Posix (Bytes)

inductive Format where
  | odc
  | newc
  | crc
  deriving DecidableEq

/-- What is written for an entry besides its own data. -/
structure Member where
  entry : Entry
  nlink : Nat
  dev : Nat
  ino : Nat
  rdev : Nat
  devMajor : Nat
  devMinor : Nat
  rdevMajor : Nat
  rdevMinor : Nat

/-- The contents of a file or the target of a link. -/
def Entry.content (e : Entry) : Bytes := e.link.getD e.data

def digitChar (d : Nat) : UInt8 := UInt8.ofNat (if d < 10 then 48 + d else 87 + d)

/-- A number in `width` digits. -/
def field (base : Nat) : (width n : Nat) → Bytes
  | 0, _ => []
  | width + 1, n => field base width (n / base) ++ [digitChar (n % base)]

def Format.magic : Format → Bytes
  | .odc => lit "070707"
  | .newc => lit "070701"
  | .crc => lit "070702"

def Format.base : Format → Nat
  | .odc => 8
  | _ => 16

/-- The checksum that is written. -/
def Format.check : Format → Entry → Nat
  | .crc, e => checksum e.content
  | _, _ => 0

/-- The fields of a header, with their widths. -/
def fields (format : Format) (m : Member) : List (Nat × Nat) :=
  let mode := m.entry.mode.toNat
  let uid := m.entry.uid.toNat
  let gid := m.entry.gid.toNat
  let mtime := m.entry.mtime.toInt.toNat
  let namesize := m.entry.path.length + 1
  let filesize := m.entry.content.length
  if format = .odc then
    [(6, m.dev), (6, m.ino), (6, mode), (6, uid), (6, gid), (6, m.nlink), (6, m.rdev), (11, mtime),
      (6, namesize), (11, filesize)]
  else
    [(8, m.ino), (8, mode), (8, uid), (8, gid), (8, m.nlink), (8, mtime), (8, filesize),
      (8, m.devMajor), (8, m.devMinor), (8, m.rdevMajor), (8, m.rdevMinor), (8, namesize),
      (8, format.check m.entry)]

def header (format : Format) (m : Member) : Bytes :=
  format.magic ++ (fields format m).flatMap fun f => field format.base f.1 f.2

/-- Zeros up to a multiple of four, where the format has them. -/
def padding (format : Format) (n : Nat) : Bytes :=
  match format with
  | .odc => []
  | _ => List.replicate ((4 - n % 4) % 4) 0

def padded (format : Format) (out : Bytes) : Bytes := out ++ padding format out.length

/-- The archive after one more entry. -/
def encodeOne (format : Format) (out : Bytes) (m : Member) : Bytes :=
  padded format (padded format (out ++ header format m ++ (m.entry.path ++ [0])) ++ m.entry.content)

def trailer : Member where
  entry := { path := lit "TRAILER!!!", mode := 0, uid := 0, gid := 0, mtime := 0 }
  nlink := 1
  dev := 0
  ino := 0
  rdev := 0
  devMajor := 0
  devMinor := 0
  rdevMajor := 0
  rdevMinor := 0

/-- An archive with its trailer. -/
def encode (format : Format) (members : List Member) : Bytes :=
  (members ++ [trailer]).foldl (encodeOne format) []

/-! ### What can be written -/

/-- The target of a link at `path` does not leave the root: as far as one may follow it, there are
no more steps up than directories above. -/
def InRoot (path target : Bytes) : Prop :=
  ∀ steps, steps <+: (components target).filter (· ≠ []) →
    steps.count [46, 46] ≤ path.count 47 + (steps.filter fun c => c ≠ [46, 46] ∧ c ≠ [46]).length

/-- The type of an entry and what comes with it. -/
inductive Typed (e : Entry) (nlink : Nat) : Prop where
  | file (type : e.mode.toNat &&& ifmt = ifreg) (link : e.link = none) (single : nlink ≤ 1)
  | directory (type : e.mode.toNat &&& ifmt = ifdir) (link : e.link = none) (empty : e.data = [])
  | symlink (type : e.mode.toNat &&& ifmt = iflnk) (target : Bytes) (link : e.link = some target)
      (empty : e.data = []) (nonempty : target ≠ []) (relative : target.head? ≠ some 47)
      (nul : 0 ∉ target) (size : target.length < pathMax) (inRoot : InRoot e.path target)

/-- An entry that a format can represent. -/
structure Representable (format : Format) (m : Member) : Prop where
  normalized : Normalized m.entry.path
  plain : ∀ c ∈ components m.entry.path, ¬ lit "._" <+: c ∧ c ≠ lit "__MACOSX"
  notTrailer : m.entry.path ≠ lit "TRAILER!!!"
  typed : Typed m.entry m.nlink
  setId : m.entry.mode.toNat &&& 0o6000 = 0
  past : 0 ≤ m.entry.mtime.toInt
  widths : ∀ f ∈ [m.entry.uid.toNat, m.entry.gid.toNat, m.nlink],
    f < format.base ^ (if format = .odc then 6 else 8)
  longWidths : ∀ f ∈ [m.entry.mtime.toInt.toNat, m.entry.content.length],
    f < format.base ^ (if format = .odc then 11 else 8)

/-- A list of entries that a format can represent. -/
structure Archivable (format : Format) (members : List Member) : Prop where
  entries : ∀ m ∈ members, Representable format m
  distinct : (members.map fun m => m.entry.path).Nodup
  beneath : ∀ m ∈ members, ∀ m' ∈ members, m.entry.path ++ [47] <+: m'.entry.path → m.entry.isDir
  limit : members.length ≤ limitEntries

/-! ### Fields -/

/-- The characters of a digit. -/
theorem digitChar_spec {d : Nat} (h : d < 16) :
    digit (digitChar d) = some d ∧ 48 ≤ digitChar d ∧ digitChar d ≠ 120 ∧ digitChar d ≠ 88 := by
  interval_cases d
  all_goals decide

@[simp] theorem length_field (base width n : Nat) : (field base width n).length = width := by
  induction width generalizing n with
  | zero => rfl
  | succ width ih => rw [field, List.length_append, ih, List.length_singleton]

theorem mem_field {base width n : Nat} {c : UInt8} (hbase : 0 < base) (h : c ∈ field base width n) :
    ∃ d < base, c = digitChar d := by
  induction width generalizing n with
  | zero => cases h
  | succ width ih =>
      rw [field, List.mem_append, List.mem_singleton] at h
      obtain h | h := h
      · exact ih h
      · exact ⟨n % base, Nat.mod_lt _ hbase, h⟩

theorem number_field {base width n : Nat} (hbase : 0 < base) (hbase' : base ≤ 16) :
    number base (field base width n) = n % base ^ width := by
  induction width generalizing n with
  | zero => simp [field, number, Nat.mod_one]
  | succ width ih =>
      have hdigit := (digitChar_spec (show n % base < 16 by have := Nat.mod_lt n hbase; omega)).1
      have hstep : number base (field base width (n / base) ++ [digitChar (n % base)]) =
          number base (field base width (n / base)) * base + n % base := by
        simp [number, List.foldl_append, hdigit]
      rw [field, hstep, ih, Nat.pow_succ', Nat.mod_mul, Nat.mul_comm base, Nat.add_comm]

/-- A field is read as the number that was written. -/
theorem headerField_field {b : Bytes} {start width base n : Nat} (hbase : base = 8 ∨ base = 16)
    (hwidth : 0 < width) (hwidth' : width ≤ 11) (h : slice b start width = .ok (field base width n))
    (hn : n < base ^ width) : headerField b start width base = .ok n := by
  have hpos : 0 < base := by omega
  have hle : base ≤ 16 := by omega
  have hchar : ∀ c ∈ field base width n, isDigit base c = true ∧ 48 ≤ c ∧ c ≠ 120 ∧ c ≠ 88 := by
    intro c hc
    obtain ⟨d, hd, rfl⟩ := mem_field hpos hc
    obtain ⟨hdigit, hrest⟩ := digitChar_spec (show d < 16 by omega)
    exact ⟨by simpa [isDigit, hdigit] using hd, hrest⟩
  have hcstr : cstr (field base width n) = field base width n := by
    apply List.takeWhile_eq_self_iff.2
    intro c hc
    have h48 := (hchar c hc).2.1
    simp only [decide_eq_true_eq]
    rintro rfl
    exact absurd h48 (by decide)
  have hvalue : number base (field base width n) = n := by
    rw [number_field hpos hle, Nat.mod_eq_of_lt hn]
  have hbound : base ^ width < 2 ^ 64 := by
    calc base ^ width ≤ 16 ^ 11 :=
          (Nat.pow_le_pow_left hle width).trans (Nat.pow_le_pow_right (by omega) hwidth')
      _ < 2 ^ 64 := by decide
  have hne : field base width n ≠ [] := by
    intro hnil
    have := congrArg List.length hnil
    simp at this
    omega
  have hparse : parseUint (field base width n) base = .ok n := by
    rw [parseUint_digits hne (fun c hc => (hchar c hc).1) (fun c hc => (hchar c hc).2.1)
      ⟨fun hc => (hchar _ hc).2.2.1 rfl, fun hc => (hchar _ hc).2.2.2 rfl⟩ (by omega), hvalue]
  have hfits : dieIf (width ≥ 24) "CPIO header field too long" = .ok () := if_neg (by omega)
  rw [headerField, hfits, h]
  change parseUint (cstr (field base width n)) base = _
  rw [hcstr, hparse]

/-! ### Headers -/

variable {format : Format} {m : Member} (out rest : Bytes)

theorem slice_mid {a x l : Bytes} {n k : Nat} (ha : a.length = n) (hx : x.length = k) :
    slice (a ++ (x ++ l)) n k = .ok x := by
  rw [slice_skip ha le_rfl, Nat.sub_self, slice_here hx]

theorem length_fields (base : Nat) (fs : List (Nat × Nat)) :
    (fs.flatMap fun f => field base f.1 f.2).length = (fs.map (·.1)).sum := by
  induction fs with
  | nil => rfl
  | cons f fs ih => rw [List.flatMap_cons, List.length_append, ih, length_field, List.map_cons, List.sum_cons]

theorem length_magic (format : Format) : format.magic.length = 6 := by
  cases format <;> rfl

/-- Where a field stands, and what is read there. -/
theorem headerField_header (i start : Nat) {width n : Nat} (h : (fields format m)[i]? = some (width, n))
    (hstart : 6 + (((fields format m).take i).map (·.1)).sum = start) (hwidth : 0 < width ∧ width ≤ 11)
    (hn : n < format.base ^ width) :
    headerField (out ++ header format m ++ rest) (out.length + start) width format.base = .ok n := by
  have hsplit : out ++ header format m ++ rest =
      (out ++ format.magic ++ ((fields format m).take i).flatMap fun f => field format.base f.1 f.2) ++
        (field format.base width n ++
          ((((fields format m).drop (i + 1)).flatMap fun f => field format.base f.1 f.2) ++ rest)) := by
    have hfields : fields format m =
        (fields format m).take i ++ (width, n) :: (fields format m).drop (i + 1) := by
      obtain ⟨hi, hget⟩ := List.getElem?_eq_some_iff.1 h
      rw [← hget, List.getElem_cons_drop, List.take_append_drop]
    rw [header]
    nth_rewrite 1 [hfields]
    simp
  have hbase : format.base = 8 ∨ format.base = 16 := by
    cases format
    · exact .inl rfl
    · exact .inr rfl
    · exact .inr rfl
  apply headerField_field hbase hwidth.1 hwidth.2 _ hn
  rw [hsplit]
  apply slice_mid
  · rw [List.length_append, List.length_append, length_fields, length_magic, Nat.add_assoc, hstart]
  · exact length_field _ _ _

/-- The numbers fit into their fields. -/
structure Sized (format : Format) (m : Member) : Prop where
  name : m.entry.path.length + 1 < pathMax
  widths : ∀ f ∈ [m.entry.uid.toNat, m.entry.gid.toNat, m.nlink],
    f < format.base ^ (if format = .odc then 6 else 8)
  longWidths : ∀ f ∈ [m.entry.mtime.toInt.toNat, m.entry.content.length],
    f < format.base ^ (if format = .odc then 11 else 8)

theorem checksum_lt (data : Bytes) : checksum data < 2 ^ 32 := by
  have hfold : ∀ (l : Bytes) (n : Nat), n < 2 ^ 32 →
      l.foldl (fun sum c => (sum + c.toNat) % 2 ^ 32) n < 2 ^ 32 := by
    intro l
    induction l with
    | nil => exact fun n hn => hn
    | cons c l ih => exact fun n _ => ih _ (Nat.mod_lt _ (by decide))
  exact hfold data 0 (by decide)

/-- What `read_header ()` reads. -/
def headerOf (format : Format) (m : Member) : Header where
  mode := m.entry.mode.toNat
  uid := m.entry.uid.toNat
  gid := m.entry.gid.toNat
  nlink := m.nlink
  mtime := m.entry.mtime.toInt.toNat
  namesize := m.entry.path.length + 1
  filesize := m.entry.content.length
  check := format.check m.entry
  headerLen := if format = .odc then 76 else 110
  aligned := format ≠ .odc
  hasCrc := format = .crc

theorem length_header (format : Format) (m : Member) :
    (header format m).length = if format = .odc then 76 else 110 := by
  rw [header, List.length_append, length_fields, length_magic, fields]
  split_ifs
  · simp
  · simp

theorem readOdc_header (h : Sized .odc m) :
    readOdc (out ++ header .odc m ++ rest) out.length = .ok (headerOf .odc m) := by
  have hmode : m.entry.mode.toNat < 2 ^ 16 := m.entry.mode.toNat_lt
  have hname : m.entry.path.length + 1 < 1024 := h.name
  obtain ⟨huid, hgid, hnlink, -⟩ := by simpa only [List.forall_mem_cons] using h.widths
  obtain ⟨hmtime, hsize, -⟩ := by simpa only [List.forall_mem_cons] using h.longWidths
  have h₁ : headerField (out ++ header .odc m ++ rest) (out.length + 18) 6 8 = .ok _ :=
    headerField_header out rest 2 18 rfl (by simp [fields]) (by decide) (show m.entry.mode.toNat < 8 ^ 6 by omega)
  have h₂ : headerField (out ++ header .odc m ++ rest) (out.length + 24) 6 8 = .ok _ :=
    headerField_header out rest 3 24 rfl (by simp [fields]) (by decide) huid
  have h₃ : headerField (out ++ header .odc m ++ rest) (out.length + 30) 6 8 = .ok _ :=
    headerField_header out rest 4 30 rfl (by simp [fields]) (by decide) hgid
  have h₄ : headerField (out ++ header .odc m ++ rest) (out.length + 36) 6 8 = .ok _ :=
    headerField_header out rest 5 36 rfl (by simp [fields]) (by decide) hnlink
  have h₅ : headerField (out ++ header .odc m ++ rest) (out.length + 48) 11 8 = .ok _ :=
    headerField_header out rest 7 48 rfl (by simp [fields]) (by decide) hmtime
  have h₆ : headerField (out ++ header .odc m ++ rest) (out.length + 59) 6 8 = .ok _ :=
    headerField_header out rest 8 59 rfl (by simp [fields]) (by decide) (show m.entry.path.length + 1 < 8 ^ 6 by omega)
  have h₇ : headerField (out ++ header .odc m ++ rest) (out.length + 65) 11 8 = .ok _ :=
    headerField_header out rest 9 65 rfl (by simp [fields]) (by decide) hsize
  simp only [readOdc, h₁, h₂, h₃, h₄, h₅, h₆, h₇, bind, Except.bind]
  rfl

theorem check_lt (format : Format) (e : Entry) : format.check e < 16 ^ 8 := by
  cases format with
  | odc => exact Nat.pow_pos (by omega)
  | newc => exact Nat.pow_pos (by omega)
  | crc => exact checksum_lt e.content

theorem readNewc_header (hformat : format ≠ .odc) (h : Sized format m) :
    readNewc (out ++ header format m ++ rest) out.length (format = .crc) = .ok (headerOf format m) := by
  have hmode : m.entry.mode.toNat < 2 ^ 16 := m.entry.mode.toNat_lt
  have hname : m.entry.path.length + 1 < 1024 := h.name
  have hbase : format.base = 16 := by
    cases format
    · exact absurd rfl hformat
    · rfl
    · rfl
  obtain ⟨hwidths, hlong⟩ := And.intro h.widths h.longWidths
  rw [hbase, if_neg hformat] at hwidths hlong
  obtain ⟨huid, hgid, hnlink, -⟩ := by simpa only [List.forall_mem_cons] using hwidths
  obtain ⟨hmtime, hsize, -⟩ := by simpa only [List.forall_mem_cons] using hlong
  have hread : ∀ i start n, (fields format m)[i]? = some (8, n) →
      6 + (((fields format m).take i).map (·.1)).sum = start → n < 16 ^ 8 →
      headerField (out ++ header format m ++ rest) (out.length + start) 8 16 = .ok n := by
    intro i start n hi hstart hn
    have := headerField_header out rest i start hi hstart (by decide) (by rwa [hbase])
    rwa [hbase] at this
  simp only [fields, if_neg hformat] at hread
  have h₁ := hread 1 14 _ rfl (by simp) (show m.entry.mode.toNat < 16 ^ 8 by omega)
  have h₂ := hread 2 22 _ rfl (by simp) huid
  have h₃ := hread 3 30 _ rfl (by simp) hgid
  have h₄ := hread 4 38 _ rfl (by simp) hnlink
  have h₅ := hread 5 46 _ rfl (by simp) hmtime
  have h₆ := hread 6 54 _ rfl (by simp) hsize
  have h₇ := hread 11 94 _ rfl (by simp) (show m.entry.path.length + 1 < 16 ^ 8 by omega)
  have h₈ := hread 12 102 _ rfl (by simp) (check_lt format m.entry)
  have haligned : decide (format ≠ .odc) = true := decide_eq_true hformat
  simp only [readNewc, h₁, h₂, h₃, h₄, h₅, h₆, h₇, h₈, headerOf, if_neg hformat, haligned,
    bind, Except.bind]
  rfl

/-- A header is read as it was written. -/
theorem readHeader_header (h : Sized format m) :
    readHeader (out ++ header format m ++ rest) out.length = .ok (headerOf format m) := by
  have hlen : (out ++ header format m ++ rest).length - out.length =
      (if format = .odc then 76 else 110) + rest.length := by
    rw [List.length_append, List.length_append, length_header]
    omega
  have havail : minus (out ++ header format m ++ rest).length out.length =
      .ok ((if format = .odc then 76 else 110) + rest.length) := by
    rw [← hlen, minus, if_pos (by simp)]
  have hmagic : slice (out ++ header format m ++ rest) out.length 6 = .ok format.magic := by
    rw [header, List.append_assoc, List.append_assoc]
    exact slice_mid rfl (length_magic format)
  rw [readHeader, havail]
  simp only [bind, Except.bind, hmagic]
  cases format with
  | odc =>
      have hshort : ¬ 76 + rest.length < 6 := by omega
      have hshort' : ¬ 76 + rest.length < 76 := by omega
      have hread := readOdc_header out rest h
      simp [dieIf, Format.magic, hshort] at hread ⊢
      exact hread
  | newc =>
      have hshort : ¬ 110 + rest.length < 6 := by omega
      have hshort' : ¬ 110 + rest.length < 110 := by omega
      have hne : lit "070701" ≠ lit "070707" := by decide
      have hne' : lit "070701" ≠ lit "070702" := by decide
      have hread := readNewc_header out rest (by decide) h
      simp [dieIf, Format.magic, hshort, hne, hne'] at hread ⊢
      exact hread
  | crc =>
      have hshort : ¬ 110 + rest.length < 6 := by omega
      have hshort' : ¬ 110 + rest.length < 110 := by omega
      have hne : lit "070702" ≠ lit "070707" := by decide
      have hne' : lit "070702" ≠ lit "070701" := by decide
      have hread := readNewc_header out rest (by decide) h
      simp [dieIf, Format.magic, hshort, hne, hne'] at hread ⊢
      exact hread

/-! A directory with a file in it and a link to the file. -/

def plainMember (entry : Entry) : Member where
  entry := entry
  nlink := 1
  dev := 0
  ino := 7
  rdev := 0
  devMajor := 1
  devMinor := 4
  rdevMajor := 0
  rdevMinor := 0

def sampleDir : Member :=
  plainMember { path := lit "d", mode := 0o040755, uid := 501, gid := 20, mtime := 123 }

def sampleFile : Member :=
  plainMember { path := lit "d/f", mode := 0o100644, uid := 501, gid := 20, mtime := 123, data := [1, 2, 3] }

def sampleLink : Member :=
  plainMember { path := lit "d/l", mode := 0o120755, uid := 501, gid := 20, mtime := 123, link := some (lit "f") }

def sampleMembers : List Member := [sampleDir, sampleFile, sampleLink]

end MiniDarwin.Archive
