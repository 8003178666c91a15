import MiniDarwin.Boot.Disk

/-!
What is on the disk: headers and tables that agree with one another, and
partitions that are the images.

The disk is written in pieces that do not meet, so that each of them is
there in the end.
-/

namespace MiniDarwin.Boot

open Data

variable {digests : Digests} {esp : Bytes} {root : Option Bytes} {data b : Bytes} {f : Field} {fields : List Field}

/-! ### Formats -/

@[simp] theorem length_zeros (n : Nat) : (zeros n).length = n := List.length_replicate

@[simp] theorem length_raw (f : Field) : f.raw.length = f.width := by
  cases f with
  | int width value => exact length_encodeLE width value
  | bytes width b =>
      simp only [Field.raw, Field.width, List.length_take, List.length_append, length_zeros]
      omega

theorem length_ljust {n : Nat} (h : b.length ≤ n) : (ljust b n).length = n := by
  rw [ljust, List.length_append, length_zeros]
  omega

theorem bind_eq_ok {α β : Type} {x : Except Error α} {m : α → Except Error β} {y : β} (h : x >>= m = .ok y) :
    ∃ a, x = .ok a ∧ m a = .ok y := by
  cases x with
  | error e => cases h
  | ok a => exact ⟨a, rfl, h⟩

theorem pack_eq_ok : pack fields = .ok data ↔ (∀ f ∈ fields, f.Fits) ∧ data = fields.flatMap Field.raw := by
  induction fields generalizing data with
  | nil => simp [pack, eq_comm]
  | cons f fields ih =>
      rw [pack, List.forall_mem_cons, List.flatMap_cons]
      by_cases hf : f.Fits
      · rw [if_pos hf]
        constructor
        · intro h
          obtain ⟨rest, hrest, hdata⟩ := bind_eq_ok h
          obtain ⟨hfits, rfl⟩ := ih.1 hrest
          cases hdata
          exact ⟨⟨hf, hfits⟩, rfl⟩
        · rintro ⟨⟨-, hfits⟩, rfl⟩
          rw [ih.2 ⟨hfits, rfl⟩]
          rfl
      · rw [if_neg hf]
        exact iff_of_false (fun h => by cases h) fun h => hf h.1.1

theorem length_flatMap_raw (fields : List Field) :
    (fields.flatMap Field.raw).length = (fields.map Field.width).sum := by
  rw [List.length_flatMap]
  congr 1
  simp

/-- A field is where the widths of those before it end. -/
theorem slice_field {k o : Nat} (h : fields[k]? = some f) (ho : ((fields.map Field.width).take k).sum = o) :
    slice (fields.flatMap Field.raw) o f.width = f.raw := by
  subst ho
  rw [← List.map_take]
  obtain ⟨hk, hget⟩ := List.getElem?_eq_some_iff.1 h
  have hsplit : fields = fields.take k ++ f :: fields.drop (k + 1) := by
    rw [← hget, List.getElem_cons_drop, List.take_append_drop]
  have hflat : fields.flatMap Field.raw =
      (fields.take k).flatMap Field.raw ++ f.raw ++ (fields.drop (k + 1)).flatMap Field.raw := by
    conv_lhs => rw [hsplit]
    rw [List.flatMap_append, List.flatMap_cons, List.append_assoc]
  rw [hflat, ← length_flatMap_raw, ← length_raw, slice_append_mid]

/-! ### Headers -/

def number (b : Bytes) (off n : Nat) : Nat := decodeLE (slice b off n)

/-- A sector that is a header, of a table with these bytes. -/
structure Header (h : Bytes) (current backup lastUsable entriesLba : Nat) (table : Bytes) : Prop where
  signature : slice h 0 8 = ascii "EFI PART"
  size : number h 12 4 = 92
  /-- over the 92 bytes, with zeros in its own place -/
  crc : number h 16 4 = (crc32 (patch (slice h 0 92) 16 (zeros 4))).toNat
  current : number h 24 8 = current
  backup : number h 32 8 = backup
  firstUsable : number h 40 8 = 34
  lastUsable : number h 48 8 = lastUsable
  entriesLba : number h 72 8 = entriesLba
  count : number h 80 4 = 128
  entrySize : number h 84 4 = 128
  tableCrc : number h 88 4 = (crc32 table).toNat

/-- What is read where a number is. -/
theorem number_field {width value k o : Nat} (hfits : ∀ f ∈ fields, f.Fits)
    (h : fields[k]? = some (.int width value)) (ho : ((fields.map Field.width).take k).sum = o) :
    number (fields.flatMap Field.raw) o width = value := by
  have hvalue : value < 256 ^ width := hfits _ (List.mem_of_getElem? h)
  have hslice : slice (fields.flatMap Field.raw) o width = encodeLE width value := slice_field h ho
  rw [number, hslice, decodeLE_encodeLE_of_lt hvalue]

/-- A header with its checksum over the zeros that were in its place. -/
def withCrc (data : Bytes) : Bytes := ljust (patch data 16 (encodeLE 4 (crc32 data).toNat)) 512

section Checksum

variable (hlen : data.length = 92)
include hlen

theorem length_patch_crc (crc : Nat) : (patch data 16 (encodeLE 4 crc)).length = 92 := by
  rw [length_patch (by rw [length_encodeLE]; omega), hlen]

theorem length_withCrc : (withCrc data).length = 512 := by
  apply length_ljust
  rw [length_patch_crc hlen]
  decide

theorem slice_withCrc {o n : Nat} (hapart : o + n ≤ 16 ∨ 20 ≤ o) (hin : o + n ≤ 92) :
    slice (withCrc data) o n = slice data o n := by
  have hfits : 16 + (encodeLE 4 (crc32 data).toNat).length ≤ data.length := by
    rw [length_encodeLE]
    omega
  rw [withCrc, ljust, slice_append_left (by rw [length_patch_crc hlen]; exact hin),
    slice_patch_of_disjoint hfits (by rwa [length_encodeLE])]

theorem crc_withCrc (hzeros : slice data 16 4 = zeros 4) :
    number (withCrc data) 16 4 = (crc32 (patch (slice (withCrc data) 0 92) 16 (zeros 4))).toNat := by
  have hcrc : (encodeLE 4 (crc32 data).toNat).length = 4 := length_encodeLE _ _
  have hfits : 16 + (encodeLE 4 (crc32 data).toNat).length ≤ data.length := by omega
  have hpatched := length_patch_crc hlen (crc32 data).toNat
  have hbefore : slice (withCrc data) 0 92 = patch data 16 (encodeLE 4 (crc32 data).toNat) := by
    rw [withCrc, ljust, slice_append_left (by omega), ← hpatched, slice_self]
  have hsum : slice (withCrc data) 16 4 = encodeLE 4 (crc32 data).toNat := by
    rw [withCrc, ljust, slice_append_left (by omega)]
    exact hcrc ▸ slice_patch hfits
  have hback : patch (patch data 16 (encodeLE 4 (crc32 data).toNat)) 16 (zeros 4) = data := by
    rw [patch_patch hfits (by rw [hcrc, length_zeros]), ← hzeros, patch_slice (by omega)]
  rw [number, hsum, hbefore, hback, decodeLE_encodeLE_of_lt (crc32 data).toNat_lt]

end Checksum

theorem header_eq {current backup lastUsable entriesLba : Nat} {diskId : UUID} {entriesCrc : UInt32} {h : Bytes}
    (hheader : header current backup lastUsable diskId entriesLba entriesCrc = .ok h) :
    (∀ f ∈ headerFields current backup lastUsable diskId entriesLba entriesCrc 0, f.Fits) ∧
      h = withCrc ((headerFields current backup lastUsable diskId entriesLba entriesCrc 0).flatMap Field.raw) := by
  obtain ⟨data, hdata, hrest⟩ := bind_eq_ok hheader
  obtain ⟨crc, hcrc, hout⟩ := bind_eq_ok hrest
  obtain ⟨hfits, rfl⟩ := pack_eq_ok.1 hdata
  obtain ⟨-, rfl⟩ := pack_eq_ok.1 hcrc
  cases hout
  refine ⟨hfits, ?_⟩
  rw [withCrc, patch, length_encodeLE, List.flatMap_singleton]
  rfl

/-- The fields of a header without its checksum. -/
structure HeaderFields (fields : List Field) (current backup lastUsable entriesLba : Nat) (entriesCrc : UInt32) :
    Prop where
  widths : fields.map Field.width = [8, 4, 4, 4, 4, 8, 8, 8, 8, 16, 8, 4, 4, 4]
  signature : fields[0]? = some (.bytes 8 (ascii "EFI PART"))
  size : fields[2]? = some (.int 4 92)
  crc : fields[3]? = some (.int 4 0)
  current : fields[5]? = some (.int 8 current)
  backup : fields[6]? = some (.int 8 backup)
  firstUsable : fields[7]? = some (.int 8 34)
  lastUsable : fields[8]? = some (.int 8 lastUsable)
  entriesLba : fields[10]? = some (.int 8 entriesLba)
  count : fields[11]? = some (.int 4 128)
  entrySize : fields[12]? = some (.int 4 128)
  tableCrc : fields[13]? = some (.int 4 entriesCrc.toNat)

theorem headerFields_spec (current backup lastUsable : Nat) (diskId : UUID) (entriesLba : Nat)
    (entriesCrc : UInt32) : HeaderFields (headerFields current backup lastUsable diskId entriesLba entriesCrc 0)
      current backup lastUsable entriesLba entriesCrc :=
  ⟨rfl, rfl, rfl, rfl, rfl, rfl, rfl, rfl, rfl, rfl, rfl, rfl⟩

theorem HeaderFields.header {current backup lastUsable entriesLba : Nat} {table : Bytes}
    (h : HeaderFields fields current backup lastUsable entriesLba (crc32 table)) (hfits : ∀ f ∈ fields, f.Fits) :
    (withCrc (fields.flatMap Field.raw)).length = 512 ∧
      Header (withCrc (fields.flatMap Field.raw)) current backup lastUsable entriesLba table := by
  have hlen : (fields.flatMap Field.raw).length = 92 := by
    rw [length_flatMap_raw, h.widths]
    rfl
  have hsum : ∀ {k o : Nat}, ([8, 4, 4, 4, 4, 8, 8, 8, 8, 16, 8, 4, 4, 4].take k).sum = o →
      ((fields.map Field.width).take k).sum = o := by
    rw [h.widths]
    exact id
  -- a number that is not the checksum
  have hint : ∀ {k o n v : Nat}, fields[k]? = some (.int n v) →
      ([8, 4, 4, 4, 4, 8, 8, 8, 8, 16, 8, 4, 4, 4].take k).sum = o → o + n ≤ 16 ∨ 20 ≤ o → o + n ≤ 92 →
      number (withCrc (fields.flatMap Field.raw)) o n = v := by
    intro k o n v hk ho hapart hin
    rw [number, slice_withCrc hlen hapart hin]
    exact number_field hfits hk (hsum ho)
  refine ⟨length_withCrc hlen, ?_⟩
  exact {
    signature := by
      have hname : (ascii "EFI PART").length = 8 := by decide
      have hfirst : slice (fields.flatMap Field.raw) 0 8 = (ascii "EFI PART" ++ zeros 8).take 8 :=
        slice_field h.signature (hsum rfl)
      rw [slice_withCrc hlen (by omega) (by omega), hfirst, ← hname, List.take_left]
    size := hint h.size rfl (by omega) (by omega)
    crc := crc_withCrc hlen (slice_field h.crc (hsum rfl))
    current := hint h.current rfl (by omega) (by omega)
    backup := hint h.backup rfl (by omega) (by omega)
    firstUsable := hint h.firstUsable rfl (by omega) (by omega)
    lastUsable := hint h.lastUsable rfl (by omega) (by omega)
    entriesLba := hint h.entriesLba rfl (by omega) (by omega)
    count := hint h.count rfl (by omega) (by omega)
    entrySize := hint h.entrySize rfl (by omega) (by omega)
    tableCrc := hint h.tableCrc rfl (by omega) (by omega) }

/-- What `header ()` returns is a header. -/
theorem header_spec {current backup lastUsable entriesLba : Nat} {diskId : UUID} {table h : Bytes}
    (hheader : header current backup lastUsable diskId entriesLba (crc32 table) = .ok h) :
    h.length = 512 ∧ Header h current backup lastUsable entriesLba table := by
  obtain ⟨hfits, rfl⟩ := header_eq hheader
  exact (headerFields_spec _ _ _ _ _ _).header hfits

/-! ### The layout -/

/-- Where the payloads lie: on boundaries of 2048 sectors, one after the other, between the table at
the start and the one at the end. -/
structure Laid (payloads : List Payload) (sectors : Nat) : Prop where
  aligned : ∀ p ∈ payloads, 2048 ∣ p.first
  start : ∀ p ∈ payloads, 34 ≤ p.first
  length : ∀ p ∈ payloads, p.first ≤ p.last ∧ p.file.length = (p.last - p.first + 1) * 512
  finish : ∀ p ∈ payloads, p.last + 34 ≤ sectors
  order : payloads.Pairwise fun p q => p.last < q.first
  room : 68 ≤ sectors
  count : payloads.length ≤ 2

theorem layout_spec {payloads : List Payload} {sectors : Nat} (hesp : esp ≠ []) (haligned : 512 ∣ esp.length)
    (h : layout esp root = .ok (payloads, sectors)) :
    Laid payloads sectors ∧ payloads.map (·.file) = esp :: root.toList := by
  obtain ⟨n, hn⟩ := haligned
  have hpos := List.length_pos_iff.2 hesp
  unfold layout SECTOR at h
  cases root with
  | none =>
      cases h
      refine ⟨?_, rfl⟩
      constructor
      · simp
      · simp
      · simp only [List.mem_singleton, forall_eq]
        omega
      · simp only [List.mem_singleton, forall_eq]
        omega
      · exact List.pairwise_singleton _ _
      · omega
      · simp
  | some root =>
      dsimp only at h
      split at h
      · cases h
      · next hroot =>
          cases h
          refine ⟨?_, rfl⟩
          constructor
          · simp
          · simp only [List.singleton_append, List.forall_mem_cons, List.not_mem_nil, false_imp_iff, implies_true,
              and_true]
            omega
          · simp only [List.singleton_append, List.forall_mem_cons, List.not_mem_nil, false_imp_iff, implies_true,
              and_true]
            omega
          · simp only [List.singleton_append, List.forall_mem_cons, List.not_mem_nil, false_imp_iff, implies_true,
              and_true]
            omega
          · simp only [List.singleton_append, List.pairwise_cons, List.mem_singleton, forall_eq]
            simp
            omega
          · omega
          · simp

/-! ### The table -/

theorem entriesOf_eq_ok {diskId : UUID} {payloads : List Payload} {entries : Bytes}
    (h : entriesOf digests diskId payloads = .ok entries) :
    entries = (payloads.map fun p => (entryFields digests diskId p).flatMap Field.raw).flatten ∧
      ∀ p ∈ payloads, ∀ f ∈ entryFields digests diskId p, f.Fits := by
  induction payloads generalizing entries with
  | nil =>
      cases h
      exact ⟨rfl, List.forall_mem_nil _⟩
  | cons p payloads ih =>
      obtain ⟨entry, hentry, hrest⟩ := bind_eq_ok h
      obtain ⟨rest, hpayloads, hout⟩ := bind_eq_ok hrest
      obtain ⟨hfits, rfl⟩ := pack_eq_ok.1 hentry
      obtain ⟨rfl, hall⟩ := ih hpayloads
      cases hout
      exact ⟨rfl, List.forall_mem_cons.2 ⟨hfits, hall⟩⟩

theorem length_entryFields (digests : Digests) (diskId : UUID) (p : Payload) :
    ((entryFields digests diskId p).flatMap Field.raw).length = 128 := by
  rw [length_flatMap_raw]
  rfl

theorem ljust_of_length_le {n : Nat} (h : n ≤ b.length) : ljust b n = b := by
  rw [ljust, Nat.sub_eq_zero_of_le h]
  exact List.append_nil b

/-- The table of the payloads. -/
structure Table (payloads : List Payload) (table : Bytes) : Prop where
  length : table.length = 16384
  first : ∀ i p, payloads[i]? = some p → number (slice table (128 * i) 128) 32 8 = p.first
  last : ∀ i p, payloads[i]? = some p → number (slice table (128 * i) 128) 40 8 = p.last
  unused : ∀ i, payloads.length ≤ i → i < 128 → slice table (128 * i) 128 = zeros 128

theorem table_spec {diskId : UUID} {payloads : List Payload} {entries : Bytes} (hcount : payloads.length ≤ 128)
    (h : entriesOf digests diskId payloads = .ok entries) : Table payloads (ljust entries (128 * 128)) := by
  obtain ⟨rfl, hfits⟩ := entriesOf_eq_ok h
  have hall : ∀ e ∈ payloads.map fun p => (entryFields digests diskId p).flatMap Field.raw, e.length = 128 := by
    intro e he
    obtain ⟨p, -, rfl⟩ := List.mem_map.1 he
    exact length_entryFields digests diskId p
  have hlen : (payloads.map fun p => (entryFields digests diskId p).flatMap Field.raw).flatten.length =
      128 * payloads.length := by
    rw [List.length_flatten, List.map_congr_left hall, List.map_const', List.sum_replicate, List.length_map,
      smul_eq_mul, mul_comm]
  have hentry : ∀ i p, payloads[i]? = some p →
      slice (ljust (payloads.map fun p => (entryFields digests diskId p).flatMap Field.raw).flatten (128 * 128))
        (128 * i) 128 = (entryFields digests diskId p).flatMap Field.raw := by
    intro i p hp
    obtain ⟨hi, -⟩ := List.getElem?_eq_some_iff.1 hp
    rw [ljust, slice_append_left (by omega)]
    apply slice_flatten hall
    rw [List.getElem?_map, hp]
    rfl
  exact {
    length := length_ljust (by omega)
    first := by
      intro i p hp
      rw [hentry i p hp]
      exact number_field (k := 2) (hfits p (List.mem_of_getElem? hp)) rfl rfl
    last := by
      intro i p hp
      rw [hentry i p hp]
      exact number_field (k := 3) (hfits p (List.mem_of_getElem? hp)) rfl rfl
    unused := by
      intro i hi hlt
      rw [ljust]
      ext1 j
      rw [getElem?_slice, zeros, zeros, List.getElem?_replicate]
      split
      · rw [List.getElem?_append_right (by omega), List.getElem?_replicate, if_pos (by omega)]
      · rfl }

/-! ### Writing -/

section Writing

variable {s : Stream} {ws : List (Write UInt8)} {file : Bytes}

theorem write_patches (hs : s.content = patches file ws) (hfits : ∀ w ∈ ws, w.1 + w.2.length ≤ file.length)
    (hposition : s.position ≤ file.length) (b : Bytes) :
    (s.write b).content = patches file (ws ++ [(s.position, b)]) := by
  have hlong : s.position ≤ s.content.length := by
    rw [hs, length_patches hfits]
    exact hposition
  rw [Stream.write, ljust_of_length_le hlong, hs, patches_concat]

theorem foldl_write {payloads : List Payload} (hs : s.content = patches file ws)
    (hfits : ∀ w ∈ ws, w.1 + w.2.length ≤ file.length)
    (hpayloads : ∀ p ∈ payloads, p.first * SECTOR + p.file.length ≤ file.length) :
    (payloads.foldl (fun disk p => (disk.seek (p.first * SECTOR)).write p.file) s).content =
      patches file (ws ++ payloads.map fun p => (p.first * SECTOR, p.file)) := by
  induction payloads generalizing s ws with
  | nil => rw [List.map_nil, List.append_nil, List.foldl_nil, hs]
  | cons p payloads ih =>
      obtain ⟨hp, hpayloads⟩ := List.forall_mem_cons.1 hpayloads
      have hwritten : ((s.seek (p.first * SECTOR)).write p.file).content =
          patches file (ws ++ [(p.first * SECTOR, p.file)]) :=
        write_patches (s := s.seek (p.first * SECTOR)) hs hfits ((Nat.le_add_right _ _).trans hp) p.file
      have hmore : ∀ w ∈ ws ++ [(p.first * SECTOR, p.file)], w.1 + w.2.length ≤ file.length := by
        intro w hw
        rcases List.mem_append.1 hw with hw | hw
        · exact hfits w hw
        · rw [List.mem_singleton.1 hw]
          exact hp
      rw [List.foldl_cons, ih hwritten hmore hpayloads, List.map_cons, List.append_assoc, List.singleton_append]

end Writing

/-! ### Disks -/

def entryAt (disk : Bytes) (i : Nat) : Bytes := slice disk (1024 + 128 * i) 128

def firstOf (entry : Bytes) : Nat := number entry 32 8

def lastOf (entry : Bytes) : Nat := number entry 40 8

/-- A disk of so many sectors with these images as its partitions. The tables have 32 sectors: one
begins at sector 2 and ends before 34, the other begins at `sectors - 33` and ends before the last. -/
structure Consistent (disk : Bytes) (sectors : Nat) (images : List Bytes) : Prop where
  size : disk.length = sectors * 512
  primary : Header (slice disk 512 512) 1 (sectors - 1) (sectors - 34) 2 (slice disk 1024 16384)
  backup : Header (slice disk ((sectors - 1) * 512) 512) (sectors - 1) 1 (sectors - 34) (sectors - 33)
    (slice disk ((sectors - 33) * 512) 16384)
  tables : slice disk 1024 16384 = slice disk ((sectors - 33) * 512) 16384
  room : 34 ≤ sectors - 34
  aligned : ∀ i < images.length, 2048 ∣ firstOf (entryAt disk i)
  inside : ∀ i < images.length, 34 ≤ firstOf (entryAt disk i) ∧
    firstOf (entryAt disk i) ≤ lastOf (entryAt disk i) ∧ lastOf (entryAt disk i) ≤ sectors - 34
  disjoint : ∀ i j, i < j → j < images.length → lastOf (entryAt disk i) < firstOf (entryAt disk j)
  image : ∀ i image, images[i]? = some image →
    slice disk (firstOf (entryAt disk i) * 512)
      ((lastOf (entryAt disk i) - firstOf (entryAt disk i) + 1) * 512) = image
  unused : ∀ i, images.length ≤ i → i < 128 → entryAt disk i = zeros 128

/-- The pieces that are written, in order. -/
def writesOf (mbr primary table backup : Bytes) (payloads : List Payload) (sectors : Nat) : List (Write UInt8) :=
  [(0, mbr), (512, primary), (1024, table)] ++ payloads.map (fun p => (p.first * 512, p.file)) ++
    [((sectors - 33) * 512, table), ((sectors - 33) * 512 + 16384, backup)]

section Written

variable {mbr primary table backup : Bytes} {payloads : List Payload} {sectors : Nat}

theorem forall_writesOf {P : Write UInt8 → Prop} : (∀ w ∈ writesOf mbr primary table backup payloads sectors, P w) ↔
    (P (0, mbr) ∧ P (512, primary) ∧ P (1024, table)) ∧ (∀ p ∈ payloads, P (p.first * 512, p.file)) ∧
      P ((sectors - 33) * 512, table) ∧ P ((sectors - 33) * 512 + 16384, backup) := by
  simp only [writesOf, List.forall_mem_append, List.forall_mem_cons, List.not_mem_nil, false_imp_iff, implies_true,
    and_true, List.forall_mem_map, and_assoc]

/-- The pieces fit on the disk. -/
theorem writes_fit (hlaid : Laid payloads sectors) (hmbr : mbr.length = 512) (hprimary : primary.length = 512)
    (htable : table.length = 16384) (hbackup : backup.length = 512) :
    ∀ w ∈ writesOf mbr primary table backup payloads sectors, w.1 + w.2.length ≤ (zeros (sectors * 512)).length := by
  have hroom := hlaid.room
  rw [length_zeros, forall_writesOf]
  dsimp only
  refine ⟨⟨by omega, by omega, by omega⟩, ?_, by omega, by omega⟩
  intro p hp
  obtain ⟨hle, hlen⟩ := hlaid.length p hp
  have hfinish := hlaid.finish p hp
  omega

/-- The pieces do not meet. -/
theorem writes_apart (hlaid : Laid payloads sectors) (hmbr : mbr.length = 512) (hprimary : primary.length = 512)
    (htable : table.length = 16384) :
    (writesOf mbr primary table backup payloads sectors).Pairwise Write.Apart := by
  have hroom := hlaid.room
  unfold Write.Apart
  rw [writesOf, List.append_assoc, List.pairwise_append, List.pairwise_append]
  refine ⟨?_, ⟨?_, ?_, ?_⟩, ?_⟩
  · simp only [List.pairwise_cons, List.forall_mem_cons, List.not_mem_nil, false_imp_iff, implies_true, and_true,
      List.Pairwise.nil]
    omega
  · rw [List.pairwise_map]
    apply hlaid.order.imp_of_mem
    intro p q hp hq hlt
    obtain ⟨hle, hlen⟩ := hlaid.length p hp
    dsimp only
    omega
  · simp only [List.pairwise_cons, List.forall_mem_cons, List.not_mem_nil, false_imp_iff, implies_true, and_true,
      List.Pairwise.nil]
    omega
  · rw [List.forall_mem_map]
    intro p hp
    obtain ⟨hle, hlen⟩ := hlaid.length p hp
    have hfinish := hlaid.finish p hp
    simp only [List.forall_mem_cons, List.not_mem_nil, false_imp_iff, implies_true, and_true]
    omega
  · simp only [List.forall_mem_cons, List.not_mem_nil, false_imp_iff, implies_true, and_true, List.forall_mem_append,
      List.forall_mem_map]
    refine ⟨⟨?_, by omega, by omega⟩, ⟨?_, by omega, by omega⟩, ⟨?_, by omega, by omega⟩⟩
    all_goals
      intro p hp
      have hstart := hlaid.start p hp
      omega

/-- What has been written is a disk. -/
theorem consistent_patches (hlaid : Laid payloads sectors) (hmbr : mbr.length = 512)
    (hprimary : primary.length = 512) (hbackup : backup.length = 512) (htable : Table payloads table)
    (hfirst : Header primary 1 (sectors - 1) (sectors - 34) 2 table)
    (hlast : Header backup (sectors - 1) 1 (sectors - 34) (sectors - 33) table) :
    Consistent (patches (zeros (sectors * 512)) (writesOf mbr primary table backup payloads sectors)) sectors
      (payloads.map (·.file)) := by
  have hroom := hlaid.room
  have hfit := writes_fit hlaid hmbr hprimary htable.length hbackup
  have hsize := (length_patches hfit).trans (length_zeros _)
  have hthere := forall_writesOf.1 fun w hw =>
    slice_patches (w := w) hfit (writes_apart hlaid hmbr hprimary htable.length) hw
  generalize patches (zeros (sectors * 512)) (writesOf mbr primary table backup payloads sectors) = disk at *
  obtain ⟨⟨-, hprimaryAt, htableAt⟩, hpayloads, htableEnd, hbackupAt⟩ := hthere
  dsimp only at hprimaryAt htableAt hpayloads htableEnd hbackupAt
  rw [hprimary] at hprimaryAt
  rw [htable.length] at htableAt htableEnd
  have hend : (sectors - 33) * 512 + 16384 = (sectors - 1) * 512 := by omega
  rw [hbackup, hend] at hbackupAt
  have hentry : ∀ i < 128, entryAt disk i = slice table (128 * i) 128 := by
    intro i hi
    rw [entryAt, ← htableAt, slice_slice (by omega)]
  have hcount := hlaid.count
  have hof : ∀ i < payloads.length, ∃ p ∈ payloads, payloads[i]? = some p ∧
      firstOf (entryAt disk i) = p.first ∧ lastOf (entryAt disk i) = p.last := by
    intro i hi
    have hget := List.getElem?_eq_getElem hi
    refine ⟨payloads[i], List.getElem_mem hi, hget, ?_, ?_⟩
    · rw [firstOf, hentry i (by omega), htable.first i _ hget]
    · rw [lastOf, hentry i (by omega), htable.last i _ hget]
  exact {
    size := hsize
    primary := by rwa [hprimaryAt, htableAt]
    backup := by rwa [hbackupAt, htableEnd]
    tables := by rw [htableAt, htableEnd]
    room := by omega
    aligned := by
      intro i hi
      rw [List.length_map] at hi
      obtain ⟨p, hp, -, hfirst, -⟩ := hof i hi
      rw [hfirst]
      exact hlaid.aligned p hp
    inside := by
      intro i hi
      rw [List.length_map] at hi
      obtain ⟨p, hp, -, hfirst, hlast⟩ := hof i hi
      have hstart := hlaid.start p hp
      have hfinish := hlaid.finish p hp
      obtain ⟨hle, -⟩ := hlaid.length p hp
      rw [hfirst, hlast]
      omega
    disjoint := by
      intro i j hij hj
      rw [List.length_map] at hj
      obtain ⟨p, -, hi, -, hlast⟩ := hof i (hij.trans hj)
      obtain ⟨q, -, hj', hfirst, -⟩ := hof j hj
      rw [hlast, hfirst]
      obtain ⟨hi', rfl⟩ := List.getElem?_eq_some_iff.1 hi
      obtain ⟨-, rfl⟩ := List.getElem?_eq_some_iff.1 hj'
      exact List.pairwise_iff_getElem.1 hlaid.order i j hi' hj hij
    image := by
      intro i image hi
      rw [List.getElem?_map, Option.map_eq_some_iff] at hi
      obtain ⟨p, hi, rfl⟩ := hi
      obtain ⟨hlt, -⟩ := List.getElem?_eq_some_iff.1 hi
      obtain ⟨q, hq, hi', hfirst, hlast⟩ := hof i hlt
      obtain rfl := Option.some.inj (hi.symm.trans hi')
      obtain ⟨-, hlen⟩ := hlaid.length p hq
      rw [hfirst, hlast, ← hlen]
      exact hpayloads p hq
    unused := by
      intro i hi hlt
      rw [List.length_map] at hi
      rw [hentry i hlt, htable.unused i hi hlt] }

end Written

theorem mbrOf_length {sectors : Nat} {mbr : Bytes} (h : mbrOf sectors = .ok mbr) : mbr.length = 512 := by
  obtain ⟨entry, hentry, hout⟩ := bind_eq_ok h
  obtain ⟨-, rfl⟩ := pack_eq_ok.1 hentry
  cases hout
  have hlen : ∀ fields : List Field, (fields.map Field.width).sum = 16 →
      (patch (zeros SECTOR) 446 (fields.flatMap Field.raw)).length = 512 := by
    intro fields hsum
    rw [length_patch (by rw [length_flatMap_raw, hsum, length_zeros]; decide), length_zeros]
    rfl
  have hentry := hlen _ (show ([Field.int 1 0, .bytes 3 [0, 2, 0], .int 1 0xEE, .bytes 3 [0xff, 0xff, 0xff],
    .int 4 1, .int 4 (min (sectors - 1) 0xFFFFFFFF)].map Field.width).sum = 16 from rfl)
  rw [length_patch (by rw [hentry]; decide), hentry]

/-- The file after its writes. -/
theorem content_written {mbr primary table backup : Bytes} {payloads : List Payload} {sectors : Nat}
    (hmbr : mbr.length = 512) (hprimary : primary.length = 512) (htable : table.length = 16384)
    (hfit : ∀ w ∈ writesOf mbr primary table backup payloads sectors,
      w.1 + w.2.length ≤ (zeros (sectors * 512)).length) :
    ((((payloads.foldl (fun disk p => (disk.seek (p.first * SECTOR)).write p.file)
        ((((Stream.opened.truncate (sectors * SECTOR)).write mbr).write primary).write table)).seek
          ((sectors - 33) * SECTOR)).write table).write backup).content =
      patches (zeros (sectors * 512)) (writesOf mbr primary table backup payloads sectors) := by
  obtain ⟨⟨hfit1, hfit2, hfit3⟩, hfit4, hfit5, hfit6⟩ := forall_writesOf.1 hfit
  have hbegin : ∀ ws, ws <+: writesOf mbr primary table backup payloads sectors →
      ∀ w ∈ ws, w.1 + w.2.length ≤ (zeros (sectors * 512)).length :=
    fun ws hws w hw => hfit w (hws.subset hw)
  have hlist : writesOf mbr primary table backup payloads sectors =
      [] ++ [(0, mbr)] ++ [(0 + mbr.length, primary)] ++ [(0 + mbr.length + primary.length, table)] ++
        payloads.map (fun p => (p.first * SECTOR, p.file)) ++ [((sectors - 33) * SECTOR, table)] ++
          [((sectors - 33) * SECTOR + table.length, backup)] := by
    simp [writesOf, SECTOR, hmbr, hprimary, htable]
  have b5 := hlist ▸ List.prefix_append _ [((sectors - 33) * SECTOR + table.length, backup)]
  have b4 := (List.prefix_append _ _).trans b5
  have b3 := (List.prefix_append _ _).trans b4
  have b2 := (List.prefix_append _ _).trans b3
  have b1 := (List.prefix_append _ _).trans b2
  have h0 : (Stream.opened.truncate (sectors * SECTOR)).content = patches (zeros (sectors * 512)) [] := by
    simp [Stream.truncate, Stream.opened, ljust, patches, SECTOR]
  have h1 := write_patches h0 (List.forall_mem_nil _) (Nat.zero_le _) mbr
  have h2 := write_patches h1 (hbegin _ b1) (show 0 + mbr.length ≤ _ by dsimp only at hfit2; omega) primary
  have h3 := write_patches h2 (hbegin _ b2)
    (show 0 + mbr.length + primary.length ≤ _ by dsimp only at hfit3; omega) table
  have h4 := foldl_write h3 (hbegin _ b3) hfit4
  have h5 := write_patches (s := Stream.seek _ ((sectors - 33) * SECTOR)) h4 (hbegin _ b4)
    (show (sectors - 33) * SECTOR ≤ _ from (Nat.le_add_right _ _).trans hfit5) table
  have h6 := write_patches h5 (hbegin _ b5)
    (show (sectors - 33) * SECTOR + table.length ≤ _ from hfit5) backup
  rw [hlist]
  exact h6

theorem consistent_of_ok {disk : Bytes} (hesp : esp ≠ []) (haligned : 512 ∣ esp.length)
    (h : assemble digests esp root = .ok disk) : ∃ payloads sectors, layout esp root = .ok (payloads, sectors) ∧
      Consistent disk sectors (esp :: root.toList) := by
  obtain ⟨⟨payloads, sectors⟩, hlayout, h1⟩ := bind_eq_ok h
  obtain ⟨d, -, h2⟩ := bind_eq_ok h1
  obtain ⟨entries, hentries, h3⟩ := bind_eq_ok h2
  obtain ⟨mbr, hmbr, h4⟩ := bind_eq_ok h3
  obtain ⟨primary, hprimary, h5⟩ := bind_eq_ok h4
  obtain ⟨backup, hbackup, h6⟩ := bind_eq_ok h5
  obtain ⟨hlaid, hfiles⟩ := layout_spec hesp haligned hlayout
  have hcount := hlaid.count
  have htable := table_spec (by omega) hentries
  obtain ⟨hprimaryLen, hfirst⟩ := header_spec hprimary
  obtain ⟨hbackupLen, hlast⟩ := header_spec hbackup
  have hmbrLen := mbrOf_length hmbr
  have hfit := writes_fit hlaid hmbrLen hprimaryLen htable.length hbackupLen
  refine ⟨payloads, sectors, hlayout, ?_⟩
  cases h6
  rw [content_written hmbrLen hprimaryLen htable.length hfit, ← hfiles]
  exact consistent_patches hlaid hmbrLen hprimaryLen hbackupLen htable hfirst hlast

/-! ### Disks that are made -/

theorem pack_defined (h : ∀ f ∈ fields, f.Fits) : pack fields = .ok (fields.flatMap Field.raw) :=
  pack_eq_ok.2 ⟨h, rfl⟩

/-- Numbers of 64 bits, and strings, fit. -/
theorem fits_header {current backup lastUsable entriesLba crc : Nat} {diskId : UUID} {entriesCrc : UInt32}
    (hc : current < 2 ^ 64) (hb : backup < 2 ^ 64) (hl : lastUsable < 2 ^ 64) (he : entriesLba < 2 ^ 64)
    (hcrc : crc < 2 ^ 32) : ∀ f ∈ headerFields current backup lastUsable diskId entriesLba entriesCrc crc, f.Fits := by
  have htable := entriesCrc.toNat_lt
  simp only [headerFields, List.forall_mem_cons, List.not_mem_nil, false_imp_iff, implies_true, and_true, Field.Fits,
    true_and]
  omega

theorem header_defined {current backup lastUsable entriesLba : Nat} (diskId : UUID) (entriesCrc : UInt32)
    (hc : current < 2 ^ 64) (hb : backup < 2 ^ 64) (hl : lastUsable < 2 ^ 64) (he : entriesLba < 2 ^ 64) :
    ∃ h, header current backup lastUsable diskId entriesLba entriesCrc = .ok h := by
  have hcrc : ∀ crc : UInt32, pack [.int 4 crc.toNat] = .ok ([.int 4 crc.toNat].flatMap Field.raw) := by
    intro crc
    apply pack_defined
    have hlt := crc.toNat_lt
    simp only [List.mem_singleton, forall_eq, Field.Fits]
    omega
  unfold header
  rw [pack_defined (fits_header hc hb hl he (by decide))]
  simp only [bind, Except.bind, hcrc]
  exact ⟨_, rfl⟩

theorem digested_defined {payloads : List Payload} (h : ∀ p ∈ payloads, p.file.length < 2 ^ 64) :
    ∃ d, digested payloads = .ok d := by
  induction payloads with
  | nil => exact ⟨[], rfl⟩
  | cons p payloads ih =>
      obtain ⟨hp, hpayloads⟩ := List.forall_mem_cons.1 h
      obtain ⟨d, hd⟩ := ih hpayloads
      have hsize : pack [.int 8 p.file.length] = .ok ([.int 8 p.file.length].flatMap Field.raw) := by
        apply pack_defined
        simp only [List.mem_singleton, forall_eq, Field.Fits]
        omega
      refine ⟨[Field.int 8 p.file.length].flatMap Field.raw ++ p.file ++ d, ?_⟩
      rw [digested, hsize, hd]
      rfl

theorem entriesOf_defined (digests : Digests) (diskId : UUID) {payloads : List Payload}
    (h : ∀ p ∈ payloads, p.first < 2 ^ 64 ∧ p.last < 2 ^ 64) : ∃ e, entriesOf digests diskId payloads = .ok e := by
  induction payloads with
  | nil => exact ⟨[], rfl⟩
  | cons p payloads ih =>
      obtain ⟨⟨hfirst, hlast⟩, hpayloads⟩ := List.forall_mem_cons.1 h
      obtain ⟨e, he⟩ := ih hpayloads
      have hentry : ∀ f ∈ entryFields digests diskId p, f.Fits := by
        simp only [entryFields, List.forall_mem_cons, List.not_mem_nil, false_imp_iff, implies_true, and_true,
          Field.Fits, true_and]
        omega
      refine ⟨(entryFields digests diskId p).flatMap Field.raw ++ e, ?_⟩
      rw [entriesOf, pack_defined hentry, he]
      rfl

theorem mbrOf_defined (sectors : Nat) : ∃ mbr, mbrOf sectors = .ok mbr := by
  unfold mbrOf
  rw [pack_defined]
  · exact ⟨_, rfl⟩
  · simp only [List.forall_mem_cons, List.not_mem_nil, false_imp_iff, implies_true, and_true, Field.Fits, true_and]
    omega

/-- Images that are accepted have a layout, and the disk is not much larger than they are. -/
theorem layout_defined (esp : Bytes) (hroot : ∀ r, root = some r → r ≠ [] ∧ 512 ∣ r.length) :
    ∃ payloads sectors, layout esp root = .ok (payloads, sectors) ∧
      sectors * 512 ≤ esp.length + (root.getD []).length + 4 * 2048 * 512 ∧
        ∀ p ∈ payloads, p.file.length ≤ esp.length + (root.getD []).length := by
  unfold layout SECTOR
  cases root with
  | none =>
      refine ⟨_, _, rfl, ?_, ?_⟩
      · simp only [Option.getD_none, List.length_nil]
        omega
      · simp
  | some root =>
      obtain ⟨hne, n, hn⟩ := hroot root rfl
      have hpos := List.length_pos_iff.2 hne
      dsimp only
      rw [if_neg (by omega)]
      refine ⟨_, _, rfl, ?_, ?_⟩
      · simp only [Option.getD_some]
        omega
      · simp

/-- **The disk is consistent**, and it is made whenever the root image is accepted and what there is
fits into 64 bits. -/
theorem assemble_consistent (digests : Digests) {esp : Bytes} (root : Option Bytes) (hesp : esp ≠ [])
    (haligned : 512 ∣ esp.length) :
    (∀ disk, assemble digests esp root = .ok disk → ∃ payloads sectors,
      layout esp root = .ok (payloads, sectors) ∧ Consistent disk sectors (esp :: root.toList)) ∧
    ((∀ r, root = some r → r ≠ [] ∧ 512 ∣ r.length) → esp.length + (root.getD []).length < 2 ^ 63 →
      ∃ disk, assemble digests esp root = .ok disk) := by
  refine ⟨fun disk h => consistent_of_ok hesp haligned h, ?_⟩
  intro hroot hsize
  obtain ⟨payloads, sectors, hlayout, hsectors, hfiles⟩ := layout_defined esp hroot
  obtain ⟨hlaid, -⟩ := layout_spec hesp haligned hlayout
  have hbounds : ∀ p ∈ payloads, p.first < 2 ^ 64 ∧ p.last < 2 ^ 64 := by
    intro p hp
    obtain ⟨hle, -⟩ := hlaid.length p hp
    have hfinish := hlaid.finish p hp
    omega
  obtain ⟨d, hd⟩ := digested_defined fun p hp => (hfiles p hp).trans_lt (by omega)
  obtain ⟨e, he⟩ := entriesOf_defined digests (uuid5 digests NAMESPACE (hexdigest (digests.sha256 d))) hbounds
  obtain ⟨mbr, hmbr⟩ := mbrOf_defined sectors
  obtain ⟨primary, hprimary⟩ := header_defined (uuid5 digests NAMESPACE (hexdigest (digests.sha256 d)))
    (crc32 (ljust e (128 * 128))) (show 1 < 2 ^ 64 by omega) (show sectors - 1 < 2 ^ 64 by omega)
    (show sectors - 34 < 2 ^ 64 by omega) (show 2 < 2 ^ 64 by omega)
  obtain ⟨backup, hbackup⟩ := header_defined (uuid5 digests NAMESPACE (hexdigest (digests.sha256 d)))
    (crc32 (ljust e (128 * 128))) (show sectors - 1 < 2 ^ 64 by omega) (show 1 < 2 ^ 64 by omega)
    (show sectors - 34 < 2 ^ 64 by omega) (show sectors - 33 < 2 ^ 64 by omega)
  unfold assemble
  simp only [hlayout, hd, he, hmbr, hprimary, hbackup, bind, Except.bind]
  exact ⟨_, rfl⟩

def sampleDigests : Digests := ⟨id, fun _ => ⟨zeros 20, rfl⟩⟩

/-- A disk of two images of a sector each. -/
theorem assemble_consistent_sectors : ∃ disk payloads sectors,
    layout (zeros 512) (some (zeros 512)) = .ok (payloads, sectors) ∧
      assemble sampleDigests (zeros 512) (some (zeros 512)) = .ok disk ∧
      Consistent disk sectors [zeros 512, zeros 512] := by
  have hne : zeros 512 ≠ [] := by decide
  have haligned : 512 ∣ (zeros 512).length := by rw [length_zeros]
  obtain ⟨hconsistent, hmade⟩ := assemble_consistent sampleDigests (some (zeros 512)) hne haligned
  obtain ⟨disk, hdisk⟩ := hmade (by rintro r ⟨⟩; exact ⟨hne, haligned⟩)
    (by rw [Option.getD_some, length_zeros]; decide)
  obtain ⟨payloads, sectors, hlayout, h⟩ := hconsistent disk hdisk
  exact ⟨disk, payloads, sectors, hlayout, hdisk, h⟩

end MiniDarwin.Boot
