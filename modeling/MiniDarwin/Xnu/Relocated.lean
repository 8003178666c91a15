import MiniDarwin.Xnu.Relocations

/-!
The linker and its verifier agree: where the relocated places are apart from
one another and from the tables, each holds what is expected of it, and
nothing else has changed.

The invariant of the run is about the entries that are done: the other bytes
are still the original's, and so is what an entry that is to come reads.
-/

namespace MiniDarwin.Xnu.Relocation

open Data

/-- Words have their low bytes first. -/
structure LittleEndian (w : Words) : Prop where
  r32 : ∀ b, b.length = 4 → w.r32 b = UInt32.ofNat (decodeLE b)
  r64 : ∀ b, b.length = 8 → w.r64 b = UInt64.ofNat (decodeLE b)
  w32 : ∀ v, w.w32 v = encodeLE 4 v.toNat
  w64 : ∀ v, w.w64 v = encodeLE 8 v.toNat

/-! ### The search -/

theorem locate_eq_some {sl addr loc : UInt64} {n : Nat} {segments : List Segment} (hn : n ≤ 3)
    (haddr : addr.toNat < 2 ^ 31) (hinside : ∀ s ∈ segments, s.fileoff.toNat + s.filesize.toNat ≤ sl.toNat)
    (h : locate sl addr (UInt64.ofNat (2 ^ n)) segments = some loc) :
    fileoff addr.toNat (2 ^ n) segments = some loc.toNat ∧ loc.toNat + 2 ^ n ≤ sl.toNat := by
  have hpow : 2 ^ n ≤ 8 := Nat.pow_le_pow_right (by decide) hn
  have hwidth : (UInt64.ofNat (2 ^ n)).toNat = 2 ^ n := by
    rw [UInt64.toNat_ofNat', Nat.mod_eq_of_lt (by omega)]
  have hsl := sl.toNat_lt
  induction segments with
  | nil => cases h
  | cons s segments ih =>
      obtain ⟨hs, hsegments⟩ := List.forall_mem_cons.1 hinside
      have hiff : (addr ≥ s.vmaddr ∧ addr - s.vmaddr + UInt64.ofNat (2 ^ n) ≤ s.filesize) ↔
          s.vmaddr.toNat ≤ addr.toNat ∧ addr.toNat - s.vmaddr.toNat + 2 ^ n ≤ s.filesize.toNat := by
        rw [ge_iff_le, UInt64.le_iff_toNat_le, UInt64.le_iff_toNat_le, UInt64.toNat_add, hwidth]
        apply and_congr_right
        intro hle
        rw [UInt64.toNat_sub_of_le _ _ (UInt64.le_iff_toNat_le.2 hle), Nat.mod_eq_of_lt (by omega)]
      rw [locate] at h
      rw [fileoff]
      by_cases hin : s.vmaddr.toNat ≤ addr.toNat ∧ addr.toNat - s.vmaddr.toNat + 2 ^ n ≤ s.filesize.toNat
      · rw [if_pos (hiff.2 hin)] at h
        rw [if_pos hin]
        dsimp only at h
        have hvm := s.vmaddr.toNat_lt
        have hfile := s.fileoff.toNat_lt
        have hloc : (s.fileoff + addr - s.vmaddr).toNat = s.fileoff.toNat + addr.toNat - s.vmaddr.toNat := by
          rw [UInt64.toNat_sub, UInt64.toNat_add]
          omega
        split at h
        · cases h
        · cases h
          rw [hloc]
          exact ⟨rfl, by omega⟩
      · rw [if_neg (hiff.not.2 hin)] at h
        rw [if_neg hin]
        exact ih hsegments h

/-! ### Entries -/

theorem unpack_eq {data : Bytes} {off n : Nat} (h : off + n ≤ data.length) :
    unpack data off n = some (decodeLE (slice data off n)) := if_pos h

theorem toInt_toInt32 (v : UInt32) : v.toInt32.toInt = signed v.toNat := by
  have h : v.toInt32.toInt = v.toBitVec.toInt := rfl
  rw [h, BitVec.toInt_eq_toNat_cond, signed]
  have hlt := v.toNat_lt
  change (if 2 * v.toNat < 2 ^ 32 then (v.toNat : Int) else (v.toNat : Int) - (2 ^ 32 : Nat)) = _
  split <;> split <;> omega

theorem decide_toNat {n : Nat} (h : n < 2) : (decide (n = 1)).toNat = n := by
  rcases Nat.lt_succ_iff.1 h |>.lt_or_eq with h | rfl
  · obtain rfl : n = 0 := by omega
    rfl
  · rfl

/-- Both read the same entry. -/
theorem unpackEntry_eq {data : Bytes} {off : Nat} (h : off + 8 ≤ data.length) :
    unpackEntry data off = some
      ⟨(relocationInfo (slice data off 8)).address.toInt, (relocationInfo (slice data off 8)).symbolnum,
        (relocationInfo (slice data off 8)).pcrel.toNat, 2 ^ (relocationInfo (slice data off 8)).length,
        (relocationInfo (slice data off 8)).ext.toNat, (relocationInfo (slice data off 8)).type⟩ := by
  have hbits : slice (slice data off 8) 4 4 = slice data (off + 4) 4 := slice_slice (by omega)
  have hword : slice (slice data off 8) 0 4 = slice data off 4 := slice_slice (by omega)
  have hlt : decodeLE (slice data (off + 4) 4) < 2 ^ 32 := by
    have hlt := decodeLE_lt (slice data (off + 4) 4)
    rw [length_slice (by omega)] at hlt
    exact hlt
  have hword_lt : decodeLE (slice data off 4) < 2 ^ 32 := by
    have hlt := decodeLE_lt (slice data off 4)
    rw [length_slice (by omega)] at hlt
    exact hlt
  unfold unpackEntry unpackSigned
  rw [unpack_eq (by omega), unpack_eq (by omega)]
  simp only [relocationInfo, hbits, hword]
  generalize decodeLE (slice data (off + 4) 4) = bits at hlt
  generalize decodeLE (slice data off 4) = word at hword_lt
  have haddress : (UInt32.ofNat word).toInt32.toInt = signed word := by
    rw [toInt_toInt32, UInt32.toNat_ofNat', Nat.mod_eq_of_lt hword_lt]
  have hsymbol : bits &&& 16777215 = bits % 2 ^ 24 := Nat.and_two_pow_sub_one_eq_mod bits 24
  have hbit : ∀ n, (bits >>> n) &&& 1 = bits / 2 ^ n % 2 := by
    intro n
    rw [Nat.shiftRight_eq_div_pow]
    exact Nat.and_two_pow_sub_one_eq_mod _ 1
  have hwidth : (bits >>> 25) &&& 3 = bits / 2 ^ 25 % 4 := by
    rw [Nat.shiftRight_eq_div_pow]
    exact Nat.and_two_pow_sub_one_eq_mod _ 2
  have hkind : bits >>> 28 = bits / 2 ^ 28 % 16 := by
    rw [Nat.shiftRight_eq_div_pow]
    omega
  simp only [Option.map_some, Option.bind_eq_bind, Option.bind_some, haddress, hsymbol, hbit, hwidth, hkind,
    Nat.one_shiftLeft, decide_toNat (Nat.mod_lt _ Nat.two_pos)]
  rfl

/-! ### Values -/

/-- What bytes are worth, eight without a sign and four with one. -/
def value (b : Bytes) : Int := if b.length = 8 then decodeLE b else signed (decodeLE b)

theorem value_encode (v : UInt64) : value (encodeLE 8 v.toNat) = v.toNat := by
  rw [value, if_pos (length_encodeLE _ _), decodeLE_encodeLE_of_lt v.toNat_lt]

theorem toInt_emod (x : Int64) : x.toInt % 2 ^ 64 = x.toUInt64.toNat := by
  have h : x.toInt = x.toUInt64.toBitVec.toInt := rfl
  rw [h, BitVec.toInt_eq_toNat_cond]
  have hlt := x.toUInt64.toNat_lt
  change (if 2 * x.toUInt64.toNat < 2 ^ 64 then (x.toUInt64.toNat : Int)
    else (x.toUInt64.toNat : Int) - (2 ^ 64 : Nat)) % 2 ^ 64 = _
  split <;> omega

/-- The displacement is the exact one, as far as 64 bits go. -/
theorem displacement_emod (target loadVmaddr : UInt64) (address : Int32) (addend : UInt32) :
    (displacement target loadVmaddr address addend).toInt % 2 ^ 64 =
      (target.toNat - (loadVmaddr.toNat + address.toInt + 4) + signed addend.toNat) % 2 ^ 64 := by
  have hbase := toInt_emod address.toInt64
  rw [Int32.toInt_toInt64] at hbase
  have haddend := toInt_emod addend.toInt32.toInt64
  rw [Int32.toInt_toInt64, toInt_toInt32] at haddend
  have hsum : (displacement target loadVmaddr address addend).toUInt64 =
      target - (loadVmaddr + address.toInt64.toUInt64 + 4) + addend.toInt32.toInt64.toUInt64 := rfl
  have hfour : (4 : UInt64).toNat = 4 := rfl
  rw [toInt_emod, hsum, UInt64.toNat_add, UInt64.toNat_sub, UInt64.toNat_add, UInt64.toNat_add, hfour]
  generalize address.toInt64.toUInt64.toNat = base at hbase
  generalize addend.toInt32.toInt64.toUInt64.toNat = offset at haddend
  generalize address.toInt = vm at hbase
  generalize signed addend.toNat = displaced at haddend
  have htarget := target.toNat_lt
  have hload := loadVmaddr.toNat_lt
  omega

/-- A displacement that fits is what is written. -/
theorem value_displacement {x : Int64} (hlow : ¬ x < Int32.minValue.toInt64) (hhigh : ¬ x > Int32.maxValue.toInt64) :
    value (encodeLE 4 x.toInt32.toUInt32.toNat) = x.toInt := by
  have hmin : Int32.minValue.toInt64.toInt = -2147483648 := by decide
  have hmax : Int32.maxValue.toInt64.toInt = 2147483647 := by decide
  rw [Int64.lt_iff_toInt_lt, hmin] at hlow
  rw [gt_iff_lt, Int64.lt_iff_toInt_lt, hmax] at hhigh
  have hfour : ¬ (encodeLE 4 x.toInt32.toUInt32.toNat).length = 8 := by
    rw [length_encodeLE]
    decide
  have hback : x.toInt32.toUInt32.toInt32 = x.toInt32 := rfl
  rw [value, if_neg hfour, decodeLE_encodeLE_of_lt x.toInt32.toUInt32.toNat_lt, ← toInt_toInt32, hback,
    Int64.toInt_toInt32]
  exact Int.bmod_eq_of_le (by omega) (by omega)

/-! ### One entry -/

section Entry

variable {w : Words} {k : Kext} {external : Bool} {off i : Nat} {buf : Bytes}

/-- What is expected of an entry of the file as it is. -/
def Kext.expects (k : Kext) (buf : Bytes) (external : Bool) (off : Nat) : Option Expectation :=
  expect buf k.seginfo k.symAddrs k.loadVmaddr.toNat external off

/-- An entry that is done: what is expected of its place is written there. -/
structure Done (k : Kext) (external : Bool) (off : Nat) (buf : Bytes) (x : Expectation) (b : Bytes) : Prop where
  place : location buf k.seginfo external off = some (x.before, x.width)
  expects : k.expects buf external off = some x
  width : x.width = 8 ∨ x.width = 4
  length : b.length = x.width
  inside : x.before + x.width ≤ buf.length
  value : value b % 2 ^ 64 = x.expected % 2 ^ 64

theorem load_eq {n : Nat} (h : off + n ≤ buf.length) : load buf off n = .ok (slice buf off n) := if_pos h

theorem store_eq {b : Bytes} (h : off + b.length ≤ buf.length) : store buf off b = .ok (patch buf off b) := if_pos h

theorem relocationInfo_length (b : Bytes) : (relocationInfo b).length ≤ 3 := by
  have h : (relocationInfo b).length < 4 := Nat.mod_lt _ (by decide)
  omega

theorem toNat_address {address : Int32} (h : 0 ≤ address.toInt) :
    address.toUInt32.toUInt64.toNat = address.toInt.toNat ∧ address.toInt.toNat < 2 ^ 31 := by
  have hsigned := toInt_toInt32 address.toUInt32
  have hback : address.toUInt32.toInt32 = address := rfl
  have hlt := address.toUInt32.toNat_lt
  rw [hback, signed] at hsigned
  rw [UInt32.toNat_toUInt64]
  split at hsigned <;> omega

/-- Both find the same place. -/
theorem location_eq {r : RelocationInfo} {loc : UInt64} (hsize : buf.length < 2 ^ 64)
    (hinside : ∀ s ∈ k.seginfo, s.fileoff.toNat + s.filesize.toNat ≤ buf.length)
    (hentry : unpackEntry buf off = some
      ⟨r.address.toInt, r.symbolnum, r.pcrel.toNat, 2 ^ r.length, r.ext.toNat, r.type⟩)
    (hlength : r.length ≤ 3) (haddress : 0 ≤ r.address.toInt) (hext : r.ext = external)
    (hloc : locate (UInt64.ofNat buf.length) r.address.toUInt32.toUInt64 (UInt64.ofNat (2 ^ r.length)) k.seginfo =
      some loc) :
    location buf k.seginfo external off = some (loc.toNat, 2 ^ r.length) ∧ loc.toNat + 2 ^ r.length ≤ buf.length := by
  have hsl : (UInt64.ofNat buf.length).toNat = buf.length := by
    rw [UInt64.toNat_ofNat', Nat.mod_eq_of_lt hsize]
  obtain ⟨haddr, hlt⟩ := toNat_address haddress
  obtain ⟨hfileoff, hin⟩ := locate_eq_some hlength (by omega) (by rwa [hsl]) hloc
  rw [haddr] at hfileoff
  refine ⟨?_, by omega⟩
  have hguard : r.ext.toNat = external.toNat ∧ r.address.toInt ≥ 0 := ⟨by rw [hext], haddress⟩
  simp only [location, hentry, Option.bind_eq_bind, Option.bind_some, guard, if_pos hguard, hfileoff, pure]

section Expected

variable {e : Unpacked} {before : Nat}

theorem expects_local (hentry : unpackEntry buf off = some e)
    (hplace : location buf k.seginfo false off = some (before, 8)) (hkind : e.kind = 0) (hpcrel : e.pcrel = 0)
    (hin : before + 8 ≤ buf.length) : k.expects buf false off =
      some ⟨before, 8, (decodeLE (slice buf before 8) : Int) + k.loadVmaddr.toNat⟩ := by
  simp [Kext.expects, expect, hentry, hplace, hkind, hpcrel, unpack_eq hin, guard]

theorem expects_pointer {target : UInt64} (hentry : unpackEntry buf off = some e)
    (hplace : location buf k.seginfo true off = some (before, 8)) (htarget : k.symAddrs[e.symbol]? = some target)
    (hkind : e.kind = 0) (hpcrel : e.pcrel = 0) (hin : before + 8 ≤ buf.length) : k.expects buf true off =
      some ⟨before, 8, (target.toNat : Int) + decodeLE (slice buf before 8)⟩ := by
  simp [Kext.expects, expect, hentry, hplace, htarget, hkind, hpcrel, unpack_eq hin, guard]

theorem expects_branch {target : UInt64} (hentry : unpackEntry buf off = some e)
    (hplace : location buf k.seginfo true off = some (before, 4)) (htarget : k.symAddrs[e.symbol]? = some target)
    (hkind : e.kind = 2) (hpcrel : e.pcrel = 1) (hin : before + 4 ≤ buf.length) : k.expects buf true off =
      some ⟨before, 4, (target.toNat - (k.loadVmaddr.toNat + e.address + 4) : Int) +
        signed (decodeLE (slice buf before 4))⟩ := by
  simp [Kext.expects, expect, hentry, hplace, htarget, hkind, hpcrel, unpackSigned, unpack_eq hin, guard]

end Expected

/-- A word of eight bytes that is written over the one that is there. -/
theorem done_word {v : UInt64} {before : Nat} {expected : Int}
    (hplace : location buf k.seginfo external off = some (before, 8))
    (hexpects : k.expects buf external off = some ⟨before, 8, expected⟩) (hin : before + 8 ≤ buf.length)
    (hv : (v.toNat : Int) = expected % 2 ^ 64) :
    Done k external off buf ⟨before, 8, expected⟩ (encodeLE 8 v.toNat) where
  place := hplace
  expects := hexpects
  width := .inl rfl
  length := length_encodeLE _ _
  inside := hin
  value := by
    rw [value_encode, hv, Int.emod_emod]

theorem store_word {loc : Nat} (hw : LittleEndian w) (hin : loc + 8 ≤ buf.length) (v : UInt64) :
    store buf loc (w.w64 v) = .ok (patch buf loc (encodeLE 8 v.toNat)) := by
  rw [hw.w64, store_eq (by rwa [length_encodeLE])]

/-- A round either gives up or does what is expected, inside the file. -/
theorem relocateEntry_cases (hw : LittleEndian w) (hsize : buf.length < 2 ^ 64)
    (hinside : ∀ s ∈ k.seginfo, s.fileoff.toNat + s.filesize.toNat ≤ buf.length)
    (hoff : off + i * 8 + 8 ≤ buf.length) :
    relocateEntry w k external off i buf = .error (.badDynamicReloc external i) ∨
      ∃ x b, Done k external (off + i * 8) buf x b ∧
        relocateEntry w k external off i buf = .ok (patch buf x.before b) := by
  have hentry := unpackEntry_eq hoff
  have hlength := relocationInfo_length (slice buf (off + i * 8) 8)
  unfold relocateEntry
  rw [load_eq hoff]
  simp only [bind, Except.bind]
  generalize relocationInfo (slice buf (off + i * 8) 8) = r at hentry hlength
  by_cases hbad : r.address < 0 ∨ r.ext ≠ external
  · rw [if_pos hbad]
    exact .inl rfl
  rw [if_neg hbad]
  obtain ⟨hnonneg, hext⟩ := not_or.1 hbad
  have haddress : 0 ≤ r.address.toInt := by
    rw [Int32.lt_iff_toInt_lt] at hnonneg
    exact not_lt.1 hnonneg
  cases hloc : locate (UInt64.ofNat buf.length) r.address.toUInt32.toUInt64 (UInt64.ofNat (2 ^ r.length)) k.seginfo with
  | none => exact .inl rfl
  | some loc =>
      obtain ⟨hplace, hin⟩ := location_eq hsize hinside hentry hlength haddress (not_not.1 hext) hloc
      dsimp only
      cases external with
      | false =>
          by_cases hkind : r.type ≠ X86_64_RELOC_UNSIGNED ∨ r.pcrel = true ∨ r.length ≠ 3
          · simp only [Bool.not_false, if_true, if_pos hkind]
            exact .inl rfl
          · simp only [Bool.not_false, if_true, if_neg hkind]
            simp only [not_or, not_not, Bool.not_eq_true] at hkind
            obtain ⟨htype, hpcrel, hthree⟩ := hkind
            rw [hthree] at hplace hin
            change loc.toNat + 8 ≤ buf.length at hin
            refine .inr ⟨⟨loc.toNat, 8, (decodeLE (slice buf loc.toNat 8) : Int) + k.loadVmaddr.toNat⟩,
              encodeLE 8 (UInt64.ofNat (decodeLE (slice buf loc.toNat 8)) + k.loadVmaddr).toNat, ?_, ?_⟩
            · apply done_word hplace (expects_local hentry hplace htype (by rw [hpcrel]; rfl) hin) hin
              rw [UInt64.toNat_add, UInt64.toNat_ofNat']
              push_cast
              omega
            · rw [load_eq hin]
              dsimp only
              rw [hw.r64 _ (length_slice hin), store_word hw hin]
      | true =>
          simp only [Bool.not_true, Bool.false_eq_true, if_false]
          cases htarget : k.symAddrs[r.symbolnum]? with
          | none => exact .inl rfl
          | some target =>
              dsimp only
              by_cases hzero : target = 0
              · rw [if_pos hzero]
                exact .inl rfl
              rw [if_neg hzero]
              by_cases hpointer : r.type = X86_64_RELOC_UNSIGNED ∧ (!r.pcrel) = true ∧ r.length = 3
              · rw [if_pos hpointer]
                obtain ⟨htype, hpcrel, hthree⟩ := hpointer
                rw [Bool.not_eq_true'] at hpcrel
                rw [hthree] at hplace hin
                change loc.toNat + 8 ≤ buf.length at hin
                refine .inr ⟨⟨loc.toNat, 8, (target.toNat : Int) + decodeLE (slice buf loc.toNat 8)⟩,
                  encodeLE 8 (target + UInt64.ofNat (decodeLE (slice buf loc.toNat 8))).toNat, ?_, ?_⟩
                · apply done_word hplace
                    (expects_pointer hentry hplace htarget htype (by rw [hpcrel]; rfl) hin) hin
                  rw [UInt64.toNat_add, UInt64.toNat_ofNat']
                  push_cast
                  omega
                · rw [load_eq hin]
                  dsimp only
                  rw [hw.r64 _ (length_slice hin), store_word hw hin]
              rw [if_neg hpointer]
              by_cases hbranch : r.type = X86_64_RELOC_BRANCH ∧ r.pcrel = true ∧ r.length = 2
              · rw [if_pos hbranch]
                obtain ⟨htype, hpcrel, htwo⟩ := hbranch
                rw [htwo] at hplace hin
                change loc.toNat + 4 ≤ buf.length at hin
                have hword : decodeLE (slice buf loc.toNat 4) < 2 ^ 32 := by
                  have hlt := decodeLE_lt (slice buf loc.toNat 4)
                  rw [length_slice hin] at hlt
                  exact hlt
                rw [load_eq hin]
                dsimp only
                rw [hw.r32 _ (length_slice hin)]
                have hexact := displacement_emod target k.loadVmaddr r.address
                  (UInt32.ofNat (decodeLE (slice buf loc.toNat 4)))
                rw [UInt32.toNat_ofNat', Nat.mod_eq_of_lt hword] at hexact
                generalize displacement target k.loadVmaddr r.address
                  (UInt32.ofNat (decodeLE (slice buf loc.toNat 4))) = x at hexact
                by_cases hrange : x < Int32.minValue.toInt64 ∨ x > Int32.maxValue.toInt64
                · rw [if_pos hrange]
                  exact .inl rfl
                rw [if_neg hrange]
                obtain ⟨hlow, hhigh⟩ := not_or.1 hrange
                refine .inr ⟨⟨loc.toNat, 4, (target.toNat - (k.loadVmaddr.toNat + r.address.toInt + 4) : Int) +
                  signed (decodeLE (slice buf loc.toNat 4))⟩, encodeLE 4 x.toInt32.toUInt32.toNat, ?_, ?_⟩
                · exact {
                    place := hplace
                    expects := expects_branch hentry hplace htarget htype (by rw [hpcrel]; rfl) hin
                    width := .inr rfl
                    length := length_encodeLE _ _
                    inside := hin
                    value := by rw [value_displacement hlow hhigh, hexact] }
                · rw [hw.w32, store_eq (by rwa [length_encodeLE])]
              · rw [if_neg hbranch]
                exact .inl rfl

/-! ### Other bytes -/

theorem unpackEntry_congr {data : Bytes} (hlen : data.length = buf.length) (hin : off + 8 ≤ buf.length)
    (h : slice data off 8 = slice buf off 8) : unpackEntry data off = unpackEntry buf off := by
  rw [unpackEntry_eq hin, unpackEntry_eq (hlen ▸ hin), h]

theorem location_congr {data : Bytes} {segments : List Segment} (h : unpackEntry data off = unpackEntry buf off) :
    location data segments external off = location buf segments external off := by
  unfold location
  rw [h]

theorem unpack_congr {data : Bytes} {before n : Nat} (hlen : data.length = buf.length)
    (h : slice data before n = slice buf before n) : unpack data before n = unpack buf before n := by
  rw [unpack, unpack, hlen, h]

/-- What is expected depends on the entry and on what is at its place. -/
theorem expects_congr {data : Bytes} (hlen : data.length = buf.length)
    (hentry : unpackEntry data off = unpackEntry buf off)
    (hread : ∀ l, location buf k.seginfo external off = some l → slice data l.1 l.2 = slice buf l.1 l.2) :
    k.expects data external off = k.expects buf external off := by
  unfold Kext.expects expect
  rw [hentry, location_congr hentry]
  cases unpackEntry buf off with
  | none => rfl
  | some e =>
      cases hplace : location buf k.seginfo external off with
      | none => rfl
      | some l =>
          obtain ⟨before, width⟩ := l
          have hslice := hread _ hplace
          have height : width = 8 → unpack data before 8 = unpack buf before 8 := by
            rintro rfl
            exact unpack_congr hlen hslice
          have hfour : width = 4 → unpackSigned data before = unpackSigned buf before := by
            rintro rfl
            rw [unpackSigned, unpackSigned, unpack_congr hlen hslice]
          simp only [Option.bind_eq_bind, Option.bind_some]
          by_cases hw8 : width = 8
          · rw [height hw8]
            simp [hw8, guard]
          · by_cases hw4 : width = 4
            · rw [hfour hw4]
              simp [hw4, guard]
            · simp [hw8, hw4, guard]

end Entry

/-! ### Runs -/

namespace Kext

variable (k : Kext)

/-- Where an entry is, as the original has it. -/
def entryAt (external : Bool) (i : Nat) : Nat := (k.dysymcmd k.buf).off external + i * 8

def IsEntry (external : Bool) (i : Nat) : Prop := i < (k.dysymcmd k.buf).count external

/-- The place that an entry of the original is about. -/
def place (external : Bool) (i : Nat) : Option (Nat × Nat) :=
  location k.buf k.seginfo external (k.entryAt external i)

/-- The relocated places are apart from one another, from the tables and from LC_DYSYMTAB. -/
structure Separate : Prop where
  places : ∀ e i e' i', k.IsEntry e i → k.IsEntry e' i' → (e, i) ≠ (e', i') →
    ∀ l l', k.place e i = some l → k.place e' i' = some l' → l.1 + l.2 ≤ l'.1 ∨ l'.1 + l'.2 ≤ l.1
  tables : ∀ e i e', k.IsEntry e i → ∀ l, k.place e i = some l →
    l.1 + l.2 ≤ (k.dysymcmd k.buf).off e' ∨
      (k.dysymcmd k.buf).off e' + (k.dysymcmd k.buf).count e' * 8 ≤ l.1
  command : ∀ data : Bytes, data.length = k.buf.length →
    (∀ j, (∀ e i l, k.IsEntry e i → k.place e i = some l → ¬ (l.1 ≤ j ∧ j < l.1 + l.2)) → data[j]? = k.buf[j]?) →
    k.dysymcmd data = k.dysymcmd k.buf

/-- The file after entries have been done. -/
structure Relocated (done : Bool → Nat → Prop) (buf : Bytes) : Prop where
  length : buf.length = k.buf.length
  holds : ∀ e i, done e i → ∃ x, k.expects k.buf e (k.entryAt e i) = some x ∧
    k.place e i = some (x.before, x.width) ∧ (x.width = 8 ∨ x.width = 4) ∧ x.before + x.width ≤ buf.length ∧
      value (slice buf x.before x.width) % 2 ^ 64 = x.expected % 2 ^ 64
  others : ∀ j, (∀ e i l, done e i → k.place e i = some l → ¬ (l.1 ≤ j ∧ j < l.1 + l.2)) → buf[j]? = k.buf[j]?

variable {k} {w : Words} {done : Bool → Nat → Prop} {buf : Bytes} {e : Bool} {i : Nat}

/-- A piece that no relocated place meets. -/
theorem Relocated.slice_eq (h : k.Relocated done buf) {off n : Nat}
    (hapart : ∀ e i l, done e i → k.place e i = some l → l.1 + l.2 ≤ off ∨ off + n ≤ l.1) :
    slice buf off n = slice k.buf off n := by
  apply slice_congr
  intro j hlow hhigh
  apply h.others
  intro e i l hdone hl hj
  rcases hapart e i l hdone hl with hbefore | hafter <;> omega

/-- One more entry. -/
theorem Relocated.step (hsep : k.Separate) (h : k.Relocated done buf) (hdone : ∀ e' i', done e' i' → k.IsEntry e' i')
    (hentry : k.IsEntry e i) (hnew : ¬ done e i) (hin : k.entryAt e i + 8 ≤ buf.length) {x : Expectation} {b : Bytes}
    (hx : Done k e (k.entryAt e i) buf x b) :
    k.Relocated (fun e' i' => done e' i' ∨ (e', i') = (e, i)) (patch buf x.before b) := by
  have hfit : x.before + b.length ≤ buf.length := by
    rw [hx.length]
    exact hx.inside
  have hsame : unpackEntry buf (k.entryAt e i) = unpackEntry k.buf (k.entryAt e i) := by
    apply unpackEntry_congr h.length (h.length ▸ hin)
    apply h.slice_eq
    intro e' i' l hd hl
    have hi : i < (k.dysymcmd k.buf).count e := hentry
    rcases hsep.tables e' i' e (hdone e' i' hd) l hl with hbefore | hafter
    · left
      unfold entryAt
      omega
    · right
      unfold entryAt
      omega
  have hplace : k.place e i = some (x.before, x.width) := by
    rw [place, ← location_congr hsame]
    exact hx.place
  have hne : ∀ e' i', done e' i' → (e', i') ≠ (e, i) := by
    rintro e' i' hd heq
    cases heq
    exact hnew hd
  have hexpects : k.expects k.buf e (k.entryAt e i) = some x := by
    rw [← hx.expects]
    symm
    apply expects_congr h.length hsame
    intro l hl
    apply h.slice_eq
    intro e' i' l' hd hl'
    exact hsep.places e' i' e i (hdone e' i' hd) hentry (hne e' i' hd) l' l hl' hl
  refine ⟨(length_patch hfit).trans h.length, ?_, ?_⟩
  · rintro e' i' (hd | heq)
    · obtain ⟨y, hy, hyplace, hwidth, hyin, hvalue⟩ := h.holds e' i' hd
      refine ⟨y, hy, hyplace, hwidth, by rwa [length_patch hfit], ?_⟩
      have hapart := hsep.places e' i' e i (hdone e' i' hd) hentry (hne e' i' hd) _ _ hyplace hplace
      rw [slice_patch_of_disjoint hfit (by rw [hx.length]; exact hapart)]
      exact hvalue
    · cases heq
      refine ⟨x, hexpects, hplace, hx.width, by rw [length_patch hfit]; exact hx.inside, ?_⟩
      rw [← hx.length, slice_patch hfit]
      exact hx.value
  · intro j hj
    rw [getElem?_patch hfit, if_neg]
    · exact h.others j fun e' i' l hd => hj e' i' l (.inl hd)
    · rw [hx.length]
      exact hj e i _ (.inr rfl) hplace

theorem Relocated.congr {done' : Bool → Nat → Prop} (h : k.Relocated done buf) (heq : ∀ e i, done e i ↔ done' e i) :
    k.Relocated done' buf := by
  have hsame : done = done' := by
    funext e i
    exact propext (heq e i)
  rwa [← hsame]

section Loop

variable (hw : LittleEndian w) (hsep : k.Separate)
  (hinside : ∀ s ∈ k.seginfo, s.fileoff.toNat + s.filesize.toNat ≤ k.buf.length)
include hw hsep hinside

/-- The entries of a table, after those of another. -/
theorem relocateEntries_cases {base : Bool → Nat → Prop} (hbase : ∀ e' i', base e' i' → k.IsEntry e' i')
    (hother : ∀ i', ¬ base e i')
    (htable : (k.dysymcmd k.buf).off e + (k.dysymcmd k.buf).count e * 8 ≤ k.buf.length) {left : Nat}
    (hcount : i + left = (k.dysymcmd k.buf).count e)
    (h : k.Relocated (fun e' i' => base e' i' ∨ e' = e ∧ i' < i) buf) :
    (∃ i', relocateEntries w k e ((k.dysymcmd k.buf).off e) left i buf = .error (.badDynamicReloc e i')) ∨
      ∃ final, relocateEntries w k e ((k.dysymcmd k.buf).off e) left i buf = .ok final ∧
        k.Relocated (fun e' i' => base e' i' ∨ e' = e ∧ k.IsEntry e i') final := by
  induction left generalizing i buf with
  | zero =>
      refine .inr ⟨buf, rfl, h.congr ?_⟩
      intro e' i'
      rw [IsEntry, ← hcount, Nat.add_zero]
  | succ left ih =>
      have hentry : k.IsEntry e i := by
        unfold IsEntry
        omega
      have hin : k.entryAt e i + 8 ≤ buf.length := by
        rw [h.length]
        unfold entryAt
        omega
      have hall : ∀ e' i', (base e' i' ∨ e' = e ∧ i' < i) → k.IsEntry e' i' := by
        rintro e' i' (hd | ⟨rfl, hlt⟩)
        · exact hbase e' i' hd
        · exact hlt.trans hentry
      have hnew : ¬ (base e i ∨ e = e ∧ i < i) := by
        rintro (hd | ⟨-, hlt⟩)
        · exact hother i hd
        · exact lt_irrefl i hlt
      rw [relocateEntries]
      rcases relocateEntry_cases hw (h.length ▸ k.size_lt) (h.length ▸ hinside) hin with hbad | ⟨x, b, hx, hok⟩
      · rw [hbad]
        exact .inl ⟨i, rfl⟩
      · rw [hok]
        apply ih (by omega)
        apply (h.step hsep hall hentry hnew hin hx).congr
        intro e' i'
        rw [Prod.mk.injEq, Nat.lt_succ_iff_lt_or_eq]
        tauto

/-- A table that is done in a file whose LC_DYSYMTAB is still the original's. -/
theorem relocateTable_cases {base : Bool → Nat → Prop} (hbase : ∀ e' i', base e' i' → k.IsEntry e' i')
    (hother : ∀ i', ¬ base e i') (h : k.Relocated base buf) :
    relocateTable w k e buf = .error .invalidTable ∨
      (∃ i', relocateTable w k e buf = .error (.badDynamicReloc e i')) ∨
        ∃ final, relocateTable w k e buf = .ok final ∧
          k.Relocated (fun e' i' => base e' i' ∨ e' = e ∧ k.IsEntry e i') final := by
  have hcommand : k.dysymcmd buf = k.dysymcmd k.buf := by
    apply hsep.command buf h.length
    intro j hj
    exact h.others j fun e i l hd => hj e i l (hbase e i hd)
  unfold relocateTable
  rw [hcommand]
  dsimp only
  by_cases hlong : (k.dysymcmd k.buf).off e + (k.dysymcmd k.buf).count e * 8 > buf.length
  · rw [if_pos hlong]
    exact .inl rfl
  · rw [if_neg hlong]
    right
    apply relocateEntries_cases hw hsep hinside hbase hother (by rw [← h.length]; omega) (Nat.zero_add _)
    apply h.congr
    intro e' i'
    simp

/-- What comes of a run. -/
theorem relocate_cases : (∃ stop, relocate w k = .error stop ∧ stop ≠ .fault) ∨
    ∃ final, relocate w k = .ok final ∧ k.Relocated k.IsEntry final := by
  have hstart : k.Relocated (fun _ _ => False) k.buf :=
    ⟨rfl, fun _ _ h => h.elim, fun _ _ => rfl⟩
  unfold relocate
  rcases relocateTable_cases hw hsep hinside (e := false) (fun _ _ h => h.elim) (fun _ h => h) hstart with
    hrun | ⟨i, hrun⟩ | ⟨buf, hrun, hlocal⟩
  · exact .inl ⟨_, by rw [hrun]; rfl, by simp⟩
  · exact .inl ⟨_, by rw [hrun]; rfl, by simp⟩
  · rw [hrun]
    have hbase : ∀ e' i', (False ∨ e' = false ∧ k.IsEntry false i') → k.IsEntry e' i' := by
      rintro e' i' (h | ⟨rfl, h⟩)
      · exact h.elim
      · exact h
    have hother : ∀ i', ¬ (False ∨ true = false ∧ k.IsEntry false i') := by simp
    rcases relocateTable_cases hw hsep hinside hbase hother hlocal with hrun | ⟨i, hrun⟩ | ⟨final, hrun, hall⟩
    · exact .inl ⟨_, hrun, by simp⟩
    · exact .inl ⟨_, hrun, by simp⟩
    · refine .inr ⟨final, hrun, hall.congr ?_⟩
      intro e' i'
      cases e' <;> simp

end Loop

end Kext

def sampleWords : Words where
  r32 := fun b => UInt32.ofNat (decodeLE b)
  r64 := fun b => UInt64.ofNat (decodeLE b)
  w32 := fun v => encodeLE 4 v.toNat
  w64 := fun v => encodeLE 8 v.toNat

/-- A pointer at 16 and a branch at 24, after their tables of an entry each. -/
def sampleKext : Kext where
  buf := [16, 0, 0, 0, 0, 0, 0, 0x06, 24, 0, 0, 0, 0, 0, 0, 0x2d, 1, 0, 0, 0, 0, 0, 0, 0, 0, 0, 0, 0]
  size_lt := by decide
  seginfo := [⟨0, 0, 28⟩]
  symAddrs := [0x2000]
  loadVmaddr := 0x1000
  dysymcmd := fun _ => ⟨0, 1, 8, 1⟩

theorem sampleKext_separate : sampleKext.Separate := by
  have hplace : sampleKext.place false 0 = some (16, 8) ∧ sampleKext.place true 0 = some (24, 4) := by decide
  have hentry : ∀ e i, sampleKext.IsEntry e i → i = 0 := by
    intro e i hi
    cases e
    · exact Nat.lt_one_iff.1 hi
    · exact Nat.lt_one_iff.1 hi
  constructor
  · intro e i e' i' hi hi' hne l l' hl hl'
    obtain rfl := hentry e i hi
    obtain rfl := hentry e' i' hi'
    cases e <;> cases e'
    · exact absurd rfl hne
    · obtain rfl := Option.some.inj (hplace.1.symm.trans hl)
      obtain rfl := Option.some.inj (hplace.2.symm.trans hl')
      exact .inl le_rfl
    · obtain rfl := Option.some.inj (hplace.2.symm.trans hl)
      obtain rfl := Option.some.inj (hplace.1.symm.trans hl')
      exact .inr le_rfl
    · exact absurd rfl hne
  · intro e i e' hi l hl
    obtain rfl := hentry e i hi
    right
    cases e
    · obtain rfl := Option.some.inj (hplace.1.symm.trans hl)
      cases e' <;> decide
    · obtain rfl := Option.some.inj (hplace.2.symm.trans hl)
      cases e' <;> decide
  · exact fun _ _ _ => rfl

/-- The run that it is about. -/
example : (relocate sampleWords sampleKext).toOption =
    some [16, 0, 0, 0, 0, 0, 0, 0x06, 24, 0, 0, 0, 0, 0, 0, 0x2d, 1, 0x10, 0, 0, 0, 0, 0, 0, 0xe4, 0x0f, 0, 0] := by
  decide +kernel

end MiniDarwin.Xnu.Relocation
