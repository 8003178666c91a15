import MiniDarwin.Archive.Paths
import MiniDarwin.Archive.Encode

/-!
`cpio_parse ()` on arbitrary bytes.

The numbers of a header are whatever the archive says. Before one is added
to a position it is compared with the room that is left, so a sum exceeds
the length of the archive by the padding at most.
-/

namespace MiniDarwin.Archive

open Posix (Bytes)

/-- `cpio_parse ()` after the decompression. -/
def cpioRecords (b : Bytes) (out : List Entry) : Result (List Entry) := do
  let (entries, pos) ← readRecords b (b.length + 1) 0 out
  dieIf (∃ c ∈ b.drop pos, c ≠ 0) "data after CPIO trailer"
  entriesCheckPaths entries false
  return entries

theorem cpioParse_eq (gunzip : Buffer → Result Buffer) (archive : Buffer) (out : List Entry) :
    cpioParse gunzip archive out = decompressed gunzip archive >>= fun b => cpioRecords b.data out := rfl

/-- A piece of the archive. -/
def Inside (b piece : Bytes) : Prop :=
  ∃ start, start + piece.length ≤ b.length ∧ piece = (b.drop start).take piece.length

/-- What an entry is like that was read from `b`. -/
structure Produced (b : Bytes) (e : Entry) : Prop where
  normalized : Normalized e.path
  type : e.mode.toNat &&& ifmt ∈ [ifreg, ifdir, iflnk]
  setid : e.mode.toNat &&& 0o6000 = 0
  data : Inside b e.data
  link : ∀ target, e.link = some target → Inside b target

variable {b : Bytes} {pos : Nat}

/-! ### Paths -/

theorem slash_notMem_components (path : Bytes) : ∀ c ∈ components path, 47 ∉ c := by
  induction path with
  | nil => simp [components]
  | cons x path ih =>
      rw [components, List.splitOn_cons_eq_if_modifyHead]
      split
      · exact List.forall_mem_cons.2 ⟨List.not_mem_nil, ih⟩
      · next hx =>
          obtain ⟨c, rest, hsplit⟩ := List.exists_cons_of_ne_nil (List.splitOn_ne_nil (47 : UInt8) path)
          rw [components, hsplit] at ih
          rw [hsplit, List.modifyHead_cons]
          obtain ⟨hc, hrest⟩ := List.forall_mem_cons.1 ih
          refine List.forall_mem_cons.2 ⟨?_, hrest⟩
          rw [List.mem_cons, not_or]
          exact ⟨fun h => hx (by simp [h]), hc⟩

/-- Whatever `path_normalize ()` returns is normalized. -/
theorem pathNormalize_safely (path : Bytes) (absolute : Bool) : Safely (pathNormalize path absolute) Normalized := by
  apply safely_bind
  apply safely_dieIf
  intro _
  apply safely_bind
  apply safely_dieIf
  intro _
  apply safely_bind
  apply (safely_normalizeFrom (Nat.zero_le _)).mono
  rintro r ⟨hnames, hdepth, hr⟩
  generalize (if absolute = true then path.dropWhile (· = 47) else path) = s at hnames hdepth hr
  apply safely_bind
  apply safely_dieIf
  intro hsize
  apply safely_pure
  rw [Nat.zero_add] at hdepth
  by_cases hnone : kept (components s) = []
  · rw [hr, if_pos hnone]
    exact Normalized.nil
  · rw [if_neg hnone, if_pos rfl, List.nil_append] at hr
    have hsplit : components r = kept (components s) := by
      rw [hr]
      apply List.splitOn_intercalate _ _ hnone
      exact fun c hc => slash_notMem_components s c (List.mem_of_mem_filter hc)
    refine ⟨fun _ c hc => ?_, by rw [hsplit]; exact hdepth, by omega⟩
    rw [hsplit] at hc
    have hkept := List.of_mem_filter hc
    simp only [ne_eq, decide_eq_true_eq] at hkept
    exact ⟨hkept.1, hkept.2, hnames c hc⟩

/-! ### Headers -/

theorem safely_headerField {start n base : Nat} (h : start + n ≤ b.length) :
    Safely (headerField b start n base) fun _ => True := by
  apply safely_bind
  apply safely_dieIf
  intro _
  apply safely_bind
  apply safely_slice h
  exact (safely_self (parseUint_ne_fault _ _)).mono fun _ _ => trivial

theorem safely_readOdc (h : pos + 76 ≤ b.length) : Safely (readOdc b pos) fun h => h.headerLen = 76 := by
  have hfield : ∀ start n base, start + n ≤ 76 → Safely (headerField b (pos + start) n base) fun _ => True :=
    fun start n base hn => safely_headerField (by omega)
  refine safely_bind ((hfield 18 6 8 (by omega)).mono fun mode _ => ?_)
  refine safely_bind ((hfield 24 6 8 (by omega)).mono fun uid _ => ?_)
  refine safely_bind ((hfield 30 6 8 (by omega)).mono fun gid _ => ?_)
  refine safely_bind ((hfield 36 6 8 (by omega)).mono fun nlink _ => ?_)
  refine safely_bind ((hfield 48 11 8 (by omega)).mono fun mtime _ => ?_)
  refine safely_bind ((hfield 59 6 8 (by omega)).mono fun namesize _ => ?_)
  refine safely_bind ((hfield 65 11 8 (by omega)).mono fun filesize _ => ?_)
  exact safely_pure rfl

theorem safely_readNewc {crc : Bool} (h : pos + 110 ≤ b.length) :
    Safely (readNewc b pos crc) fun h => h.headerLen = 110 := by
  have hfield : ∀ start n base, start + n ≤ 110 → Safely (headerField b (pos + start) n base) fun _ => True :=
    fun start n base hn => safely_headerField (by omega)
  refine safely_bind ((hfield 14 8 16 (by omega)).mono fun mode _ => ?_)
  refine safely_bind ((hfield 22 8 16 (by omega)).mono fun uid _ => ?_)
  refine safely_bind ((hfield 30 8 16 (by omega)).mono fun gid _ => ?_)
  refine safely_bind ((hfield 38 8 16 (by omega)).mono fun nlink _ => ?_)
  refine safely_bind ((hfield 46 8 16 (by omega)).mono fun mtime _ => ?_)
  refine safely_bind ((hfield 54 8 16 (by omega)).mono fun filesize _ => ?_)
  refine safely_bind ((hfield 94 8 16 (by omega)).mono fun namesize _ => ?_)
  refine safely_bind ((hfield 102 8 16 (by omega)).mono fun check _ => ?_)
  exact safely_pure rfl

/-- A header that is read lies in the archive. -/
theorem safely_readHeader (hpos : pos ≤ b.length) :
    Safely (readHeader b pos) fun h => 76 ≤ h.headerLen ∧ pos + h.headerLen ≤ b.length := by
  apply safely_bind
  apply safely_minus hpos
  apply safely_bind
  apply safely_dieIf
  intro hmagic
  apply safely_bind
  apply safely_slice (by omega)
  generalize (b.drop pos).take 6 = magic
  apply safely_bind
  apply safely_dieIf
  intro _
  apply safely_bind
  apply safely_dieIf
  intro hlen
  split
  · next hodc =>
      rw [if_pos hodc] at hlen
      refine (safely_readOdc (by omega)).mono fun h hh => ?_
      omega
  · next hodc =>
      rw [if_neg hodc] at hlen
      refine (safely_readNewc (by omega)).mono fun h hh => ?_
      omega

/-! ### Entries -/

theorem lexicalFrom_safely (path target : Bytes) (names : List Bytes) (depth : Int) :
    Safely (lexicalFrom path target names depth) fun _ => True := by
  induction names generalizing depth with
  | nil => exact safely_ok trivial
  | cons c rest ih =>
      rw [lexicalFrom]
      split
      · apply safely_bind
        apply safely_dieIf
        intro _
        exact ih _
      · split
        · exact ih _
        · exact ih _

theorem symlinkCheckLexical_safely (path target : Bytes) :
    Safely (symlinkCheckLexical path target) fun _ => True := by
  apply safely_bind
  apply safely_dieIf
  intro _
  exact lexicalFrom_safely _ _ _ _

theorem inside_nil (b : Bytes) : Inside b [] := ⟨0, Nat.zero_le _, rfl⟩

/-- An entry takes its contents from the data of its record. -/
theorem safely_makeEntry (h : Header) (name : Bytes) {data : Bytes} (hdata : Inside b data) :
    Safely (makeEntry h name data) (Produced b) := by
  refine safely_bind ((pathNormalize_safely name false).mono fun path hpath => ?_)
  apply safely_bind
  apply safely_dieIf
  intro _
  apply safely_bind
  apply safely_dieIf
  intro htype
  apply safely_bind
  apply safely_dieIf
  intro _
  apply safely_bind
  apply safely_dieIf
  intro hrange
  apply safely_bind
  apply safely_dieIf
  intro _
  apply safely_bind
  apply safely_dieIf
  intro hsetid
  apply safely_bind
  apply safely_dieIf
  intro _
  apply safely_bind
  apply safely_dieIf
  intro _
  apply safely_bind
  apply safely_dieIf
  intro _
  have hmode : h.mode < 2 ^ 16 := by omega
  have hsmall : (UInt16.ofNat h.mode).toNat = h.mode := UInt16.toNat_ofNat_of_lt' hmode
  have hcontents : Inside b (if h.mode % 2 ^ 16 &&& ifmt = ifreg then data else []) := by
    split
    · exact hdata
    · exact inside_nil b
  have hkind : h.mode &&& ifmt ∈ [ifreg, ifdir, iflnk] := by
    rw [Nat.mod_eq_of_lt hmode] at htype
    simp only [List.mem_cons, List.not_mem_nil, or_false]
    by_contra hnone
    obtain ⟨hreg, hnone⟩ := not_or.1 hnone
    exact htype ⟨hreg, not_or.1 hnone⟩
  simp only []
  split
  · refine safely_bind ((symlinkCheckLexical_safely _ _).mono fun _ _ => safely_pure ?_)
    refine ⟨hpath, by rwa [hsmall], by rw [hsmall]; exact not_not.1 hsetid, hcontents, ?_⟩
    exact fun target htarget => Option.some.inj htarget ▸ hdata
  · refine safely_pure ⟨hpath, by rwa [hsmall], by rw [hsmall]; exact not_not.1 hsetid, hcontents, ?_⟩
    intro target htarget
    cases htarget

/-! ### Records -/

/-- The padding does not wrap where three more bytes do not. -/
theorem safely_align {aligned : Bool} {n : Nat} (h : n + 3 < 2 ^ 64) :
    Safely (align aligned n) fun m => n ≤ m := by
  rw [align]
  split
  · apply safely_bind
    rw [plus, if_pos h]
    apply safely_ok
    apply safely_pure
    omega
  · exact safely_pure le_rfl

theorem safely_plus {n k : Nat} {Q : Nat → Prop} (h : n + k < 2 ^ 64) (hQ : Q (n + k)) : Safely (plus n k) Q := by
  rw [plus, if_pos h]
  exact safely_ok hQ

/-- **A record begins and ends in the archive**, and it has a length. -/
theorem safely_readRecord (hsize : b.length ≤ 2 ^ 63) (hpos : pos ≤ b.length) :
    Safely (readRecord b pos) fun r =>
      pos < r.next ∧ r.next ≤ b.length ∧ ∀ e, r.entry = some e → Produced b e := by
  refine safely_bind ((safely_readHeader hpos).mono fun h hheader => ?_)
  obtain ⟨hlen, hin⟩ := hheader
  apply safely_bind
  apply safely_plus (by omega)
  apply safely_bind
  apply safely_minus hin
  apply safely_bind
  apply safely_dieIf
  intro hname
  apply safely_bind
  apply safely_slice (by omega)
  apply safely_bind
  apply safely_dieIf
  intro _
  apply safely_bind
  apply safely_plus (by omega)
  refine safely_bind ((safely_align (by omega)).mono fun dataAt hdataAt => ?_)
  apply safely_bind
  apply safely_dieIf
  intro hbegin
  apply safely_bind
  apply safely_minus (by omega)
  apply safely_bind
  apply safely_dieIf
  intro hroom
  apply safely_bind
  apply safely_plus (by omega)
  refine safely_bind ((safely_align (by omega)).mono fun next hnext => ?_)
  apply safely_bind
  apply safely_dieIf
  intro hend
  have hahead : pos < next := by omega
  have hwithin : next ≤ b.length := by omega
  split
  · apply safely_bind
    apply safely_dieIf
    intro _
    exact safely_pure ⟨hahead, hwithin, fun e he => by cases he⟩
  · apply safely_bind
    apply safely_slice (by omega)
    have hlength : ((b.drop dataAt).take h.filesize).length = h.filesize := by
      rw [List.length_take, List.length_drop]
      omega
    have hdata : Inside b ((b.drop dataAt).take h.filesize) := ⟨dataAt, by omega, by rw [hlength]⟩
    refine safely_bind ((safely_makeEntry h _ hdata).mono fun e he => safely_pure ?_)
    exact ⟨hahead, hwithin, fun e' he' => Option.some.inj he' ▸ he⟩

/-- The loop comes to its end in the rounds that it has, and appends what it read. -/
theorem safely_readRecords (hsize : b.length ≤ 2 ^ 63) {rounds : Nat} {out : List Entry} (hpos : pos ≤ b.length)
    (hrounds : b.length - pos < rounds) :
    Safely (readRecords b rounds pos out) fun r =>
      ∃ new, r.1 = out ++ new ∧ (new = [] ∨ r.1.length ≤ limitEntries) ∧ ∀ e ∈ new, Produced b e := by
  induction rounds generalizing pos out with
  | zero => omega
  | succ rounds ih =>
      rw [readRecords]
      split
      · refine safely_bind ((safely_readRecord hsize hpos).mono fun r hr => ?_)
        obtain ⟨hnext, hin, hentry⟩ := hr
        cases he : r.entry with
        | none => exact safely_pure ⟨[], (List.append_nil _).symm, .inl rfl, fun e he => (List.not_mem_nil he).elim⟩
        | some e =>
            apply safely_bind
            apply safely_bind
            apply safely_dieIf
            intro hlimit
            apply safely_pure
            refine (ih hin (by omega)).mono fun result hresult => ?_
            obtain ⟨new, hnew, hmax, hall⟩ := hresult
            refine ⟨e :: new, by rw [hnew, List.append_assoc, List.singleton_append], .inr ?_, ?_⟩
            · obtain rfl | hmax := hmax
              · rw [hnew]
                simp only [List.append_nil, List.length_append, List.length_singleton]
                omega
              · exact hmax
            · exact List.forall_mem_cons.2 ⟨hentry e he, hall⟩
      · exact safely_die

/-! ### Archives -/

theorem safely_forM {α : Type} {l : List α} {f : α → Result Unit} (h : ∀ x ∈ l, Safely (f x) fun _ => True) :
    Safely (l.forM f) fun _ => True := by
  induction l with
  | nil => exact safely_ok trivial
  | cons x l ih =>
      show Safely (f x >>= fun _ => l.forM f) _
      refine safely_bind ((h x (.head _)).mono fun _ _ => ?_)
      exact ih fun y hy => h y (.tail _ hy)

theorem entriesCheckPaths_safely (list : List Entry) (repeated : Bool) :
    Safely (entriesCheckPaths list repeated) fun _ => True := by
  refine safely_bind (Safely.mono (safely_forM fun x _ => ?_) fun _ _ => safely_forM fun e _ => safely_forM fun p _ => ?_)
  · exact safely_dieIf fun _ => trivial
  · exact safely_dieIf fun _ => trivial

/-- **`cpio_parse ()` is safe on arbitrary bytes**: every round of its loop stays in the archive and
advances, nothing is read outside of it and no sum wraps, and what it returns are entries of the
kind that the installer allows. -/
theorem cpio_safe (b : Bytes) (hsize : b.length ≤ 2 ^ 63) (out : List Entry) :
    (∀ pos < b.length, Safely (readRecord b pos) fun r => pos < r.next ∧ r.next ≤ b.length) ∧
      (Safely (cpioRecords b out) fun entries => ∃ new, entries = out ++ new ∧ new.length ≤ limitEntries ∧
        (out.length ≤ limitEntries → entries.length ≤ limitEntries) ∧ ∀ e ∈ new, Produced b e) ∧
      ∀ (gunzip : Buffer → Result Buffer) (archive raw : Buffer), decompressed gunzip archive = .ok raw →
        raw.data = b → cpioParse gunzip archive out = cpioRecords b out := by
  refine ⟨fun pos hpos => ?_, ?_, ?_⟩
  · exact (safely_readRecord hsize hpos.le).mono fun r hr => ⟨hr.1, hr.2.1⟩
  · refine safely_bind ((safely_readRecords hsize (Nat.zero_le _) (by omega)).mono fun r hr => ?_)
    obtain ⟨new, hnew, hmax, hall⟩ := hr
    apply safely_bind
    apply safely_dieIf
    intro _
    refine safely_bind ((entriesCheckPaths_safely _ _).mono fun _ _ => safely_pure ?_)
    have hlength : r.1.length = out.length + new.length := by rw [hnew, List.length_append]
    refine ⟨new, hnew, ?_, fun hout => ?_, hall⟩
    · obtain rfl | hmax := hmax
      · exact Nat.zero_le _
      · omega
    · obtain rfl | hmax := hmax
      · simpa [hlength] using hout
      · exact hmax
  · intro gunzip archive raw hraw hdata
    rw [cpioParse_eq, hraw, ← hdata]
    rfl

/-- An archive of three entries, and a header that ends in its middle. -/
theorem cpio_safe_members :
    (∃ entries, cpioRecords (encode .crc sampleMembers) [] = .ok entries ∧ entries.length = 3 ∧
      ∀ e ∈ entries, Produced (encode .crc sampleMembers) e) ∧
    (encode .crc sampleMembers).take 50 ≠ [] ∧
      cpioRecords ((encode .crc sampleMembers).take 50) [] ≠ .error .fault := by
  have hsize : (encode .crc sampleMembers).length ≤ 2 ^ 63 := by decide +kernel
  have hcut : ((encode .crc sampleMembers).take 50).length ≤ 2 ^ 63 := (List.length_take_le' 50 _).trans hsize
  have hthree : (cpioRecords (encode .crc sampleMembers) []).toOption.map List.length = some 3 := by decide +kernel
  obtain ⟨-, ⟨-, hentries⟩, -⟩ := cpio_safe (encode .crc sampleMembers) hsize []
  obtain ⟨-, ⟨hsafe, -⟩, -⟩ := cpio_safe ((encode .crc sampleMembers).take 50) hcut []
  refine ⟨?_, by decide +kernel, hsafe⟩
  cases hrun : cpioRecords (encode .crc sampleMembers) [] with
  | error e =>
      rw [hrun] at hthree
      cases hthree
  | ok entries =>
      rw [hrun] at hthree
      obtain ⟨new, rfl, -, -, hproduced⟩ := hentries entries hrun
      exact ⟨_, rfl, Option.some.inj hthree, hproduced⟩

end MiniDarwin.Archive
