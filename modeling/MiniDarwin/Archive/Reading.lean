import MiniDarwin.Archive.Encode
import MiniDarwin.Archive.Paths

/-!
`cpio_parse ()` reads what was written.
-/

namespace MiniDarwin.Archive

open Posix (Bytes)

variable {format : Format} {m : Member}

/-! ### Paths and links -/

/-- Names are joined again. -/
theorem normalizeFrom_names {path : Bytes} {names : List Bytes} {out : Bytes} {depth : Nat}
    (h : ∀ c ∈ names, c ≠ [] ∧ c ≠ [46] ∧ c ≠ [46, 46] ∧ c.length ≤ nameMax ∧ ∀ x ∈ c, 32 ≤ x ∧ x ≠ 92)
    (hdepth : depth + names.length ≤ limitDepth) :
    normalizeFrom path names out depth =
      .ok (if names = [] then out else (if out = [] then [] else out ++ [47]) ++ [47].intercalate names) := by
  induction names generalizing out depth with
  | nil => rfl
  | cons c rest ih =>
      obtain ⟨hc, hdot, hdots, hlen, hchars⟩ := h c (.head _)
      rw [List.length_cons] at hdepth
      have hskip : ¬ (c = [] ∨ c = [46]) := not_or.2 ⟨hc, hdot⟩
      have hunsafe : ¬ (c = [46, 46] ∨ c.length > nameMax) := not_or.2 ⟨hdots, not_lt.2 hlen⟩
      have hnest : ¬ depth + 1 > limitDepth := by omega
      have hplain : ¬ ∃ x ∈ c, x < 32 ∨ x = 92 := by
        rintro ⟨x, hx, hlow | hback⟩
        · exact absurd hlow (UInt8.not_lt.2 (hchars x hx).1)
        · exact (hchars x hx).2 hback
      have hne : (if out = [] then [] else out ++ [47]) ++ c ≠ [] := by simp [hc]
      rw [normalizeFrom, if_neg hskip, dieIf_neg hunsafe, dieIf_neg hnest, dieIf_neg hplain]
      refine (ih (fun c' hc' => h c' (.tail _ hc')) (by omega)).trans ?_
      rw [if_neg hne, if_neg (List.cons_ne_nil _ _)]
      congr 1
      cases rest with
      | nil => simp
      | cons c' rest => simp [List.intercalate_cons_cons]

/-- A normalized path is its own normal form. -/
theorem pathNormalize_normalized {path : Bytes} (h : Normalized path) :
    pathNormalize path false = .ok path := by
  have hout : normalizeFrom path (components path) [] 0 = .ok path := by
    by_cases hpath : path = []
    · subst hpath
      rfl
    · have hdepth := h.depth
      have hne : components path ≠ [] := List.splitOn_ne_nil _ _
      rw [normalizeFrom_names (h.names hpath) (by omega), if_neg hne, if_pos rfl, List.nil_append,
        components, List.intercalate_splitOn]
  have habs : ¬ ((false : Bool) = true ∧ path.head? ≠ some 47) := by simp
  have hrel : ¬ (¬ (false : Bool) = true ∧ path.head? = some 47) := fun hrel => h.relative hrel.2
  have hsize : ¬ path.length ≥ pathMax - nameMax := not_le.2 h.size
  rw [pathNormalize, dieIf_neg habs, dieIf_neg hrel]
  change (normalizeFrom path (components path) [] 0 >>= _) = _
  rw [hout]
  change (dieIf (path.length ≥ pathMax - nameMax) "path too long" >>= _) = _
  rw [dieIf_neg hsize]
  rfl

/-- A link whose target stays in the root passes the check. -/
theorem lexicalFrom_inRoot {path target : Bytes} {steps : List Bytes} {depth : Int}
    (h : ∀ taken, taken <+: steps → (taken.count [46, 46] : Int) ≤
      depth + (taken.filter fun c => c ≠ [46, 46] ∧ c ≠ [46]).length) :
    lexicalFrom path target steps depth = .ok () := by
  induction steps generalizing depth with
  | nil => rfl
  | cons c rest ih =>
      have hrest : ∀ taken, taken <+: rest → ((c :: taken).count [46, 46] : Int) ≤
          depth + ((c :: taken).filter fun c => c ≠ [46, 46] ∧ c ≠ [46]).length :=
        fun taken htaken => h (c :: taken) (List.cons_prefix_cons.2 ⟨rfl, htaken⟩)
      rw [lexicalFrom]
      by_cases hdots : c = [46, 46]
      · have hup : ¬ depth - 1 < 0 := by
          have := hrest [] (List.nil_prefix)
          simp [hdots] at this
          omega
        rw [if_pos hdots, dieIf_neg hup]
        apply ih
        intro taken htaken
        have := hrest taken htaken
        simp [hdots] at this ⊢
        omega
      · rw [if_neg hdots]
        by_cases hdot : c = [46]
        · rw [if_neg (not_not.2 hdot)]
          apply ih
          intro taken htaken
          have := hrest taken htaken
          simpa [hdot] using this
        · rw [if_pos hdot]
          apply ih
          intro taken htaken
          have := hrest taken htaken
          simp [hdots, hdot] at this ⊢
          omega

theorem symlinkCheckLexical_inRoot {path target : Bytes} (hne : target ≠ [])
    (hrel : target.head? ≠ some 47) (h : InRoot path target) : symlinkCheckLexical path target = .ok () := by
  have habs : ¬ (target = [] ∨ target.head? = some 47) := not_or.2 ⟨hne, hrel⟩
  rw [symlinkCheckLexical, dieIf_neg habs]
  apply lexicalFrom_inRoot
  intro taken htaken
  exact_mod_cast h taken htaken

/-! ### Entries -/

theorem isAppledouble_plain {path : Bytes}
    (h : ∀ c ∈ components path, ¬ lit "._" <+: c ∧ c ≠ lit "__MACOSX") : ¬ isAppledouble path = true := by
  intro happle
  obtain ⟨c, hc, hbad⟩ := List.any_eq_true.1 happle
  obtain hbad | hbad := of_decide_eq_true hbad
  · exact (h c hc).1 hbad
  · exact (h c hc).2 hbad

/-- The content of an entry becomes its data or its link. -/
theorem Typed.content {e : Entry} {nlink : Nat} (h : Typed e nlink) :
    (if e.mode.toNat &&& ifmt = ifreg then e.content else []) = e.data ∧
      (if e.mode.toNat &&& ifmt = iflnk then some e.content else none) = e.link := by
  cases h with
  | file type link single =>
      have hne : ifreg ≠ iflnk := by decide
      simp [type, link, Entry.content, hne]
  | directory type link empty =>
      have hne : ifdir ≠ iflnk := by decide
      have hne' : ifdir ≠ ifreg := by decide
      simp [type, link, empty, hne, hne']
  | symlink type target link empty nonempty relative nul size inRoot =>
      have hne : iflnk ≠ ifreg := by decide
      simp [type, link, empty, Entry.content, hne]

theorem makeEntry_representable (h : Representable format m)
    (hroot : m.entry.path = [] → m.entry.isDir = true) :
    makeEntry (headerOf format m) m.entry.path m.entry.content = .ok m.entry := by
  have hmode : m.entry.mode.toNat < 2 ^ 16 := m.entry.mode.toNat_lt
  have huid : m.entry.uid.toNat < 2 ^ 32 := m.entry.uid.toNat_lt
  have hgid : m.entry.gid.toNat < 2 ^ 32 := m.entry.gid.toNat_lt
  have hmtime := m.entry.mtime.toInt_lt
  have htype : (headerOf format m).mode % 2 ^ 16 &&& ifmt = m.entry.mode.toNat &&& ifmt := by
    rw [headerOf, Nat.mod_eq_of_lt hmode]
  obtain ⟨hdata, hlink⟩ := h.typed.content
  have hkind : ¬ (m.entry.mode.toNat &&& ifmt ≠ ifreg ∧ m.entry.mode.toNat &&& ifmt ≠ ifdir ∧
      m.entry.mode.toNat &&& ifmt ≠ iflnk) := by
    cases h.typed with
    | file type => simp [type]
    | directory type => simp [type]
    | symlink type => simp [type]
  have hroot' : ¬ (m.entry.path = [] ∧ m.entry.mode.toNat &&& ifmt ≠ ifdir) := by
    rintro ⟨hpath, htype⟩
    exact htype (of_decide_eq_true (hroot hpath))
  have hrange : ¬ ((headerOf format m).mode > 0o177777 ∨ (headerOf format m).uid > 2 ^ 32 - 1 ∨
      (headerOf format m).gid > 2 ^ 32 - 1 ∨ (headerOf format m).mtime > 2 ^ 63 - 1) := by
    simp only [headerOf]
    omega
  have hlinks : ¬ (m.entry.mode.toNat &&& ifmt = ifreg ∧ (headerOf format m).nlink > 1) := by
    rintro ⟨htype, hmany⟩
    have hmany' : m.nlink > 1 := hmany
    cases h.typed with
    | file type link single => omega
    | directory type => exact absurd (type.symm.trans htype) (by decide)
    | symlink type => exact absurd (type.symm.trans htype) (by decide)
  have hset : ¬ (headerOf format m).mode &&& 0o6000 ≠ 0 := not_not.2 h.setId
  have hempty : ¬ (m.entry.mode.toNat &&& ifmt = ifdir ∧ m.entry.content.length ≠ 0) := by
    rintro ⟨htype, hlen⟩
    cases h.typed with
    | file type => exact absurd (type.symm.trans htype) (by decide)
    | directory type link empty => simp [Entry.content, link, empty] at hlen
    | symlink type => exact absurd (type.symm.trans htype) (by decide)
  have hcrc : ¬ ((headerOf format m).hasCrc = true ∧
      checksum m.entry.content ≠ (headerOf format m).check) := by
    rintro ⟨hcrc, hsum⟩
    have hformat : format = .crc := of_decide_eq_true hcrc
    rw [hformat] at hsum
    exact hsum rfl
  have hvalid : ¬ (m.entry.mode.toNat &&& ifmt = iflnk ∧
      (m.entry.content.length = 0 ∨ 0 ∈ m.entry.content ∨ m.entry.content.length ≥ pathMax)) := by
    rintro ⟨htype, hbad⟩
    cases h.typed with
    | file type => exact absurd (type.symm.trans htype) (by decide)
    | directory type => exact absurd (type.symm.trans htype) (by decide)
    | symlink type target link empty nonempty relative nul size inRoot =>
        simp only [Entry.content, link, Option.getD_some, List.length_eq_zero_iff] at hbad
        obtain hbad | hbad | hbad := hbad
        · exact nonempty hbad
        · exact nul hbad
        · omega
  have hlexical : m.entry.mode.toNat &&& ifmt = iflnk →
      symlinkCheckLexical m.entry.path m.entry.content = .ok () := by
    intro htype
    cases h.typed with
    | file type => exact absurd (type.symm.trans htype) (by decide)
    | directory type => exact absurd (type.symm.trans htype) (by decide)
    | symlink type target link empty nonempty relative nul size inRoot =>
        simp only [Entry.content, link, Option.getD_some]
        exact symlinkCheckLexical_inRoot nonempty relative inRoot
  have hmtime' : Int64.ofNat m.entry.mtime.toInt.toNat = m.entry.mtime := by
    rw [← Int64.ofInt_eq_ofNat, Int.toNat_of_nonneg h.past, Int64.ofInt_toInt]
  rw [makeEntry, pathNormalize_normalized h.normalized]
  simp only [bind, Except.bind, htype, dieIf_neg (isAppledouble_plain h.plain), dieIf_neg hkind,
    dieIf_neg hroot', dieIf_neg hrange, dieIf_neg hlinks, dieIf_neg hset, dieIf_neg hempty,
    dieIf_neg hcrc, dieIf_neg hvalid, hdata, hlink]
  simp only [headerOf, UInt16.ofNat_toNat, UInt32.ofNat_toNat, hmtime']
  split_ifs with hlnk
  · rw [hlexical hlnk]
    rfl
  · rfl

/-! ### Records -/

/-- `(n + 3) & ~3`, where it applies. -/
theorem length_padded (format : Format) (out : Bytes) :
    (padded format out).length = if format = .odc then out.length else (out.length + 3) / 4 * 4 := by
  cases format with
  | odc => simp [padded, padding]
  | newc =>
      simp [padded, padding]
      omega
  | crc =>
      simp [padded, padding]
      omega

theorem align_padded {out : Bytes} (h : out.length + 3 < 2 ^ 64) :
    align (decide (format ≠ .odc)) out.length = .ok (padded format out).length := by
  rw [length_padded, align]
  by_cases hformat : format = .odc
  · simp [hformat]
    rfl
  · rw [if_pos (decide_eq_true hformat), if_neg hformat, plus, if_pos h]
    rfl

/-- What is read of a record is what was written, up to the entry. -/
theorem readRecord_encodeOne (out rest : Bytes) (hsized : Sized format m) (hnul : 0 ∉ m.entry.path)
    (hfit : (encodeOne format out m ++ rest).length < 2 ^ 63) :
    readRecord (encodeOne format out m ++ rest) out.length =
      if m.entry.path = lit "TRAILER!!!" then do
        dieIf (m.entry.content.length ≠ 0) "invalid CPIO trailer"
        return ⟨(encodeOne format out m).length, none⟩
      else do
        return ⟨(encodeOne format out m).length,
          some (← makeEntry (headerOf format m) m.entry.path m.entry.content)⟩ := by
  obtain ⟨named, hnamed⟩ : ∃ s, out ++ header format m ++ (m.entry.path ++ [0]) = s := ⟨_, rfl⟩
  obtain ⟨filled, hfilled⟩ : ∃ s, padded format named ++ m.entry.content = s := ⟨_, rfl⟩
  have hone : encodeOne format out m = padded format filled := by rw [encodeOne, hnamed, hfilled]
  have hsplit : encodeOne format out m ++ rest = padded format named ++
      (m.entry.content ++ (padding format filled.length ++ rest)) := by
    have hfull : padded format filled =
        padded format named ++ m.entry.content ++ padding format filled.length := by
      rw [hfilled]
      rfl
    rw [hone, hfull, List.append_assoc, List.append_assoc]
  have hsplit' : encodeOne format out m ++ rest = out ++ header format m ++ ((m.entry.path ++ [0]) ++
      (padding format named.length ++ (m.entry.content ++ (padding format filled.length ++ rest)))) := by
    have hfull : padded format named =
        out ++ header format m ++ (m.entry.path ++ [0]) ++ padding format named.length := by
      rw [hnamed]
      rfl
    rw [hsplit, hfull, List.append_assoc, List.append_assoc]
  have hheader : readHeader (encodeOne format out m ++ rest) out.length = .ok (headerOf format m) := by
    rw [hsplit']
    exact readHeader_header out _ hsized
  have hnameAt : (out ++ header format m).length = out.length + (headerOf format m).headerLen := by
    rw [List.length_append, length_header]
    rfl
  have hname : slice (encodeOne format out m ++ rest) (out.length + (headerOf format m).headerLen)
      (m.entry.path.length + 1) = .ok (m.entry.path ++ [0]) := by
    rw [hsplit']
    exact slice_mid hnameAt (by simp)
  have hdata : slice (encodeOne format out m ++ rest) (padded format named).length
      m.entry.content.length = .ok m.entry.content := by
    rw [hsplit]
    exact slice_mid rfl rfl
  have hlen₁ : named.length = out.length + (headerOf format m).headerLen + (m.entry.path.length + 1) := by
    rw [← hnamed, List.length_append, hnameAt]
    simp
  have hlen₂ : filled.length = (padded format named).length + m.entry.content.length := by
    rw [← hfilled, List.length_append]
  have hlen₃ : named.length ≤ (padded format named).length := by simp [padded]
  have hlen₄ : filled.length ≤ (encodeOne format out m).length := by simp [hone, padded]
  have hlen₅ : (encodeOne format out m).length ≤ (encodeOne format out m ++ rest).length := by simp
  have hsmall := hsized.name
  obtain ⟨total, htotal⟩ : ∃ b, encodeOne format out m ++ rest = b := ⟨_, rfl⟩
  rw [htotal] at hfit hheader hname hdata hlen₅ ⊢
  have hplus₁ : plus out.length (headerOf format m).headerLen =
      .ok (out.length + (headerOf format m).headerLen) := if_pos (by omega)
  have hminus₁ : minus total.length (out.length + (headerOf format m).headerLen) =
      .ok (total.length - (out.length + (headerOf format m).headerLen)) := if_pos (by omega)
  have hbounds : ¬ (m.entry.path.length + 1 = 0 ∨ m.entry.path.length + 1 ≥ pathMax ∨
      m.entry.path.length + 1 > total.length - (out.length + (headerOf format m).headerLen)) := by
    omega
  have hinner : ¬ ((m.entry.path ++ [0]).getLast? ≠ some 0 ∨ 0 ∈ m.entry.path) := by
    simpa using hnul
  have hplus₂ : plus (out.length + (headerOf format m).headerLen) (m.entry.path.length + 1) =
      .ok named.length := by
    rw [hlen₁]
    exact if_pos (by omega)
  have halign₁ : align (headerOf format m).aligned named.length = .ok (padded format named).length :=
    align_padded (by omega)
  have hin : ¬ (padded format named).length > total.length := by omega
  have hminus₂ : minus total.length (padded format named).length =
      .ok (total.length - (padded format named).length) := if_pos (by omega)
  have hroom : ¬ m.entry.content.length > total.length - (padded format named).length := by omega
  have hplus₃ : plus (padded format named).length m.entry.content.length = .ok filled.length := by
    rw [hlen₂]
    exact if_pos (by omega)
  have halign₂ : align (headerOf format m).aligned filled.length = .ok (encodeOne format out m).length := by
    rw [hone]
    exact align_padded (by omega)
  have hend : ¬ (encodeOne format out m).length > total.length := by omega
  have hsizes : (headerOf format m).namesize = m.entry.path.length + 1 ∧
      (headerOf format m).filesize = m.entry.content.length := ⟨rfl, rfl⟩
  simp only [readRecord, bind, Except.bind, hheader, hsizes, hplus₁, hminus₁, dieIf_neg hbounds, hname,
    dieIf_neg hinner, hplus₂, halign₁, dieIf_neg hin, hminus₂, dieIf_neg hroom, hplus₃, halign₂,
    dieIf_neg hend, hdata, List.dropLast_concat]

theorem Normalized.printable {path : Bytes} (h : Normalized path) : ∀ x ∈ path, 32 ≤ x := by
  intro x hx
  have hpath : path ≠ [] := List.ne_nil_of_mem hx
  have hnames := h.names hpath
  have hall : ∀ names : List Bytes, (∀ c ∈ names, ∀ x ∈ c, 32 ≤ x) →
      ∀ x ∈ [47].intercalate names, 32 ≤ x := by
    intro names hnames
    induction names with
    | nil => simp
    | cons c rest ih =>
        cases rest with
        | nil => simpa using hnames
        | cons c' rest =>
            rw [List.intercalate_cons_cons]
            simp only [List.forall_mem_append, List.forall_mem_singleton]
            exact ⟨⟨hnames c (.head _), by decide⟩, ih fun d hd => hnames d (.tail _ hd)⟩
  have hself : [47].intercalate (components path) = path := List.intercalate_splitOn _
  exact hall _ (fun c hc y hy => ((hnames c hc).2.2.2.2 y hy).1) x (by rwa [hself])

theorem Representable.sized (h : Representable format m) : Sized format m where
  name := by
    have hsize := h.normalized.size
    have hmax : pathMax - nameMax = 769 := rfl
    have hmax' : pathMax = 1024 := rfl
    omega
  widths := h.widths
  longWidths := h.longWidths

theorem readRecord_representable (out rest : Bytes) (h : Representable format m)
    (hroot : m.entry.path = [] → m.entry.isDir = true)
    (hfit : (encodeOne format out m ++ rest).length < 2 ^ 63) :
    readRecord (encodeOne format out m ++ rest) out.length =
      .ok ⟨(encodeOne format out m).length, some m.entry⟩ := by
  have hnul : 0 ∉ m.entry.path := fun hm => absurd (h.normalized.printable 0 hm) (by decide)
  rw [readRecord_encodeOne out rest h.sized hnul hfit, if_neg h.notTrailer,
    makeEntry_representable h hroot]
  rfl

theorem trailer_sized (format : Format) : Sized format trailer where
  name := by decide
  widths := by cases format <;> decide
  longWidths := by cases format <;> decide

theorem readRecord_trailer (out rest : Bytes)
    (hfit : (encodeOne format out trailer ++ rest).length < 2 ^ 63) :
    readRecord (encodeOne format out trailer ++ rest) out.length =
      .ok ⟨(encodeOne format out trailer).length, none⟩ := by
  rw [readRecord_encodeOne out rest (trailer_sized format) (by decide) hfit,
    if_pos (show trailer.entry.path = lit "TRAILER!!!" from rfl)]
  rfl

/-! ### The loop -/

theorem length_encodeOne_lt (format : Format) (out : Bytes) (m : Member) : out.length < (encodeOne format out m).length := by
  simp only [encodeOne, padded, List.length_append, List.length_cons]
  omega

/-- The rest of an archive, as it is written after `out`. -/
def encodeFrom (format : Format) (out : Bytes) (members : List Member) : Bytes :=
  members.foldl (encodeOne format) out

theorem prefix_encodeFrom (format : Format) (members : List Member) (out : Bytes) : out <+: encodeFrom format out members := by
  induction members generalizing out with
  | nil => exact List.prefix_rfl
  | cons m members ih =>
      have hone : out <+: encodeOne format out m := by
        simp only [encodeOne, padded, List.append_assoc]
        exact List.prefix_append _ _
      exact hone.trans (ih (encodeOne format out m))

/-- The loop reads one entry after the other, up to the trailer. -/
theorem readRecords_encodeFrom (members : List Member) (out rest : Bytes) (done : List Entry) (rounds : Nat)
    (h : ∀ m ∈ members, Representable format m)
    (hroot : ∀ m ∈ members, m.entry.path = [] → m.entry.isDir = true)
    (hlimit : done.length + members.length ≤ limitEntries)
    (hfit : (encodeFrom format out (members ++ [trailer]) ++ rest).length < 2 ^ 63)
    (hrounds : (encodeFrom format out (members ++ [trailer]) ++ rest).length < rounds + out.length) :
    readRecords (encodeFrom format out (members ++ [trailer]) ++ rest) rounds out.length done =
      .ok (done ++ members.map (·.entry), (encodeFrom format out (members ++ [trailer])).length) := by
  induction members generalizing out done rounds with
  | nil =>
      have hone : encodeFrom format out ([] ++ [trailer]) = encodeOne format out trailer := rfl
      rw [hone] at hfit hrounds ⊢
      have hlt := length_encodeOne_lt format out trailer
      have hpos : out.length < (encodeOne format out trailer ++ rest).length := by
        rw [List.length_append]
        omega
      obtain ⟨rounds, rfl⟩ : ∃ n, rounds = n + 1 := ⟨rounds - 1, by omega⟩
      rw [readRecords, if_pos hpos, readRecord_trailer out rest hfit, List.map_nil, List.append_nil]
      rfl
  | cons m members ih =>
      obtain ⟨tail, htail⟩ := prefix_encodeFrom format (members ++ [trailer]) (encodeOne format out m)
      have hcons : encodeFrom format out (m :: members ++ [trailer]) =
          encodeFrom format (encodeOne format out m) (members ++ [trailer]) := rfl
      have hsplit : encodeFrom format (encodeOne format out m) (members ++ [trailer]) ++ rest =
          encodeOne format out m ++ (tail ++ rest) := by
        rw [← htail, List.append_assoc]
      rw [hcons] at hfit hrounds ⊢
      have hlt := length_encodeOne_lt format out m
      have hlen : (encodeFrom format (encodeOne format out m) (members ++ [trailer]) ++ rest).length =
          (encodeOne format out m).length + (tail ++ rest).length := by
        rw [hsplit, List.length_append]
      have hpos : out.length <
          (encodeFrom format (encodeOne format out m) (members ++ [trailer]) ++ rest).length := by
        omega
      obtain ⟨rounds, rfl⟩ : ∃ n, rounds = n + 1 := ⟨rounds - 1, by omega⟩
      have hrecord : readRecord
          (encodeFrom format (encodeOne format out m) (members ++ [trailer]) ++ rest) out.length =
          .ok ⟨(encodeOne format out m).length, some m.entry⟩ := by
        rw [hsplit] at hfit ⊢
        exact readRecord_representable out _ (h m (.head _)) (hroot m (.head _)) hfit
      rw [List.length_cons] at hlimit
      have happend : entriesAppend done m.entry = .ok (done ++ [m.entry]) := by
        rw [entriesAppend, dieIf_neg (by omega)]
        rfl
      have hrest := ih (encodeOne format out m) (done ++ [m.entry]) rounds
        (fun m' hm' => h m' (.tail _ hm')) (fun m' hm' => hroot m' (.tail _ hm'))
        (by rw [List.length_append, List.length_singleton]; omega) hfit (by omega)
      rw [readRecords, if_pos hpos, hrecord]
      change (entriesAppend done m.entry >>= _) = _
      rw [happend]
      refine hrest.trans ?_
      rw [List.append_assoc, List.singleton_append, List.map_cons]

/-! ### The whole -/

theorem isGzip_encode (format : Format) (members : List Member) (rest : Bytes) :
    isGzip (encode format members ++ rest) = false := by
  obtain ⟨m, members', hcons⟩ : ∃ m members', members ++ [trailer] = m :: members' :=
    List.exists_cons_of_ne_nil (by simp)
  obtain ⟨tail, htail⟩ := prefix_encodeFrom format members' (encodeOne format [] m)
  have hstart : encode format members = encodeOne format [] m ++ tail := by
    rw [htail, encode, hcons]
    rfl
  rw [hstart, encodeOne, padded, padded, header]
  cases format <;> simp [isGzip, Format.magic, lit]

/-- **Decoding undoes encoding**, for every list of entries that the format can represent in which
the root, if it is there, is a directory. -/
theorem cpio_roundtrip (gunzip : Buffer → Result Buffer) (format : Format) (members : List Member)
    (h : Archivable format members) (hroot : ∀ m ∈ members, m.entry.path = [] → m.entry.isDir = true)
    (zeros : Nat) (archive : Buffer)
    (harchive : archive.data = encode format members ++ List.replicate zeros 0) :
    cpioParse gunzip archive [] = .ok (members.map (·.entry)) := by
  have hfit : (encodeFrom format [] (members ++ [trailer]) ++ List.replicate zeros 0).length < 2 ^ 63 := by
    have := archive.size
    rwa [harchive] at this
  have hloop : readRecords archive.data (archive.data.length + 1) 0 [] =
      .ok (members.map (·.entry), (encode format members).length) := by
    rw [harchive]
    exact readRecords_encodeFrom members [] _ [] _ h.entries hroot (by simpa using h.limit) hfit
      (by simp [encode, encodeFrom])
  have hafter : ¬ ∃ c ∈ archive.data.drop (encode format members).length, c ≠ 0 := by
    rw [harchive, List.drop_left]
    rintro ⟨c, hc, hne⟩
    exact hne (List.eq_of_mem_replicate hc)
  have hpaths : entriesCheckPaths (members.map (·.entry)) false = .ok () := by
    have hchars : ∀ e ∈ members.map (·.entry), ∀ x ∈ e.path, 32 ≤ x := by
      intro e he
      obtain ⟨m, hm, rfl⟩ := List.mem_map.1 he
      exact (h.entries m hm).normalized.printable
    rw [entriesCheckPaths_iff hchars]
    refine ⟨?_, ?_⟩
    · rw [List.pairwise_map]
      exact (List.pairwise_map.1 h.distinct).imp fun hne heq => absurd heq hne
    · intro e' he' e he hbelow hne
      obtain ⟨m, hm, rfl⟩ := List.mem_map.1 he
      obtain ⟨m', hm', rfl⟩ := List.mem_map.1 he'
      exact h.beneath m hm m' hm' ((of_decide_eq_true hbelow).resolve_left hne)
  have hraw : decompressed gunzip archive = .ok archive := by
    rw [decompressed, harchive, isGzip_encode]
    rfl
  rw [cpioParse, hraw]
  simp only [bind, Except.bind, hloop, dieIf_neg hafter, hpaths]
  rfl

/-- The link `l` leads to the file next to it. -/
theorem sampleMembers_archivable : Archivable .crc sampleMembers := by
  refine ⟨?_, by decide, ?_, by decide⟩
  · intro m hm
    simp only [sampleMembers, List.mem_cons, List.not_mem_nil, or_false] at hm
    obtain rfl | rfl | rfl := hm
    · have hnormal : Normalized sampleDir.entry.path := ⟨fun _ => by decide +kernel, by decide, by decide⟩
      exact ⟨hnormal, by decide, by decide, .directory (by decide) rfl rfl, by decide, by decide, by decide, by decide⟩
    · have hnormal : Normalized sampleFile.entry.path := ⟨fun _ => by decide +kernel, by decide, by decide⟩
      exact ⟨hnormal, by decide, by decide, .file (by decide) rfl (by decide), by decide, by decide, by decide,
        by decide⟩
    · have hnormal : Normalized sampleLink.entry.path := ⟨fun _ => by decide +kernel, by decide, by decide⟩
      refine ⟨hnormal, by decide, by decide, ?_, by decide, by decide, by decide, by decide⟩
      refine .symlink (by decide) (lit "f") rfl rfl (by decide) (by decide) (by decide) (by decide) ?_
      intro steps hsteps
      have hnone : steps.count [46, 46] ≤ 0 := (hsteps.sublist.count_le _).trans (by decide)
      omega
  · decide

/-- They are read back in their order, from the crc format with eight zeros after it. -/
theorem cpio_roundtrip_members : ∃ archive : Buffer,
    archive.data = encode .crc sampleMembers ++ List.replicate 8 0 ∧
      cpioParse (fun _ => .error .fault) archive [] = .ok [sampleDir.entry, sampleFile.entry, sampleLink.entry] := by
  have hsize : (encode .crc sampleMembers ++ List.replicate 8 0).length < 2 ^ 63 := by decide +kernel
  exact ⟨⟨_, hsize⟩, rfl, cpio_roundtrip _ .crc sampleMembers sampleMembers_archivable (by decide) 8 _ rfl⟩

/-- The root, as an empty file. -/
def rootFile : Member where
  entry := { path := [], mode := 0o100644, uid := 0, gid := 0, mtime := 0 }
  nlink := 1
  dev := 0
  ino := 1
  rdev := 0
  devMajor := 0
  devMinor := 0
  rdevMajor := 0
  rdevMinor := 0

theorem rootFile_archivable : Archivable .odc [rootFile] := by
  have hcomponents : components [] = [[]] := rfl
  refine ⟨?_, by simp, ?_, by decide⟩
  · intro m hm
    rw [List.mem_singleton.1 hm]
    refine ⟨⟨fun h => absurd rfl h, by decide, by decide⟩, ?_, by decide, ?_, by decide, by decide, by decide,
      by decide⟩
    · change ∀ c ∈ components [], _
      rw [hcomponents]
      simp [lit]
    · exact .file (by decide) rfl (by decide)
  · intro m hm m' hm' hbeneath
    rw [List.mem_singleton.1 hm, List.mem_singleton.1 hm'] at hbeneath
    exact absurd hbeneath (by decide)

/-- An archive whose root is a file is refused. -/
theorem cpio_root_refused : Archivable .odc [rootFile] ∧ ∃ archive : Buffer,
    archive.data = encode .odc [rootFile] ++ List.replicate 0 0 ∧
      cpioParse (fun _ => .error .fault) archive [] = die "payload root is not a directory" := by
  have hsize : (encode .odc [rootFile] ++ List.replicate 0 0).length < 2 ^ 63 := by decide +kernel
  have hsplit : encode .odc [rootFile] ++ List.replicate 0 0 =
      encodeOne .odc [] rootFile ++ (encode .odc [rootFile]).drop (encodeOne .odc [] rootFile).length := by
    decide +kernel
  have hsized := (rootFile_archivable.entries rootFile (.head _)).sized
  have hentry : makeEntry (headerOf .odc rootFile) [] [] = die "payload root is not a directory" := rfl
  have hrecord : readRecord (encode .odc [rootFile] ++ List.replicate 0 0) 0 =
      die "payload root is not a directory" := by
    rw [hsplit] at hsize ⊢
    refine (readRecord_encodeOne [] _ hsized (by decide) hsize).trans ?_
    rw [if_neg (by decide)]
    change (makeEntry (headerOf .odc rootFile) [] [] >>= _) = _
    rw [hentry]
    rfl
  refine ⟨rootFile_archivable, ⟨_, hsize⟩, rfl, ?_⟩
  have hraw : decompressed (fun _ => .error .fault) ⟨_, hsize⟩ = .ok ⟨_, hsize⟩ := by
    rw [decompressed, isGzip_encode]
    rfl
  have hpos : 0 < (encode .odc [rootFile] ++ List.replicate 0 0).length := by decide +kernel
  rw [cpioParse, hraw]
  simp only [bind, Except.bind, readRecords, if_pos hpos, hrecord]
  rfl

end MiniDarwin.Archive
