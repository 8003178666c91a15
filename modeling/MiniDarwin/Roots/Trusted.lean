import MiniDarwin.Roots.Pem
import MiniDarwin.Rootfs.RoundTrip

/-!
A reader of the bundle finds the trusted roots in it, and nothing else.

The reader takes what is between the lines that begin and end a
certificate. No other line is one of these: a comment begins with another
character, and a line of Base64 has no hyphen in it.
-/

namespace MiniDarwin.Roots

open Data
open Rootfs (Text lit decimal Digest)

/-- The certificates in the lines of a bundle, inside one or not. -/
def certificatesIn : Option Text → List Text → Option (List (List UInt8))
  | none, [] => some []
  | some _, [] => none
  | none, line :: lines =>
      if line = beginLine then certificatesIn (some []) lines else certificatesIn none lines
  | some body, line :: lines =>
      if line = endLine then do
        let der ← Base64.decode body
        let others ← certificatesIn none lines
        return der :: others
      else certificatesIn (some (body ++ line)) lines

/-- What a reader of the bundle has of it. -/
def readPem (text : Text) : Option (List (List UInt8)) := certificatesIn none (text.splitOn 10)

variable {sha256 : List UInt8 → Digest} {s : Certificates} {tag human digest : Text} {der : List UInt8}
  {lines : List Text}

theorem certificatesIn_outside {line : Text} (h : line ≠ beginLine) :
    certificatesIn none (line :: lines) = certificatesIn none lines := by
  rw [certificatesIn, if_neg h]

theorem certificatesIn_inside {body : Text} {pieces : List Text} (h : endLine ∉ pieces) :
    certificatesIn (some body) (pieces ++ endLine :: lines) =
      (Base64.decode (body ++ pieces.flatten)).bind fun der => (certificatesIn none lines).map (der :: ·) := by
  induction pieces generalizing body with
  | nil =>
      rw [List.nil_append, certificatesIn, if_pos rfl, List.flatten_nil, List.append_nil]
      cases certificatesIn none lines <;> rfl
  | cons piece pieces ih =>
      rw [List.mem_cons, not_or] at h
      rw [List.cons_append, certificatesIn, if_neg (Ne.symm h.1), ih h.2, List.flatten_cons, List.append_assoc]

/-- A comment is not the line that begins a certificate. -/
theorem ne_beginLine {line : Text} (h : line.head? = some 35) : line ≠ beginLine := by
  rintro rfl
  exact absurd h (by decide)

/-- A line of Base64 is not the line that ends one. -/
theorem endLine_not_mem_chunks : endLine ∉ Base64.chunks 64 (Base64.encode der) := by
  intro h
  have hhyphen : 45 ∈ endLine := by decide
  rcases Base64.mem_encode (Base64.mem_of_mem_chunks h hhyphen) with hdigit | hpad
  · revert hdigit
    unfold Base64.IsDigit
    omega
  · exact absurd hpad (by decide)

theorem certificatesIn_certificate :
    certificatesIn none (certificate human digest der ++ lines) = (certificatesIn none lines).map (der :: ·) := by
  rw [certificate, List.append_assoc, List.append_assoc, List.cons_append, List.cons_append, List.cons_append,
    List.cons_append, List.nil_append, certificatesIn_outside (by decide), certificatesIn_outside (ne_beginLine rfl),
    certificatesIn_outside (ne_beginLine rfl),
    certificatesIn, if_pos rfl, List.singleton_append, certificatesIn_inside endLine_not_mem_chunks, List.nil_append,
    Base64.flatten_chunks (by decide), Base64.decode_encode, Option.bind_some]

/-- The certificates that a loop has written. -/
theorem certificatesIn_flatten {α : Type} {written : α → List Text} {content : α → List UInt8}
    (h : ∀ a lines, certificatesIn none (written a ++ lines) = (certificatesIn none lines).map (content a :: ·))
    (l : List α) : certificatesIn none ((l.map written).flatten ++ lines) =
      (certificatesIn none lines).map (l.map content ++ ·) := by
  induction l with
  | nil => simp
  | cons a l ih =>
      rw [List.map_cons, List.flatten_cons, List.append_assoc, h, ih, Option.map_map]
      rfl

/-! ### The loop -/

/-- What the script asks of a root that it prints. -/
def Certificates.Vouched (s : Certificates) (sha256 : List UInt8 → Digest) (r : Text × List UInt8) : Prop :=
  upper (sha256 r.2) = stem r.1 ∧ (s.humanNames.lookup (stem r.1)).isSome

instance (s : Certificates) (sha256 : List UInt8 → Digest) (r : Text × List UInt8) :
    Decidable (s.Vouched sha256 r) := inferInstanceAs (Decidable (_ ∧ _))

/-- The human name. -/
def Certificates.humanName (s : Certificates) (r : Text × List UInt8) : Text := (s.humanNames.lookup (stem r.1)).getD []

/-- The roots that are not constrained. -/
def Certificates.free (s : Certificates) (roots : List (Text × List UInt8)) : List (Text × List UInt8) :=
  roots.filter fun r => stem r.1 ∉ s.system

theorem certificates_ok {roots : List (Text × List UInt8)} {written : List (List Text)} :
    certificates sha256 s roots = .ok written ↔
      (∀ r ∈ s.free roots, s.Vouched sha256 r) ∧
        written = (s.free roots).map fun r => certificate (s.humanName r) (stem r.1) r.2 := by
  induction roots generalizing written with
  | nil =>
      constructor
      · rintro ⟨⟩
        exact ⟨by simp [Certificates.free], rfl⟩
      · rintro ⟨-, rfl⟩
        rfl
  | cons r roots ih =>
      obtain ⟨name, der⟩ := r
      rw [certificates]
      by_cases hfree : stem name ∈ s.system
      · rw [if_pos hfree, ih]
        simp [Certificates.free, hfree]
      · have hcons : s.free ((name, der) :: roots) = (name, der) :: s.free roots := by simp [Certificates.free, hfree]
        rw [if_neg hfree, hcons, List.forall_mem_cons, List.map_cons]
        by_cases hdigest : upper (sha256 der) = stem name
        · rw [if_neg (not_not.2 hdigest)]
          cases hhuman : s.humanNames.lookup (stem name) with
          | none => simp [Certificates.Vouched, hhuman]
          | some human =>
              have hvouched : s.Vouched sha256 (name, der) := ⟨hdigest, by simp [hhuman]⟩
              cases hrest : certificates sha256 s roots with
              | error e =>
                  have hno : ¬ ∀ r ∈ s.free roots, s.Vouched sha256 r := by
                    intro hall
                    have hok := ih.2 ⟨hall, rfl⟩
                    rw [hrest] at hok
                    cases hok
                  constructor
                  · rintro ⟨⟩
                  · rintro ⟨⟨-, hall⟩, -⟩
                    exact absurd hall hno
              | ok others =>
                  obtain ⟨hall, rfl⟩ := ih.1 hrest
                  simp only [eq_true hvouched, true_and, Certificates.humanName, hhuman, Option.getD_some]
                  constructor
                  · rintro ⟨⟩
                    exact ⟨hall, rfl⟩
                  · rintro ⟨-, rfl⟩
                    rfl
        · rw [if_pos hdigest]
          simp [Certificates.Vouched, hdigest]

/-! ### The script -/

/-- What the script asks for. -/
structure Admissible (sha256 : List UInt8 → Digest) (s : Certificates) : Prop where
  named : ∀ r ∈ s.roots, lit ".cer" <:+ r.1
  current : ∀ d ∈ s.system, ∃ r ∈ s.roots, stem r.1 = d
  vouched : ∀ r ∈ s.free s.roots, s.Vouched sha256 r

theorem mem_listing {r : Text × List UInt8} : r ∈ s.listing ↔ r ∈ s.roots :=
  (List.perm_insertionSort _ _).mem_iff

/-- The lines of the bundle. -/
def bundleLines (s : Certificates) (tag : Text) : List Text :=
  [lit "# Trusted roots of Apple's " ++ tag ++ lit " (certificates/roots),",
    lit "# less the " ++ decimal s.system.dedup.length ++ lit " that constraints.json restricts to Apple policies."] ++
      ((s.free s.listing).map fun r => certificate (s.humanName r) (stem r.1) r.2).flatten

theorem main_ok {b : Bundle} : main sha256 s tag = .ok b ↔ Admissible sha256 s ∧
    b = ⟨(bundleLines s tag).flatMap (· ++ [10]), lit "roots-to-pem: " ++ decimal (s.free s.listing).length ++
      lit " roots, " ++ decimal s.system.dedup.length ++ lit " left out"⟩ := by
  unfold main
  cases hfind : s.listing.find? fun r => !(lit ".cer").isSuffixOf r.1 with
  | some r =>
      have hbad : ¬ Admissible sha256 s := by
        intro hs
        have hnamed := hs.named r (mem_listing.1 (List.mem_of_find?_eq_some hfind))
        have hsuffix := List.find?_some hfind
        simp [List.isSuffixOf_iff_suffix.2 hnamed] at hsuffix
      simp only [hfind, hbad, false_and, iff_false]
      rintro ⟨⟩
  | none =>
      have hnamed : ∀ r ∈ s.roots, lit ".cer" <:+ r.1 := by
        intro r hr
        simpa using List.find?_eq_none.1 hfind r (mem_listing.2 hr)
      simp only [hfind]
      by_cases hstale : s.system.dedup.filter (fun d => d ∉ s.listing.map (stem ·.1)) = []
      · have hcurrent : ∀ d ∈ s.system, ∃ r ∈ s.roots, stem r.1 = d := by
          intro d hd
          have hmem := List.filter_eq_nil_iff.1 hstale d (List.mem_dedup.2 hd)
          simpa [mem_listing] using hmem
        have hadmissible : Admissible sha256 s ↔ ∀ r ∈ s.free s.listing, s.Vouched sha256 r := by
          have hfree : ∀ r, r ∈ s.free s.listing ↔ r ∈ s.free s.roots := by
            intro r
            simp [Certificates.free, mem_listing]
          simp only [hfree]
          exact ⟨fun hs => hs.vouched, fun hv => ⟨hnamed, hcurrent, hv⟩⟩
        simp only [hstale, if_true, hadmissible]
        cases hwritten : certificates sha256 s s.listing with
        | error e =>
            have hno : ¬ ∀ r ∈ s.free s.listing, s.Vouched sha256 r := by
              intro hall
              have hok := certificates_ok.2 ⟨hall, rfl⟩
              rw [hwritten] at hok
              cases hok
            constructor
            · rintro ⟨⟩
            · rintro ⟨hall, -⟩
              exact absurd hall hno
        | ok written =>
            obtain ⟨hall, rfl⟩ := certificates_ok.1 hwritten
            have hlen : ((s.free s.listing).map fun r => certificate (s.humanName r) (stem r.1) r.2).length =
                (s.free s.listing).length := List.length_map _
            rw [← hlen]
            constructor
            · rintro ⟨⟩
              exact ⟨hall, rfl⟩
            · rintro ⟨-, rfl⟩
              rfl
      · have hbad : ¬ Admissible sha256 s := by
          intro hs
          apply hstale
          rw [List.filter_eq_nil_iff]
          intro d hd
          obtain ⟨r, hr, hd⟩ := hs.current d (List.mem_dedup.1 hd)
          rw [decide_eq_true_eq, not_not]
          exact List.mem_map.2 ⟨r, mem_listing.2 hr, hd⟩
        simp only [hstale, if_false, hbad, false_and, iff_false]
        rintro ⟨⟩

/-! ### The bundle read back -/

theorem newline_not_mem_upper (d : Digest) : 10 ∉ upper d := by
  intro h
  obtain ⟨c, hc, hten⟩ := List.mem_map.1 h
  have hhex := d.wellFormed
  simp only [Rootfs.isHex, decide_eq_true_eq] at hhex
  have hrange := hhex.2 c hc
  split at hten <;> omega

/-- Text that is a line. -/
abbrev OneLine (t : Text) : Prop := 10 ∉ t

theorem oneLine_certificate {r : Text × List UInt8} (hvouched : s.Vouched sha256 r)
    (hhuman : ∀ n ∈ s.humanNames, OneLine n.2) {line : Text}
    (hline : line ∈ certificate (s.humanName r) (stem r.1) r.2) : OneLine line := by
  have hname : OneLine (s.humanName r) := by
    obtain ⟨human, hlookup⟩ := Option.isSome_iff_exists.1 hvouched.2
    rw [Certificates.humanName, hlookup]
    obtain ⟨before, rest, hsplit, -⟩ := List.lookup_eq_some_iff.1 hlookup
    exact hhuman (stem r.1, human) (by simp [hsplit])
  have hstem : OneLine (stem r.1) := hvouched.1 ▸ newline_not_mem_upper _
  rw [certificate, List.mem_append, List.mem_append, List.mem_singleton] at hline
  rcases hline with (hhead | hpiece) | rfl
  · simp only [List.mem_cons, List.not_mem_nil, or_false] at hhead
    rcases hhead with rfl | rfl | rfl | rfl
    · decide
    · exact List.not_mem_append (by decide) hname
    · exact List.not_mem_append (by decide) hstem
    · decide
  · intro hten
    rcases Base64.mem_encode (Base64.mem_of_mem_chunks hpiece hten) with hdigit | hpad
    · revert hdigit
      unfold Base64.IsDigit
      omega
    · exact absurd hpad (by decide)
  · decide

theorem oneLine_decimal (n : Nat) : OneLine (decimal n) := by
  intro h
  have hdigit := Rootfs.mem_decimal h
  omega

/-- The script ends well exactly when each file is a certificate, each
constraint is on one of them, and each one without a constraint is what its
name says and has a human name; a reader of what it prints has those without
a constraint, in the order of their names. -/
theorem bundle_exact (sha256 : List UInt8 → Digest) (s : Certificates) (tag : Text) :
    ((∃ b, main sha256 s tag = .ok b) ↔ Admissible sha256 s) ∧
      ∀ b, main sha256 s tag = .ok b → OneLine tag → (∀ n ∈ s.humanNames, OneLine n.2) →
        ∃ order : List (Text × List UInt8), order.Perm (s.free s.roots) ∧ order.Pairwise (fun r r' => r.1 ≤ r'.1) ∧
          readPem b.out = some (order.map (·.2)) := by
  constructor
  · constructor
    · rintro ⟨b, hb⟩
      exact (main_ok.1 hb).1
    · exact fun hs => ⟨_, main_ok.2 ⟨hs, rfl⟩⟩
  · rintro b hb htag hhuman
    obtain ⟨hs, rfl⟩ := main_ok.1 hb
    have hperm : (s.free s.listing).Perm (s.free s.roots) := (List.perm_insertionSort _ _).filter _
    have hsorted : s.listing.Pairwise fun r r' => r.1 ≤ r'.1 := List.pairwise_insertionSort _ _
    refine ⟨s.free s.listing, hperm, hsorted.filter _, ?_⟩
    have hlines : ∀ line ∈ bundleLines s tag, OneLine line := by
      intro line hline
      rw [bundleLines, List.mem_append] at hline
      rcases hline with hhead | hline
      · simp only [List.mem_cons, List.not_mem_nil, or_false] at hhead
        rcases hhead with rfl | rfl
        · exact List.not_mem_append (List.not_mem_append (by decide) htag) (by decide)
        · exact List.not_mem_append (List.not_mem_append (by decide) (oneLine_decimal _)) (by decide)
      · obtain ⟨lines, hmem, hline⟩ := List.mem_flatten.1 hline
        obtain ⟨r, hr, rfl⟩ := List.mem_map.1 hmem
        exact oneLine_certificate (hs.vouched r (hperm.mem_iff.1 hr)) hhuman hline
    rw [readPem, Rootfs.splitOn_lines hlines, bundleLines, List.append_assoc, List.cons_append, List.cons_append,
      List.nil_append, certificatesIn_outside (ne_beginLine rfl), certificatesIn_outside (ne_beginLine rfl),
      certificatesIn_flatten fun r lines => certificatesIn_certificate, certificatesIn_outside (by decide)]
    simp [certificatesIn]

/-! Two roots, of which one has a constraint. -/

def freeDigest : Digest where
  text := lit "e4f60d0aa6d7f3d3b6a6494b1c861b99f649c6f9ec51abaf201b20f297327c95"
  wellFormed := by decide

def boundDigest : Digest where
  text := lit "133c57a29c0c1043800dcd9a0c9cc2914d68ddf52f58f308c397dc14d1431d09"
  wellFormed := by decide

def digestOf (der : List UInt8) : Digest := if der = [0x30, 0] then freeDigest else boundDigest

def twoRoots : Certificates where
  roots := [(upper boundDigest ++ lit ".cer", [0x30, 1, 5]), (upper freeDigest ++ lit ".cer", [0x30, 0])]
  system := [upper boundDigest]
  humanNames := [(upper freeDigest, lit "Free Root CA")]

theorem admissible_twoRoots : Admissible digestOf twoRoots where
  named := by decide
  current := by decide
  vouched := by decide

theorem bundle_exact_two : ∃ b, main digestOf twoRoots (lit "roots-55") = .ok b ∧
    readPem b.out = some [[0x30, 0]] := by
  obtain ⟨b, hb⟩ := (bundle_exact digestOf twoRoots (lit "roots-55")).1.2 admissible_twoRoots
  obtain ⟨order, hperm, -, hread⟩ :=
    (bundle_exact digestOf twoRoots (lit "roots-55")).2 b hb (by decide) (by decide)
  have hfree : twoRoots.free twoRoots.roots = [(upper freeDigest ++ lit ".cer", [0x30, 0])] := by decide
  rw [hfree, List.perm_singleton] at hperm
  rw [hperm] at hread
  exact ⟨b, hb, hread⟩

end MiniDarwin.Roots
