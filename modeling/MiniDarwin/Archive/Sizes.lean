import MiniDarwin.Archive.Selection
import MiniDarwin.Archive.Contents

/-!
The sizes of members.

`inflate_limited ()` takes an expected length of 0 to mean that any length
is fine. `read_member ()` passes the declared size on, so that a compressed
member that says it is empty may hold anything.
-/

namespace MiniDarwin.Archive

open Posix (Bytes)

variable {libs : Libs} {decode : Nat → Bytes → Option Bytes}

/-! ### Rules -/

/-- Whatever comes back meets `Q`. -/
def ReturnsM {α : Type} (x : M α) (total : Nat) (Q : α → Prop) : Prop := Returns (x.run total) fun p => Q p.1

section Rules

variable {α β : Type} {x : M α} {f : α → M β} {total : Nat} {Q R : α → Prop} {P : β → Prop}

theorem returnsM_pure {a : α} (h : Q a) : ReturnsM (pure a) total Q := returns_ok h

theorem returnsM_bind (h : Returns (x.run total) fun p => ReturnsM (f p.1) p.2 P) : ReturnsM (x >>= f) total P := by
  unfold ReturnsM
  rw [StateT.run_bind]
  exact returns_bind h

theorem returnsM_lift {y : Result α} (h : Returns y fun a => ReturnsM (f a) total P) :
    ReturnsM ((liftM y : M α) >>= f) total P := by
  apply returnsM_bind
  apply returns_bind
  refine h.mono ?_
  intro a ha
  exact returns_ok ha

end Rules

/-! ### What is enforced -/

theorem returns_decodedAccount {n total : Nat} :
    Returns ((decodedAccount n).run total) fun _ => total ≤ limitDecoded := by
  apply returns_bind
  intro room hroom _ _
  unfold minus at hroom
  split at hroom
  · next hle => exact hle
  · cases hroom

/-- A length other than 0 is enforced. -/
theorem inflateLimited_length (z : Zlib) {input : Bytes} {windowBits expected limit total : Nat} :
    ReturnsM (inflateLimited z input windowBits expected limit) total fun out =>
      total ≤ limitDecoded ∧ (expected ≠ 0 → out.length = expected) := by
  apply returnsM_lift
  apply returns_dieIf
  intro _
  apply returnsM_lift
  intro s _
  apply returnsM_lift
  apply returns_dieIf
  intro _
  apply returnsM_lift
  rintro ⟨out, rest⟩ _
  apply returnsM_lift
  apply returns_dieIf
  intro hlength
  apply returnsM_bind
  refine returns_decodedAccount.mono ?_
  intro _ htotal
  apply returnsM_pure
  refine ⟨htotal, ?_⟩
  intro hexpected
  by_contra hne
  exact hlength (.inr ⟨hexpected, hne⟩)

theorem decodeMember_length {encoding encoded : Bytes} {size total : Nat} :
    ReturnsM (decodeMember libs encoding encoded size) total fun out =>
      total ≤ limitDecoded ∧ (out.length = size ∨ encoding = lit "application/x-gzip" ∧ size = 0) := by
  unfold decodeMember
  split
  · next hgzip =>
      refine (inflateLimited_length libs.zlib).mono ?_
      rintro ⟨out, _⟩ ⟨htotal, hlength⟩
      refine ⟨htotal, ?_⟩
      by_cases hsize : size = 0
      · exact .inr ⟨hgzip, hsize⟩
      · exact .inl (hlength hsize)
  · split
    · apply returnsM_lift
      apply returns_dieIf
      intro hlength
      apply returnsM_bind
      refine returns_decodedAccount.mono ?_
      intro _ htotal
      exact returnsM_pure ⟨htotal, .inl (not_not.1 hlength)⟩
    · intro _ hok
      cases hok

/-- The declared size of a data element, its encoding, and what follows for the bytes that are
taken from it. -/
theorem readMember_length {data : Node} {heap : Bytes} {total : Nat} :
    ReturnsM (readMember libs data heap) total fun out =>
      total ≤ limitDecoded ∧ ∃ size encoding, xmlChildUint data (lit "size") = .ok size ∧ size ≤ limitMember ∧
        xmlAttr (xmlChild data (lit "encoding")) (lit "style") = .ok encoding ∧
        (out.length = size ∨ encoding = lit "application/x-gzip" ∧ size = 0) := by
  apply returnsM_lift
  intro offset _
  apply returnsM_lift
  intro length _
  apply returnsM_lift
  intro size hsize
  apply returnsM_lift
  apply returns_dieIf
  intro _
  apply returnsM_lift
  intro room _
  apply returnsM_lift
  apply returns_dieIf
  intro hbounds
  apply returnsM_lift
  intro encoded _
  apply returnsM_lift
  intro _ _
  apply returnsM_lift
  intro encoding hencoding
  apply returnsM_bind
  refine decodeMember_length.mono ?_
  rintro ⟨out, total'⟩ ⟨htotal, hlength⟩
  apply returnsM_lift
  intro _ _
  apply returnsM_pure
  exact ⟨htotal, size, encoding, hsize, not_lt.1 fun hlt => hbounds (.inr hlt), hencoding, hlength⟩

/-- The range of the heap decompresses to nothing. -/
def EmptyStream (decode : Nat → Bytes → Option Bytes) (heap : Bytes) (data : Node) : Prop :=
  ∃ offset length, xmlChildUint data (lit "offset") = .ok offset ∧ xmlChildUint data (lit "length") = .ok length ∧
    decode 15 ((heap.drop offset).take length) = some []

/-- What a compressed data element holds is empty if its stream is. -/
theorem Stored.eq_nil_iff {heap bytes : Bytes} {data : Node} (h : Stored libs decode heap data bytes)
    (hgzip : xmlAttr (xmlChild data (lit "encoding")) (lit "style") = .ok (lit "application/x-gzip")) :
    bytes = [] ↔ EmptyStream decode heap data := by
  obtain ⟨offset, length, encoding, hoffset, hlength, -, hencoding, -, hdecoding, -⟩ := h
  obtain rfl : encoding = lit "application/x-gzip" := Except.ok.inj (hencoding.symm.trans hgzip)
  have hdecode : decode 15 ((heap.drop offset).take length) = some bytes := by
    generalize hkind : lit "application/x-gzip" = kind at hdecoding
    cases hdecoding with
    | gzip hdecode => exact hdecode
    | raw => exact absurd hkind (by decide)
  constructor
  · intro hnil
    exact ⟨offset, length, hoffset, hlength, hnil ▸ hdecode⟩
  · rintro ⟨offset', length', hoffset', hlength', hempty⟩
    obtain rfl : offset = offset' := Except.ok.inj (hoffset.symm.trans hoffset')
    obtain rfl : length = length' := Except.ok.inj (hlength.symm.trans hlength')
    exact Option.some.inj (hdecode.symm.trans hempty)

/-- **Declared sizes are enforced**, except that a compressed member of the declared size 0 may be
of any size. -/
theorem declared_size_iff (libs : Libs) (decode : Nat → Bytes → Option Bytes) (data : Node) (heap bytes : Bytes)
    (total total' : Nat) (hzlib : libs.zlib.Decodes decode)
    (hread : (readMember libs data heap).run total = .ok (bytes, total')) :
    ∃ size encoding, xmlChildUint data (lit "size") = .ok size ∧ size ≤ limitMember ∧
      xmlAttr (xmlChild data (lit "encoding")) (lit "style") = .ok encoding ∧
      (bytes.length = size ↔
        size ≠ 0 ∨ encoding ≠ lit "application/x-gzip" ∨ EmptyStream decode heap data) := by
  obtain ⟨htotal, size, encoding, hsize, hlimit, hencoding, hlength⟩ := readMember_length _ hread
  have hstored : Stored libs decode heap data bytes := ((safelyM_readMember hzlib htotal).2 _ hread).2
  refine ⟨size, encoding, hsize, hlimit, hencoding, ?_⟩
  obtain hlength | ⟨rfl, rfl⟩ := hlength
  · refine iff_of_true hlength ?_
    by_cases hgzip : size = 0 ∧ encoding = lit "application/x-gzip"
    · obtain ⟨rfl, rfl⟩ := hgzip
      exact .inr (.inr ((hstored.eq_nil_iff hencoding).1 (List.length_eq_zero_iff.1 hlength)))
    · rw [not_and_or] at hgzip
      exact hgzip.imp_right .inl
  · rw [List.length_eq_zero_iff, hstored.eq_nil_iff hencoding]
    simp

/-! One byte, as zlib stores it. -/

def storedByte : Bytes := [120, 1, 1, 1, 0, 254, 255, 65, 0, 66, 0, 66]

/-- The libraries, as far as this byte needs them. -/
def byteLibs : Libs where
  zlib := oneStream storedByte [65]
  evp := fun algorithm data =>
    if algorithm = .sha1 ∧ data = storedByte then
      some [128, 122, 6, 72, 23, 119, 234, 73, 216, 182, 177, 153, 112, 136, 56, 108, 171, 150, 68, 19]
    else if algorithm = .sha1 ∧ data = [65] then
      some [109, 205, 76, 226, 61, 136, 226, 238, 149, 104, 186, 84, 108, 0, 124, 99, 217, 19, 28, 27]
    else none
  xmlReadMemory := fun _ => none

/-- Its data element, with the size that it declares. -/
def byteData (size : String) : Node :=
  let leaf (name : String) (s : String) : Node := .element (lit name) [] [.text (lit s)]
  let sha1 : List (Bytes × Bytes) := [(lit "style", lit "sha1")]
  .element (lit "data") [] [leaf "offset" "0", leaf "length" "12", leaf "size" size,
    .element (lit "encoding") [(lit "style", lit "application/x-gzip")] [],
    .element (lit "archived-checksum") sha1 [.text (lit "807a06481777ea49d8b6b1997088386cab964413")],
    .element (lit "extracted-checksum") sha1 [.text sampleSum]]

theorem declared_size_iff_one :
    (readMember byteLibs (byteData "1") storedByte).run 0 = .ok ([65], 1) ∧
      ∃ size encoding, xmlChildUint (byteData "1") (lit "size") = .ok size ∧ size ≤ limitMember ∧
        xmlAttr (xmlChild (byteData "1") (lit "encoding")) (lit "style") = .ok encoding ∧
        (([65] : Bytes).length = size ↔ size ≠ 0 ∨ encoding ≠ lit "application/x-gzip" ∨
          EmptyStream (fun _ input => if input = storedByte then some [65] else none) storedByte (byteData "1")) := by
  have hread : (readMember byteLibs (byteData "1") storedByte).run 0 = .ok ([65], 1) := by decide +kernel
  exact ⟨hread, declared_size_iff byteLibs _ (byteData "1") storedByte [65] 0 1 (oneStream_decodes _ _) hread⟩

/-- A member that says it has no bytes, and has one. -/
theorem declared_size_zero_unchecked :
    byteLibs.zlib.Decodes (fun _ input => if input = storedByte then some [65] else none) ∧
      xmlChildUint (byteData "0") (lit "size") = .ok 0 ∧
      (readMember byteLibs (byteData "0") storedByte).run 0 = .ok ([65], 1) :=
  ⟨oneStream_decodes _ _, by decide +kernel, by decide +kernel⟩

end MiniDarwin.Archive
