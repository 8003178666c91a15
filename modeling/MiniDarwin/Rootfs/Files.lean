import MiniDarwin.Rootfs.Normal
import MiniDarwin.Rootfs.Load
import MiniDarwin.Rootfs.TreeOrder

/-!
Files.

What is written is ASCII, and so its bytes are its characters. A document
that can be written is read back from its file as it is.
-/

namespace MiniDarwin.Rootfs

open Data

variable {text what : Text} {raw : ByteArray}

/-! ### Bytes -/

theorem utf8EncodeChar_ascii : ∀ c < 128, String.utf8EncodeChar (Char.ofNat c) = [UInt8.ofNat c] := by
  decide +kernel

theorem toNat_ofNat_ascii : ∀ c < 128, (Char.ofNat c).toNat = c := by
  decide +kernel

theorem utf8Encode_ascii (h : Ascii text) :
    (text.map Char.ofNat).utf8Encode = (text.map UInt8.ofNat).toByteArray := by
  rw [List.utf8Encode, List.flatMap_map]
  congr 1
  induction text with
  | nil => rfl
  | cons c text ih =>
      rw [List.flatMap_cons, utf8EncodeChar_ascii c (h c (.head _)), ih fun d hd => h d (.tail _ hd)]
      rfl

/-- An ASCII text is written, and it is what is decoded. -/
theorem asciiBytes_ok (h : Ascii text) :
    ∃ raw, asciiBytes text = .ok raw ∧ raw.size = text.length ∧ ∀ what, decode raw what = .ok text := by
  refine ⟨(text.map UInt8.ofNat).toByteArray, bind_ok.2 ⟨text, encode_ok h, rfl⟩, by simp, ?_⟩
  intro what
  rw [decode, ← utf8Encode_ascii h, List.utf8Decode?_utf8Encode]
  change Except.ok ((text.map Char.ofNat).map Char.toNat) = _
  have hid : ∀ c ∈ text, (Char.toNat ∘ Char.ofNat) c = id c := fun c hc => toNat_ofNat_ascii c (h c hc)
  rw [List.map_map, List.map_congr_left hid, List.map_id]

theorem decode_unicode (h : decode raw what = .ok text) : Unicode text := by
  rw [decode] at h
  split at h
  next chars _ =>
    cases h
    intro n hn
    obtain ⟨c, -, rfl⟩ := List.mem_map.1 hn
    have hc := c.valid
    rw [UInt32.isValidChar, Nat.isValidChar] at hc
    change c.val.toNat < _ ∧ ¬ (_ ≤ c.val.toNat ∧ c.val.toNat ≤ _)
    omega
  · cases h

/-- A spec that has been loaded is in its normal form. -/
theorem loadSpec_normal {spec : Spec} (h : loadSpec raw what = .ok spec) : spec.document.Normal := by
  rw [loadSpec] at h
  split at h
  · cases h
  obtain ⟨text, htext, h⟩ := bind_ok.1 h
  obtain ⟨value, hvalue, h⟩ := bind_ok.1 h
  exact specFrom_normal (parseYaml_readable (decode_unicode htext) hvalue) h

/-! ### Documents in files -/

/-- The file holds the document. -/
structure Holds (header : Text) (document : List (Text × Value)) (raw : ByteArray) : Prop where
  written : (do asciiBytes (← dumpYaml header document)) = .ok raw
  text : ∃ text, dumpYaml header document = .ok text ∧
    ∀ what, decode raw what = .ok text ∧ decodeAscii raw what = .ok text ∧ parseYaml text what = .ok (.map document)

theorem bytesOf_ascii {text : Text} (h : Ascii text) : bytesOf (text.map UInt8.ofNat).toByteArray = text := by
  have hsmall : ∀ c ∈ text, (UInt8.toNat ∘ UInt8.ofNat) c = id c := fun c hc =>
    Nat.mod_eq_of_lt (Nat.lt_of_lt_of_le (h c hc) (by decide))
  rw [bytesOf, List.toList_data_toByteArray, List.map_map, List.map_congr_left hsmall, List.map_id]

theorem decodeAscii_ok {text : Text} (h : Ascii text) :
    decodeAscii (text.map UInt8.ofNat).toByteArray what = .ok text := by
  rw [decodeAscii, bytesOf_ascii h]
  exact if_pos h

/-- A document that can be written has a file, which holds it. -/
theorem holds_of_written {comment : Text} {document : List (Text × Value)} (hcomment : IsComment comment)
    (hheader : Ascii (headerOf [comment])) (hdocument : (Value.map document).Writable) (hne : document ≠ []) :
    ∃ raw, Holds (headerOf [comment]) document raw := by
  have hcomments : ∀ l ∈ [comment], IsComment l := by
    intro l hl
    exact List.mem_singleton.1 hl ▸ hcomment
  have hread := fun what => dumpYaml_read what hcomments hdocument hne
  obtain ⟨body, hbody, hdump, -⟩ := hread []
  have hascii := hheader.append hbody
  obtain ⟨raw, hraw, -, hdecode⟩ := asciiBytes_ok hascii
  refine ⟨raw, bind_ok.2 ⟨_, hdump, hraw⟩, _, hdump, ?_⟩
  intro what
  obtain ⟨body', -, hdump', hparse⟩ := hread what
  obtain rfl : body' = body := List.append_cancel_left (Except.ok.inj (hdump'.symm.trans hdump))
  obtain ⟨bytes, hbytes, hraw⟩ := bind_ok.1 hraw
  obtain rfl := Except.ok.inj hraw
  rw [encode_eq hbytes] at *
  exact ⟨hdecode what, decodeAscii_ok hascii, hparse⟩

/-- The one comment of the header. -/
def headerComment : Text := lit "# minidarwin rootfs spec. Format: docs/rootfs-spec.md"

/-- The one comment of the header of a manifest. -/
def manifestComment : Text := lit "# minidarwin rootfs manifest. Format: docs/rootfs-spec.md"

theorem holds_manifest {document : List (Text × Value)} (hdocument : (Value.map document).Writable) (hne : document ≠ []) :
    ∃ raw, Holds manifestHeader document raw :=
  holds_of_written (⟨0, manifestComment.tail, rfl, by decide⟩ : IsComment manifestComment) (by decide) hdocument hne

theorem holds_spec {document : List (Text × Value)} (hdocument : (Value.map document).Writable) (hne : document ≠ []) :
    ∃ raw, Holds specHeader document raw :=
  holds_of_written (⟨0, headerComment.tail, rfl, by decide⟩ : IsComment headerComment) (by decide) hdocument hne

theorem Holds.loadSpec {document : List (Text × Value)} (h : Holds specHeader document raw) (hsize : raw.size ≤ specLimit)
    (what : Text) : Rootfs.loadSpec raw what = specFrom (.map document) what := by
  obtain ⟨text, -, hread⟩ := h.text
  obtain ⟨hdecode, -, hparse⟩ := hread what
  rw [Rootfs.loadSpec, if_neg (Nat.not_lt.2 hsize), hdecode]
  change (parseYaml text what >>= _) = _
  rw [hparse]
  rfl

/-- A document in its normal form is written, and read back from every file that is not too large. -/
theorem Document.Normal.written {d : Document} (h : d.Normal) :
    ∃ raw, (do asciiBytes (← dumpYaml specHeader d.value)) = .ok raw ∧
      (raw.size ≤ specLimit → ∀ what, loadSpec raw what = .ok ⟨d, []⟩) := by
  obtain ⟨raw, hraw⟩ := holds_spec h.writable (List.cons_ne_nil _ _)
  exact ⟨raw, hraw.written, fun hsize what => (hraw.loadSpec hsize what).trans (specFrom_value h)⟩

end MiniDarwin.Rootfs
