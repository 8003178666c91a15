import MiniDarwin.Archive.Xar

/-!
What `xar_open ()` takes from a file.

`HasFile` says which files with data a table of contents has, and `Stored`
what the heap holds for one of them. A package that is opened has exactly
these files, under pairwise distinct names.
-/

namespace MiniDarwin.Archive

open Posix (Bytes)

variable {libs : Libs} {decode : Nat → Bytes → Option Bytes}

/-! ### The table of contents -/

def pathBelow (above name : Bytes) : Bytes := if above = [] then name else above ++ 47 :: name

/-- The `file` elements of a table of contents: directories have others, files have data. -/
inductive FileAt : (n : Node) → (above path : Bytes) → (data : Node) → Prop where
  | file {n data : Node} {above name : Bytes} (hfile : xmlIs (lit "file") n = true)
      (hname : xmlText (xmlChild n (lit "name")) = .ok name)
      (htype : xmlText (xmlChild n (lit "type")) = .ok (lit "file"))
      (hdata : xmlChild n (lit "data") = some data) : FileAt n above (pathBelow above name) data
  | directory {n child data : Node} {above name path : Bytes} (hfile : xmlIs (lit "file") n = true)
      (hname : xmlText (xmlChild n (lit "name")) = .ok name)
      (htype : xmlText (xmlChild n (lit "type")) = .ok (lit "directory"))
      (hdata : xmlChild n (lit "data") = none) (hchild : child ∈ xmlElements n)
      (h : FileAt child (pathBelow above name) path data) : FileAt n above path data

/-- There is a file with data at `path`. -/
def HasFile (toc : Node) (path : Bytes) (data : Node) : Prop :=
  ∃ n ∈ xmlElements toc, FileAt n [] path data

/-- A checksum element is that of some bytes. -/
def Matches (libs : Libs) (checksum : Option Node) (bytes : Bytes) : Prop :=
  ∃ style algorithm want hash, xmlAttr checksum (lit "style") = .ok style ∧
    algorithmOf style = some algorithm ∧ libs.evp algorithm bytes = some hash ∧
    xmlText checksum = .ok want ∧ sameCaseless want (hexEncode hash) = true

/-- The two encodings. -/
inductive Decoding (decode : Nat → Bytes → Option Bytes) (encoded : Bytes) : (encoding bytes : Bytes) → Prop where
  | gzip {bytes : Bytes} (h : decode 15 encoded = some bytes) :
      Decoding decode encoded (lit "application/x-gzip") bytes
  | raw : Decoding decode encoded (lit "application/octet-stream") encoded

/-- What the heap holds for a data element: the bytes are the decoding of its range, and both
checksums match. -/
def Stored (libs : Libs) (decode : Nat → Bytes → Option Bytes) (heap : Bytes) (data : Node) (bytes : Bytes) :
    Prop :=
  ∃ offset length encoding, xmlChildUint data (lit "offset") = .ok offset ∧
    xmlChildUint data (lit "length") = .ok length ∧ offset + length ≤ heap.length ∧
    xmlAttr (xmlChild data (lit "encoding")) (lit "style") = .ok encoding ∧
    Matches libs (xmlChild data (lit "archived-checksum")) ((heap.drop offset).take length) ∧
    Decoding decode ((heap.drop offset).take length) encoding bytes ∧
    Matches libs (xmlChild data (lit "extracted-checksum")) bytes

/-- A data element holds one sequence of bytes. -/
theorem Stored.unique {heap a b : Bytes} {data : Node} (ha : Stored libs decode heap data a)
    (hb : Stored libs decode heap data b) : a = b := by
  obtain ⟨offset, length, encoding, hoffset, hlength, -, hencoding, -, hdecoding, -⟩ := ha
  obtain ⟨offset', length', encoding', hoffset', hlength', -, hencoding', -, hdecoding', -⟩ := hb
  obtain rfl : offset = offset' := Except.ok.inj (hoffset.symm.trans hoffset')
  obtain rfl : length = length' := Except.ok.inj (hlength.symm.trans hlength')
  obtain rfl : encoding = encoding' := Except.ok.inj (hencoding.symm.trans hencoding')
  have hne : lit "application/x-gzip" ≠ lit "application/octet-stream" := by decide
  generalize hkind : encoding = kind at hdecoding'
  cases hdecoding with
  | gzip h =>
      cases hdecoding' with
      | gzip h' => exact Option.some.inj (h.symm.trans h')
      | raw => exact absurd hkind hne
  | raw =>
      cases hdecoding' with
      | gzip h' => exact absurd hkind.symm hne
      | raw => rfl

/-! ### Members -/

theorem xmlText_ne_fault (n : Option Node) : xmlText n ≠ .error .fault := by
  cases n <;> simp [xmlText, die]

theorem xmlAttr_ne_fault (n : Option Node) (key : Bytes) : xmlAttr n key ≠ .error .fault := by
  unfold xmlAttr
  split
  · simp
  · simp [die]

theorem xmlChildUint_ne_fault (n : Option Node) (name : Bytes) : xmlChildUint n name ≠ .error .fault := by
  have h : Safely (xmlChildUint n name) fun _ => True := by
    apply safely_bind
    apply (safely_self (xmlText_ne_fault _)).mono
    intro s _
    exact (safely_self (parseUint_ne_fault _ _)).mono fun _ _ => trivial
  exact h.1

theorem safely_digest (data name : Bytes) : Safely (digest libs.evp data name) fun hash =>
    ∃ algorithm, algorithmOf name = some algorithm ∧ libs.evp algorithm data = some hash := by
  unfold digest
  split
  · exact safely_die
  · next a ha =>
      split
      · exact safely_die
      · next d hd => exact safely_ok ⟨a, ha, hd⟩

theorem safely_verifyChecksum (checksum : Option Node) (bytes : Bytes) :
    Safely (verifyChecksum libs checksum bytes) fun _ => Matches libs checksum bytes := by
  apply safely_bind
  apply safely_dieIf
  intro _
  apply safely_bind
  apply (safely_self (xmlAttr_ne_fault _ _)).mono
  intro style hstyle
  apply safely_bind
  apply (safely_self (xmlText_ne_fault _)).mono
  intro want hwant
  apply safely_bind
  apply (safely_digest bytes style).mono
  rintro hash ⟨algorithm, halgorithm, hhash⟩
  apply safely_dieIf
  intro hsame
  exact ⟨style, algorithm, want, hash, hstyle, halgorithm, hhash, hwant, not_not.1 hsame⟩

theorem safelyM_decodeMember (hzlib : libs.zlib.Decodes decode) {encoding encoded : Bytes} {size total : Nat}
    (htotal : total ≤ limitDecoded) :
    SafelyM (decodeMember libs encoding encoded size) total fun bytes total' =>
      total' ≤ limitDecoded ∧ Decoding decode encoded encoding bytes := by
  unfold decodeMember
  split
  · next hgzip =>
      apply (safelyM_inflateLimited libs.zlib htotal).mono
      rintro out total' ⟨htotal', s, hs, hproduces⟩
      rw [hgzip]
      exact ⟨htotal', .gzip (hzlib 15 s encoded out hs hproduces)⟩
  · split
    · next hraw =>
        apply safelyM_bind
        apply safelyM_lift
        apply safely_dieIf
        intro _
        apply safelyM_bind
        apply safelyM_decodedAccount htotal
        intro htotal'
        apply safelyM_pure
        rw [hraw]
        exact ⟨htotal', .raw⟩
    · exact safely_die

theorem safelyM_readMember (hzlib : libs.zlib.Decodes decode) {data : Node} {heap : Bytes} {total : Nat}
    (htotal : total ≤ limitDecoded) :
    SafelyM (readMember libs data heap) total fun bytes total' =>
      total' ≤ limitDecoded ∧ Stored libs decode heap data bytes := by
  apply safelyM_bind
  apply safelyM_lift
  apply (safely_self (xmlChildUint_ne_fault _ _)).mono
  intro offset hoffset
  apply safelyM_bind
  apply safelyM_lift
  apply (safely_self (xmlChildUint_ne_fault _ _)).mono
  intro length hlength
  apply safelyM_bind
  apply safelyM_lift
  apply (safely_self (xmlChildUint_ne_fault _ _)).mono
  intro size _
  apply safelyM_bind
  apply safelyM_lift
  apply safely_dieIf
  intro hstart
  apply safelyM_bind
  apply safelyM_lift
  apply safely_minus (by omega)
  apply safelyM_bind
  apply safelyM_lift
  apply safely_dieIf
  intro hbounds
  have hrange : offset + length ≤ heap.length := by omega
  apply safelyM_bind
  apply safelyM_lift
  apply safely_slice hrange
  apply safelyM_bind
  apply safelyM_lift
  apply (safely_verifyChecksum _ _).mono
  intro _ harchived
  apply safelyM_bind
  apply safelyM_lift
  apply (safely_self (xmlAttr_ne_fault _ _)).mono
  intro encoding hencoding
  apply safelyM_bind
  apply (safelyM_decodeMember hzlib htotal).mono
  rintro out total' ⟨htotal', hdecoding⟩
  apply safelyM_bind
  apply safelyM_lift
  apply (safely_verifyChecksum _ _).mono
  intro _ hextracted
  apply safelyM_pure
  exact ⟨htotal', offset, length, encoding, hoffset, hlength, hrange, hencoding, harchived, hdecoding,
    hextracted⟩

/-! ### The walk -/

theorem Normalized.getLast {path : Bytes} (h : Normalized path) : path.getLast? ≠ some 47 := by
  intro hlast
  obtain ⟨front, rfl⟩ : ∃ front, path = front ++ [47] :=
    ⟨path.dropLast, (List.dropLast_append_getLast? 47 hlast).symm⟩
  have hempty : [] ∈ components (front ++ [47]) := by
    rw [components, List.splitOn_append_cons_self]
    simp
  exact (h.names (by simp) [] hempty).1 rfl

theorem components_pathBelow {above name : Bytes} (hname : 47 ∉ name) :
    components (pathBelow above name) = (if above = [] then [] else components above) ++ [name] := by
  have hone : name.splitOn 47 = [name] := List.splitOn_eq_singleton hname
  unfold pathBelow
  split
  · exact hone
  · rw [components, List.splitOn_append_cons_self, hone]
    rfl

theorem safely_memberPath {above : Bytes} {n : Node} (habove : Normalized above) :
    Safely (memberPath above n) fun path => ∃ name, xmlText (xmlChild n (lit "name")) = .ok name ∧
      path = pathBelow above name ∧ Normalized path := by
  apply safely_bind
  apply (safely_self (xmlText_ne_fault _)).mono
  intro name hname
  apply safely_bind
  apply safely_dieIf
  intro hsafe
  simp only [not_or] at hsafe
  obtain ⟨hne, hslash, hdot, -⟩ := hsafe
  have hjoin : Safely (pathJoin above name) fun joined => joined = pathBelow above name := by
    unfold pathJoin pathBelow
    split
    · exact safely_ok rfl
    · split
      · exact safely_die
      · rw [if_neg habove.getLast]
        exact safely_ok (by simp)
  apply safely_bind
  apply hjoin.mono
  rintro joined rfl
  have hnames : ∀ c ∈ components (pathBelow above name), c ≠ [] ∧ c ≠ [46] := by
    rw [components_pathBelow hslash]
    intro c hc
    obtain hc | hc := List.mem_append.1 hc
    · split at hc
      · cases hc
      · next hroot =>
          have := habove.names hroot c hc
          exact ⟨this.1, this.2.1⟩
    · rw [List.mem_singleton.1 hc]
      exact ⟨hne, hdot⟩
  apply (safely_pathNormalize hnames).mono
  rintro path ⟨rfl, hnormal⟩
  exact ⟨name, hname, rfl, hnormal⟩

/-- The members that a walk adds are the files of some elements, with what is stored for them. -/
structure Collected (libs : Libs) (decode : Nat → Bytes → Option Bytes) (heap : Bytes)
    (Has : Bytes → Node → Prop) (new : List XarMember) : Prop where
  sound : ∀ m ∈ new, Normalized m.name ∧ ∃ data, Has m.name data ∧ Stored libs decode heap data m.data
  complete : ∀ path data, Has path data → ∃ m ∈ new, m.name = path ∧ Stored libs decode heap data m.data

theorem Collected.nil {heap : Bytes} {Has : Bytes → Node → Prop} (h : ∀ path data, ¬ Has path data) :
    Collected libs decode heap Has [] :=
  ⟨by simp, fun path data hp => absurd hp (h path data)⟩

theorem Collected.append {heap : Bytes} {Has Has' Has'' : Bytes → Node → Prop} {new new' : List XarMember}
    (h : Collected libs decode heap Has new) (h' : Collected libs decode heap Has' new')
    (hHas : ∀ path data, Has'' path data ↔ Has path data ∨ Has' path data) :
    Collected libs decode heap Has'' (new ++ new') where
  sound := by
    intro m hm
    obtain hm | hm := List.mem_append.1 hm
    · obtain ⟨hnormal, data, hdata, hstored⟩ := h.sound m hm
      exact ⟨hnormal, data, (hHas _ _).2 (.inl hdata), hstored⟩
    · obtain ⟨hnormal, data, hdata, hstored⟩ := h'.sound m hm
      exact ⟨hnormal, data, (hHas _ _).2 (.inr hdata), hstored⟩
  complete := by
    intro path data hp
    obtain hp | hp := (hHas _ _).1 hp
    · obtain ⟨m, hm, hname, hstored⟩ := h.complete path data hp
      exact ⟨m, List.mem_append_left _ hm, hname, hstored⟩
    · obtain ⟨m, hm, hname, hstored⟩ := h'.complete path data hp
      exact ⟨m, List.mem_append_right _ hm, hname, hstored⟩

theorem Collected.congr {heap : Bytes} {Has Has' : Bytes → Node → Prop} {new : List XarMember}
    (h : Collected libs decode heap Has new) (hHas : ∀ path data, Has' path data ↔ Has path data) :
    Collected libs decode heap Has' new := by
  have heq : Has' = Has := by
    funext path data
    exact propext (hHas path data)
  rwa [heq]

/-- What a walk over `parent` adds. -/
def Walks (libs : Libs) (decode : Nat → Bytes → Option Bytes) (heap : Bytes)
    (walk : Node → Bytes → List XarMember → M (List XarMember)) : Prop :=
  ∀ parent above members total, Normalized above → total ≤ limitDecoded →
    SafelyM (walk parent above members) total fun out total' => total' ≤ limitDecoded ∧
      ∃ new, out = members ++ new ∧ Collected libs decode heap
        (fun path data => ∃ n ∈ xmlElements parent, FileAt n above path data) new

theorem safelyM_walkElement (hzlib : libs.zlib.Decodes decode) {heap above : Bytes}
    {walk : Node → Bytes → List XarMember → M (List XarMember)} (hwalk : Walks libs decode heap walk)
    {members : List XarMember} {n : Node} {total : Nat} (habove : Normalized above)
    (htotal : total ≤ limitDecoded) :
    SafelyM (walkElement libs heap above walk members n) total fun out total' => total' ≤ limitDecoded ∧
      ∃ new, out = members ++ new ∧ Collected libs decode heap (FileAt n above) new := by
  unfold walkElement
  split
  · next hother =>
      apply safelyM_pure
      refine ⟨htotal, [], by simp, Collected.nil ?_⟩
      intro path data hfile
      cases hfile with
      | file hfile => exact hother hfile
      | directory hfile => exact hother hfile
  · next hfile =>
      have hfile' : xmlIs (lit "file") n = true := not_not.1 hfile
      apply safelyM_bind
      apply safelyM_lift
      apply (safely_memberPath habove).mono
      rintro path ⟨name, hname, rfl, hnormal⟩
      apply safelyM_bind
      apply safelyM_lift
      apply (safely_self (xmlText_ne_fault _)).mono
      intro type htype
      split
      · next hdata =>
          split
          · next hdirectory =>
              rw [hdirectory] at htype
              apply (hwalk n _ members total hnormal htotal).mono
              rintro out total' ⟨htotal', new, hout, hcollected⟩
              refine ⟨htotal', new, hout, hcollected.congr ?_⟩
              intro path data
              constructor
              · intro hpath
                cases hpath with
                | file _ _ _ hdata' => exact absurd (hdata.symm.trans hdata') (by simp)
                | directory _ hname' _ _ hchild h =>
                    obtain rfl := Except.ok.inj (hname.symm.trans hname')
                    exact ⟨_, hchild, h⟩
              · rintro ⟨child, hchild, h⟩
                exact .directory hfile' hname htype hdata hchild h
          · exact safely_die
      · next data hdata =>
          split
          · next hplain =>
              rw [hplain] at htype
              apply safelyM_bind
              apply safelyM_lift
              apply safely_dieIf
              intro _
              apply safelyM_bind
              apply (safelyM_readMember hzlib htotal).mono
              rintro bytes total' ⟨htotal', hstored⟩
              apply safelyM_pure
              refine ⟨htotal', _, rfl, ?_, ?_⟩
              · intro m hm
                rw [List.mem_singleton.1 hm]
                exact ⟨hnormal, data, .file hfile' hname htype hdata, hstored⟩
              · intro path data' hpath
                cases hpath with
                | file _ hname' _ hdata' =>
                    obtain rfl := Except.ok.inj (hname.symm.trans hname')
                    obtain rfl := Option.some.inj (hdata.symm.trans hdata')
                    exact ⟨_, .head _, rfl, hstored⟩
                | directory _ _ _ hdata' => exact absurd (hdata.symm.trans hdata') (by simp)
          · exact safely_die

theorem safelyM_walkElements (hzlib : libs.zlib.Decodes decode) {heap above : Bytes}
    {walk : Node → Bytes → List XarMember → M (List XarMember)} (hwalk : Walks libs decode heap walk)
    (habove : Normalized above) (l : List Node) (members : List XarMember) (total : Nat)
    (htotal : total ≤ limitDecoded) :
    SafelyM (l.foldlM (walkElement libs heap above walk) members) total fun out total' =>
      total' ≤ limitDecoded ∧ ∃ new, out = members ++ new ∧
        Collected libs decode heap (fun path data => ∃ n ∈ l, FileAt n above path data) new := by
  induction l generalizing members total with
  | nil =>
      apply safelyM_pure
      exact ⟨htotal, [], by simp, Collected.nil (by simp)⟩
  | cons n l ih =>
      rw [List.foldlM_cons]
      apply safelyM_bind
      apply (safelyM_walkElement hzlib hwalk habove htotal).mono
      rintro out total' ⟨htotal', new, rfl, hnew⟩
      apply (ih (members ++ new) total' htotal').mono
      rintro out total'' ⟨htotal'', new', hout, hnew'⟩
      refine ⟨htotal'', new ++ new', by rw [hout, List.append_assoc], hnew.append hnew' ?_⟩
      intro path data
      simp

theorem walks_walkToc (hzlib : libs.zlib.Decodes decode) (heap : Bytes) (room : Nat) :
    Walks libs decode heap (walkToc libs heap room) := by
  induction room with
  | zero => exact fun _ _ _ _ _ _ => safely_die
  | succ room ih =>
      intro parent above members total habove htotal
      exact safelyM_walkElements hzlib ih habove _ members total htotal

/-! ### The header -/

/-- A number of the header. -/
def headerNumber (file : Bytes) (start n : Nat) : Nat := bigEndian ((file.drop start).take n)

/-- The name of an algorithm that the header gives, where it gives one. -/
def HeaderNames (file style : Bytes) : Prop :=
  (headerNumber file 24 4 = 1 → style = lit "sha1") ∧ (headerNumber file 24 4 = 2 → style = lit "md5") ∧
    (headerNumber file 24 4 = 3 → 64 ≤ headerNumber file 4 2 → style = cstr ((file.drop 28).take 36)) ∧
    1 ≤ headerNumber file 24 4 ∧ headerNumber file 24 4 ≤ 3

/-- A file is its header, the compressed table of contents and the heap. -/
def LaidOut (file packed heap : Bytes) : Prop :=
  ∃ head, file = head ++ packed ++ heap ∧ head.length = headerNumber file 4 2 ∧ 28 ≤ head.length ∧
    packed.length = headerNumber file 8 8

theorem laidOut_slices {file : Bytes} {header packed : Nat} (hheader : headerNumber file 4 2 = header)
    (hpacked : headerNumber file 8 8 = packed) (hmin : 28 ≤ header) (hsum : header + packed ≤ file.length) :
    LaidOut file ((file.drop header).take packed)
      ((file.drop (header + packed)).take (file.length - header - packed)) := by
  have hheap : (file.drop (header + packed)).take (file.length - header - packed) =
      file.drop (header + packed) := by
    apply List.take_of_length_le
    rw [List.length_drop]
    omega
  refine ⟨file.take header, ?_, ?_, ?_, ?_⟩
  · rw [hheap, ← List.drop_drop, List.append_assoc, List.take_append_drop, List.take_append_drop]
  · rw [hheader, List.length_take, min_eq_left (by omega)]
  · rw [List.length_take, min_eq_left (by omega)]
    exact hmin
  · rw [hpacked, List.length_take, List.length_drop, min_eq_left (by omega)]

theorem safely_tocAndHeap {file : Bytes} (hlong : 28 ≤ file.length) (hshort : file.length ≤ limitDecoded) :
    Safely (tocAndHeap file) fun p => LaidOut file p.1 p.2 := by
  have hlimit : limitDecoded = 1073741824 := rfl
  apply safely_bind
  apply safely_slice (by omega)
  apply safely_bind
  apply safely_slice (by omega)
  apply safely_bind
  apply safely_slice (by omega)
  apply safely_bind
  apply safely_dieIf
  change ¬ (headerNumber file 4 2 < 28 ∨ headerNumber file 4 2 > file.length) → _
  intro hbounds
  apply safely_bind
  apply safely_minus (show headerNumber file 4 2 ≤ file.length by omega)
  apply safely_bind
  apply safely_dieIf
  intro hbounds'
  have hroom : headerNumber file 8 8 ≤ file.length - headerNumber file 4 2 :=
    not_lt.1 fun h => hbounds' (.inl h)
  apply safely_bind
  apply safely_slice (show headerNumber file 4 2 + headerNumber file 8 8 ≤ file.length by omega)
  have hsum : plus (headerNumber file 4 2) (headerNumber file 8 8) =
      .ok (headerNumber file 4 2 + headerNumber file 8 8) := if_pos (by omega)
  apply safely_bind
  change Safely (plus (headerNumber file 4 2) (headerNumber file 8 8)) _
  rw [hsum]
  apply safely_ok
  apply safely_bind
  apply safely_minus hroom
  apply safely_bind
  apply safely_slice (by omega)
  apply safely_pure
  exact laidOut_slices rfl rfl (by omega) (by omega)

/-- The heap has the digest of the compressed table of contents, where the table says. -/
def TocChecked (libs : Libs) (file packed heap : Bytes) (checksum : Node) : Prop :=
  ∃ style algorithm hash offset, xmlAttr checksum (lit "style") = .ok style ∧ HeaderNames file style ∧
    algorithmOf style = some algorithm ∧ libs.evp algorithm packed = some hash ∧
    xmlChildUint checksum (lit "offset") = .ok offset ∧ offset + hash.length ≤ heap.length ∧
    (heap.drop offset).take hash.length = hash

theorem safely_expectedStyle {file : Bytes} {style : Bytes} (hheader : headerNumber file 4 2 ≤ file.length) :
    Safely (expectedStyle file (headerNumber file 4 2) (headerNumber file 24 4) style) fun expected =>
      style = expected → HeaderNames file style := by
  unfold expectedStyle
  split
  · next h1 =>
      apply safely_pure
      rintro rfl
      exact ⟨fun _ => rfl, by omega, by omega, by omega, by omega⟩
  · split
    · next h1 h2 =>
        apply safely_pure
        rintro rfl
        exact ⟨by omega, fun _ => rfl, by omega, by omega, by omega⟩
    · split
      · next h1 h2 h3 =>
          apply safely_bind
          apply safely_slice (by omega)
          apply safely_pure
          rintro rfl
          exact ⟨by omega, by omega, fun _ _ => rfl, by omega, by omega⟩
      · split
        · next h1 h2 h3 h4 =>
            apply safely_pure
            intro _
            exact ⟨by omega, by omega, by omega, by omega, by omega⟩
        · exact safely_die

theorem safely_verifyToc {file packed heap : Bytes} {checksum : Node} (hlong : 28 ≤ file.length)
    (hheader : headerNumber file 4 2 ≤ file.length) :
    Safely (verifyToc libs file packed heap checksum) fun _ => TocChecked libs file packed heap checksum := by
  apply safely_bind
  apply safely_slice (by omega)
  apply safely_bind
  apply safely_slice (by omega)
  apply safely_bind
  apply (safely_self (xmlAttr_ne_fault _ _)).mono
  intro style hstyle
  apply safely_bind
  apply (safely_expectedStyle hheader).mono
  intro expected hexpected
  apply safely_bind
  apply safely_dieIf
  intro hsame
  apply safely_bind
  apply (safely_self (xmlChildUint_ne_fault _ _)).mono
  intro offset hoffset
  apply safely_bind
  apply (safely_self (xmlChildUint_ne_fault _ _)).mono
  intro size _
  apply safely_bind
  apply (safely_digest packed style).mono
  rintro hash ⟨algorithm, halgorithm, hhash⟩
  apply safely_bind
  apply safely_dieIf
  intro hstart
  apply safely_bind
  apply safely_minus (by omega)
  apply safely_bind
  apply safely_dieIf
  intro hbounds
  have hrange : offset + hash.length ≤ heap.length := by omega
  apply safely_bind
  apply safely_slice hrange
  apply safely_dieIf
  intro hequal
  exact ⟨style, algorithm, hash, offset, hstyle, hexpected (not_not.1 hsame), halgorithm, hhash, hoffset,
    hrange, (not_not.1 hequal).symm⟩

/-! ### Names -/

theorem sortMembers_perm (members : List XarMember) : (sortMembers members).Perm members :=
  List.perm_insertionSort _ _

theorem sortMembers_sorted (members : List XarMember) :
    (sortMembers members).Pairwise fun a b => compare a.name b.name ≠ .gt := by
  have htotal : Std.Total fun a b : XarMember => compare a.name b.name ≠ .gt := by
    refine ⟨fun a b => or_iff_not_imp_left.2 fun hab => ?_⟩
    rw [Std.OrientedCmp.lt_of_gt (not_not.1 hab)]
    decide
  have htrans : IsTrans XarMember fun a b => compare a.name b.name ≠ .gt := by
    refine ⟨fun a b c hab hbc => ?_⟩
    have hle := Std.TransCmp.isLE_trans (Ordering.isLE_iff_ne_gt.2 hab) (Ordering.isLE_iff_ne_gt.2 hbc)
    exact Ordering.isLE_iff_ne_gt.1 hle
  exact List.pairwise_insertionSort _ _

/-- Sorted names without two equal ones in a row are strictly increasing. -/
theorem strictly_increasing {members : List XarMember}
    (hsorted : members.Pairwise fun a b => compare a.name b.name ≠ .gt) (hdup : duplicate members = none) :
    members.Pairwise fun a b => compare a.name b.name = .lt := by
  have hadjacent : ∀ x ∈ members.zip members.tail, x.1.name ≠ x.2.name := by
    rw [duplicate, Option.map_eq_none_iff, List.find?_eq_none] at hdup
    intro x hx heq
    exact hdup x hx (decide_eq_true heq)
  clear hdup
  induction members with
  | nil => exact List.Pairwise.nil
  | cons a rest ih =>
      obtain ⟨ha, hrest⟩ := List.pairwise_cons.1 hsorted
      cases rest with
      | nil => exact List.pairwise_singleton _ _
      | cons b rest =>
          have hlt := ih hrest fun x hx => hadjacent x (.tail _ hx)
          have hab : compare a.name b.name = .lt := by
            cases hcmp : compare a.name b.name with
            | lt => rfl
            | eq => exact absurd (Std.LawfulEqOrd.eq_of_compare hcmp) (hadjacent (a, b) (.head _))
            | gt => exact absurd hcmp (ha b (.head _))
          refine List.pairwise_cons.2 ⟨?_, hlt⟩
          intro c hc
          obtain rfl | hc := List.mem_cons.1 hc
          · exact hab
          · exact Std.TransCmp.lt_trans hab ((List.pairwise_cons.1 hlt).1 c hc)

theorem nodup_names {members : List XarMember}
    (h : members.Pairwise fun a b => compare a.name b.name = .lt) : (members.map (·.name)).Nodup := by
  apply List.pairwise_map.2
  refine h.imp ?_
  intro a b hab heq
  rw [heq] at hab
  simp at hab

/-- `xar_member ()` finds the member with the name, if there is one. -/
theorem xarMember_iff {xar : List XarMember} (h : xar.Pairwise fun a b => compare a.name b.name = .lt)
    {name bytes : Bytes} {required : Bool} :
    xarMember xar name required = .ok (some bytes) ↔ ⟨name, bytes⟩ ∈ xar := by
  have hasc : Data.Ascending (fun m : XarMember => compare name m.name) xar := by
    refine h.imp ?_
    intro a b hab
    constructor
    · intro hb
      exact Std.OrientedCmp.gt_of_lt (Std.TransCmp.lt_trans hab (Std.OrientedCmp.lt_of_gt hb))
    · intro ha
      exact Std.TransCmp.lt_trans ha hab
  have hnodup := nodup_names h
  unfold xarMember
  cases hfound : Data.bsearch (fun m : XarMember => compare name m.name) xar with
  | none =>
      have hnone : ¬ ∃ x ∈ xar, compare name x.name = .eq := by
        rw [← Data.bsearch_isSome hasc, hfound]
        simp
      constructor
      · intro hok
        cases required with
        | true => cases hok
        | false => cases hok
      · exact fun hmem => absurd ⟨_, hmem, by simp⟩ hnone
  | some m =>
      obtain ⟨hmem, hcmp⟩ := Data.bsearch_sound hfound
      have hname : name = m.name := Std.LawfulEqOrd.eq_of_compare hcmp
      constructor
      · intro hok
        have hbytes : m.data = bytes := Option.some.inj (Except.ok.inj hok)
        rw [hname, ← hbytes]
        exact hmem
      · intro hmem'
        have hsame : m = ⟨name, bytes⟩ := List.inj_on_of_nodup_map hnodup hmem hmem' hname.symm
        rw [hsame]

/-! ### The whole -/

theorem safely_xmlParse (b : Bytes) : Safely (xmlParse libs.xmlReadMemory b) fun root =>
    libs.xmlReadMemory b = some ⟨some root, false⟩ := by
  apply safely_bind
  apply safely_dieIf
  intro _
  split
  · next root hdoc => exact safely_pure hdoc
  · exact safely_die

/-- What an opened package is. -/
structure Opened (libs : Libs) (decode : Nat → Bytes → Option Bytes) (file packed heap : Bytes)
    (toc checksum : Node) (xar : List XarMember) : Prop where
  layout : LaidOut file packed heap
  parsed : ∃ tocXml root, decode 15 packed = some tocXml ∧
    libs.xmlReadMemory tocXml = some ⟨some root, false⟩ ∧ xmlIs (lit "xar") root = true ∧
    xmlChild root (lit "toc") = some toc ∧ xmlChild toc (lit "checksum") = some checksum
  checked : TocChecked libs file packed heap checksum
  distinct : (xar.map (·.name)).Nodup
  named : ∀ m ∈ xar, Normalized m.name ∧ ∃ data, HasFile toc m.name data
  found : ∀ name required, (∃ bytes, xarMember xar name required = .ok (some bytes)) ↔
    ∃ data, HasFile toc name data
  stored : ∀ name required bytes, xarMember xar name required = .ok (some bytes) ↔
    ∃ data, HasFile toc name data ∧ Stored libs decode heap data bytes

theorem opened_of_collected {file packed heap : Bytes} {toc checksum : Node} {members : List XarMember}
    (hlayout : LaidOut file packed heap)
    (hparsed : ∃ tocXml root, decode 15 packed = some tocXml ∧
      libs.xmlReadMemory tocXml = some ⟨some root, false⟩ ∧ xmlIs (lit "xar") root = true ∧
      xmlChild root (lit "toc") = some toc ∧ xmlChild toc (lit "checksum") = some checksum)
    (hchecked : TocChecked libs file packed heap checksum)
    (hcollected : Collected libs decode heap (HasFile toc) members)
    (hdup : duplicate (sortMembers members) = none) :
    Opened libs decode file packed heap toc checksum (sortMembers members) := by
  have hlt := strictly_increasing (sortMembers_sorted members) hdup
  have hmem : ∀ m, m ∈ sortMembers members ↔ m ∈ members := fun m => (sortMembers_perm members).mem_iff
  refine ⟨hlayout, hparsed, hchecked, nodup_names hlt, ?_, ?_, ?_⟩
  · intro m hm
    obtain ⟨hnormal, data, hdata, -⟩ := hcollected.sound m ((hmem m).1 hm)
    exact ⟨hnormal, data, hdata⟩
  · intro name required
    constructor
    · rintro ⟨bytes, hbytes⟩
      have hm := (hmem _).1 ((xarMember_iff hlt).1 hbytes)
      obtain ⟨-, data, hdata, -⟩ := hcollected.sound _ hm
      exact ⟨data, hdata⟩
    · rintro ⟨data, hdata⟩
      obtain ⟨m, hm, rfl, -⟩ := hcollected.complete name data hdata
      exact ⟨m.data, (xarMember_iff hlt).2 ((hmem m).2 hm)⟩
  · intro name required bytes
    rw [xarMember_iff hlt, hmem]
    constructor
    · intro hm
      obtain ⟨-, hdata⟩ := hcollected.sound _ hm
      exact hdata
    · rintro ⟨data, hdata, hstored⟩
      obtain ⟨m, hm, rfl, hstored'⟩ := hcollected.complete name data hdata
      rw [hstored.unique hstored']
      exact hm

theorem safelyM_xarOpen (hzlib : libs.zlib.Decodes decode) (path file : Bytes) {total : Nat}
    (htotal : total ≤ limitDecoded) :
    SafelyM (xarOpen libs path file) total fun xar _ =>
      ∃ packed heap toc checksum, Opened libs decode file packed heap toc checksum xar := by
  apply safelyM_bind
  apply safelyM_lift
  apply safely_dieIf
  intro hshort
  apply safelyM_bind
  apply safelyM_lift
  apply safely_dieIf
  intro hlong
  apply safelyM_bind
  apply safelyM_lift
  apply safely_slice (by omega)
  apply safelyM_bind
  apply safelyM_lift
  apply safely_slice (by omega)
  apply safelyM_bind
  apply safelyM_lift
  apply safely_dieIf
  intro _
  apply safelyM_bind
  apply safelyM_lift
  apply (safely_tocAndHeap (by omega) (by omega)).mono
  rintro ⟨packed, heap⟩ hlayout
  apply safelyM_bind
  apply safelyM_lift
  apply safely_slice (by omega)
  apply safelyM_bind
  apply (safelyM_inflateLimited libs.zlib htotal).mono
  rintro tocXml total' ⟨htotal', s, hs, hproduces⟩
  apply safelyM_bind
  apply safelyM_lift
  apply (safely_xmlParse tocXml).mono
  intro root hroot
  apply safelyM_bind
  apply safelyM_lift
  apply safely_bind
  apply safely_dieIf
  intro hxar
  apply safely_pure
  split
  · exact safely_die
  · next toc htoc =>
      split
      · exact safely_die
      · next checksum hchecksum =>
          have hheader : headerNumber file 4 2 ≤ file.length := by
            obtain ⟨head, hfile, hhead, -⟩ := hlayout
            rw [← hhead, hfile]
            simp
          apply safelyM_bind
          apply safelyM_lift
          apply (safely_verifyToc (by omega) hheader).mono
          intro _ hchecked
          apply safelyM_bind
          apply (walks_walkToc hzlib heap _ toc [] [] total' Normalized.nil htotal').mono
          rintro members total'' ⟨-, new, hmembers, hcollected⟩
          dsimp only
          split
          · exact safely_die
          · next hdup =>
              apply safelyM_pure
              obtain rfl : members = new := by simpa using hmembers
              exact ⟨packed, heap, toc, checksum, opened_of_collected hlayout
                ⟨tocXml, root, hzlib 15 s packed tocXml hs hproduces, hroot, not_not.1 hxar, htoc,
                  hchecksum⟩ hchecked hcollected hdup⟩

/-- **Everything taken from a package was checksummed.** Whatever the file holds, nothing outside
of it is read and no sum wraps; and a package that is opened is what its table of contents says. -/
theorem xar_checksummed (hzlib : libs.zlib.Decodes decode) (path file : Bytes) (total : Nat)
    (htotal : total ≤ limitDecoded) :
    (xarOpen libs path file).run total ≠ .error .fault ∧
      ∀ xar total', (xarOpen libs path file).run total = .ok (xar, total') →
        ∃ packed heap toc checksum, Opened libs decode file packed heap toc checksum xar := by
  obtain ⟨hfault, hok⟩ := safelyM_xarOpen hzlib path file htotal
  exact ⟨hfault, fun xar total' h => hok (xar, total') h⟩

/-! A package with one file. -/

/-- `<name attributes>content</name>` -/
def tagged (name attributes : String) (content : Bytes) : Bytes :=
  lit "<" ++ lit name ++ lit attributes ++ lit ">" ++ content ++ lit "</" ++ lit name ++ lit ">"

/-- The digest of the member of the sample. -/
def sampleSum : Bytes := lit "6dcd4ce23d88e2ee9568" ++ lit "ba546c007c63d9131c1b"

def sampleXml : Bytes :=
  tagged "xar" "" <| tagged "toc" "" <|
    tagged "checksum" " style=\"sha1\""
      (tagged "offset" "" (lit "0") ++ tagged "size" "" (lit "20")) ++
    tagged "file" ""
      (tagged "name" "" (lit "a") ++ tagged "type" "" (lit "file") ++
        tagged "data" ""
          (tagged "offset" "" (lit "20") ++ tagged "length" "" (lit "1") ++
            tagged "size" "" (lit "1") ++
            lit "<encoding style=" ++ lit "\"application/octet-stream\"/>" ++
            tagged "archived-checksum" " style=\"sha1\"" sampleSum ++
            tagged "extracted-checksum" " style=\"sha1\"" sampleSum))

/-- The document of the text. -/
def sampleDoc : Doc :=
  let leaf (name : String) (s : String) : Node := .element (lit name) [] [.text (lit s)]
  let sha1 : List (Bytes × Bytes) := [(lit "style", lit "sha1")]
  let sum : List Node := [.text sampleSum]
  let checksum : Node := .element (lit "checksum") sha1 [leaf "offset" "0", leaf "size" "20"]
  let data : Node := .element (lit "data") [] [leaf "offset" "20", leaf "length" "1", leaf "size" "1",
    .element (lit "encoding") [(lit "style", lit "application/octet-stream")] [],
    .element (lit "archived-checksum") sha1 sum, .element (lit "extracted-checksum") sha1 sum]
  let file : Node := .element (lit "file") [] [leaf "name" "a", leaf "type" "file", data]
  ⟨some (.element (lit "xar") [] [.element (lit "toc") [] [checksum, file]]), false⟩

/-- The text as zlib stores it uncompressed. -/
def samplePacked : Bytes := [120, 1, 1, 171, 1, 84, 254] ++ sampleXml ++ [40, 100, 145, 196]

/-- A zlib that knows one stream. -/
def oneStream (packed unpacked : Bytes) : Zlib where
  Stream := Unit
  init := fun _ => some ()
  inflate := fun _ input room =>
    if input = packed ∧ unpacked.length ≤ room then ⟨.streamEnd, (), input.length, unpacked⟩
    else ⟨.error, (), 0, []⟩
  consumed_le := fun _ input room => by
    split
    · simp
    · simp
  produced_le := fun _ input room => by
    split
    · next h => exact h.2
    · simp
  progress := fun _ input room h => by
    split at h
    · cases h
    · cases h

theorem oneStream_decodes (packed unpacked : Bytes) : (oneStream packed unpacked).Decodes fun _ input =>
    if input = packed then some unpacked else none := by
  intro windowBits s input out _ hproduces
  have hcall : ∀ room, ((oneStream packed unpacked).inflate s input room).status ≠ .error →
      input = packed ∧ ((oneStream packed unpacked).inflate s input room).status = .streamEnd ∧
        ((oneStream packed unpacked).inflate s input room).produced = unpacked := by
    intro room hstatus
    by_cases hinput : input = packed ∧ unpacked.length ≤ room
    · simp [oneStream, hinput]
    · simp [oneStream, hinput] at hstatus
  generalize hrest : ([] : Bytes) = rest at hproduces
  cases hproduces with
  | done room h =>
      obtain ⟨hinput, -, hout⟩ := hcall room (by rw [h]; decide)
      rw [hout]
      exact if_pos hinput
  | more room h htail =>
      obtain ⟨-, hend, -⟩ := hcall room (by rw [h]; decide)
      rw [hend] at h
      cases h

/-- The libraries, as far as this package needs them. -/
def sampleLibs : Libs where
  zlib := oneStream samplePacked sampleXml
  evp := fun algorithm data =>
    if algorithm = .sha1 ∧ data = samplePacked then
      some [216, 191, 121, 114, 61, 226, 22, 103, 80, 161, 127, 253, 90, 88, 122, 215, 246, 166, 222, 91]
    else if algorithm = .sha1 ∧ data = [65] then
      some [109, 205, 76, 226, 61, 136, 226, 238, 149, 104, 186, 84, 108, 0, 124, 99, 217, 19, 28, 27]
    else none
  xmlReadMemory := fun b => if b = sampleXml then some sampleDoc else none

def samplePackage : Bytes :=
  [120, 97, 114, 33, 0, 28, 0, 1, 0, 0, 0, 0, 0, 0, 1, 182, 0, 0, 0, 0, 0, 0, 1, 171, 0, 0, 0, 1] ++
    samplePacked ++
    [216, 191, 121, 114, 61, 226, 22, 103, 80, 161, 127, 253, 90, 88, 122, 215, 246, 166, 222, 91] ++ [65]

theorem xar_sample :
    (xarOpen sampleLibs [] samplePackage).run 0 = .ok ([⟨[97], [65]⟩], 428) := by
  decide +kernel

theorem xar_checksummed_sample :
    (xarOpen sampleLibs [] samplePackage).run 0 = .ok ([⟨[97], [65]⟩], 428) ∧
      ∃ packed heap toc checksum,
        Opened sampleLibs (fun _ input => if input = samplePacked then some sampleXml else none)
          samplePackage packed heap toc checksum [⟨[97], [65]⟩] :=
  ⟨xar_sample, (xar_checksummed (oneStream_decodes samplePacked sampleXml) [] samplePackage 0
    (by decide)).2 _ _ xar_sample⟩

end MiniDarwin.Archive
