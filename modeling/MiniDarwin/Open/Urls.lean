import MiniDarwin.Open.Request

/-!
What `open` makes of its operands (`open.cpp`): a path that is resolved, or a
URL. A URL with the scheme `file` is the path that it encodes.
-/

namespace MiniDarwin.Open.Client

open Posix (Bytes)
open Launchd (ascii Value)

/-- What of the system an operand is looked up in. -/
structure Host where
  /-- of the bytes before the zero that ends a C string -/
  realpath : Bytes → Option Bytes
  /-- `stat () == 0` -/
  stat : Bytes → Bool
  getcwd : Except Bytes Bytes

section Source

variable (host : Host)

/-- `c_str ()`, as a function of C reads it. -/
def cStr (s : Bytes) : Bytes := s.takeWhile (· ≠ 0)

def absolute (path : Bytes) : Except Bytes Bytes :=
  if path.head? = some 47 then .ok path
  else do
    let base ← host.getcwd
    return (if base = [47] then [] else base) ++ [47] ++ path

def resolved (path : Bytes) : Option Bytes := host.realpath (cStr path)

def isalpha (c : UInt8) : Bool := 65 ≤ c ∧ c ≤ 90 ∨ 97 ≤ c ∧ c ≤ 122

def isdigit (c : UInt8) : Bool := 48 ≤ c ∧ c ≤ 57

/-- RFC 3986 scheme followed by ':'. -/
def hasScheme (value : Bytes) : Bool :=
  let scheme := value.takeWhile (· ≠ 58)
  58 ∈ value ∧ scheme.head?.any isalpha ∧
    scheme.tail.all fun c => isalpha c || isdigit c || c ∈ ascii "+-."

/-- `isxdigit ()`, and the value that `stoi ()` gives the digit. -/
def xdigit (c : UInt8) : Option UInt8 :=
  if isdigit c then some (c - 48)
  else if 65 ≤ c ∧ c ≤ 70 then some (c - 55)
  else if 97 ≤ c ∧ c ≤ 102 then some (c - 87)
  else none

def percentDecode : Bytes → Bytes
  | [] => []
  | c :: value =>
      match c, value with
      | 37, a :: b :: rest =>
          match xdigit a, xdigit b with
          | some high, some low => (16 * high + low) :: percentDecode rest
          | _, _ => 37 :: percentDecode (a :: b :: rest)
      | c, value => c :: percentDecode value

/-- What `open` says of a file that is not there. -/
def missing (path : Bytes) : Bytes :=
  match absolute host path with
  | .ok path => ascii "The file " ++ path ++ ascii " does not exist."
  | .error message => message

def fileItem (path : Bytes) : Except Bytes Value :=
  match resolved host path with
  | some real => .ok (itemValue ⟨false, real⟩)
  | none => .error (missing host path)

/-- file: URLs name local files; the daemon only ever sees their paths. `rest` is what follows
the scheme. -/
def localFile (argument rest : Bytes) : Except Bytes Value :=
  if [47, 47].isPrefixOf rest then
    let rest := rest.drop 2
    let authority := rest.takeWhile (· ≠ 47)
    if authority ≠ [] ∧ authority ≠ ascii "localhost" then
      .error (ascii "open: " ++ argument ++ ascii ": remote file URLs are not supported")
    else fileItem host (percentDecode (if 47 ∈ rest then rest.drop authority.length else [47]))
  else fileItem host (percentDecode rest)

/-- An existing path wins over URL syntax unless -u says otherwise. -/
def item (argument : Bytes) (forceURL : Bool) : Except Bytes Value :=
  if !forceURL && host.stat (cStr argument) then fileItem host argument
  else if forceURL || hasScheme argument then
    if lower (argument.take 5) = ascii "file:" then localFile host argument (argument.drop 5)
    else if hasScheme argument then .ok (itemValue ⟨true, argument⟩)
    else .error (ascii "open: " ++ argument ++ ascii " is not a URL")
  else .error (missing host argument)

end Source

/-! ### Encodings -/

/-- A hexadecimal digit of either case. -/
def Hex (v : Nat) (d : UInt8) : Prop :=
  (ascii "0123456789abcdef")[v]? = some d ∨ (ascii "0123456789ABCDEF")[v]? = some d

/-- The percent-encodings of bytes: any of them may be escaped, and `%` has to be. -/
inductive Encodes : Bytes → Bytes → Prop where
  | nil : Encodes [] []
  | raw {c : UInt8} {p e : Bytes} (hc : c ≠ 37) (h : Encodes p e) : Encodes (c :: p) (c :: e)
  | escaped {c high low : UInt8} {a b : Nat} {p e : Bytes} (hhigh : Hex a high) (hlow : Hex b low)
      (hc : c.toNat = 16 * a + b) (h : Encodes p e) : Encodes (c :: p) (37 :: high :: low :: e)

/-- What a path leads to: nothing has a zero in its path. -/
def resolution (host : Host) (path : Bytes) : Option Bytes := if 0 ∈ path then none else host.realpath path

variable {host : Host} {p e : Bytes}

theorem xdigit_hex {v : Nat} {d : UInt8} (h : Hex v d) : v < 16 ∧ xdigit d = some (UInt8.ofNat v) := by
  have hall : ∀ v < 16, xdigit (((ascii "0123456789abcdef")[v]?).getD 0) = some (UInt8.ofNat v) ∧
      xdigit (((ascii "0123456789ABCDEF")[v]?).getD 0) = some (UInt8.ofNat v) := by decide
  rcases h with h | h
  · have hv : v < 16 := (List.getElem?_eq_some_iff.1 h).1
    have hvalue := (hall v hv).1
    rw [h] at hvalue
    exact ⟨hv, hvalue⟩
  · have hv : v < 16 := (List.getElem?_eq_some_iff.1 h).1
    have hvalue := (hall v hv).2
    rw [h] at hvalue
    exact ⟨hv, hvalue⟩

theorem percentDecode_raw {c : UInt8} (hc : c ≠ 37) (value : Bytes) :
    percentDecode (c :: value) = c :: percentDecode value := by
  rw [percentDecode]
  intro a b rest h
  exact absurd h hc

theorem percentDecode_escaped {high low h l : UInt8} (hhigh : xdigit high = some h) (hlow : xdigit low = some l)
    (rest : Bytes) : percentDecode (37 :: high :: low :: rest) = (16 * h + l) :: percentDecode rest := by
  rw [percentDecode, hhigh, hlow]

theorem percentDecode_encodes (h : Encodes p e) : percentDecode e = p := by
  induction h with
  | nil => rfl
  | raw hc _ ih => rw [percentDecode_raw hc, ih]
  | escaped hhigh hlow hc _ ih =>
      obtain ⟨ha, hhigh⟩ := xdigit_hex hhigh
      obtain ⟨hb, hlow⟩ := xdigit_hex hlow
      rw [percentDecode_escaped hhigh hlow, ih]
      congr 1
      rw [← UInt8.toNat_inj]
      simp
      omega

/-- The first byte of an encoding of an absolute path. -/
theorem Encodes.head (h : Encodes p e) (hp : p.head? = some 47) : e.head? = some 47 ∨ e.head? = some 37 := by
  cases h with
  | nil => cases hp
  | raw _ _ => exact .inl hp
  | escaped _ _ _ _ => exact .inr rfl

/-- Slashes that are not escaped are the path's own. -/
theorem Encodes.slashes (h : Encodes p e) (he : [47, 47] <+: e) : [47, 47] <+: p := by
  obtain ⟨rest, rfl⟩ := he
  cases h with
  | raw _ h =>
      cases h with
      | raw _ _ => exact ⟨_, rfl⟩

/-! ### URLs of files -/

/-- A host that is named before the path. -/
theorem localFile_host {name : Bytes} (hslash : 47 ∉ name) (hname : name = [] ∨ name = ascii "localhost")
    (he : e.head? = some 47 ∨ e.head? = some 37) (argument : Bytes) :
    localFile host argument (47 :: 47 :: (name ++ e)) =
      if e.head? = some 37 then
        .error (ascii "open: " ++ argument ++ ascii ": remote file URLs are not supported")
      else fileItem host (percentDecode e) := by
  have htake : (name ++ e).takeWhile (· ≠ 47) = name ++ e.takeWhile (· ≠ 47) := by
    apply List.takeWhile_append_of_pos
    intro c hc
    rw [decide_eq_true_iff]
    rintro rfl
    exact hslash hc
  have hprefix : [47, 47].isPrefixOf (47 :: 47 :: (name ++ e)) = true := rfl
  have hdrop : (47 :: 47 :: (name ++ e)).drop 2 = name ++ e := rfl
  unfold localFile
  rw [if_pos hprefix, hdrop]
  dsimp only
  rw [htake]
  obtain ⟨c, e, rfl⟩ : ∃ c e', e = c :: e' := by
    cases e with
    | nil => simp at he
    | cons c e => exact ⟨c, e, rfl⟩
  simp only [List.head?_cons, Option.some.injEq] at he ⊢
  rcases he with rfl | rfl
  · have hstop : List.takeWhile (· ≠ (47 : UInt8)) (47 :: e) = [] := rfl
    have hmem : (47 : UInt8) ∈ name ++ 47 :: e := List.mem_append_right _ List.mem_cons_self
    have hlocal : ¬ (name ≠ [] ∧ name ≠ ascii "localhost") := by tauto
    simp only [hstop, List.append_nil]
    have hpercent : (47 : UInt8) ≠ 37 := by decide
    rw [if_neg hlocal, if_pos hmem, if_neg hpercent, List.drop_left]
  · have hstop : List.takeWhile (· ≠ (47 : UInt8)) (37 :: e) = 37 :: e.takeWhile (· ≠ 47) := rfl
    have hother : name ++ List.takeWhile (· ≠ (47 : UInt8)) (37 :: e) ≠ [] ∧
        name ++ List.takeWhile (· ≠ (47 : UInt8)) (37 :: e) ≠ ascii "localhost" := by
      rw [hstop]
      refine ⟨by simp, ?_⟩
      intro h
      have hpercent : (37 : UInt8) ∈ ascii "localhost" := by
        rw [← h]
        exact List.mem_append_right _ List.mem_cons_self
      exact absurd hpercent (by decide)
    rw [if_pos hother, if_pos rfl]

/-- Where a path has been escaped from its first byte on, it is taken for the name of a host. -/
theorem localFile_encodes (he : Encodes p e) (hp : p.head? = some 47) (hslashes : ¬ [47, 47] <+: p)
    {authority : Bytes} (ha : authority ∈ [[], ascii "//", ascii "//localhost"]) (argument : Bytes) :
    localFile host argument (authority ++ e) =
      if authority ≠ [] ∧ e.head? = some 37 then
        .error (ascii "open: " ++ argument ++ ascii ": remote file URLs are not supported")
      else fileItem host p := by
  have hdecode := percentDecode_encodes he
  have hhead := he.head hp
  simp only [List.mem_cons, List.not_mem_nil, or_false] at ha
  rcases ha with rfl | rfl | rfl
  · have hplain : ¬ [47, 47].isPrefixOf e = true := by
      rw [List.isPrefixOf_iff_prefix]
      exact fun h => hslashes (he.slashes h)
    unfold localFile
    rw [List.nil_append, if_neg hplain, hdecode, if_neg (by simp)]
  · have hhost : ascii "//" ++ e = 47 :: 47 :: ([] ++ e) := rfl
    rw [hhost, localFile_host (by simp) (.inl rfl) hhead, hdecode]
    simp only [show ascii "//" ≠ [] by decide, ne_eq, not_false_eq_true, true_and]
  · have hhost : ascii "//localhost" ++ e = 47 :: 47 :: (ascii "localhost" ++ e) := rfl
    rw [hhost, localFile_host (by decide) (.inr rfl) hhead, hdecode]
    simp only [show ascii "//localhost" ≠ [] by decide, ne_eq, not_false_eq_true, true_and]

/-- What a URL of a file comes to. -/
theorem item_fileUrl (he : Encodes p e) (hp : p.head? = some 47) (hslashes : ¬ [47, 47] <+: p)
    {scheme authority : Bytes} (hs : lower scheme = ascii "file")
    (ha : authority ∈ [[], ascii "//", ascii "//localhost"]) :
    item host (scheme ++ ascii ":" ++ authority ++ e) true =
      if authority ≠ [] ∧ e.head? = some 37 then
        .error (ascii "open: " ++ (scheme ++ ascii ":" ++ authority ++ e) ++
          ascii ": remote file URLs are not supported")
      else fileItem host p := by
  have hlen : (scheme ++ ascii ":").length = 5 := by
    have h := congrArg List.length hs
    rw [lower, List.length_map] at h
    rw [List.length_append, h]
    rfl
  have htake : (scheme ++ ascii ":" ++ authority ++ e).take 5 = scheme ++ ascii ":" := by
    rw [List.append_assoc _ authority, ← hlen, List.take_left]
  have hdrop : (scheme ++ ascii ":" ++ authority ++ e).drop 5 = authority ++ e := by
    rw [List.append_assoc _ authority, ← hlen, List.drop_left]
  have hlower : lower (scheme ++ ascii ":") = ascii "file:" := by
    rw [lower, List.map_append]
    exact congrArg (· ++ ascii ":") hs
  unfold item
  rw [htake, hdrop, if_neg (by simp), if_pos (by simp), if_pos hlower, localFile_encodes he hp hslashes ha]

/-- **URLs of files** name the files that they encode, but for a zero byte: what comes after one is
not looked at. -/
theorem fileUrl_named_iff (host : Host) {p e scheme authority : Bytes} (hp : p.head? = some 47)
    (hslashes : ¬ [47, 47] <+: p) (he : Encodes p e) (hs : lower scheme = ascii "file")
    (ha : authority ∈ [[], ascii "//", ascii "//localhost"]) :
    ((∃ message, item host (scheme ++ ascii ":" ++ authority ++ e) true = .error message) ∨
      ∃ real, resolution host p = some real ∧
        item host (scheme ++ ascii ":" ++ authority ++ e) true = .ok (itemValue ⟨false, real⟩)) ↔
      (0 ∉ p ∨ authority ≠ [] ∧ e.head? = some 37 ∨ host.realpath (p.takeWhile (· ≠ 0)) = none) := by
  rw [item_fileUrl he hp hslashes hs ha]
  by_cases hremote : authority ≠ [] ∧ e.head? = some 37
  · rw [if_pos hremote]
    exact iff_of_true (.inl ⟨_, rfl⟩) (.inr (.inl hremote))
  · rw [if_neg hremote]
    cases hreal : host.realpath (p.takeWhile (· ≠ 0)) with
    | none =>
        have hitem : fileItem host p = .error (missing host p) := by
          simp only [fileItem, resolved, cStr, hreal]
        exact iff_of_true (.inl ⟨_, hitem⟩) (.inr (.inr rfl))
    | some real =>
        have hitem : fileItem host p = .ok (itemValue ⟨false, real⟩) := by
          simp only [fileItem, resolved, cStr, hreal]
        rw [hitem]
        by_cases hzero : 0 ∈ p
        · refine iff_of_false ?_ (by simp [hzero, hremote])
          rintro (⟨message, h⟩ | ⟨real', h, -⟩)
          · cases h
          · simp [resolution, hzero] at h
        · refine iff_of_true (.inr ⟨real, ?_, rfl⟩) (.inl hzero)
          have hwhole : p.takeWhile (· ≠ 0) = p := by
            rw [List.takeWhile_eq_self_iff]
            intro c hc
            rw [decide_eq_true_iff]
            rintro rfl
            exact hzero hc
          rw [resolution, if_neg hzero, ← hwhole, hreal]

/-- A host with one file. -/
def withFile (path : Bytes) : Host := ⟨fun p => if p = path then some path else none, fun p => p = path, .ok [47]⟩

theorem fileUrl_named_iff_blank :
    ((∃ message, item (withFile (ascii "/a b")) (ascii "File" ++ ascii ":" ++ ascii "//" ++ ascii "/a%20b") true =
        .error message) ∨
      ∃ real, resolution (withFile (ascii "/a b")) (ascii "/a b") = some real ∧
        item (withFile (ascii "/a b")) (ascii "File" ++ ascii ":" ++ ascii "//" ++ ascii "/a%20b") true =
          .ok (itemValue ⟨false, real⟩)) ↔
      (0 ∉ ascii "/a b" ∨ ascii "//" ≠ [] ∧ (ascii "/a%20b").head? = some 37 ∨
        (withFile (ascii "/a b")).realpath ((ascii "/a b").takeWhile (· ≠ 0)) = none) :=
  fileUrl_named_iff _ rfl (by decide)
    (.raw (by decide) (.raw (by decide) (.escaped (a := 2) (b := 0) (.inl rfl) (.inl rfl) rfl (.raw (by decide) .nil))))
    (by decide) (by decide)

/-- `/a`, a zero, and `b`. -/
def zeroPath : Bytes := [47, 97, 0, 98]

theorem fileUrl_zero : Encodes zeroPath (ascii "/a%00b") ∧
    ¬ ((∃ message, item (withFile (ascii "/a")) (ascii "file" ++ ascii ":" ++ ascii "//" ++ ascii "/a%00b") true =
        .error message) ∨
      ∃ real, resolution (withFile (ascii "/a")) zeroPath = some real ∧
        item (withFile (ascii "/a")) (ascii "file" ++ ascii ":" ++ ascii "//" ++ ascii "/a%00b") true =
          .ok (itemValue ⟨false, real⟩)) := by
  refine ⟨.raw (by decide) (.raw (by decide) (.escaped (a := 0) (b := 0) (.inl rfl) (.inl rfl) rfl
    (.raw (by decide) .nil))), ?_⟩
  have hitem : item (withFile (ascii "/a")) (ascii "file" ++ ascii ":" ++ ascii "//" ++ ascii "/a%00b") true =
      .ok (itemValue ⟨false, ascii "/a"⟩) := by rfl
  rw [hitem]
  rintro (⟨message, h⟩ | ⟨real, h, -⟩)
  · cases h
  · have hnone : resolution (withFile (ascii "/a")) zeroPath = none := rfl
    rw [hnone] at h
    cases h

end MiniDarwin.Open.Client
