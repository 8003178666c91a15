import MiniDarwin.Launchd.Database

/-!
What is written as a property list, read again.

The XML below a property list is the business of libxml2. `readDocument` is
what XML 1.0 says of the documents that `writePlist ()` writes, and of no
others: elements with short names, the five predefined entities, ends of
lines. `Conforms` assumes that libxml2 reads these documents so.
-/

namespace MiniDarwin.Launchd

open Posix (Bytes)

/-! ### XML -/

/-- Ends of lines (XML 1.0, 2.11): a carriage return becomes a line feed, and
disappears before one. -/
def normalize : Bytes → Bytes
  | [] => []
  | c :: s =>
      if c = 13 then (if s.head? = some 10 then normalize s else 10 :: normalize s)
      else c :: normalize s

/-- The predefined entities (4.6). -/
def entity (name : Bytes) : Option UInt8 :=
  if name = ascii "amp" then some 38
  else if name = ascii "lt" then some 60
  else if name = ascii "gt" then some 62
  else if name = ascii "quot" then some 34
  else if name = ascii "apos" then some 39
  else none

/-- Character data, with the name of an entity as far as it has been read. -/
def expand : Option Bytes → Bytes → Option Bytes
  | none, [] => some []
  | some _, [] => none
  | none, c :: s =>
      if c = 38 then expand (some []) s
      else if c = 62 then none
      else (c :: ·) <$> expand none s
  | some name, c :: s =>
      if c = 59 then (entity name).bind fun e => (e :: ·) <$> expand none s
      else expand (some (name ++ [c])) s

inductive Token where
  | start (tag : Tag)
  | stop (name : Bytes)
  | empty (name : Bytes)
  | text (content : Bytes)

/-- The names that are read. -/
def isName (name : Bytes) : Bool := name ≠ [] ∧ name.all fun c => 97 ≤ c ∧ c ≤ 122

def plistTag : Tag := ⟨ascii "plist", [⟨ascii "version", false, some (ascii "1.0")⟩], false, false⟩

/-- What stands between `<` and `>`. -/
def markup (s : Bytes) : Option Token :=
  if s = ascii "plist version=\"1.0\"" then some (.start plistTag)
  else if s.head? = some 47 ∧ isName s.tail then some (.stop s.tail)
  else if s.getLast? = some 47 ∧ isName s.dropLast then some (.empty s.dropLast)
  else if isName s then some (.start (.plain s))
  else none

def tokens (s : Bytes) : Option (List Token) :=
  match s with
  | [] => some []
  | c :: r =>
      if c = 60 then do
        let tag := r.takeWhile (· ≠ 62)
        let token ← markup tag
        return token :: (← tokens (r.drop (tag.length + 1)))
      else do
        let raw := r.takeWhile (· ≠ 60)
        let content ← expand none (c :: raw)
        return .text content :: (← tokens (r.drop raw.length))
termination_by s.length

/-- The tree of a list of tokens: the elements that are open, with what stands before
them, and the children so far, the latest first. -/
def build : List Token → List (Tag × List Xml) → List Xml → Option (List Xml)
  | [], [], children => some children.reverse
  | .start tag :: ts, stack, children =>
      if stack.length < 256 then build ts ((tag, children) :: stack) [] else none
  | .stop name :: ts, (tag, before) :: stack, children =>
      if tag.name = name then build ts stack (.element tag children.reverse :: before) else none
  | .empty name :: ts, stack, children => build ts stack (.element (.plain name) [] :: children)
  | .text content :: ts, stack, children => build ts stack (.text content :: children)
  | _, _, _ => none

def xmlDecl : Bytes := ascii "<?xml version=\"1.0\" encoding=\"UTF-8\"?>"

/-- The document of a text. -/
def readDocument (bytes : Bytes) : Option Doc :=
  let bytes := normalize bytes
  if xmlDecl <+: bytes then do
    match ← build (← tokens (bytes.drop xmlDecl.length)) [] [] with
    | [.element tag children] => return { root := some (tag, children), intSubset := false }
    | _ => none
  else none

/-- The characters of XML (2.2). -/
def XmlChar (c : Char) : Prop :=
  c = '\t' ∨ c = '\n' ∨ c = '\r' ∨ 32 ≤ c.toNat ∧ c.toNat ≠ 0xfffe ∧ c.toNat ≠ 0xffff

/-- UTF-8 for characters of XML. -/
def XmlText (s : Bytes) : Prop :=
  ∃ cs : List Char, (∀ c ∈ cs, XmlChar c) ∧ s = cs.flatMap String.utf8EncodeChar

/-- **What is assumed of libxml2.** -/
def Conforms (xmlReadMemory : Bytes → Option Doc) : Prop :=
  ∀ bytes doc, bytes.length ≤ maxMessage → XmlText bytes → readDocument bytes = some doc →
    xmlReadMemory bytes = some doc

/-! ### Values -/

theorem sizeOf_item {items : List Value} {x : Value} (h : x ∈ items) :
    sizeOf x < sizeOf (Value.array items) := by
  have := List.sizeOf_lt_of_mem h
  simp only [Value.array.sizeOf_spec]
  omega

theorem sizeOf_entry {entries : List (Bytes × Value)} {e : Bytes × Value} (h : e ∈ entries) :
    sizeOf e.2 < sizeOf (Value.dict entries) := by
  have hmem := List.sizeOf_lt_of_mem h
  have hpair : sizeOf e = 1 + sizeOf e.1 + sizeOf e.2 := rfl
  simp only [Value.dict.sizeOf_spec]
  omega

/-- The induction over values. -/
theorem Value.ind {P : Value → Prop} (string : ∀ s, P (.string s)) (integer : ∀ n, P (.integer n))
    (boolean : ∀ b, P (.boolean b))
    (array : ∀ items : List Value, (∀ x ∈ items, P x) → P (.array items))
    (dict : ∀ entries : List (Bytes × Value), (∀ e ∈ entries, P e.2) → P (.dict entries))
    (v : Value) : P v :=
  match v with
  | .string s => string s
  | .integer n => integer n
  | .boolean b => boolean b
  | .array items => array items fun x _hx => Value.ind string integer boolean array dict x
  | .dict entries => dict entries fun e _he => Value.ind string integer boolean array dict e.2
termination_by sizeOf v
decreasing_by
  · exact sizeOf_item _hx
  · exact sizeOf_entry _he

namespace Value

/-- How many values there are. -/
def count : Value → Nat
  | .array items => 1 + (items.map count).sum
  | .dict entries => 1 + (entries.map fun e => e.2.count).sum
  | _ => 1
decreasing_by
  · exact sizeOf_item (by assumption)
  · exact sizeOf_entry (by assumption)

/-- All strings and keys. -/
def texts : Value → List Bytes
  | .string s => [s]
  | .array items => items.flatMap texts
  | .dict entries => entries.flatMap fun e => e.1 :: e.2.texts
  | _ => []
decreasing_by
  · exact sizeOf_item (by assumption)
  · exact sizeOf_entry (by assumption)

/-- Nothing is nested deeper. -/
def within : Nat → Value → Bool
  | 0, .array items => items.isEmpty
  | n + 1, .array items => items.all (within n)
  | 0, .dict entries => entries.isEmpty
  | n + 1, .dict entries => entries.all fun e => within n e.2
  | _, _ => true

/-- A dictionary is a `std::map`, in the order of its keys. -/
inductive Ordered : Value → Prop where
  | string (s : Bytes) : Ordered (.string s)
  | integer (n : Int64) : Ordered (.integer n)
  | boolean (b : Bool) : Ordered (.boolean b)
  | array (items : List Value) (h : ∀ x ∈ items, Ordered x) : Ordered (.array items)
  | dict (entries : List (Bytes × Value))
      (hkeys : (entries.map (·.1)).Pairwise fun a b => compare a b = .lt)
      (h : ∀ e ∈ entries, Ordered e.2) : Ordered (.dict entries)

/-- With the ends of lines as XML has them. -/
def normalized : Value → Value
  | .string s => .string (normalize s)
  | .array items => .array (items.map normalized)
  | .dict entries => .dict (entries.map fun e => (normalize e.1, e.2.normalized))
  | v => v
decreasing_by
  · exact sizeOf_item (by assumption)
  · exact sizeOf_entry (by assumption)

end Value

/-! ### Texts, tokens and trees of values -/

def escapeChar (c : UInt8) : Bytes :=
  if c = 38 then ascii "&amp;" else if c = 60 then ascii "&lt;" else if c = 62 then ascii "&gt;"
  else [c]

def escapeText (s : Bytes) : Bytes := s.flatMap escapeChar

/-- `<name>` and `</name>` around a text. -/
def enclosed (name content : Bytes) : Bytes :=
  60 :: name ++ 62 :: content ++ 60 :: 47 :: name ++ [62]

def valueText : Value → Bytes
  | .string s => enclosed (ascii "string") (escapeText s)
  | .integer n => enclosed (ascii "integer") (decimal n.toInt)
  | .boolean b => if b then ascii "<true/>" else ascii "<false/>"
  | .array items => enclosed (ascii "array") (items.flatMap valueText)
  | .dict entries => enclosed (ascii "dict")
      (entries.flatMap fun e => enclosed (ascii "key") (escapeText e.1) ++ valueText e.2)
decreasing_by
  · exact sizeOf_item (by assumption)
  · exact sizeOf_entry (by assumption)

def node (x : Tag × List Xml) : Xml := .element x.1 x.2

def textXml (s : Bytes) : List Xml := if s = [] then [] else [.text s]

def valueTree : Value → Tag × List Xml
  | .string s => (.plain (ascii "string"), textXml s)
  | .integer n => (.plain (ascii "integer"), textXml (decimal n.toInt))
  | .boolean b => (.plain (if b then ascii "true" else ascii "false"), [])
  | .array items => (.plain (ascii "array"), (items.map valueTree).map node)
  | .dict entries => (.plain (ascii "dict"),
      (entries.flatMap fun e => [(.plain (ascii "key"), textXml e.1), valueTree e.2]).map node)
decreasing_by
  · exact sizeOf_item (by assumption)
  · exact sizeOf_entry (by assumption)

/-- `escape ()` writes nothing else. -/
theorem escape_eq {s t : Bytes} (h : escape s = .ok t) : t = escapeText s := by
  induction s generalizing t with
  | nil =>
      cases h
      rfl
  | cons c s ih =>
      have hcons : ∀ c', (do return c' ++ (← escape s)) = Except.ok t → t = c' ++ escapeText s := by
        intro c' h
        obtain ⟨t', ht, h⟩ := bind_eq_ok h
        cases h
        rw [ih ht]
      rw [escapeText, List.flatMap_cons, escapeChar, ← escapeText]
      rw [escape] at h
      split_ifs at h ⊢
      · exact hcons _ h
      · exact hcons _ h
      · exact hcons _ h
      · cases h
      · exact hcons _ h

theorem limited_eq {s t : Bytes} (h : limited s = .ok t) : t = s := by
  unfold limited at h
  split at h
  · cases h
  · cases h
    rfl

theorem encodeItems_eq {items : List Value} {t : Bytes}
    (ih : ∀ x ∈ items, ∀ t, encode x = .ok t → t = valueText x) (h : encodeItems items = .ok t) :
    t = items.flatMap valueText := by
  induction items generalizing t with
  | nil =>
      rw [encodeItems] at h
      cases h
      rfl
  | cons item items ihi =>
      rw [encodeItems] at h
      obtain ⟨t₁, h₁, h⟩ := bind_eq_ok h
      obtain ⟨t₂, h₂, h⟩ := bind_eq_ok h
      cases h
      rw [ih item (.head _) t₁ h₁, ihi (fun x hx => ih x (.tail _ hx)) h₂, List.flatMap_cons]

def entryOf (e : Bytes × Value) : Bytes := enclosed (ascii "key") (escapeText e.1) ++ valueText e.2

theorem valueText_dict (entries : List (Bytes × Value)) :
    valueText (.dict entries) = enclosed (ascii "dict") (entries.flatMap entryOf) := by
  rw [valueText]
  rfl

theorem encodeEntries_eq {entries : List (Bytes × Value)} {t : Bytes}
    (ih : ∀ e ∈ entries, ∀ t, encode e.2 = .ok t → t = valueText e.2)
    (h : encodeEntries entries = .ok t) : t = entries.flatMap entryOf := by
  induction entries generalizing t with
  | nil =>
      rw [encodeEntries] at h
      cases h
      rfl
  | cons e entries ihe =>
      rw [encodeEntries] at h
      obtain ⟨t₁, h₁, h⟩ := bind_eq_ok h
      obtain ⟨t₂, h₂, h⟩ := bind_eq_ok h
      obtain ⟨t₃, h₃, h⟩ := bind_eq_ok h
      cases h
      rw [escape_eq h₁, ih e (.head _) t₂ h₂, ihe (fun x hx => ih x (.tail _ hx)) h₃,
        List.flatMap_cons]
      simp [entryOf, enclosed, ascii]

/-- `encode ()` writes the text of the value, where it does not throw. -/
theorem encode_eq (v : Value) : ∀ t, encode v = .ok t → t = valueText v := by
  induction v using Value.ind with
  | string s =>
      intro t h
      rw [encode] at h
      obtain ⟨t', ht, h⟩ := bind_eq_ok h
      cases h
      rw [valueText, escape_eq ht]
      simp [enclosed, ascii]
  | integer n =>
      intro t h
      rw [encode] at h
      cases h
      rw [valueText]
      simp [enclosed, ascii]
  | boolean b =>
      intro t h
      rw [encode] at h
      cases h
      rw [valueText]
  | array items ih =>
      intro t h
      rw [encode] at h
      obtain ⟨t', ht, h⟩ := bind_eq_ok h
      rw [limited_eq h, valueText, encodeItems_eq ih ht]
      simp [enclosed, ascii]
  | dict entries ih =>
      intro t h
      rw [encode] at h
      obtain ⟨t', ht, h⟩ := bind_eq_ok h
      rw [limited_eq h, valueText_dict, encodeEntries_eq ih ht]
      simp [enclosed, ascii]

/-! ### Ends of lines -/

/-- `b` is what is left of `a`, wherever it stands. -/
def Normal (a b : Bytes) : Prop := ∀ r, normalize (a ++ r) = b ++ normalize r

theorem Normal.append {a a' b b' : Bytes} (h : Normal a b) (h' : Normal a' b') :
    Normal (a ++ a') (b ++ b') := by
  intro r
  rw [List.append_assoc, h, h', List.append_assoc]

theorem Normal.flatMap {α : Type} {l : List α} {f g : α → Bytes} (h : ∀ x ∈ l, Normal (f x) (g x)) :
    Normal (l.flatMap f) (l.flatMap g) := by
  induction l with
  | nil => exact fun r => rfl
  | cons x l ih =>
      simp only [List.flatMap_cons]
      exact (h x (.head _)).append (ih fun y hy => h y (.tail _ hy))

theorem Normal.self {a : Bytes} (h : 13 ∉ a) : Normal a a := by
  intro r
  induction a with
  | nil => rfl
  | cons c a ih =>
      have hc : c ≠ 13 := fun hc => h (hc ▸ .head _)
      rw [List.cons_append, normalize, if_neg hc, ih fun hm => h (.tail _ hm), List.cons_append]

theorem normalize_self {a : Bytes} (h : 13 ∉ a) : normalize a = a := by
  have := Normal.self h []
  rwa [List.append_nil, normalize, List.append_nil] at this

theorem cr_not_mem_normalize (a : Bytes) : 13 ∉ normalize a := by
  induction a with
  | nil => exact List.not_mem_nil
  | cons c a ih =>
      unfold normalize
      split_ifs with h h'
      · exact ih
      · exact List.not_mem_cons_of_ne_of_not_mem (by decide) ih
      · exact List.not_mem_cons_of_ne_of_not_mem (Ne.symm h) ih

/-- A text that markup follows. -/
theorem normalize_escapeText (s r : Bytes) :
    normalize (escapeText s ++ 60 :: r) = escapeText (normalize s) ++ normalize (60 :: r) := by
  induction s with
  | nil => rfl
  | cons c s ih =>
      have hhead : (escapeText s ++ 60 :: r).head? = some 10 ↔ s.head? = some 10 := by
        cases s with
        | nil => simp [escapeText]
        | cons d s =>
            simp only [escapeText, List.flatMap_cons, escapeChar]
            split_ifs with h₁ h₂ h₃
            · simp [h₁, ascii]
            · simp [h₂, ascii]
            · simp [h₃, ascii]
            · simp
      by_cases hc : c = 13
      · subst hc
        have hescape : escapeText (13 :: s) = 13 :: escapeText s := rfl
        rw [hescape, List.cons_append, normalize, if_pos rfl, normalize, if_pos rfl, ih]
        simp only [hhead]
        split
        · rfl
        · rfl
      · have hself : Normal (escapeChar c) (escapeChar c) := by
          apply Normal.self
          unfold escapeChar
          split_ifs
          · decide
          · decide
          · decide
          · simpa using Ne.symm hc
        rw [normalize, if_neg hc, escapeText, List.flatMap_cons, List.append_assoc, hself, ← escapeText,
          ih, escapeText, escapeText, List.flatMap_cons, List.append_assoc]

/-- An element is its start, its content and its end. -/
theorem enclosed_eq (name content : Bytes) :
    enclosed name content = (60 :: name ++ [62]) ++ (content ++ (60 :: 47 :: name ++ [62])) := by
  simp [enclosed]

theorem Normal.leaf {name : Bytes} (h : 13 ∉ name) (s : Bytes) :
    Normal (enclosed name (escapeText s)) (enclosed name (escapeText (normalize s))) := by
  have hopen : Normal (60 :: name ++ [62]) (60 :: name ++ [62]) := by
    apply Normal.self
    simpa using h
  have hclose : Normal (60 :: 47 :: name ++ [62]) (60 :: 47 :: name ++ [62]) := by
    apply Normal.self
    simpa using h
  rw [enclosed_eq, enclosed_eq]
  apply hopen.append
  intro r
  rw [List.append_assoc (escapeText (normalize s)), ← hclose, List.append_assoc (escapeText s)]
  exact normalize_escapeText s _

theorem Normal.enclosed {name a b : Bytes} (h : 13 ∉ name) (hab : Normal a b) :
    Normal (enclosed name a) (Launchd.enclosed name b) := by
  have hopen : Normal (60 :: name ++ [62]) (60 :: name ++ [62]) := by
    apply Normal.self
    simpa using h
  have hclose : Normal (60 :: 47 :: name ++ [62]) (60 :: 47 :: name ++ [62]) := by
    apply Normal.self
    simpa using h
  rw [enclosed_eq, enclosed_eq]
  exact hopen.append (hab.append hclose)

/-- The characters of numbers. -/
theorem decimal_range (n : Int) : ∀ c ∈ decimal n, 45 ≤ c ∧ c < 58 := by
  intro c hc
  unfold decimal at hc
  rw [List.mem_append] at hc
  obtain hc | hc := hc
  · split at hc
    · rw [List.mem_singleton.1 hc]
      decide
    · cases hc
  · split at hc
    · rw [List.mem_singleton.1 hc]
      decide
    · obtain ⟨d, hd, rfl⟩ := List.mem_map.1 hc
      have h10 : d < 10 := Nat.digits_lt_base (by omega) (List.mem_reverse.1 hd)
      interval_cases d
      all_goals decide

theorem cr_not_mem_decimal (n : Int) : 13 ∉ decimal n :=
  fun h => absurd (decimal_range n 13 h).1 (by decide)

/-- **The ends of lines in the text of a value** are those in its strings and keys. -/
theorem normal_value (v : Value) : Normal (valueText v) (valueText v.normalized) := by
  induction v using Value.ind with
  | string s =>
      rw [Value.normalized, valueText, valueText]
      exact Normal.leaf (by decide) s
  | integer n =>
      rw [Value.normalized, valueText]
      · exact Normal.enclosed (by decide) (Normal.self (cr_not_mem_decimal _))
      all_goals simp
  | boolean b =>
      rw [Value.normalized, valueText]
      · apply Normal.self
        cases b
        · decide
        · decide
      all_goals simp
  | array items ih =>
      rw [Value.normalized, valueText, valueText, List.flatMap_map]
      exact Normal.enclosed (by decide) (Normal.flatMap ih)
  | dict entries ih =>
      rw [Value.normalized, valueText_dict, valueText_dict, List.flatMap_map]
      apply Normal.enclosed (by decide)
      apply Normal.flatMap
      intro e he
      exact (Normal.leaf (by decide) e.1).append (ih e he)

end MiniDarwin.Launchd
