import MiniDarwin.Posix.Rules

/-!
Property lists (`common.cpp`), which launchd reads its jobs and requests
from and writes its replies and its overrides in.

A `std::string` is a list of bytes, a `std::map` is Lean's ordered map. The
XML below a property list is the business of libxml2, which is not part of
the repository: `xmlReadMemory` is a parameter, and `Xml` is the tree it
hands over, as far as `parse` looks at it. A C++ exception is an error of
`Except`, which carries the text of the message.
-/

namespace MiniDarwin.Launchd

open Posix (Bytes)

/-- A string literal of the program. -/
def ascii (s : String) : Bytes := s.toList.map fun c => UInt8.ofNat c.toNat

instance : LawfulBEq Bytes := inferInstance

/-- `std::map` -/
abbrev Map (κ β : Type) [Ord κ] := Std.ExtTreeMap κ β

/-- What a C++ function returns or throws. -/
abbrev Result := Except Bytes

/-- `if (p) throw Error (message)` -/
def throwIf (p : Prop) [Decidable p] (message : Bytes) : Result Unit :=
  if p then .error message else .ok ()

def maxMessage : Nat := 1024 * 1024

/-! ### Values -/

/-- `struct Value`. A dictionary is listed in the order of its keys. -/
inductive Value where
  | string (s : Bytes)
  | integer (n : Int64)
  | boolean (b : Bool)
  | array (items : List Value)
  | dict (entries : List (Bytes × Value))

/-- `Value (std::move (dict))` -/
def Value.ofMap (m : Map Bytes Value) : Value := .dict m.toList

def wrongType {α : Type} : Result α := .error (ascii "incorrect plist value type")

/-- `as<std::string> ()` -/
def Value.asString : Value → Result Bytes
  | .string s => .ok s
  | _ => wrongType

/-- `as<std::int64_t> ()` -/
def Value.asInteger : Value → Result Int64
  | .integer n => .ok n
  | _ => wrongType

/-- `as<bool> ()` -/
def Value.asBoolean : Value → Result Bool
  | .boolean b => .ok b
  | _ => wrongType

/-- `as<Value::Array> ()` -/
def Value.asArray : Value → Result (List Value)
  | .array items => .ok items
  | _ => wrongType

/-- `as<Value::Dict> ()` -/
def Value.asDict : Value → Result (List (Bytes × Value))
  | .dict entries => .ok entries
  | _ => wrongType

def required (dict : List (Bytes × Value)) (key : Bytes) : Result Value :=
  match dict.lookup key with
  | some v => .ok v
  | none => .error (ascii "missing field: " ++ key)

def stringField (dict : List (Bytes × Value)) (key : Bytes) : Result Bytes := do
  (← required dict key).asString

/-! ### Reading -/

/-- `xmlAttr` -/
structure Attribute where
  name : Bytes
  /-- is it in a namespace -/
  ns : Bool
  /-- its value, where that is one text node -/
  text : Option Bytes

/-- What an element is besides its children. -/
structure Tag where
  name : Bytes
  properties : List Attribute
  /-- is it in a namespace, does it declare one -/
  ns : Bool
  nsDef : Bool

/-- `xmlNode` -/
inductive Xml where
  | element (tag : Tag) (children : List Xml)
  | text (content : Bytes)
  | cdata (content : Bytes)
  | comment
  /-- an entity reference or a processing instruction -/
  | other

/-- `xmlDoc` -/
structure Doc where
  root : Option (Tag × List Xml)
  /-- are there declarations in an internal subset -/
  intSubset : Bool

/-- An element with a name and nothing more. -/
def Tag.plain (name : Bytes) : Tag := ⟨name, [], false, false⟩

/-- `xmlIsBlankNode ()` -/
def isBlank (content : Bytes) : Bool := content.all fun c => c = 32 ∨ c = 9 ∨ c = 10 ∨ c = 13

def elements : List Xml → Result (List (Tag × List Xml))
  | [] => .ok []
  | .element tag children :: l => do return (tag, children) :: (← elements l)
  | .comment :: l => elements l
  | .text content :: l =>
      if isBlank content then elements l else .error (ascii "unexpected XML content")
  | _ :: _ => .error (ascii "unexpected XML content")

def text : List Xml → Result Bytes
  | [] => .ok []
  | .text content :: l => do return content ++ (← text l)
  | .cdata content :: l => do return content ++ (← text l)
  | _ :: _ => .error (ascii "nested elements or entities in scalar value")

/-- The value of a string of decimal digits. -/
def digitsValue (s : Bytes) : Option Nat :=
  if s ≠ [] ∧ s.all (fun c => 48 ≤ c ∧ c ≤ 57) then
    some (s.foldl (fun n c => n * 10 + (c.toNat - 48)) 0)
  else none

/-- `std::from_chars ()` on the whole of a string. -/
def fromChars (s : Bytes) : Option Int64 :=
  match s with
  | 45 :: rest => (digitsValue rest).bind fun n =>
      if n ≤ 2 ^ 63 then some (Int64.ofInt (-n)) else none
  | _ => (digitsValue s).bind fun n => if n < 2 ^ 63 then some (Int64.ofNat n) else none

/-- The values seen so far are counted. -/
abbrev Counted := StateT Nat Result

/-- The loop over the children of a dictionary. -/
def parseEntries (value : Tag × List Xml → Counted Value) :
    List (Tag × List Xml) → Map Bytes Value → Counted (Map Bytes Value)
  | k :: v :: rest, result => do
      throwIf (k.1.name ≠ ascii "key" ∨ k.1.properties ≠ []) (ascii "expected dictionary key")
      let key ← text k.2
      let item ← value v
      throwIf (key ∈ result) (ascii "duplicate plist key: " ++ key)
      parseEntries value rest (result.insert key item)
  | _, result => pure result

/-- `room` is how much deeper a value may be: it runs out when `depth` exceeds
32. -/
def parse (lenient : Bool) : (room : Nat) → Tag × List Xml → Counted Value
  | 0, _ => throw (ascii "plist exceeds structural limits")
  | room + 1, (tag, children) => do
      let count ← get
      set (count + 1)
      throwIf (count + 1 > 16384) (ascii "plist exceeds structural limits")
      throwIf (tag.properties ≠ [] ∨ tag.ns ∨ tag.nsDef)
        (ascii "attributes and namespaces are not allowed on plist values")
      if tag.name = ascii "string" ∨ lenient ∧
          (tag.name = ascii "real" ∨ tag.name = ascii "date" ∨ tag.name = ascii "data") then
        return .string (← text children)
      else if tag.name = ascii "integer" then
        match fromChars (← text children) with
        | some n => return .integer n
        | none => throw (ascii "invalid integer")
      else if tag.name = ascii "true" ∨ tag.name = ascii "false" then do
        throwIf (children ≠ []) (ascii "boolean must be empty")
        return .boolean (tag.name = ascii "true")
      else do
        let items ← elements children
        if tag.name = ascii "array" then return .array (← items.mapM (parse lenient room))
        else if tag.name = ascii "dict" then do
          throwIf (items.length % 2 ≠ 0) (ascii "dictionary has an unmatched key")
          return .ofMap (← parseEntries (parse lenient room) items ∅)
        else throw (ascii "unsupported plist value")

def parsePlist (xmlReadMemory : Bytes → Option Doc) (bytes : Bytes) (lenient : Bool) :
    Result Value := do
  throwIf (bytes = [] ∨ bytes.length > maxMessage ∨ 0 ∈ bytes)
    (ascii "invalid plist size or embedded NUL")
  throwIf (ascii "<!ENTITY" <:+: bytes ∨ ascii "<![" <:+: bytes)
    (ascii "entity declarations and CDATA are unsupported")
  match xmlReadMemory bytes with
  | none => throw (ascii "invalid XML plist")
  | some doc => do
    throwIf doc.intSubset (ascii "internal DTD declarations are unsupported")
    match doc.root with
    | none => throw (ascii "expected plist root")
    | some (tag, children) => do
      throwIf (tag.name ≠ ascii "plist" ∨ tag.ns ∨ tag.nsDef) (ascii "expected plist root")
      tag.properties.forM fun attr => do
        throwIf (attr.name ≠ ascii "version" ∨ attr.ns) (ascii "unsupported plist attribute")
        throwIf (attr.text ≠ some (ascii "1.0")) (ascii "unsupported plist version")
      match ← elements children with
      | [root] => return (← (parse lenient 33 root).run 0).1
      | _ => throw (ascii "plist must contain exactly one value")

/-! ### Writing -/

def escape : Bytes → Result Bytes
  | [] => .ok []
  | c :: s => do
      let c ←
        if c = 38 then pure (ascii "&amp;")
        else if c = 60 then pure (ascii "&lt;")
        else if c = 62 then pure (ascii "&gt;")
        else if c < 32 ∧ c ≠ 10 ∧ c ≠ 13 ∧ c ≠ 9 then .error (ascii "invalid XML character")
        else pure [c]
      return c ++ (← escape s)

/-- `std::to_string ()` -/
def decimal (n : Int) : Bytes :=
  (if n < 0 then [45] else []) ++
    if n = 0 then [48] else (Nat.digits 10 n.natAbs).reverse.map fun d => UInt8.ofNat (48 + d)

/-- The size limit on what encloses other values. -/
def limited (result : Bytes) : Result Bytes :=
  if result.length > maxMessage then .error (ascii "plist exceeds size limit") else .ok result

mutual
def encode : Value → Result Bytes
  | .string s => do return ascii "<string>" ++ (← escape s) ++ ascii "</string>"
  | .integer n => .ok (ascii "<integer>" ++ decimal n.toInt ++ ascii "</integer>")
  | .boolean b => .ok (if b then ascii "<true/>" else ascii "<false/>")
  | .array items => do limited (ascii "<array>" ++ (← encodeItems items) ++ ascii "</array>")
  | .dict entries => do limited (ascii "<dict>" ++ (← encodeEntries entries) ++ ascii "</dict>")

def encodeItems : List Value → Result Bytes
  | [] => .ok []
  | item :: items => do return (← encode item) ++ (← encodeItems items)

def encodeEntries : List (Bytes × Value) → Result Bytes
  | [] => .ok []
  | (key, item) :: entries => do
      return ascii "<key>" ++ (← escape key) ++ ascii "</key>" ++ (← encode item) ++
        (← encodeEntries entries)
end

def plistHead : Bytes := ascii "<?xml version=\"1.0\" encoding=\"UTF-8\"?><plist version=\"1.0\">"

def writePlist (value : Value) : Result Bytes := do
  limited (plistHead ++ (← encode value) ++ ascii "</plist>")

/-! ### Messages -/

def frameSize (bytes : Bytes) : Nat :=
  (bytes.take 4).foldl (fun n c => n * 256 + c.toNat) 0

def frame (value : Value) : Result Bytes := do
  let bytes ← writePlist value
  return [24, 16, 8, 0].map (fun shift => UInt8.ofNat (bytes.length >>> shift)) ++ bytes

/-- A frame: the length of the payload, big-endian, and the payload. -/
def framed (payload : Bytes) : Bytes :=
  [24, 16, 8, 0].map (fun shift => UInt8.ofNat (payload.length >>> shift)) ++ payload

theorem frame_eq (value : Value) : frame value = framed <$> writePlist value := rfl

theorem frameSize_framed {payload : Bytes} (h : payload.length ≤ maxMessage) (rest : Bytes) :
    frameSize ((framed payload).take 4 ++ rest) = payload.length := by
  have hlt : payload.length < 2 ^ 32 := lt_of_le_of_lt h (by decide)
  simp only [frameSize, framed, List.map_cons, List.map_nil, List.cons_append, List.nil_append,
    List.take_succ_cons, List.take_zero, List.foldl_cons, List.foldl_nil, UInt8.toNat_ofNat',
    Nat.shiftRight_eq_div_pow]
  omega

def reply (ok : Bool) (message : Bytes) (jobs : List Value) : Value :=
  .dict [(ascii "Jobs", .array jobs), (ascii "Message", .string message), (ascii "OK", .boolean ok),
    (ascii "Version", .integer 1)]

end MiniDarwin.Launchd
