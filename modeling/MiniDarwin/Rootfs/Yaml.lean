import MiniDarwin.Data.Patterns
import MiniDarwin.Data.Numerals

/-!
The YAML that `mdrootfs.py` reads and writes.

A Python string is a list of code points, lone surrogates included, and a
position in a text is what is left of the text from there. The loops of the
reader that go on from what an inner loop has left are given a round for
each line, or two for each character, and a few more; `exhausted` is the
error of one that needs more, and no loop does (`parseYaml_ne_exhausted`).
-/

namespace MiniDarwin.Rootfs

open Data

/-- A Python `str`. -/
abbrev Text := List Nat

instance : LawfulBEq Text := inferInstance

def lit (s : String) : Text := s.toList.map Char.toNat

inductive Scalar where
  | null
  | bool (b : Bool)
  | int (n : Int)
  | str (s : Text)
  deriving DecidableEq

/-- What a document consists of. A mapping is listed in the order of insertion. -/
inductive Value where
  | scalar (s : Scalar)
  | list (items : List Value)
  | map (entries : List (Text × Value))

/-- What a function may raise. -/
inductive Failure where
  | invalid (message : Text)
  | usage (message : Text)
  | typeError
  | keyError
  | encodeError
  | exhausted
  deriving DecidableEq

abbrev Result := Except Failure

/-- `raise Invalid (message)` -/
def invalid {α : Type} (message : Text) : Result α := .error (.invalid message)

/-- `str (n)` of a natural number. -/
def decimal (n : Nat) : Text :=
  if n = 0 then [48] else (Nat.digits 10 n).reverse.map (48 + ·)

/-- `str.isspace ()` -/
def isSpace (c : Nat) : Bool :=
  9 ≤ c ∧ c ≤ 13 ∨ 28 ≤ c ∧ c ≤ 32 ∨ c = 0x85 ∨ c = 0xa0 ∨ c = 0x1680 ∨ 0x2000 ≤ c ∧ c ≤ 0x200a ∨
    c = 0x2028 ∨ c = 0x2029 ∨ c = 0x202f ∨ c = 0x205f ∨ c = 0x3000

/-- `str.strip ()` -/
def strip (text : Text) : Text := (text.dropWhile isSpace).rdropWhile isSpace

def isDigit (c : Nat) : Bool := 48 ≤ c ∧ c ≤ 57

def isLetter (c : Nat) : Bool := 65 ≤ c ∧ c ≤ 90 ∨ 97 ≤ c ∧ c ≤ 122

/-- `KEY.match (text)`: the key and what follows it. -/
def matchKey : Text → Option (Text × Text)
  | [] => none
  | c :: rest =>
      if isLetter c ∨ c = 95 then
        let more := fun c => isLetter c || isDigit c || c == 95 || c == 45
        some (c :: rest.takeWhile more, rest.dropWhile more)
      else none

/-! ### Plain scalars -/

/-- `[-+]?` -/
def sign : RegularExpression Nat := perhaps (oneOf (lit "-+"))

def digit : RegularExpression Nat := oneOf (lit "0123456789")

def digits : RegularExpression Nat := repeated digit

/-- `[-+]?[0-9]+` -/
def integerForm : RegularExpression Nat := sign * digits

/-- `[-+]?0[0-9]+` -/
def leadingZero : RegularExpression Nat := sign * (word (lit "0") * digits)

/-- `[eE][-+]?[0-9]+` -/
def exponent : RegularExpression Nat := oneOf (lit "eE") * (sign * digits)

/-- `[-+]?\.(inf|Inf|INF)|\.(nan|NaN|NAN)` -/
def notANumber : RegularExpression Nat :=
  sign * (word (lit ".") * anyOf [word (lit "inf"), word (lit "Inf"), word (lit "INF")]) +
    word (lit ".") * anyOf [word (lit "nan"), word (lit "NaN"), word (lit "NAN")]

/-- `[-+]?(\.[0-9]+|[0-9]+\.[0-9]*)([eE][-+]?[0-9]+)?`, or one of those. -/
def floatForm : RegularExpression Nat :=
  sign * ((word (lit ".") * digits + digits * (word (lit ".") * .star digit)) * perhaps exponent) +
    notANumber

/-- The number that a text of decimal digits stands for. -/
def natOf (text : Text) : Nat := Data.value 10 (text.map (· - 48))

/-- `int (token)`, of a token with the form of an integer. -/
def intOf : Text → Int
  | 45 :: rest => - (natOf rest : Int)
  | 43 :: rest => natOf rest
  | token => natOf token

/-- `_plain ()`. `place` is where the token stands, for messages. -/
def plain (place token : Text) : Result Scalar :=
  if token ∈ [lit "null", lit "Null", lit "NULL", lit "~"] then .ok .null
  else if token ∈ [lit "true", lit "True", lit "TRUE"] then .ok (.bool true)
  else if token ∈ [lit "false", lit "False", lit "FALSE"] then .ok (.bool false)
  else if integerForm.rmatch token then
    if leadingZero.rmatch token then
      invalid (place ++ lit "'" ++ token ++ lit "' has a leading zero; quote it")
    else .ok (.int (intOf token))
  else if floatForm.rmatch token then
    invalid (place ++ lit "'" ++ token ++ lit "' would be a float; quote it")
  else .ok (.str token)

/-! ### Quoted scalars -/

def hexDigit (c : Nat) : Option Nat :=
  if isDigit c then some (c - 48)
  else if 97 ≤ c ∧ c ≤ 102 then some (c - 87)
  else if 65 ≤ c ∧ c ≤ 70 then some (c - 55)
  else none

/-- The number of `\uXXXX`. -/
def hex4 (a b c d : Nat) : Option Nat := do
  return ((← hexDigit a) * 16 + (← hexDigit b)) * 256 + ((← hexDigit c) * 16 + (← hexDigit d))

def isHigh (c : Nat) : Bool := 0xd800 ≤ c ∧ c ≤ 0xdbff

def isLow (c : Nat) : Bool := 0xdc00 ≤ c ∧ c ≤ 0xdfff

def joinSurrogates (high low : Nat) : Nat := 0x10000 + (high - 0xd800) * 1024 + (low - 0xdc00)

/-- The escapes of one letter. -/
def unescape (c : Nat) : Option Nat :=
  if c = 34 ∨ c = 92 ∨ c = 47 then some c
  else if c = 98 then some 8
  else if c = 102 then some 12
  else if c = 110 then some 10
  else if c = 114 then some 13
  else if c = 116 then some 9
  else none

/-- The character before a string that has been read. -/
def prepend (c : Nat) (r : Option (Text × Text)) : Option (Text × Text) :=
  r.map fun x => (c :: x.1, x.2)

/-- `json.decoder.scanstring ()`, strict, from behind the opening quote: the string,
and what follows the closing quote. -/
def scanString : Text → Option (Text × Text)
  | [] => none
  | 34 :: rest => some ([], rest)
  | 92 :: 117 :: a :: b :: c :: d :: 92 :: 117 :: a' :: b' :: c' :: d' :: rest =>
      match hex4 a b c d, hex4 a' b' c' d' with
      | some u, some u' =>
          if isHigh u ∧ isLow u' then prepend (joinSurrogates u u') (scanString rest)
          else prepend u (scanString (92 :: 117 :: a' :: b' :: c' :: d' :: rest))
      | _, _ => none
  | 92 :: 117 :: a :: b :: c :: d :: rest =>
      match hex4 a b c d with
      | some u => prepend u (scanString rest)
      | none => none
  | 92 :: c :: rest =>
      match unescape c with
      | some c' => prepend c' (scanString rest)
      | none => none
  | c :: rest => if c ≤ 31 ∨ c = 92 then none else prepend c (scanString rest)

/-- A single-quoted string, from behind the opening quote. -/
def scanSingle : Text → Option (Text × Text)
  | [] => none
  | 39 :: 39 :: rest => prepend 39 (scanSingle rest)
  | 39 :: rest => some ([], rest)
  | c :: rest => prepend c (scanSingle rest)

/-! ### Values on one line -/

/-- `_skip ()` -/
def skip (text : Text) : Text := text.dropWhile (· = 32)

/-- Where a plain scalar ends: at the first of the stops that is found. -/
def plainEnd (flow : Bool) : Text → Text × Text
  | [] => ([], [])
  | c :: rest =>
      if c = 32 ∧ rest.head? = some 35 ∨ flow = true ∧ c ∈ lit ",]\x7d" then ([], c :: rest)
      else (c :: (plainEnd flow rest).1, (plainEnd flow rest).2)

/-- `": " in token or token.endswith (":")` -/
def ambiguous (token : Text) : Bool := lit ": " <:+: token ∨ lit ":" <:+ token

def hasKey (entries : List (Text × Value)) (key : Text) : Bool := entries.any (·.1 = key)

mutual

/-- `_value ()`: the value and what is left of the text. -/
def value (place : Text) : Nat → Bool → Text → Result (Value × Text)
  | 0, _, _ => .error .exhausted
  | fuel + 1, flow, text =>
      match skip text with
      | [] => invalid (place ++ lit "missing value")
      | c :: rest =>
          if c = 34 then
            match scanString rest with
            | some (s, rest) => .ok (.scalar (.str s), rest)
            | none => invalid (place ++ lit "malformed double-quoted string")
          else if c = 39 then
            match scanSingle rest with
            | some (s, rest) => .ok (.scalar (.str s), rest)
            | none => invalid (place ++ lit "unterminated single-quoted string")
          else if c = 123 then
            match skip rest with
            | 125 :: rest => .ok (.map [], rest)
            | rest => flowMapping place fuel rest []
          else if c = 91 then
            match skip rest with
            | 93 :: rest => .ok (.list [], rest)
            | rest => flowList place fuel rest []
          else if c ∈ lit "&*!|>%@`,]\x7d#" then
            invalid (place ++ lit "unsupported YAML construct '" ++ [c] ++ lit "'")
          else
            let token := strip (plainEnd flow (c :: rest)).1
            if ambiguous token then
              invalid (place ++ lit "ambiguous plain scalar '" ++ token ++ lit "'; quote it")
            else do return (.scalar (← plain place token), (plainEnd flow (c :: rest)).2)

/-- The loop of `_flow_mapping ()`. -/
def flowMapping (place : Text) : Nat → Text → List (Text × Value) → Result (Value × Text)
  | 0, _, _ => .error .exhausted
  | fuel + 1, text, result =>
      match matchKey (skip text) with
      | some (key, 58 :: rest) =>
          if hasKey result key then invalid (place ++ lit "duplicate key '" ++ key ++ lit "'")
          else do
            let (item, rest) ← value place fuel true rest
            match skip rest with
            | 44 :: rest => flowMapping place fuel rest (result ++ [(key, item)])
            | 125 :: rest => .ok (.map (result ++ [(key, item)]), rest)
            | _ => invalid (place ++ lit "expected ',' or '\x7d' in flow mapping")
      | _ => invalid (place ++ lit "expected 'key: value' in flow mapping")

/-- The loop of `_flow_list ()`. -/
def flowList (place : Text) : Nat → Text → List Value → Result (Value × Text)
  | 0, _, _ => .error .exhausted
  | fuel + 1, text, items => do
      let (item, rest) ← value place fuel true text
      match skip rest with
      | 44 :: rest => flowList place fuel rest (items ++ [item])
      | 93 :: rest => .ok (.list (items ++ [item]), rest)
      | _ => invalid (place ++ lit "expected ',' or ']' in flow list")

end

/-- `_inline ()` -/
def inline (place text : Text) : Result Value := do
  let (item, rest) ← value place (2 * text.length + 2) false text
  let tail := strip rest
  if tail ≠ [] ∧ tail.head? ≠ some 35 then
    invalid (place ++ lit "unexpected '" ++ tail ++ lit "' after value")
  else return item

/-! ### Blocks -/

/-- A line that is not empty: its number, its indentation and the rest of it. -/
structure Line where
  number : Nat
  col : Nat
  text : Text
  deriving DecidableEq

/-- `f"{what}:{number}: "` -/
def placeOf (what : Text) (line : Line) : Text := what ++ lit ":" ++ decimal line.number ++ lit ": "

def isItem (text : Text) : Bool := text = lit "-" ∨ lit "- " <+: text

/-- `re.match (r"[A-Za-z_][A-Za-z0-9_-]*:( |$)", text)` -/
def looksLikeKey (text : Text) : Bool :=
  match matchKey text with
  | some (_, 58 :: rest) => rest = [] ∨ rest.head? = some 32
  | _ => false

/-- `_block_list ()`: the items and the lines that are left. -/
def blockList (what : Text) (indent : Nat) : List Line → List Value → Result (Value × List Line)
  | [], items => .ok (.list items, [])
  | line :: lines, items =>
      if line.col < indent then .ok (.list items, line :: lines)
      else if line.col > indent then invalid (placeOf what line ++ lit "unexpected indentation")
      else if !isItem line.text then .ok (.list items, line :: lines)
      else
        let rest := strip (line.text.drop 1)
        if rest = [] ∨ rest.head? = some 35 then
          invalid (placeOf what line ++ lit "nested blocks in a list are not supported")
        else if looksLikeKey rest then
          invalid (placeOf what line ++ lit "block mappings in a list are not supported; " ++
            lit "write the item as \x7bkey: value, ...\x7d")
        else do
          let item ← inline (placeOf what line) rest
          blockList what indent lines (items ++ [item])

/-- `_block_mapping ()`, with `_block ()` where a value is indented. -/
def blockMapping (what : Text) : Nat → Nat → List Line → List (Text × Value) → Result (Value × List Line)
  | 0, _, _, _ => .error .exhausted
  | _ + 1, _, [], result => .ok (.map result, [])
  | fuel + 1, indent, line :: lines, result =>
      if line.col < indent then .ok (.map result, line :: lines)
      else if line.col > indent then invalid (placeOf what line ++ lit "unexpected indentation")
      else if isItem line.text then
        invalid (placeOf what line ++ lit "list item where a key was expected")
      else
        match matchKey line.text with
        | some (key, 58 :: rest) =>
            if rest ≠ [] ∧ rest.head? ≠ some 32 then
              invalid (placeOf what line ++ lit "expected a space after '" ++ key ++ lit ":'")
            else if hasKey result key then
              invalid (placeOf what line ++ lit "duplicate key '" ++ key ++ lit "'")
            else
              let rest := strip rest
              if rest ≠ [] ∧ rest.head? ≠ some 35 then do
                let item ← inline (placeOf what line) rest
                blockMapping what fuel indent lines (result ++ [(key, item)])
              else
                match lines with
                | [] => blockMapping what fuel indent [] (result ++ [(key, .scalar .null)])
                | next :: _ =>
                    if next.col > indent then do
                      let (item, lines) ←
                        if isItem next.text then blockList what next.col lines []
                        else blockMapping what fuel next.col lines []
                      blockMapping what fuel indent lines (result ++ [(key, item)])
                    -- the compact form: list items at the key's own indentation
                    else if next.col = indent ∧ isItem next.text then do
                      let (item, lines) ← blockList what indent lines []
                      blockMapping what fuel indent lines (result ++ [(key, item)])
                    else blockMapping what fuel indent lines (result ++ [(key, .scalar .null)])
        | _ => invalid (placeOf what line ++ lit "expected 'key: value'")

/-- The lines of a document. -/
def readLines (what : Text) : Nat → List Text → List Line → Result (List Line)
  | _, [], lines => .ok lines
  | number, raw :: rest, lines =>
      let body := raw.rdropWhile fun c => c = 32 ∨ c = 13
      let stripped := body.dropWhile (· = 32)
      let line : Line := ⟨number, body.length - stripped.length, stripped⟩
      if stripped.head? = some 9 ∨ 9 ∈ body.take line.col then
        invalid (placeOf what line ++ lit "tab in indentation")
      else if stripped = [] ∨ stripped.head? = some 35 ∨ stripped = lit "---" ∧ lines = [] then
        readLines what (number + 1) rest lines
      else readLines what (number + 1) rest (lines ++ [line])

/-- `parse_yaml ()` -/
def parseYaml (text what : Text) : Result Value := do
  let lines ← readLines what 1 (text.splitOn 10) []
  match lines with
  | [] => invalid (what ++ lit ": empty document")
  | line :: _ =>
      if line.col ≠ 0 then invalid (placeOf what line ++ lit "document is indented")
      else do
        let (document, left) ←
          if isItem line.text then blockList what 0 lines []
          else blockMapping what (lines.length + 1) 0 lines []
        match left with
        | [] => return document
        | line :: _ => invalid (placeOf what line ++ lit "unexpected indentation")

/-! ### Writing -/

def hexLetter (n : Nat) : Nat := if n < 10 then 48 + n else 87 + n

/-- `'\\u{0:04x}'.format (n)` -/
def escapeUnit (n : Nat) : Text :=
  [92, 117, hexLetter (n / 4096 % 16), hexLetter (n / 256 % 16), hexLetter (n / 16 % 16), hexLetter (n % 16)]

/-- How `json.dumps (ensure_ascii=True)` writes a character. -/
def escape (c : Nat) : Text :=
  if c = 92 then [92, 92]
  else if c = 34 then [92, 34]
  else if c = 10 then [92, 110]
  else if c = 13 then [92, 114]
  else if c = 9 then [92, 116]
  else if c = 12 then [92, 102]
  else if c = 8 then [92, 98]
  else if 32 ≤ c ∧ c ≤ 126 then [c]
  else if c < 0x10000 then escapeUnit c
  else escapeUnit (0xd800 + (c - 0x10000) / 1024 % 1024) ++ escapeUnit (0xdc00 + (c - 0x10000) % 1024)

/-- `json.dumps (s, ensure_ascii=True)` -/
def dumps (s : Text) : Text := lit "\"" ++ s.flatMap escape ++ lit "\""

/-- `_scalar ()` -/
def scalar : Scalar → Text
  | .null => lit "null"
  | .bool true => lit "true"
  | .bool false => lit "false"
  | .int n => if n < 0 then 45 :: decimal n.natAbs else decimal n.natAbs
  | .str s => dumps s

/-- A value that must be a scalar. -/
def scalarOf : Value → Result Text
  | .scalar s => .ok (scalar s)
  | _ => .error .typeError

/-- `_flow ()` -/
def flow (entries : List (Text × Value)) : Result Text := do
  let items ← entries.mapM fun entry => do return entry.1 ++ lit ": " ++ (← scalarOf entry.2)
  return lit "\x7b" ++ (lit ", ").intercalate items ++ lit "\x7d"

/-- The items of a list, one a line. -/
def emitItem (pad : Text) (item : Value) : Result Text :=
  match item with
  | .map entries => do return pad ++ lit "  - " ++ (← flow entries)
  | item => do return pad ++ lit "  - " ++ (← scalarOf item)

mutual

/-- `_emit ()`: the lines of a mapping. -/
def emit (indent : Nat) : List (Text × Value) → Result (List Text)
  | [] => .ok []
  | entry :: entries => do return (← emitEntry indent entry) ++ (← emit indent entries)

def emitEntry (indent : Nat) : Text × Value → Result (List Text)
  | (key, item) => emitValue indent (List.replicate indent 32 ++ key ++ lit ":") item

/-- The lines of an entry, the first of which begins with its key. -/
def emitValue (indent : Nat) (start : Text) : Value → Result (List Text)
  | .map [] => .ok [start ++ lit " \x7b\x7d"]
  | .map (entry :: entries) => do return start :: (← emit (indent + 2) (entry :: entries))
  | .list [] => .ok [start ++ lit " []"]
  | .list (item :: items) => do
      return start :: (← (item :: items).mapM (emitItem (List.replicate indent 32)))
  | .scalar s => .ok [start ++ lit " " ++ scalar s]

end

/-- `dump_yaml ()` -/
def dumpYaml (header : Text) (document : List (Text × Value)) : Result Text := do
  return header ++ (lit "\n").intercalate (← emit 0 document) ++ lit "\n"

end MiniDarwin.Rootfs
