import MiniDarwin.Launchd.Plist
import MiniDarwin.Data.Arena

/-!
The handlers of the open service (`opend.cpp`): what the tables and the
bundles say about who opens what.

A request is served by a process of its own. What the file system says while
it is served is a parameter, `System`.
-/

namespace MiniDarwin.Open

open Posix (Bytes Errno)
open Launchd (ascii decimal Value parsePlist maxMessage throwIf)

/-- `struct stat`, as far as it is looked at. -/
structure Stat where
  regular : Bool
  directory : Bool
  uid : Nat
  mode : Nat

/-- A file that has been opened for reading. -/
structure File where
  regular : Bool
  size : Nat
  /-- what it gives when it is read to its end -/
  data : Except Errno Bytes

structure System where
  stat : Bytes → Except Errno Stat
  lstat : Bytes → Except Errno Stat
  /-- `open ()` for reading, with or without `O_NOFOLLOW` -/
  openRead : (nofollow : Bool) → Bytes → Except Errno File
  /-- the names in a directory -/
  readdir : Bytes → Option (List Bytes)
  /-- `access (path, X_OK)` -/
  executable : Bytes → Bool
  strerror : Errno → Bytes
  getuid : Nat
  xmlReadMemory : Bytes → Option Launchd.Doc

structure Settings where
  systemHandlers : Bytes
  applications : List Bytes
  applicationsSet : Bool
  trustedOwner : Nat

/-! ### Strings -/

/-- `std::tolower ()` -/
def lower (value : Bytes) : Bytes := value.map fun c => if 65 ≤ c ∧ c ≤ 90 then c + 32 else c

/-- The part before the last slash, if there is one, and the part after it. -/
def lastSlash : Bytes → Option (Bytes × Bytes)
  | [] => none
  | c :: path =>
      match lastSlash path with
      | some (above, name) => some (c :: above, name)
      | none => if c = 47 then some ([], path) else none

def basename (path : Bytes) : Bytes := (lastSlash path).elim path (·.2)

def dirname (path : Bytes) : Bytes :=
  match lastSlash path with
  | none => [46]
  | some ([], _) => [47]
  | some (above, _) => above

def trim (value : Bytes) : Bytes :=
  let blank := fun c : UInt8 => decide (c = 32 ∨ c = 9)
  ((value.dropWhile blank).reverse.dropWhile blank).reverse

/-- The pieces that `std::getline ()` reads one after the other: a separator at the end does
not begin another one. -/
def getlines (separator : UInt8) : Bytes → List Bytes
  | [] => []
  | c :: s =>
      if c = separator then [] :: getlines separator s
      else
        match getlines separator s with
        | [] => [[c]]
        | line :: lines => (c :: line) :: lines

def split (value : Bytes) (separator : UInt8) : List Bytes := (getlines separator value).map trim

/-- `std::isspace ()` -/
def isSpace (c : UInt8) : Bool := c = 32 ∨ 9 ≤ c ∧ c ≤ 13

/-- The words that `stream >> word` reads. -/
def words : Bytes → List Bytes
  | [] => []
  | c :: s =>
      if isSpace c then words s
      else
        match s with
        | [] => [[c]]
        | d :: _ =>
            if isSpace d then [c] :: words s
            else
              match words s with
              | [] => [[c]]
              | word :: more => (c :: word) :: more

/-- The parts before and after the first colon. -/
def splitColon (s : Bytes) : Option (Bytes × Bytes) :=
  if 58 ∈ s then some (s.takeWhile (· ≠ 58), (s.dropWhile (· ≠ 58)).tail) else none

/-- `ends_with ()` -/
def endsWith (s suffix : Bytes) : Bool := suffix <:+ s

/-! ### Files -/

/-- `readFile (path, false)` -/
def readFile (sys : System) (path : Bytes) : Launchd.Result Bytes :=
  match sys.openRead true path with
  | .error e => .error (ascii "open " ++ path ++ ascii ": " ++ sys.strerror e)
  | .ok file => do
      throwIf (!file.regular ∨ file.size > maxMessage)
        (ascii "plist must be a regular file of at most 1 MiB")
      match file.data with
      | .error e => .error (ascii "read plist: " ++ sys.strerror e)
      | .ok bytes => do
          throwIf (bytes.length > maxMessage) (ascii "plist exceeds size limit")
          return bytes

/-! ### Handler tables -/

structure Handler where
  command : List Bytes
  terminal : Bool
  single : Bool
  bundle : Bool
  origin : Bytes
  deriving DecidableEq

/-- A line of a table: its selectors and the handler. -/
abbrev Entry := List Bytes × Handler

structure Table where
  entries : List Entry

/-- `find ()` returns a pointer: the index of an entry. -/
def Table.find (table : Table) (selector : Bytes) : Option Nat :=
  table.entries.findIdx? fun entry => selector ∈ entry.1

def kinds : List Bytes := ["ext", "type", "scheme", "app", "bundle", "role"].map ascii

/-- The kind and the value of one selector; a bare value keeps the last kind. -/
def selectorParts (kind selector : Bytes) : Bytes × Bytes :=
  match splitColon selector with
  | some (k, value) => if k ∈ kinds then (k, value) else (kind, selector)
  | none => (kind, selector)

/-- The error is a warning. -/
def readSelectors (location : Bytes) : (kind : Bytes) → List Bytes → Launchd.Result (List Bytes)
  | _, [] => .ok []
  | kind, selector :: selectors => do
      let (kind, value) := selectorParts kind selector
      throwIf (kind = [] ∨ value = [])
        (ascii "open: " ++ location ++ ascii ": invalid selector '" ++ selector ++ ascii "'")
      return (kind ++ ascii ":" ++ lower value) :: (← readSelectors location kind selectors)

def readFlags (location : Bytes) : Handler → List Bytes → Launchd.Result Handler
  | handler, [] => .ok handler
  | handler, flag :: flags =>
      if flag = ascii "needsterminal" then readFlags location { handler with terminal := true } flags
      else if flag = ascii "single" then readFlags location { handler with single := true } flags
      else if flag = [] then readFlags location handler flags
      else .error (ascii "open: " ++ location ++ ascii ": unknown flag '" ++ flag ++ ascii "'")

/-- Is there nothing on a line, or nothing but a comment. -/
def blankLine (line : Bytes) : Bool :=
  trim line = [] ∨ 35 ∈ line ∧ trim (line.takeWhile (· ≠ 35)) = []

/-- Where a line is: `path:number`. -/
def whereIs (path : Bytes) (number : Nat) : Bytes := path ++ ascii ":" ++ decimal number

def readLine (location line : Bytes) : Launchd.Result Entry :=
  match split line 59 with
  | selectors :: command :: flags => do
      throwIf (selectors = [] ∨ command = [])
        (ascii "open: " ++ location ++ ascii ": expected 'selectors ; command [; flags]'")
      let selectors ← readSelectors location [] (split selectors 44)
      let handler ← readFlags location ⟨words command, false, false, false, location⟩ flags
      return (selectors, handler)
  | _ => .error (ascii "open: " ++ location ++ ascii ": expected 'selectors ; command [; flags]'")

/-- The entries and the warnings, the lines counted from `number` on. -/
def readLines (path : Bytes) : (number : Nat) → List Bytes → List Entry × List Bytes
  | _, [] => ([], [])
  | number, line :: lines =>
      let (entries, warnings) := readLines path (number + 1) lines
      if blankLine line then (entries, warnings)
      else
        match readLine (whereIs path number) line with
        | .ok entry => (entry :: entries, warnings)
        | .error warning => (entries, warning :: warnings)

/-- Missing tables are empty. A table someone else could have written is ignored with a
warning. -/
def readTable (sys : System) (path : Bytes) (owner : Nat) : Table × List Bytes :=
  match sys.lstat path with
  | .error e =>
      (⟨[]⟩, if e ≠ .ENOENT ∧ e ≠ .ENOTDIR then
        [ascii "open: " ++ path ++ ascii ": " ++ sys.strerror e] else [])
  | .ok st =>
      if !st.regular ∨ st.uid ≠ owner ∨ st.mode &&& 0o022 ≠ 0 then
        (⟨[]⟩, [ascii "open: ignoring " ++ path ++ ascii ": it must be a regular file owned by uid " ++
          decimal owner ++ ascii " and not group/world writable"])
      else
        match readFile sys path with
        | .error message => (⟨[]⟩, [ascii "open: " ++ path ++ ascii ": " ++ message])
        | .ok bytes =>
            let (entries, warnings) := readLines path 1 (getlines 10 bytes)
            (⟨entries⟩, warnings)

/-! ### Bundles -/

structure Bundle where
  path : Bytes
  identifier : Bytes
  name : Bytes
  executable : Bytes
  extensions : List Bytes
  schemes : List Bytes

abbrev Dict := List (Bytes × Value)

def optionalString (dict : Dict) (key : Bytes) : Launchd.Result (Option Bytes) :=
  match dict.lookup key with
  | none => .ok none
  | some value => do
      let result ← value.asString
      throwIf (0 ∈ result) (ascii "embedded NUL in " ++ key)
      return some result

def flag (dict : Dict) (key : Bytes) : Launchd.Result Bool :=
  match dict.lookup key with
  | none => .ok false
  | some value => value.asBoolean

/-- The strings of the array under `key` in each of the dictionaries of an array. -/
def claims (info : Dict) (types key : Bytes) : Launchd.Result (List Bytes) :=
  match info.lookup types with
  | none => .ok []
  | some value => do
      let claims ← (← value.asArray).mapM fun type => do
        match (← type.asDict).lookup key with
        | none => return []
        | some items => (← items.asArray).mapM Value.asString
      return claims.flatten

/-- What an `Info.plist` says, whose `file` is the name of the bundle. -/
def readInfo (path file : Bytes) (info : Dict) : Launchd.Result Bundle := do
  let stem := file.take (file.length - 4)
  let identifier := (← optionalString info (ascii "CFBundleIdentifier")).getD []
  let name := (← optionalString info (ascii "CFBundleName")).getD stem
  let executable := (← optionalString info (ascii "CFBundleExecutable")).getD stem
  throwIf (executable = [] ∨ 47 ∈ executable) (ascii "invalid CFBundleExecutable")
  let extensions ← claims info (ascii "CFBundleDocumentTypes") (ascii "CFBundleTypeExtensions")
  let schemes ← claims info (ascii "CFBundleURLTypes") (ascii "CFBundleURLSchemes")
  return ⟨path, identifier, name, executable, (extensions.filter (· ≠ ascii "*")).map lower,
    schemes.map lower⟩

/-- Every error begins with the path. -/
def readBundle (sys : System) (path : Bytes) : Launchd.Result Bundle :=
  let bundle := do
    let bytes ← readFile sys (path ++ ascii "/Contents/Info.plist")
    throwIf (ascii "bplist" <+: bytes) (ascii "binary Info.plist files are not supported")
    readInfo path (basename path) (← (← parsePlist sys.xmlReadMemory bytes true).asDict)
  bundle.mapError fun message => path ++ ascii ": " ++ message

def isBundle (sys : System) (path : Bytes) : Bool :=
  endsWith (lower path) (ascii ".app") &&
    match sys.stat (path ++ ascii "/Contents/Info.plist") with
    | .ok st => st.regular
    | .error _ => false

def bundleHandler (bundle : Bundle) : Handler :=
  ⟨[bundle.path ++ ascii "/Contents/MacOS/" ++ bundle.executable], false, false, true, bundle.path⟩

end MiniDarwin.Open
