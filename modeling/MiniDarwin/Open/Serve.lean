import MiniDarwin.Open.Tables

/-!
How a request is served (`opend.cpp`): it is read, what it opens is
resolved, and then the handlers are launched.

`Resolver` hands out pointers to handlers, into the tables or into `owned_`.
`Stop.fault` is what the language leaves undefined: a handler is read through
a pointer into memory that `owned_` has left.
-/

namespace MiniDarwin.Open

open Posix (Bytes Errno)
open Launchd (ascii decimal Value required stringField)
open Data (Arena)

inductive Stop where
  /-- `Failure` -/
  | failure (message : Bytes)
  /-- any other exception -/
  | error (message : Bytes)
  | fault
  deriving DecidableEq

/-- An exception of the functions below. -/
instance : MonadLift Launchd.Result (Except Stop) := ⟨fun x => x.mapError .error⟩

/-! ### Resolving -/

structure Item where
  url : Bool
  value : Bytes
  deriving DecidableEq

/-- `const Handler *` -/
inductive Pointer where
  /-- into a table -/
  | entry (table index : Nat)
  | owned (p : Arena.Pointer)
  deriving DecidableEq

structure Resolver where
  sys : System
  settings : Settings
  /-- user, then system -/
  tables : List Table
  home : Bytes

/-- The state is `owned_`. -/
abbrev Resolving := StateT (Arena Handler) (Except Stop)

def absolute (path : Bytes) : Bool := path.head? = some 47

/-- The constructor, and the warnings of the tables. -/
def Resolver.make (sys : System) (settings : Settings) (home : Bytes) : Resolver × List Bytes :=
  let user := if absolute home then
    [readTable sys (home ++ ascii "/.config/open/handlers") sys.getuid] else []
  let tables := user ++ [readTable sys settings.systemHandlers settings.trustedOwner]
  (⟨sys, settings, tables.map (·.1), home⟩, tables.flatMap (·.2))

/-- `owned_.reserve (64)` -/
def owned : Arena Handler := .reserve 64

namespace Resolver

variable (r : Resolver)

def bundlesIn (directory : Bytes) : List Bundle :=
  match r.sys.readdir directory with
  | none => []
  | some names =>
      (names.insertionSort fun a b => compare a b ≠ .gt).filterMap fun name =>
        let path := directory ++ ascii "/" ++ name
        if isBundle r.sys path then (readBundle r.sys path).toOption else none

def bundles : List Bundle :=
  let own := if !r.settings.applicationsSet ∧ absolute r.home then [r.home ++ ascii "/Applications"] else []
  (r.settings.applications ++ own).flatMap r.bundlesIn

def keep (handler : Handler) : Resolving Pointer := fun owned =>
  .ok (.owned (owned.push handler).last, owned.push handler)

/-- The handler behind a pointer. -/
def deref (p : Pointer) : Resolving Handler := fun owned =>
  match p with
  | .entry table index =>
      match (r.tables[table]?).bind (·.entries[index]?) with
      | some (_, handler) => .ok (handler, owned)
      | none => .error .fault
  | .owned p =>
      match owned.get p with
      | some handler => .ok (handler, owned)
      | none => .error .fault

/-- The first table that has an entry for the selector. -/
def inTables (selector : Bytes) : Option Pointer :=
  r.tables.zipIdx.findSome? fun t => (t.1.find selector).map (.entry t.2)

/-- The first bundle that claims an extension or a scheme. -/
def claimant (kind key : Bytes) : Option Bundle :=
  if kind = ascii "ext" then r.bundles.find? fun bundle => key ∈ bundle.extensions
  else if kind = ascii "scheme" then r.bundles.find? fun bundle => key ∈ bundle.schemes
  else none

/-- Tables first, so an administrator's or user's choice beats a bundle's claim. The selector
is `kind:key`. -/
def lookup (kind key : Bytes) : Resolving (Option Pointer) :=
  match r.inTables (kind ++ ascii ":" ++ key) with
  | some p => pure (some p)
  | none =>
      match r.claimant kind key with
      | some bundle => do return some (← keep (bundleHandler bundle))
      | none => pure none

/-- One lookup after the other, until one finds something. -/
def lookups : List (Bytes × Bytes) → Resolving (Option Pointer)
  | [] => pure none
  | (kind, key) :: selectors => do
      match ← r.lookup kind key with
      | some p => return some p
      | none => lookups selectors

def applicationPath (path : Bytes) : Resolving Pointer :=
  if ¬ absolute path then throw (.error (ascii "Application Path must be absolute"))
  else if isBundle r.sys path then
    match readBundle r.sys path with
    | .error message => throw (.failure (ascii "Unable to launch " ++ path ++ ascii ": " ++ message))
    | .ok bundle => keep (bundleHandler bundle)
  else if (r.sys.stat path).toOption.any (·.regular) ∧ r.sys.executable path then
    -- like an unbundled executable on macOS, which opens in Terminal
    keep ⟨[path], true, false, false, path⟩
  else throw (.failure (ascii "Unable to find application named '" ++ path ++ ascii "'"))

/-- A lookup, then the first bundle for which `p` holds. -/
def applicationBy (kind key : Bytes) (p : Bundle → Bool) (message : Bytes) : Resolving Pointer := do
  match ← r.lookup kind key with
  | some handler => return handler
  | none =>
      match r.bundles.find? p with
      | some bundle => keep (bundleHandler bundle)
      | none => throw (.failure message)

def applicationName (name : Bytes) : Resolving Pointer :=
  let key := if endsWith (lower name) (ascii ".app") then (lower name).take (name.length - 4)
    else lower name
  r.applicationBy (ascii "app") key
    (fun bundle => lower (basename bundle.path) = key ++ ascii ".app" ∨ lower bundle.name = key)
    (ascii "Unable to find application named '" ++ name ++ ascii "'")

def applicationIdentifier (identifier : Bytes) : Resolving Pointer :=
  r.applicationBy (ascii "bundle") (lower identifier)
    (fun bundle => lower bundle.identifier = lower identifier)
    (ascii "Unable to find application with bundle identifier " ++ identifier)

def application (request : Dict) : Resolving Pointer := do
  let selection ← (← required request (ascii "Application")).asDict
  if selection.length ≠ 1 then throw (.error (ascii "Application must have exactly one key"))
  else do
    let path ← optionalString selection (ascii "Path")
    let name ← optionalString selection (ascii "Name")
    let identifier ← optionalString selection (ascii "BundleIdentifier")
    match path, name, identifier with
    | some path, _, _ => r.applicationPath path
    | none, some name, _ => r.applicationName name
    | none, none, some identifier => r.applicationIdentifier identifier
    | none, none, none => throw (.error (ascii "Application needs Path, Name or BundleIdentifier"))

/-- Text: the first 4 KiB has no NUL and is valid UTF-8, as far as the lengths of characters
go. `extra` bytes of a character are still to come. -/
def validText : (extra : Nat) → Bytes → Bool
  | _, [] => true
  | 0, c :: s =>
      if c = 0 then false
      else if c < 0x80 then validText 0 s
      else if c &&& 0xe0 = 0xc0 then validText 1 s
      else if c &&& 0xf0 = 0xe0 then validText 2 s
      else if c &&& 0xf8 = 0xf0 then validText 3 s
      else false
  | extra + 1, c :: s => c &&& 0xc0 = 0x80 && validText extra s

def text (path : Bytes) : Bool :=
  match r.sys.openRead false path with
  | .error _ => false
  | .ok file => file.data.toOption.any fun bytes => validText 0 (bytes.take 4096)

/-- What follows the last dot of a name, unless the dot is its first or its last character. -/
def extension (name : Bytes) : Option Bytes :=
  let ext := (name.reverse.takeWhile (· ≠ 46)).reverse
  if ext.length + 1 < name.length ∧ ext ≠ [] then some ext else none

/-- An item that launches itself: a directory that is a bundle. -/
def launchesItself (item : Item) : Bool :=
  !item.url && (r.sys.stat item.value).toOption.any (·.directory) && isBundle r.sys item.value

/-- The lookups for an item that does not launch itself, in macOS's order; none when the
item is a file that does not exist. -/
def selectors (item : Item) : Option (List (Bytes × Bytes)) :=
  if item.url then some [(ascii "scheme", lower (item.value.takeWhile (· ≠ 58)))]
  else
    match r.sys.stat item.value with
    | .error _ => none
    | .ok st =>
        if st.directory then some [(ascii "type", ascii "directory")]
        else if st.regular then
          some <| ((extension (basename item.value)).toList.map fun ext => (ascii "ext", lower ext)) ++
            (if st.mode &&& 0o111 ≠ 0 ∧ r.sys.executable item.value then
              [(ascii "type", ascii "executable")] else []) ++
            (if r.text item.value then [(ascii "type", ascii "text")] else []) ++
            [(ascii "type", ascii "file")]
        else some []

def unknown (item : Item) : Stop :=
  .failure (ascii "No application knows how to open " ++
    (if item.url then ascii "URL " else []) ++ item.value ++ ascii ".")

/-- Bundles launch themselves; then the item's own type. -/
def item (item : Item) : Resolving Pointer :=
  if r.launchesItself item then
    match readBundle r.sys item.value with
    | .error message =>
        throw (.failure (ascii "Unable to launch " ++ item.value ++ ascii ": " ++ message))
    | .ok bundle => keep { bundleHandler bundle with origin := ascii "self" }
  else
    match r.selectors item with
    | none => throw (.failure (ascii "The file " ++ item.value ++ ascii " does not exist."))
    | some selectors => do
        match ← r.lookups selectors with
        | some p => return p
        | none => throw (unknown item)

end Resolver

/-! ### Reading a request -/

structure Request where
  dict : Dict
  /-- descriptors of the caller by their names -/
  streams : List (Bytes × Nat)
  environment : Launchd.Map Bytes Bytes
  arguments : List Bytes
  directory : Bytes
  wait : Bool
  items : List Item

/-- What is passed to a handler that is named: every item, or nothing. -/
def Request.values (request : Request) : List (Option Bytes) :=
  if request.items = [] then [none] else request.items.map fun item => some item.value

/-- The state is `warnings`. -/
abbrev Reading := ExceptT Stop (StateM (List Bytes))

def lift {α : Type} (x : Launchd.Result α) : Reading α := ExceptT.mk (pure (x.mapError .error))

def warn (message : String) : Reading Unit := modify (· ++ [ascii message])

def warnIf (p : Prop) [Decidable p] (message : String) : Reading Unit :=
  if p then warn message else pure ()

def throwIf (p : Prop) [Decidable p] (stop : Stop) : Reading Unit :=
  if p then throw stop else pure ()

/-- The array under a key, empty when there is none. -/
def strings (request : Dict) (key : Bytes) : Launchd.Result (List Bytes) :=
  match request.lookup key with
  | none => .ok []
  | some value => do (← value.asArray).mapM Value.asString

def streamNames : List Bytes :=
  ["stdin", "stdout", "stderr", "caller-stdin", "caller-stdout", "caller-stderr"].map ascii

def readStreams : List (Bytes × Nat) → List (Bytes × Nat) → Launchd.Result (List (Bytes × Nat))
  | streams, [] => .ok streams
  | streams, (name, fd) :: more => do
      Launchd.throwIf (name ∉ streamNames ∨ (streams.lookup name).isSome)
        (ascii "invalid descriptor name " ++ name)
      readStreams (streams ++ [(name, fd)]) more

/-- The entries of one dictionary, over those that are there. -/
def readVariables (environment : Launchd.Map Bytes Bytes) (request : Dict) (key : Bytes) :
    Launchd.Result (Launchd.Map Bytes Bytes) :=
  match request.lookup key with
  | none => .ok environment
  | some value => do
      (← value.asDict).foldlM (fun environment entry => do
        return environment.insert entry.1 (← entry.2.asString)) environment

def readEnvironment (request : Dict) : Launchd.Result (Launchd.Map Bytes Bytes) := do
  let environment ← readVariables ∅ request (ascii "Environment")
  let environment ← readVariables environment request (ascii "EnvironmentOverrides")
  Launchd.throwIf (environment.toList.any fun e => e.1 = [] ∨ 61 ∈ e.1 ∨ 0 ∈ e.1 ∨ 0 ∈ e.2)
    (ascii "invalid environment entry")
  return environment

def readItem (value : Value) : Launchd.Result Item := do
  let entry ← value.asDict
  let type ← stringField entry (ascii "Type")
  let text ← stringField entry (ascii "Value")
  if type = ascii "file" then do
    Launchd.throwIf (¬ absolute text) (ascii "file items must be absolute paths")
    return ⟨false, text⟩
  else if type = ascii "url" then do
    Launchd.throwIf (58 ∉ text ∨ text.head? = some 58) (ascii "invalid URL " ++ text)
    return ⟨true, text⟩
  else .error (ascii "unknown item type " ++ type)

def readItems (request : Dict) : Launchd.Result (List Item) :=
  match request.lookup (ascii "Items") with
  | none => .ok []
  | some value => do (← value.asArray).mapM readItem

/-- The folders that the items are in, each once. -/
def reveal : (folders : List Item) → List Item → Except Stop (List Item)
  | folders, [] => .ok folders
  | folders, item :: items =>
      if item.url then .error (.failure (ascii "open: -R cannot reveal URL " ++ item.value))
      else
        let folder := dirname item.value
        if folders.any (·.value = folder) then reveal folders items
        else reveal (folders ++ [⟨false, folder⟩]) items

def warnOption (options : Dict) (option : String × String) : Reading Unit := do
  warnIf (← lift (flag options (ascii option.1)))
    ("open: " ++ option.2 ++ " has no effect: MiniDarwin has no window server")

/-- The options that have no effect. -/
def warnOptions (options : Dict) : Reading Unit := do
  [("Background", "-g"), ("Hide", "-j"), ("Fresh", "-F")].forM (warnOption options)
  warnIf (← lift (optionalString options (ascii "Architecture"))).isSome "open: --arch is ignored"

def revealed (options : Dict) (items : List Item) : Reading (List Item) := do
  if ← lift (flag options (ascii "Reveal")) then do
    warn "open: -R cannot select items; opening the enclosing folder instead"
    ExceptT.mk (pure (reveal [] items))
  else return items

def readRequest (descriptors : List Nat) (requestValue : Value) : Reading Request := do
  let request ← lift requestValue.asDict
  let version ← lift ((required request (ascii "Version")).bind Value.asInteger)
  throwIf (version ≠ 1) (.error (ascii "unsupported protocol version"))
  let names ← lift (strings request (ascii "Descriptors"))
  throwIf (names.length ≠ descriptors.length)
    (.error (ascii "Descriptors does not match the descriptors sent"))
  let streams ← lift (readStreams [] (names.zip descriptors))
  let environment ← lift (readEnvironment request)
  let arguments ← lift (strings request (ascii "Arguments"))
  let directory := (← lift (optionalString request (ascii "WorkingDirectory"))).getD [47]
  let options ← lift (((request.lookup (ascii "Options")).getD (.dict [])).asDict)
  let wait ← lift (flag options (ascii "Wait"))
  warnOptions options
  let items ← revealed options (← lift (readItems request))
  return ⟨request, streams, environment, arguments, if absolute directory then directory else [47],
    wait, items⟩

/-! ### Grouping -/

structure Launch where
  handler : Handler
  items : List Bytes
  deriving DecidableEq

/-- The launch of an earlier item, if there is one for the same handler, with another item. -/
def joinLaunch (handler : Handler) (value : Option Bytes) : List Launch → Option (List Launch)
  | [] => none
  | launch :: launches =>
      if launch.handler.origin = handler.origin ∧ launch.handler.command = handler.command then
        some ({ launch with items := launch.items ++ value.toList } :: launches)
      else (joinLaunch handler value launches).map (launch :: ·)

def add (launches : List Launch) (handler : Handler) (value : Option Bytes) : List Launch :=
  (if handler.single then none else joinLaunch handler value launches).getD
    (launches ++ [⟨handler, value.toList⟩])

namespace Resolver

variable (r : Resolver)

/-- `add ()`, which reads the handler through its pointer. -/
def addVia (launches : List Launch) (entry : Pointer × Option Bytes) : Resolving (List Launch) := do
  return add launches (← r.deref entry.1) entry.2

/-- Does a request say what its items are opened with. -/
def named (request : Dict) : Launchd.Result Bool :=
  if (request.lookup (ascii "Application")).isSome then .ok true
  else do return (← optionalString request (ascii "Role")).isSome

def namedHandler (request : Dict) : Resolving Pointer :=
  if (request.lookup (ascii "Application")).isSome then r.application request
  else do
    if (← optionalString request (ascii "Role")) = some (ascii "TextEditor") then
      match ← r.lookup (ascii "role") (ascii "editor") with
      | some p => return p
      | none => throw (.failure (ascii "No default text editor is configured."))
    else throw (.error (ascii "unknown Role"))

/-- An .app opened as an item launches itself, with no documents. -/
def resolveItem (item : Item) : Resolving (Pointer × Bytes) := do
  let p ← r.item item
  let handler ← r.deref p
  return (p, if handler.origin = ascii "self" then [] else item.value)

/-- The launches of a request that says what its items are opened with. -/
def launchesNamed (request : Request) : Resolving (List Launch) := do
  let p ← r.namedHandler request.dict
  (request.values.map fun value => (p, value)).foldlM r.addVia []

/-- The launches of items: everything is resolved before anything is launched. -/
def launchesOf (items : List Item) : Resolving (List Launch) := do
  let resolved ← items.mapM r.resolveItem
  (resolved.map fun entry => (entry.1, if entry.2 = [] then none else some entry.2)).foldlM r.addVia []

def launches (request : Request) : Resolving (List Launch) := do
  if ← named request.dict then r.launchesNamed request
  else if request.items = [] then throw (.error (ascii "nothing to open"))
  else r.launchesOf request.items

end Resolver

/-! ### Launching -/

/-- What a handler is run with. -/
structure Spawn where
  program : Bytes
  argv : List Bytes
  environment : List Bytes
  directory : Bytes
  /-- descriptors; `/dev/null` when there is none -/
  stdin : Option Nat
  stdout : Option Nat
  stderr : Option Nat

/-- What becomes of it. -/
inductive Exec where
  | running (pid : Nat)
  /-- the number that came through the pipe -/
  | notExecuted (e : Errno)
  /-- `pipe ()`, `fork ()` or opening `/dev/null` failed -/
  | systemError (operation : Bytes) (e : Errno)

structure Process where
  pid : Nat
  program : Bytes
  terminal : Bool

/-- The loop over the words of the command: the arguments, and whether the items are among them. -/
def placeItems (items : List Bytes) : List Bytes → List Bytes × Bool
  | [] => ([], false)
  | word :: command =>
      let (argv, placed) := placeItems items command
      if word = ascii "%s" then (items ++ argv, true) else (word :: argv, placed)

def argv (launch : Launch) (arguments : List Bytes) : List Bytes :=
  let (argv, placed) := placeItems launch.items launch.handler.command
  argv ++ arguments ++ if placed then [] else launch.items

def searchPath (sys : System) (program : Bytes) (environment : Launchd.Map Bytes Bytes) :
    Except Stop Bytes :=
  if 47 ∈ program then .ok program
  else
    let path := environment[ascii "PATH"]?.getD (ascii "/usr/bin:/bin:/usr/sbin:/sbin")
    let candidates := ((split path 58).filter (· ≠ [])).map fun directory => directory ++ ascii "/" ++ program
    match candidates.find? sys.executable with
    | some candidate => .ok candidate
    | none => .error (.failure (ascii "Unable to launch " ++ program ++ ascii ": No such file or directory"))

def stream (request : Request) (launch : Launch) (name : Bytes) : Option Nat :=
  match request.streams.lookup name with
  | some fd => some fd
  | none => if launch.handler.terminal then request.streams.lookup (ascii "caller-" ++ name) else none

/-- `spawn ()` up to the first system call. -/
def prepare (sys : System) (request : Request) (launch : Launch) : Except Stop Spawn :=
  match argv launch request.arguments with
  | [] => .error (.failure (ascii "Unable to launch " ++ launch.handler.origin ++ ascii ": empty command"))
  | word :: words => do
      let program ← searchPath sys word request.environment
      return ⟨program, word :: words, request.environment.toList.map fun e => e.1 ++ ascii "=" ++ e.2,
        request.directory, stream request launch (ascii "stdin"), stream request launch (ascii "stdout"),
        stream request launch (ascii "stderr")⟩

/-- What has been launched, and what was run for it, failures included. -/
structure Launched where
  processes : List Process
  spawned : List Spawn

/-- What becomes of a handler may depend on those that were run before it. -/
def launchAll (sys : System) (exec : List Spawn → Spawn → Exec) (request : Request) :
    Launched → List Launch → Except Stop Unit × Launched
  | launched, [] => (.ok (), launched)
  | launched, launch :: launches =>
      match prepare sys request launch with
      | .error stop => (.error stop, launched)
      | .ok spawn =>
          let spawned := launched.spawned ++ [spawn]
          match exec launched.spawned spawn with
          | .running pid =>
              launchAll sys exec request
                ⟨launched.processes ++ [⟨pid, spawn.program, launch.handler.terminal⟩], spawned⟩ launches
          | .notExecuted e =>
              (.error (.failure (ascii "Unable to launch " ++ spawn.program ++ ascii ": " ++ sys.strerror e)),
                { launched with spawned })
          | .systemError operation e =>
              (.error (.error (operation ++ ascii ": " ++ sys.strerror e)), { launched with spawned })

def response (ok : Bool) (message : Bytes) (warnings : List Bytes) (launched : List Process)
    (waiting terminal : Bool) : Value :=
  .dict [(ascii "Launched", .array (launched.map fun process =>
      .dict [(ascii "PID", .integer (.ofNat process.pid)), (ascii "Program", .string process.program)])),
    (ascii "Message", .string message), (ascii "OK", .boolean ok), (ascii "Terminal", .boolean terminal),
    (ascii "Version", .integer 1), (ascii "Waiting", .boolean waiting),
    (ascii "Warnings", .array (warnings.map .string))]

/-- What is answered, and what was run before that. -/
inductive Served where
  | undefined
  | answered (response : Value) (spawned : List Spawn)

/-- The handlers of exceptions. -/
def refuse (stop : Stop) (warnings : List Bytes) (launched : Launched) : Served :=
  match stop with
  | .failure message => .answered (response false message warnings launched.processes false false) launched.spawned
  | .error message =>
      .answered (response false (ascii "open: invalid request: " ++ message) warnings launched.processes
        false false) launched.spawned
  | .fault => .undefined

/-- The resolver of a request. -/
def resolverOf (sys : System) (settings : Settings) (request : Request) : Resolver × List Bytes :=
  Resolver.make sys settings (request.environment[ascii "HOME"]?.getD [])

/-- `serve ()` up to its answer. -/
def serve (sys : System) (exec : List Spawn → Spawn → Exec) (settings : Settings) (descriptors : List Nat)
    (requestValue : Value) : Served :=
  match (readRequest descriptors requestValue).run.run [] with
  | (.error stop, warnings) => refuse stop warnings ⟨[], []⟩
  | (.ok request, warnings) =>
      let (resolver, tableWarnings) := resolverOf sys settings request
      match (resolver.launches request).run' owned with
      | .error stop => refuse stop (warnings ++ tableWarnings) ⟨[], []⟩
      | .ok launches =>
          match launchAll sys exec request ⟨[], []⟩ launches with
          | (.error stop, launched) => refuse stop (warnings ++ tableWarnings) launched
          | (.ok _, launched) =>
              let terminal := launches.any (·.handler.terminal)
              .answered (response true [] (warnings ++ tableWarnings) launched.processes
                (request.wait || terminal) terminal) launched.spawned

end MiniDarwin.Open
