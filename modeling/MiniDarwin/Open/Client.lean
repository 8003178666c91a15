import MiniDarwin.Open.Delivery
import MiniDarwin.Open.Urls

/-!
The command `open` (`open.cpp`), from its command line to the bytes of the
request: the options, what `main ()` asks of them, and the operands.

What `main ()` refuses never becomes a request. Of the rest, the daemon sees
what the client was given if and only if XML can say it.
-/

namespace MiniDarwin.Open.Client

open Posix (Bytes)
open Launchd (ascii Conforms Doc frame Map maxMessage parsePlist plistText Strict Value XmlText)

/-- How `open` ends before it sends anything. -/
inductive Exit where
  | usage
  | fail (message : Bytes)
  deriving DecidableEq

/-! ### The command line -/

/-- An option by itself, or one with a value. -/
inductive Takes where
  | flag (set : Options → Options)
  | value (set : Bytes → Options → Except Exit Options)

def addEnvironment (entry : Bytes) (options : Options) : Except Exit Options :=
  let name := entry.takeWhile (· ≠ 61)
  if name = [] then .error .usage
  else .ok { options with environment := options.environment ++ [(name, entry.drop (name.length + 1))] }

/-- The options of two hyphens. -/
def long : List (Bytes × Takes) :=
  [(ascii "--wait-apps", .flag fun o => { o with wait := true }),
    (ascii "--reveal", .flag fun o => { o with reveal := true }),
    (ascii "--new", .flag fun o => { o with newInstance := true }),
    (ascii "--hide", .flag fun o => { o with hide := true }),
    (ascii "--background", .flag fun o => { o with background := true }),
    (ascii "--fresh", .flag fun o => { o with fresh := true }),
    (ascii "--header", .flag fun o => { o with headers := true }),
    (ascii "--url", .value fun v o => .ok { o with urls := o.urls ++ [v] }),
    (ascii "--stdin", .value fun v o => .ok { o with stdinPath := some v }),
    (ascii "--stdout", .value fun v o => .ok { o with stdoutPath := some v }),
    (ascii "--stderr", .value fun v o => .ok { o with stderrPath := some v }),
    (ascii "--arch", .value fun v o => .ok { o with arch := some v }),
    (ascii "--env", .value addEnvironment)]

/-- The letters of one hyphen. -/
def short : List (UInt8 × Takes) :=
  [(97, .value fun v o => .ok { o with application := some v }),
    (98, .value fun v o => .ok { o with bundle := some v }),
    (117, .value fun v o => .ok { o with urls := o.urls ++ [v] }),
    (105, .value fun v o => .ok { o with stdinPath := some v }),
    (111, .value fun v o => .ok { o with stdoutPath := some v }),
    (115, .value fun _ o => .ok { o with headers := true }),
    (101, .flag fun o => { o with textEdit := true }),
    (116, .flag fun o => { o with textEditor := true }),
    (102, .flag fun o => { o with readStdin := true }),
    (70, .flag fun o => { o with fresh := true }),
    (82, .flag fun o => { o with reveal := true }),
    (87, .flag fun o => { o with wait := true }),
    (110, .flag fun o => { o with newInstance := true }),
    (106, .flag fun o => { o with hide := true }),
    (103, .flag fun o => { o with background := true }),
    (104, .flag fun o => { o with headers := true })]

/-- The letters after a hyphen, up to one whose value is the next argument. -/
def letters (options : Options) :
    Bytes → Except Exit (Options × Option (Bytes → Options → Except Exit Options))
  | [] => .ok (options, none)
  | c :: rest =>
      match short.lookup c with
      | none => .error .usage
      | some (.flag set) => letters (set options) rest
      | some (.value set) =>
          if rest = [] then .ok (options, some set) else (set rest options).map fun options => (options, none)

/-- An argument that begins with a hyphen, and what is to be done with the value it wants. -/
def option (options : Options) (arg : Bytes) :
    Except Exit (Options × Option (Bytes → Options → Except Exit Options)) :=
  if [45, 45].isPrefixOf arg then
    match long.lookup arg with
    | none => .error .usage
    | some (.flag set) => .ok (set options, none)
    | some (.value set) => .ok (options, some set)
  else letters options arg.tail

/-- Like BSD getopt, the first operand ends option parsing; --args does not. -/
def parseFrom (optionsDone : Bool) (options : Options) : List Bytes → Except Exit Options
  | [] => .ok options
  | arg :: rest =>
      if arg = ascii "--args" then .ok { options with arguments := options.arguments ++ rest }
      else if optionsDone ∨ arg.length < 2 ∨ arg.head? ≠ some 45 then
        parseFrom true { options with files := options.files ++ [arg] } rest
      else if arg = ascii "--" then parseFrom true options rest
      else
        match option options arg, rest with
        | .error exit, _ => .error exit
        | .ok (options, none), rest => parseFrom false options rest
        | .ok (_, some _), [] => .error .usage
        | .ok (options, some set), value :: rest =>
            match set value options with
            | .error exit => .error exit
            | .ok options => parseFrom false options rest

/-- `argv`, without the name of the command. -/
def parse (argv : List Bytes) : Except Exit Options := parseFrom false {} argv

/-- How many of the options say what is to open the operands. -/
def selections (options : Options) : Nat :=
  options.application.isSome.toNat + options.bundle.isSome.toNat + options.textEdit.toNat +
    options.textEditor.toNat

/-- What `main ()` asks of the options. -/
def check (options : Options) : Except Exit Unit :=
  if options.headers then .error (.fail (ascii "open: -h and -s (header search) are not supported"))
  else if 1 < selections options then .error .usage
  else if options.readStdin ∧ (options.files ≠ [] ∨ options.urls ≠ []) then .error .usage
  else if selections options = 0 ∧ ¬ options.readStdin ∧ options.files = [] ∧ options.urls = [] then .error .usage
  else .ok ()

/-! ### What is looked up -/

/-- The host, and the streams of the client. -/
structure Caller extends Host where
  /-- `stdinToTemporary ()` -/
  temporary : Except Bytes Bytes
  /-- `::open ()`, with the text of its error -/
  openStream : Bytes → (input : Bool) → Option Bytes
  /-- `/dev/tty` can be opened. -/
  tty : Bool
  /-- `fcntl (fd, F_GETFD) >= 0` -/
  isOpen : Nat → Bool

section Source

variable (caller : Caller)

def failing {α : Type} (x : Except Bytes α) : Except Exit α := x.mapError .fail

/-- -f: like Apple's, stdin is copied to a temporary .txt that is then opened. -/
def copyOf (options : Options) : Except Bytes (List Value) :=
  if options.readStdin then do
    let path ← caller.temporary
    let value ← fileItem caller.toHost path
    return [value]
  else .ok []

/-- The operands and the copy of stdin. -/
def itemsOf (options : Options) : Except Bytes (List Value) := do
  let urls ← options.urls.mapM fun url => item caller.toHost url true
  let files ← options.files.mapM fun file => item caller.toHost file false
  let copied ← copyOf caller options
  return urls ++ files ++ copied

/-- The path of an application is resolved. -/
def resolveApplication (options : Options) : Except Bytes Options :=
  match options.application with
  | none => .ok options
  | some application =>
      if 47 ∈ application then
        match resolved caller.toHost application with
        | none => .error (ascii "Unable to find application named '" ++ application ++ ascii "'")
        | some real => .ok { options with application := some real }
      else .ok options

/-- A stream that an option names. -/
def named (path : Option Bytes) (input : Bool) (name : String) : Except Bytes (List Bytes) :=
  match path with
  | none => .ok []
  | some path =>
      match caller.openStream (cStr path) input with
      | none => .ok [ascii name]
      | some error => .error (ascii "open: " ++ path ++ ascii ": " ++ error)

def whenever (p : Bool) (name : String) : List Bytes := if p then [ascii name] else []

/-- The names of the descriptors that go with a request. -/
def namesOf (options : Options) : Except Bytes (List Bytes) := do
  let stdin ← named caller options.stdinPath true "stdin"
  let stdout ← named caller options.stdoutPath false "stdout"
  let stderr ← named caller options.stderrPath false "stderr"
  let callers := whenever (if options.readStdin then caller.tty else caller.isOpen 0) "caller-stdin" ++
    whenever (caller.isOpen 1) "caller-stdout" ++ whenever (caller.isOpen 2) "caller-stderr"
  return stdin ++ stdout ++ stderr ++ callers

/-- What a command line comes to: its options, the items and the names of the descriptors. -/
structure Asked where
  options : Options
  items : List Value
  names : List Bytes

def prepare (argv : List Bytes) : Except Exit Asked := do
  let options ← parse argv
  check options
  let items ← failing (itemsOf caller options)
  let options ← failing (resolveApplication caller options)
  let names ← failing (namesOf caller options)
  return { options, items, names }

/-- `getcwd ()` may fail here. -/
def cwdOf : Option Bytes := caller.getcwd.toOption

def request (asked : Asked) (environ : List Bytes) : Map Bytes Value :=
  requestOf asked.options asked.items environ (cwdOf caller) asked.names

/-- `main ()`, up to the bytes that go to the daemon. -/
def main (argv environ : List Bytes) : Except Exit Bytes := do
  let asked ← prepare caller argv
  (frame (.ofMap (request caller asked environ))).mapError fun message => .fail (ascii "open: " ++ message)

end Source

variable {caller : Caller} {argv environ : List Bytes} {asked : Asked}

/-! ### What is said -/

/-- The request is sent, and `serve ()` sees what the client was given. -/
def Told (xmlReadMemory : Bytes → Option Doc) (caller : Caller) (argv environ : List Bytes) (asked : Asked) : Prop :=
  ∃ bytes seen, main caller argv environ = .ok bytes ∧
    parsePlist xmlReadMemory (bytes.drop 4) false = .ok (.dict seen) ∧
    Seen asked.options environ (cwdOf caller) seen

theorem fileItem_value {host : Host} {path : Bytes} {v : Value} (h : fileItem host path = .ok v) :
    ∃ i, v = itemValue i := by
  rw [fileItem] at h
  split at h
  · cases h
    exact ⟨_, rfl⟩
  · cases h

theorem item_value {host : Host} {argument : Bytes} {forceURL : Bool} {v : Value}
    (h : item host argument forceURL = .ok v) : ∃ i, v = itemValue i := by
  rw [item] at h
  split at h
  · exact fileItem_value h
  · split at h
    · split at h
      · rw [localFile] at h
        split at h
        · simp only at h
          split at h
          · cases h
          · exact fileItem_value h
        · exact fileItem_value h
      · split at h
        · cases h
          exact ⟨_, rfl⟩
        · cases h
    · cases h

/-- Every operand becomes an item. -/
theorem itemsOf_values {options : Options} {items : List Value} (h : itemsOf caller options = .ok items) :
    ∀ v ∈ items, ∃ i, v = itemValue i := by
  rw [itemsOf] at h
  obtain ⟨urls, hurls, h⟩ := Launchd.bind_eq_ok h
  obtain ⟨files, hfiles, h⟩ := Launchd.bind_eq_ok h
  obtain ⟨copied, hcopied, h⟩ := Launchd.bind_eq_ok h
  cases h
  intro v hv
  rcases List.mem_append.1 hv with hv | hv
  · rcases List.mem_append.1 hv with hv | hv
    · obtain ⟨url, hurl⟩ := mem_mapM hurls hv
      exact item_value hurl
    · obtain ⟨file, hfile⟩ := mem_mapM hfiles hv
      exact item_value hfile
  · rw [copyOf] at hcopied
    split at hcopied
    · obtain ⟨path, -, hcopied⟩ := Launchd.bind_eq_ok hcopied
      obtain ⟨value, hvalue, hcopied⟩ := Launchd.bind_eq_ok hcopied
      cases hcopied
      obtain rfl := List.mem_singleton.1 hv
      exact fileItem_value hvalue
    · cases hcopied
      cases hv

theorem exit_bind {α β : Type} {x : Except Exit α} {f : α → Except Exit β} {b : β} (h : x >>= f = .ok b) :
    ∃ a, x = .ok a ∧ f a = .ok b := by
  cases x with
  | error e => cases h
  | ok a => exact ⟨a, rfl, h⟩

theorem failing_ok {α : Type} {x : Except Bytes α} {a : α} (h : failing x = .ok a) : x = .ok a := by
  cases x with
  | error e => cases h
  | ok b => exact congrArg Except.ok (Except.ok.inj h)

theorem prepare_values (h : prepare caller argv = .ok asked) : ∀ v ∈ asked.items, ∃ i, v = itemValue i := by
  rw [prepare] at h
  obtain ⟨options, -, h⟩ := exit_bind h
  obtain ⟨_, -, h⟩ := exit_bind h
  obtain ⟨items, hitems, h⟩ := exit_bind h
  obtain ⟨resolved, -, h⟩ := exit_bind h
  obtain ⟨names, -, h⟩ := exit_bind h
  cases h
  exact itemsOf_values (failing_ok hitems)

/-- What `main ()` sends is the frame of the request. -/
theorem main_ok_iff (h : prepare caller argv = .ok asked) {bytes : Bytes} :
    main caller argv environ = .ok bytes ↔ frame (.ofMap (request caller asked environ)) = .ok bytes := by
  rw [main, h]
  show (frame (.ofMap (request caller asked environ))).mapError _ = .ok bytes ↔ _
  cases frame (.ofMap (request caller asked environ)) with
  | error message => exact iff_of_false (fun h => by cases h) (fun h => by cases h)
  | ok sent => exact ⟨fun h => congrArg Except.ok (Except.ok.inj h), fun h => congrArg Except.ok (Except.ok.inj h)⟩

/-- **The daemon sees what the client was given if and only if it can be said in XML**, for every
command line that `open` takes. -/
theorem told_iff (xmlReadMemory : Bytes → Option Doc) (hxml : Conforms xmlReadMemory) (hstrict : Strict xmlReadMemory)
    (caller : Caller) (argv environ : List Bytes) {asked : Asked} (hasked : prepare caller argv = .ok asked)
    (hsize : (plistText (.ofMap (request caller asked environ))).length ≤ maxMessage)
    (hcount : (Value.ofMap (request caller asked environ)).count ≤ 16384) :
    Told xmlReadMemory caller argv environ asked ↔
      Sayable asked.options asked.items environ (cwdOf caller) asked.names := by
  rw [← seen_iff xmlReadMemory hxml hstrict (prepare_values hasked) hsize hcount]
  constructor
  · rintro ⟨bytes, seen, hmain, hread, hseen⟩
    exact ⟨bytes, seen, (main_ok_iff hasked).1 hmain, hread, hseen⟩
  · rintro ⟨bytes, seen, hframe, hread, hseen⟩
    exact ⟨bytes, seen, (main_ok_iff hasked).2 hframe, hread, hseen⟩

/-! ### Two environments -/

/-- A client in `/` with its three streams, on a host without files. -/
def terminal : Caller where
  realpath := fun _ => none
  stat := fun _ => false
  getcwd := .ok [47]
  temporary := .error []
  openStream := fun _ _ => none
  tty := true
  isOpen := fun _ => true

def callerNames : List Bytes := [ascii "caller-stdin", ascii "caller-stdout", ascii "caller-stderr"]

/-- What `open -a Foo` comes to, with what it was given beside. -/
def askedFoo (environment : List (Bytes × Bytes)) (arguments : List Bytes) : Asked where
  options := { application := some (ascii "Foo"), environment, arguments }
  items := []
  names := callerNames

theorem prepare_foo : prepare terminal [ascii "-a", ascii "Foo"] = .ok (askedFoo [] []) := rfl

theorem prepare_given : prepare terminal ([ascii "-a", ascii "Foo", ascii "--env", ascii "B=2"] ++
    [ascii "--args", ascii "x"]) = .ok (askedFoo [(ascii "B", ascii "2")] [ascii "x"]) := rfl

/-- The request for `open -a Foo` in an environment of one variable, `A`. -/
def fooDict (value : Bytes) (overrides : Dict) (arguments : List Value) : Dict :=
  [(ascii "Application", .dict [(ascii "Name", .string (ascii "Foo"))]), (ascii "Arguments", .array arguments),
    (ascii "Descriptors", .array (callerNames.map .string)),
    (ascii "Environment", .dict [(ascii "A", .string value)]), (ascii "EnvironmentOverrides", .dict overrides),
    (ascii "Items", .array []),
    (ascii "Options", .dict [(ascii "Background", .boolean false), (ascii "Fresh", .boolean false),
      (ascii "Hide", .boolean false), (ascii "NewInstance", .boolean false), (ascii "Reveal", .boolean false),
      (ascii "Wait", .boolean false)]),
    (ascii "Version", .integer 1), (ascii "WorkingDirectory", .string [47])]

theorem request_foo (value : Bytes) :
    Value.ofMap (request terminal (askedFoo [] []) [ascii "A=" ++ value]) = .dict (fooDict value [] []) := rfl

/-- The overrides and the arguments that `prepare_given` is about. -/
def givenDict : Dict := fooDict [49] [(ascii "B", .string (ascii "2"))] [.string (ascii "x")]

theorem request_given :
    Value.ofMap (request terminal (askedFoo [(ascii "B", ascii "2")] [ascii "x"]) [ascii "A=1"]) =
      .dict givenDict := rfl

theorem given_given : given (askedFoo [(ascii "B", ascii "2")] [ascii "x"]).options [ascii "A=1"] (cwdOf terminal) =
    [.dict [(ascii "A", .string [49])], .dict [(ascii "B", .string (ascii "2"))], .array [.string (ascii "x")],
      .string [47]] := rfl

theorem length_given : (plistText (.dict givenDict)).length ≤ maxMessage := by
  simp only [plistText, givenDict, fooDict, callerNames, Launchd.valueText, List.flatMap_cons, List.flatMap_nil,
    List.map_cons, List.map_nil, List.length_append, Launchd.length_enclosed]
  decide +kernel

theorem printable_given : ∀ t ∈ (Value.dict givenDict).texts, ∀ b ∈ t, 32 ≤ b ∧ b < 127 := by
  have hall : ((Value.dict givenDict).texts.all fun t => t.all fun b => 32 ≤ b && b < 127) = true := by
    simp only [givenDict, fooDict, callerNames, Value.texts, List.flatMap_cons, List.flatMap_nil, List.map_cons,
      List.map_nil]
    rfl
  simpa [List.all_eq_true] using hall

/-- A reader of XML that meets the assumptions. -/
noncomputable def strictDocument (bytes : Bytes) : Option Doc :=
  open Classical in if XmlText bytes then Launchd.readDocument bytes else none

theorem conforms_strictDocument : Conforms strictDocument := by
  intro bytes doc _ htext hdoc
  rw [strictDocument, if_pos htext, hdoc]

theorem strict_strictDocument : Strict strictDocument := fun _ hnot => if_neg hnot

/-- The environment `A=1`. -/
theorem told_iff_given : Told strictDocument terminal
    ([ascii "-a", ascii "Foo", ascii "--env", ascii "B=2"] ++ [ascii "--args", ascii "x"]) [ascii "A=1"]
    (askedFoo [(ascii "B", ascii "2")] [ascii "x"]) := by
  refine (told_iff strictDocument conforms_strictDocument strict_strictDocument terminal _ _ prepare_given ?_ ?_).2
    ⟨?_, ?_⟩
  · rw [request_given]
    exact length_given
  · rw [request_given]
    simp [givenDict, fooDict, callerNames, Value.count]
  · rw [show Value.ofMap (requestOf _ _ _ _ _) = .dict givenDict from request_given]
    exact fun s hs => Launchd.xmlText_printable (printable_given s hs)
  · rw [given_given]
    simp only [List.forall_mem_cons, Value.texts, List.flatMap_cons, List.flatMap_nil]
    decide +kernel

/-- An escape character in the environment, `A=\e`: `open -a Foo` sends nothing. -/
theorem untold_escape : prepare terminal [ascii "-a", ascii "Foo"] = .ok (askedFoo [] []) ∧
    (plistText (.ofMap (request terminal (askedFoo [] []) [ascii "A=" ++ [27]]))).length ≤ maxMessage ∧
    (Value.ofMap (request terminal (askedFoo [] []) [ascii "A=" ++ [27]])).count ≤ 16384 ∧
    ∀ xmlReadMemory, ¬ Told xmlReadMemory terminal [ascii "-a", ascii "Foo"] [ascii "A=" ++ [27]] (askedFoo [] []) := by
  have hframe : frame (.ofMap (request terminal (askedFoo [] []) [ascii "A=" ++ [27]])) =
      .error (ascii "invalid XML character") := rfl
  refine ⟨prepare_foo, ?_, ?_, ?_⟩
  · rw [request_foo]
    simp only [plistText, fooDict, callerNames, Launchd.valueText, List.flatMap_cons, List.flatMap_nil,
      List.map_cons, List.map_nil, List.length_append, Launchd.length_enclosed]
    decide +kernel
  · rw [request_foo]
    simp [fooDict, callerNames, Value.count]
  · rintro xmlReadMemory ⟨bytes, seen, hmain, -⟩
    cases hframe.symm.trans ((main_ok_iff prepare_foo).1 hmain)

end MiniDarwin.Open.Client
