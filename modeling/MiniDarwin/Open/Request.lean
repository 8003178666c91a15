import MiniDarwin.Launchd.Characters
import MiniDarwin.Open.Serve

/-!
The request that `open` sends (`open.cpp`), and what the daemon sees of it.

The strings of a request are any bytes without a zero: names and values of
the environment, arguments, paths. They travel as the text of a property
list.
-/

namespace MiniDarwin.Open

open Posix (Bytes)
open Launchd (ascii Conforms Doc frame Map maxMessage parsePlist plistText Strict Value writePlist XmlText)

structure Options where
  application : Option Bytes := none
  bundle : Option Bytes := none
  stdinPath : Option Bytes := none
  stdoutPath : Option Bytes := none
  stderrPath : Option Bytes := none
  arch : Option Bytes := none
  textEdit : Bool := false
  textEditor : Bool := false
  readStdin : Bool := false
  wait : Bool := false
  reveal : Bool := false
  newInstance : Bool := false
  hide : Bool := false
  background : Bool := false
  fresh : Bool := false
  headers : Bool := false
  urls : List Bytes := []
  files : List Bytes := []
  arguments : List Bytes := []
  environment : List (Bytes × Bytes) := []

/-- One entry of `environ`: it has a name and a value, or it is left out. The first of several
entries with one name is taken. -/
def addVariable (environment : Map Bytes Value) (text : Bytes) : Map Bytes Value :=
  let name := text.takeWhile (· ≠ 61)
  if name.length = text.length ∨ name = [] ∨ name ∈ environment then environment
  else environment.insert name (.string (text.drop (name.length + 1)))

def environmentOf (environ : List Bytes) : Map Bytes Value := environ.foldl addVariable ∅

/-- `insert_or_assign ()`: of several entries with one name the last is taken. -/
def overridesOf (entries : List (Bytes × Bytes)) : Map Bytes Value :=
  entries.foldl (fun overrides e => overrides.insert e.1 (.string e.2)) ∅

def itemValue (item : Item) : Value :=
  .dict [(ascii "Type", .string (if item.url then ascii "url" else ascii "file")),
    (ascii "Value", .string item.value)]

/-- A name is a registered application; anything with a slash is a path, which is resolved by now
(and absolute). -/
def applicationOf (options : Options) : Option Value :=
  match options.application with
  | some application =>
      some (.dict [(if 47 ∈ application then ascii "Path" else ascii "Name", .string application)])
  | none =>
      match options.bundle with
      | some bundle => some (.dict [(ascii "BundleIdentifier", .string bundle)])
      | none => if options.textEdit then some (.dict [(ascii "Name", .string (ascii "TextEdit"))]) else none

def roleOf (options : Options) : Option Value :=
  if (applicationOf options).isNone ∧ (options.textEditor ∨ options.readStdin) then
    some (.string (ascii "TextEditor"))
  else none

/-- `emplace ()`, if there is something to add. No key below is there already. -/
def addOptional (request : Map Bytes Value) (key : Bytes) : Option Value → Map Bytes Value
  | none => request
  | some value => request.insert key value

def flagsOf (options : Options) : Map Bytes Value :=
  let flags := (((((∅ : Map Bytes Value).insert (ascii "Wait") (.boolean options.wait)).insert
    (ascii "NewInstance") (.boolean options.newInstance)).insert
    (ascii "Background") (.boolean options.background)).insert
    (ascii "Hide") (.boolean options.hide)).insert
    (ascii "Fresh") (.boolean options.fresh)
  let flags := flags.insert (ascii "Reveal") (.boolean options.reveal)
  addOptional flags (ascii "Architecture") (options.arch.map .string)

/-- The request, with the names of the descriptors that go with it. -/
def requestOf (options : Options) (items : List Value) (environ : List Bytes) (cwd : Option Bytes)
    (names : List Bytes) : Map Bytes Value :=
  let request := ((∅ : Map Bytes Value).insert (ascii "Version") (.integer 1)).insert
    (ascii "Items") (.array items)
  let request := addOptional request (ascii "Application") (applicationOf options)
  let request := addOptional request (ascii "Role") (roleOf options)
  let request := request.insert (ascii "Arguments") (.array (options.arguments.map .string))
  let request := request.insert (ascii "Environment") (.ofMap (environmentOf environ))
  let request := request.insert (ascii "EnvironmentOverrides") (.ofMap (overridesOf options.environment))
  let request := addOptional request (ascii "WorkingDirectory") (cwd.map .string)
  let request := request.insert (ascii "Options") (.ofMap (flagsOf options))
  request.insert (ascii "Descriptors") (.array (names.map .string))

/-! ### What is said -/

/-- What the client was given, as it is in a request. -/
structure Seen (options : Options) (environ : List Bytes) (cwd : Option Bytes) (seen : Dict) : Prop where
  environment : seen.lookup (ascii "Environment") = some (.ofMap (environmentOf environ))
  overrides : seen.lookup (ascii "EnvironmentOverrides") = some (.ofMap (overridesOf options.environment))
  arguments : seen.lookup (ascii "Arguments") = some (.array (options.arguments.map .string))
  directory : seen.lookup (ascii "WorkingDirectory") = cwd.map .string

/-- The part of a request that says what the client was given. -/
def given (options : Options) (environ : List Bytes) (cwd : Option Bytes) : List Value :=
  [.ofMap (environmentOf environ), .ofMap (overridesOf options.environment),
    .array (options.arguments.map .string)] ++ (cwd.map .string).toList

/-- All strings are texts of XML, and in what the client was given there is no carriage return. -/
structure Sayable (options : Options) (items : List Value) (environ : List Bytes) (cwd : Option Bytes)
    (names : List Bytes) : Prop where
  texts : ∀ s ∈ (Value.ofMap (requestOf options items environ cwd names)).texts, XmlText s
  plain : ∀ v ∈ given options environ cwd, ∀ s ∈ v.texts, 13 ∉ s

/-! ### Maps -/

section Maps

variable {m : Map Bytes Value} {key : Bytes} {value : Value} {P : Bytes → Value → Prop}

theorem forall_insert (hvalue : P key value) (h : ∀ k x, m[k]? = some x → P k x) :
    ∀ k x, (m.insert key value)[k]? = some x → P k x := by
  intro k x hk
  rw [Std.ExtTreeMap.getElem?_insert] at hk
  split at hk
  · next heq =>
      obtain rfl : key = k := by simpa using heq
      exact Option.some.inj hk ▸ hvalue
  · exact h k x hk

theorem forall_addOptional {value : Option Value} (hvalue : ∀ x, value = some x → P key x)
    (h : ∀ k x, m[k]? = some x → P k x) : ∀ k x, (addOptional m key value)[k]? = some x → P k x := by
  cases value with
  | none => exact h
  | some value => exact forall_insert (hvalue value rfl) h

theorem lookup_of_mem {l : Dict} {x : Value} (h : (l.map (·.1)).Nodup) (hx : (key, x) ∈ l) :
    l.lookup key = some x := by
  obtain ⟨before, after, rfl⟩ := List.append_of_mem hx
  refine List.lookup_eq_some_iff.2 ⟨before, after, rfl, fun e he => ?_⟩
  rw [List.map_append, List.nodup_append] at h
  have := h.2.2 e.1 (List.mem_map.2 ⟨e, he, rfl⟩) key (by simp)
  simpa using this.symm

theorem lookup_toList (m : Map Bytes Value) (key : Bytes) : m.toList.lookup key = m[key]? := by
  ext x
  rw [← Std.ExtTreeMap.mem_toList_iff_getElem?_eq_some]
  constructor
  · intro h
    obtain ⟨before, after, hsplit, -⟩ := List.lookup_eq_some_iff.1 h
    rw [hsplit]
    simp
  · exact lookup_of_mem (Launchd.nodup_toList m)

theorem getElem?_insert_ne {k : Bytes} (h : key ≠ k) : (m.insert key value)[k]? = m[k]? := by
  rw [Std.ExtTreeMap.getElem?_insert, if_neg]
  simpa using h

theorem getElem?_addOptional_ne {k : Bytes} {value : Option Value} (h : key ≠ k) :
    (addOptional m key value)[k]? = m[k]? := by
  cases value with
  | none => rfl
  | some value => exact getElem?_insert_ne h

theorem getElem?_addOptional_self {value : Option Value} (h : m[key]? = none) :
    (addOptional m key value)[key]? = value := by
  cases value with
  | none => exact h
  | some value => exact Std.ExtTreeMap.getElem?_insert_self

/-- What is read of the value under a key. -/
theorem lookup_normalized (h : ∀ (k : Bytes) (x : Value), m[k]? = some x → 13 ∉ k) :
    (m.toList.map fun e => (Launchd.normalize e.1, e.2.normalized)).lookup key = m[key]?.map Value.normalized := by
  have hkeys : m.toList.map (fun e => (Launchd.normalize e.1, e.2.normalized)) =
      m.toList.map fun e => (e.1, e.2.normalized) := by
    apply List.map_congr_left
    intro e he
    rw [Launchd.normalize_self (h e.1 e.2 (Std.ExtTreeMap.mem_toList_iff_getElem?_eq_some.1 he))]
  rw [hkeys, ← lookup_toList]
  induction m.toList with
  | nil => rfl
  | cons e l ih =>
      obtain ⟨k, x⟩ := e
      rw [List.map_cons, List.lookup_cons, List.lookup_cons, ih]
      cases key == k with
      | true => rfl
      | false => rfl

/-- The texts of a value that a key leads to. -/
theorem texts_of_lookup {l : Dict} {x : Value} (h : l.lookup key = some x) :
    ∀ s ∈ x.texts, s ∈ (Value.dict l).texts := by
  intro s hs
  rw [Value.texts]
  have hmem : (key, x) ∈ l := by
    rw [List.lookup_eq_some_iff] at h
    obtain ⟨before, after, rfl, -⟩ := h
    simp
  exact List.mem_flatMap.2 ⟨_, hmem, .tail _ hs⟩

end Maps

/-! ### The request as a value -/

variable {plain : Bool}

/-- A value that is in order and not too deep; where `plain` says so, no key has a carriage return. -/
structure Tidy (plain : Bool) (n : Nat) (key : Bytes) (value : Value) : Prop where
  key : plain = true → 13 ∉ key
  keys : plain = true → ∀ k ∈ value.keys, 13 ∉ k
  ordered : value.Ordered
  within : value.within n = true

theorem tidy_string {n : Nat} {key : Bytes} (hkey : plain = true → 13 ∉ key) (s : Bytes) : Tidy plain n key (.string s) where
  key := hkey
  keys := by
    intro _
    rw [Value.keys]
    all_goals simp
  ordered := .string s
  within := by cases n <;> rfl

theorem tidy_boolean {n : Nat} {key : Bytes} (hkey : plain = true → 13 ∉ key) (b : Bool) : Tidy plain n key (.boolean b) where
  key := hkey
  keys := by
    intro _
    rw [Value.keys]
    all_goals simp
  ordered := .boolean b
  within := by cases n <;> rfl

theorem tidy_array {n : Nat} {key : Bytes} {items : List Value} (hkey : plain = true → 13 ∉ key)
    (h : ∀ x ∈ items, Tidy plain n key x) : Tidy plain (n + 1) key (.array items) where
  key := hkey
  keys := by
    intro hplain k hk
    rw [Value.keys] at hk
    obtain ⟨x, hx, hk⟩ := List.mem_flatMap.1 hk
    exact (h x hx).keys hplain k hk
  ordered := .array items fun x hx => (h x hx).ordered
  within := by
    rw [Value.within, List.all_eq_true]
    exact fun x hx => (h x hx).within

theorem tidy_strings {n : Nat} {key : Bytes} (hkey : plain = true → 13 ∉ key) (l : List Bytes) :
    Tidy plain (n + 1) key (.array (l.map .string)) := by
  apply tidy_array hkey
  intro x hx
  obtain ⟨s, -, rfl⟩ := List.mem_map.1 hx
  exact tidy_string hkey s

theorem tidy_dict {n : Nat} {key : Bytes} {entries : Dict} (hkey : plain = true → 13 ∉ key)
    (hkeys : (entries.map (·.1)).Pairwise fun a b => compare a b = .lt) (h : ∀ e ∈ entries, Tidy plain n e.1 e.2) :
    Tidy plain (n + 1) key (.dict entries) where
  key := hkey
  keys := by
    intro hplain k hk
    rw [Value.keys] at hk
    obtain ⟨e, he, hk⟩ := List.mem_flatMap.1 hk
    obtain rfl | hk := List.mem_cons.1 hk
    · exact (h e he).key hplain
    · exact (h e he).keys hplain k hk
  ordered := .dict entries hkeys fun e he => (h e he).ordered
  within := by
    rw [Value.within, List.all_eq_true]
    exact fun e he => (h e he).within

theorem tidy_ofMap {n : Nat} {key : Bytes} {m : Map Bytes Value} (hkey : plain = true → 13 ∉ key)
    (h : ∀ k x, m[k]? = some x → Tidy plain n k x) : Tidy plain (n + 1) key (.ofMap m) := by
  apply tidy_dict hkey
  · exact List.pairwise_map.2 Std.ExtTreeMap.ordered_keys_toList
  · intro e he
    exact h e.1 e.2 (Std.ExtTreeMap.mem_toList_iff_getElem?_eq_some.1 he)

variable {options : Options} {items : List Value} {environ : List Bytes} {cwd : Option Bytes} {names : List Bytes}

/-- A variable of the environment is a string. -/
theorem environmentOf_string : ∀ (k : Bytes) (x : Value), (environmentOf environ)[k]? = some x → ∃ s, x = .string s := by
  have hall : ∀ (environ : List Bytes) (m : Map Bytes Value), (∀ (k : Bytes) (x : Value), m[k]? = some x → ∃ s, x = .string s) →
      ∀ (k : Bytes) (x : Value), (environ.foldl addVariable m)[k]? = some x → ∃ s, x = .string s := by
    intro environ
    induction environ with
    | nil => exact fun m h => h
    | cons text environ ih =>
        intro m h
        apply ih
        rw [addVariable]
        split
        · exact h
        · exact forall_insert ⟨_, rfl⟩ h
  exact hall environ ∅ (by simp)

theorem overridesOf_string {entries : List (Bytes × Bytes)} :
    ∀ (k : Bytes) (x : Value), (overridesOf entries)[k]? = some x → ∃ s, x = .string s := by
  have hall : ∀ (entries : List (Bytes × Bytes)) (m : Map Bytes Value),
      (∀ (k : Bytes) (x : Value), m[k]? = some x → ∃ s, x = .string s) → ∀ (k : Bytes) (x : Value),
        (entries.foldl (fun overrides e => overrides.insert e.1 (.string e.2)) m)[k]? = some x → ∃ s, x = .string s := by
    intro entries
    induction entries with
    | nil => exact fun m h => h
    | cons e entries ih => exact fun m h => ih _ (forall_insert ⟨_, rfl⟩ h)
  exact hall entries ∅ (by simp)

/-- Variables whose names have no carriage return. -/
theorem tidy_variables {n : Nat} {key : Bytes} {m : Map Bytes Value} (hkey : plain = true → 13 ∉ key)
    (hstring : ∀ (k : Bytes) (x : Value), m[k]? = some x → ∃ s, x = .string s)
    (hplain : plain = true → ∀ s ∈ (Value.ofMap m).texts, 13 ∉ s) : Tidy plain (n + 1) key (.ofMap m) := by
  apply tidy_ofMap hkey
  intro k x hx
  obtain ⟨s, rfl⟩ := hstring k x hx
  apply tidy_string
  intro h
  apply hplain h
  rw [Value.ofMap, Value.texts]
  exact List.mem_flatMap.2 ⟨(k, .string s), Std.ExtTreeMap.mem_toList_iff_getElem?_eq_some.2 hx, .head _⟩

theorem tidy_pair {n : Nat} {key k : Bytes} (hkey : plain = true → 13 ∉ key) (hk : plain = true → 13 ∉ k) (s : Bytes) :
    Tidy plain (n + 1) key (.dict [(k, .string s)]) := by
  apply tidy_dict hkey (List.pairwise_singleton _ _)
  exact List.forall_mem_singleton.2 (tidy_string hk s)

theorem tidy_item {n : Nat} {key : Bytes} (hkey : plain = true → 13 ∉ key) (item : Item) : Tidy plain (n + 1) key (itemValue item) := by
  apply tidy_dict hkey
  · show [ascii "Type", ascii "Value"].Pairwise _
    decide
  · simp only [List.forall_mem_cons]
    exact ⟨tidy_string (fun _ => by decide) _, tidy_string (fun _ => by decide) _, List.forall_mem_nil _⟩

theorem tidy_application {n : Nat} {key : Bytes} (hkey : plain = true → 13 ∉ key) :
    ∀ x, applicationOf options = some x → Tidy plain (n + 1) key x := by
  intro x hx
  rw [applicationOf] at hx
  split at hx
  · rw [← Option.some.inj hx]
    apply tidy_pair hkey
    intro _
    split
    · decide
    · decide
  · split at hx
    · rw [← Option.some.inj hx]
      exact tidy_pair hkey (fun _ => by decide) _
    · split at hx
      · rw [← Option.some.inj hx]
        exact tidy_pair hkey (fun _ => by decide) _
      · cases hx

theorem tidy_flags {n : Nat} {key : Bytes} (hkey : plain = true → 13 ∉ key) : Tidy plain (n + 1) key (.ofMap (flagsOf options)) := by
  apply tidy_ofMap hkey
  apply forall_addOptional
  · intro x hx
    obtain ⟨s, -, rfl⟩ := Option.map_eq_some_iff.1 hx
    exact tidy_string (fun _ => by decide) s
  · iterate 6 refine forall_insert (tidy_boolean (fun _ => by decide) _) ?_
    simp

/-- Every entry of a request is tidy, if the names of its variables are. -/
theorem tidy_request (hitem : ∀ x ∈ items, ∃ item, x = itemValue item) (hplain : plain = true → ∀ v ∈ given options environ cwd, ∀ s ∈ v.texts, 13 ∉ s) :
    ∀ k x, (requestOf options items environ cwd names)[k]? = some x → Tidy plain 31 k x := by
  have henvironment : Tidy plain 31 (ascii "Environment") (.ofMap (environmentOf environ)) :=
    tidy_variables (fun _ => by decide) environmentOf_string fun h => hplain h _ (by simp [given])
  have hoverrides : Tidy plain 31 (ascii "EnvironmentOverrides") (.ofMap (overridesOf options.environment)) :=
    tidy_variables (fun _ => by decide) overridesOf_string fun h => hplain h _ (by simp [given])
  have hitems : Tidy plain 31 (ascii "Items") (.array items) := by
    apply tidy_array (fun _ => by decide)
    intro x hx
    obtain ⟨item, rfl⟩ := hitem x hx
    exact tidy_item (fun _ => by decide) item
  have hrole : ∀ x, roleOf options = some x → Tidy plain 31 (ascii "Role") x := by
    intro x hx
    rw [roleOf] at hx
    split at hx
    · rw [← Option.some.inj hx]
      exact tidy_string (fun _ => by decide) _
    · cases hx
  have hdirectory : ∀ x, cwd.map Value.string = some x → Tidy plain 31 (ascii "WorkingDirectory") x := by
    intro x hx
    obtain ⟨s, -, rfl⟩ := Option.map_eq_some_iff.1 hx
    exact tidy_string (fun _ => by decide) s
  have hversion : Tidy plain 31 (ascii "Version") (.integer 1) := by
    refine ⟨fun _ => by decide, fun _ => ?_, .integer 1, rfl⟩
    rw [Value.keys]
    all_goals simp
  refine forall_insert (tidy_strings (fun _ => by decide) names) (forall_insert (tidy_flags (fun _ => by decide)) ?_)
  refine forall_addOptional hdirectory (forall_insert hoverrides (forall_insert henvironment ?_))
  refine forall_insert (tidy_strings (fun _ => by decide) _) (forall_addOptional hrole ?_)
  refine forall_addOptional (tidy_application (fun _ => by decide)) (forall_insert hitems (forall_insert hversion ?_))
  simp

/-- Nothing is written over. -/
theorem requestOf_given (options : Options) (items : List Value) (environ : List Bytes) (cwd : Option Bytes)
    (names : List Bytes) :
    (requestOf options items environ cwd names)[ascii "Environment"]? = some (.ofMap (environmentOf environ)) ∧
    (requestOf options items environ cwd names)[ascii "EnvironmentOverrides"]? =
      some (.ofMap (overridesOf options.environment)) ∧
    (requestOf options items environ cwd names)[ascii "Arguments"]? =
      some (.array (options.arguments.map .string)) ∧
    (requestOf options items environ cwd names)[ascii "WorkingDirectory"]? = cwd.map .string := by
  refine ⟨?_, ?_, ?_, ?_⟩
  · rw [requestOf, getElem?_insert_ne (by decide), getElem?_insert_ne (by decide),
      getElem?_addOptional_ne (by decide), getElem?_insert_ne (by decide), Std.ExtTreeMap.getElem?_insert_self]
  · rw [requestOf, getElem?_insert_ne (by decide), getElem?_insert_ne (by decide),
      getElem?_addOptional_ne (by decide), Std.ExtTreeMap.getElem?_insert_self]
  · rw [requestOf, getElem?_insert_ne (by decide), getElem?_insert_ne (by decide),
      getElem?_addOptional_ne (by decide), getElem?_insert_ne (by decide), getElem?_insert_ne (by decide),
      Std.ExtTreeMap.getElem?_insert_self]
  · rw [requestOf, getElem?_insert_ne (by decide), getElem?_insert_ne (by decide)]
    apply getElem?_addOptional_self
    rw [getElem?_insert_ne (by decide), getElem?_insert_ne (by decide), getElem?_insert_ne (by decide),
      getElem?_addOptional_ne (by decide), getElem?_addOptional_ne (by decide), getElem?_insert_ne (by decide),
      getElem?_insert_ne (by decide)]
    simp

/-- What the client was given comes back, with the ends of lines of XML. -/
theorem seen_normalized (hitem : ∀ x ∈ items, ∃ item, x = itemValue item)
    (hplain : ∀ v ∈ given options environ cwd, ∀ s ∈ v.texts, 13 ∉ s) :
    Seen options environ cwd ((requestOf options items environ cwd names).toList.map fun e =>
      (Launchd.normalize e.1, e.2.normalized)) := by
  have hkeys : ∀ (k : Bytes) (x : Value), (requestOf options items environ cwd names)[k]? = some x → 13 ∉ k :=
    fun k x hx => (tidy_request hitem (fun _ => hplain) k x hx).key rfl
  have hself : ∀ v ∈ given options environ cwd, v.normalized = v :=
    fun v hv => Launchd.normalized_self (hplain v hv)
  obtain ⟨henvironment, hoverrides, harguments, hdirectory⟩ :=
    requestOf_given options items environ cwd names
  refine ⟨?_, ?_, ?_, ?_⟩
  · rw [lookup_normalized hkeys, henvironment, Option.map_some, hself _ (by simp [given])]
  · rw [lookup_normalized hkeys, hoverrides, Option.map_some, hself _ (by simp [given])]
  · rw [lookup_normalized hkeys, harguments, Option.map_some, hself _ (by simp [given])]
  · rw [lookup_normalized hkeys, hdirectory]
    cases cwd with
    | none => rfl
    | some s => rw [Option.map_some, Option.map_some, hself _ (by simp [given])]

/-- All that was given is in what is seen. -/
theorem Seen.texts {seen : Dict} (h : Seen options environ cwd seen) :
    ∀ v ∈ given options environ cwd, ∀ s ∈ v.texts, s ∈ (Value.dict seen).texts := by
  intro v hv
  rw [given, List.mem_append] at hv
  simp only [List.mem_cons, List.not_mem_nil, or_false] at hv
  obtain (rfl | rfl | rfl) | hv := hv
  · exact texts_of_lookup h.environment
  · exact texts_of_lookup h.overrides
  · exact texts_of_lookup h.arguments
  · exact texts_of_lookup (h.directory.trans (Option.mem_toList.1 hv))

/-- A request is read as what the client was given if and only if it can be said in XML. -/
theorem seen_iff (xmlReadMemory : Bytes → Option Doc) (hxml : Conforms xmlReadMemory) (hstrict : Strict xmlReadMemory)
    (hitem : ∀ x ∈ items, ∃ item, x = itemValue item)
    (hsize : (plistText (.ofMap (requestOf options items environ cwd names))).length ≤ maxMessage)
    (hcount : (Value.ofMap (requestOf options items environ cwd names)).count ≤ 16384) :
    (∃ bytes seen, frame (.ofMap (requestOf options items environ cwd names)) = .ok bytes ∧
      parsePlist xmlReadMemory (bytes.drop 4) false = .ok (.dict seen) ∧ Seen options environ cwd seen) ↔
      Sayable options items environ cwd names := by
  have htidy : ∀ plain : Bool, (plain = true → ∀ v ∈ given options environ cwd, ∀ s ∈ v.texts, 13 ∉ s) →
      Tidy plain 32 [] (.ofMap (requestOf options items environ cwd names)) :=
    fun plain h => tidy_ofMap (fun _ => List.not_mem_nil) (tidy_request hitem h)
  constructor
  · rintro ⟨bytes, seen, hframe, hread, hseen⟩
    rw [Launchd.frame_eq] at hframe
    obtain ⟨payload, hwrite, rfl⟩ := Launchd.map_eq_ok hframe
    have htexts := Launchd.texts_of_read hstrict hwrite hread
    have hdepth := (htidy false fun h => by cases h).within
    refine ⟨htexts, fun v hv s hs => ?_⟩
    exact Launchd.plain_of_read hxml hdepth htexts hwrite hread s (hseen.texts v hv s hs)
  · rintro ⟨htexts, hplain⟩
    have hrequest := htidy true fun _ => hplain
    have hwrite := Launchd.writePlist_ok htexts hsize
    have hread := Launchd.read_normalized hxml false hrequest.ordered hcount hrequest.within htexts
      (hrequest.keys rfl) hsize
    rw [Value.ofMap, Value.normalized] at hread
    refine ⟨Launchd.framed (plistText (.ofMap (requestOf options items environ cwd names))), _, ?_, hread,
      seen_normalized hitem hplain⟩
    rw [Launchd.frame_eq, hwrite]
    rfl

end MiniDarwin.Open
