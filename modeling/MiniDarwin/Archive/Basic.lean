import MiniDarwin.Posix.Rules

/-!
What `cpio.c` and `xar.c` use of `util.c`: numbers, paths and slices of
memory.

A C string is the list of its bytes, without the zero at its end. A C
function returns or calls `die ()`, and so does the model. The model has one
more way to stop: a read outside of an object and a sum or difference of
`size_t` that wraps are a `fault`, so that a function which never stops so
does neither.
-/

namespace MiniDarwin.Archive

open Posix (Bytes)

inductive Stop where
  | die (message : String)
  | fault
  deriving DecidableEq

abbrev Result := Except Stop

def die {α : Type} (message : String) : Result α := .error (.die message)

/-- `if (p) die (message)` -/
def dieIf (p : Prop) [Decidable p] (message : String) : Result Unit := if p then die message else .ok ()

/-- A string in a message. -/
def text (s : Bytes) : String := String.ofList (s.map fun c => Char.ofNat c.toNat)

/-- A string literal. -/
def lit (s : String) : Bytes := s.toList.map fun c => UInt8.ofNat c.toNat

def limitMember : Nat := 512 * 1024 * 1024

def limitDecoded : Nat := 1024 * 1024 * 1024

def limitXml : Nat := 16 * 1024 * 1024

def limitEntries : Nat := 100000

def limitDepth : Nat := 128

def pathMax : Nat := 1024

def nameMax : Nat := 255

/-! ### Memory -/

/-- `a + b` -/
def plus (a b : Nat) : Result Nat := if a + b < 2 ^ 64 then .ok (a + b) else .error .fault

/-- `a - b` -/
def minus (a b : Nat) : Result Nat := if b ≤ a then .ok (a - b) else .error .fault

/-- `n` bytes from `start` on. -/
def slice (b : Bytes) (start n : Nat) : Result Bytes :=
  if start + n ≤ b.length then .ok ((b.drop start).take n) else .error .fault

/-- The string that starts a piece of memory. -/
def cstr (b : Bytes) : Bytes := b.takeWhile (· ≠ 0)

/-- An object in memory. -/
structure Buffer where
  data : Bytes
  size : data.length < 2 ^ 63

/-! ### Numbers -/

def isSpace (c : UInt8) : Bool := c = 32 ∨ 9 ≤ c ∧ c ≤ 13

/-- The value of a letter or digit. -/
def digit (c : UInt8) : Option Nat :=
  if 48 ≤ c ∧ c ≤ 57 then some (c.toNat - 48)
  else if 97 ≤ c ∧ c ≤ 122 then some (c.toNat - 87)
  else if 65 ≤ c ∧ c ≤ 90 then some (c.toNat - 55)
  else none

def isDigit (base : Nat) (c : UInt8) : Bool := (digit c).any (· < base)

def number (base : Nat) (s : Bytes) : Nat := s.foldl (fun n c => n * base + (digit c).getD 0) 0

/-- The sign that a number may start with. -/
def unsigned : Bytes → Bool × Bytes
  | 45 :: s => (true, s)
  | 43 :: s => (false, s)
  | s => (false, s)

/-- The `0x` that a hexadecimal number may start with. -/
def unprefixed (base : Nat) : Bytes → Bytes
  | 48 :: x :: d :: s =>
      if base = 16 ∧ (x = 120 ∨ x = 88) ∧ isDigit 16 d then d :: s else 48 :: x :: d :: s
  | s => s

/-- `strtoull ()`: the value, unless `errno` is set, and what follows the number. -/
def strtoull (s : Bytes) (base : Nat) : Option Nat × Bytes :=
  let (neg, rest) := unsigned (s.dropWhile isSpace)
  let rest := unprefixed base rest
  let digits := rest.takeWhile (isDigit base)
  let n := number base digits
  if digits = [] then (none, s)
  else if n ≥ 2 ^ 64 then (none, rest.drop digits.length)
  else (some (if neg then (2 ^ 64 - n) % 2 ^ 64 else n), rest.drop digits.length)

def parseUint (s : Bytes) (base : Nat) : Result Nat :=
  if s = [] ∨ s.head? = some 45 ∨ s.head? = some 43 ∨ s.head? = some 32 then
    die "missing or invalid integer"
  else
    match strtoull s base with
    | (some n, []) => .ok n
    | _ => die s!"invalid integer: {text s}"

/-! ### Paths -/

def pathJoin (a b : Bytes) : Result Bytes :=
  if a = [] then .ok b
  else if b = [] then .ok a
  else if a.length + b.length + 2 > pathMax then die s!"path too long: {text a}/{text b}"
  else .ok (a ++ (if a.getLast? = some 47 then [] else [47]) ++ b)

/-- The components of a path, as they stand between slashes. -/
def components (path : Bytes) : List Bytes := path.splitOn 47

/-- The loop of `path_normalize ()`. -/
def normalizeFrom (path : Bytes) : List Bytes → (out : Bytes) → (depth : Nat) → Result Bytes
  | [], out, _ => .ok out
  | c :: rest, out, depth =>
      if c = [] ∨ c = [46] then normalizeFrom path rest out depth
      else do
        dieIf (c = [46, 46] ∨ c.length > nameMax) s!"unsafe path: {text path}"
        dieIf (depth + 1 > limitDepth) "path nesting limit"
        dieIf (∃ x ∈ c, x < 32 ∨ x = 92) s!"unsupported character in path: {text path}"
        normalizeFrom path rest ((if out = [] then [] else out ++ [47]) ++ c) (depth + 1)

def pathNormalize (path : Bytes) (absolute : Bool) : Result Bytes := do
  dieIf (absolute ∧ path.head? ≠ some 47) s!"install location must be absolute: {text path}"
  dieIf (¬ absolute ∧ path.head? = some 47) s!"absolute archive path: {text path}"
  let s := if absolute then path.dropWhile (· = 47) else path
  let out ← normalizeFrom path (components s) [] 0
  dieIf (out.length ≥ pathMax - nameMax) "path too long"
  return out

/-- Normalized paths. -/
structure Normalized (path : Bytes) : Prop where
  names : path ≠ [] → ∀ c ∈ components path, c ≠ [] ∧ c ≠ [46] ∧ c ≠ [46, 46] ∧ c.length ≤ nameMax ∧
    ∀ x ∈ c, 32 ≤ x ∧ x ≠ 92
  depth : (components path).length ≤ limitDepth
  size : path.length < pathMax - nameMax

/-! ### Lemmas -/

variable {a b x l : Bytes} {n k : Nat}

theorem slice_skip (hk : x.length = k) (hn : k ≤ n) (m : Nat) : slice (x ++ l) n m = slice l (n - k) m := by
  subst hk
  have hdrop : (x ++ l).drop n = l.drop (n - x.length) := by
    rw [List.drop_append, List.drop_eq_nil_of_le hn, List.nil_append]
  unfold slice
  rw [hdrop, List.length_append]
  congr 1
  apply propext
  omega

theorem slice_here (hk : x.length = k) : slice (x ++ l) 0 k = .ok x := by
  subst hk
  rw [slice, if_pos (by simp), List.drop_zero, List.take_left]

/-- A number that is written with digits alone. -/
theorem parseUint_digits {base : Nat} {s : Bytes} (hne : s ≠ []) (h : ∀ c ∈ s, isDigit base c)
    (hprint : ∀ c ∈ s, 48 ≤ c) (hx : 120 ∉ s ∧ 88 ∉ s) (hvalue : number base s < 2 ^ 64) :
    parseUint s base = .ok (number base s) := by
  obtain ⟨c, rest, rfl⟩ := List.exists_cons_of_ne_nil hne
  have hc := hprint c (.head _)
  have hnot : ∀ d : UInt8, d < 48 → c ≠ d := by
    rintro d hd rfl
    exact absurd hd (UInt8.not_lt.2 hc)
  have hspace : isSpace c = false := by
    simp only [isSpace, decide_eq_false_iff_not, not_or, not_and]
    refine ⟨hnot 32 (by decide), fun _ h13 => ?_⟩
    exact absurd (UInt8.le_trans hc h13) (by decide)
  have hsign : unsigned (c :: rest) = (false, c :: rest) := by
    unfold unsigned
    split
    · next heq => exact absurd (List.cons.inj heq).1 (hnot 45 (by decide))
    · next heq => exact absurd (List.cons.inj heq).1 (hnot 43 (by decide))
    · rfl
  have hhex : unprefixed base (c :: rest) = c :: rest := by
    unfold unprefixed
    split
    · next x d t heq =>
        rw [heq] at hx
        have hx' : ¬ (base = 16 ∧ (x = 120 ∨ x = 88) ∧ isDigit 16 d = true) := by
          rintro ⟨-, rfl | rfl, -⟩
          · exact hx.1 (.tail _ (.head _))
          · exact hx.2 (.tail _ (.head _))
        rw [if_neg hx', heq]
    · rfl
  have htake : (c :: rest).takeWhile (isDigit base) = c :: rest := List.takeWhile_eq_self_iff.2 h
  have hstrtoull : strtoull (c :: rest) base = (some (number base (c :: rest)), []) := by
    simp only [strtoull, List.dropWhile_cons_of_neg (by simpa using hspace), hsign, hhex, htake]
    rw [if_neg (List.cons_ne_nil _ _), if_neg (by omega)]
    simp
  have hstart : ¬ (c :: rest = [] ∨ (c :: rest).head? = some 45 ∨ (c :: rest).head? = some 43 ∨
      (c :: rest).head? = some 32) := by
    simp only [List.head?_cons, Option.some.injEq, reduceCtorEq, false_or, not_or]
    exact ⟨hnot 45 (by decide), hnot 43 (by decide), hnot 32 (by decide)⟩
  rw [parseUint, if_neg hstart, hstrtoull]

/-! ### Rules -/

/-- There is no fault, and a result meets `Q`. -/
def Safely {α : Type} (x : Result α) (Q : α → Prop) : Prop := x ≠ .error .fault ∧ ∀ a, x = .ok a → Q a

section Rules

variable {α β : Type} {x y : Result α} {f : α → Result β} {Q R : α → Prop} {P : β → Prop}

theorem safely_ok {a : α} (h : Q a) : Safely (.ok a) Q :=
  ⟨by simp, fun a' ha' => Except.ok.inj ha' ▸ h⟩

theorem safely_pure {a : α} (h : Q a) : Safely (pure a) Q := safely_ok h

theorem safely_die {message : String} : Safely (die message) Q :=
  ⟨by simp [die], fun a ha => by simp [die] at ha⟩

theorem safely_bind (h : Safely x fun a => Safely (f a) P) : Safely (x >>= f) P := by
  obtain ⟨hfault, hok⟩ := h
  cases x with
  | error e => exact ⟨fun he => hfault (by rw [Except.error.inj he]), fun b hb => by cases hb⟩
  | ok a => exact hok a rfl

theorem Safely.mono (h : Safely x Q) (hQ : ∀ a, Q a → R a) : Safely x R :=
  ⟨h.1, fun a ha => hQ a (h.2 a ha)⟩

theorem safely_dieIf {p : Prop} [Decidable p] {message : String} {Q : Unit → Prop} (h : ¬ p → Q ()) :
    Safely (dieIf p message) Q := by
  unfold dieIf
  split
  · exact safely_die
  · next hp => exact safely_ok (h hp)

theorem safely_minus {a b : Nat} {Q : Nat → Prop} (h : b ≤ a) (hQ : Q (a - b)) : Safely (minus a b) Q := by
  rw [minus, if_pos h]
  exact safely_ok hQ

theorem safely_slice {Q : Bytes → Prop} (h : n + k ≤ b.length) (hQ : Q ((b.drop n).take k)) :
    Safely (slice b n k) Q := by
  rw [slice, if_pos h]
  exact safely_ok hQ

/-- A function that has no way to fault. -/
theorem safely_self (h : x ≠ .error .fault) : Safely x fun a => x = .ok a := ⟨h, fun _ ha => ha⟩

theorem parseUint_ne_fault (s : Bytes) (base : Nat) : parseUint s base ≠ .error .fault := by
  unfold parseUint
  split
  · simp [die]
  · split
    · simp
    · simp [die]

/-- The components that are kept. -/
def kept (names : List Bytes) : List Bytes := names.filter fun c => c ≠ [] ∧ c ≠ [46]

/-- Where the loop comes to its end, all names are allowed and joined. -/
theorem safely_normalizeFrom {path out : Bytes} {names : List Bytes} {depth : Nat} (hdepth : depth ≤ limitDepth) :
    Safely (normalizeFrom path names out depth) fun r =>
      (∀ c ∈ kept names, c ≠ [46, 46] ∧ c.length ≤ nameMax ∧ ∀ x ∈ c, 32 ≤ x ∧ x ≠ 92) ∧
      depth + (kept names).length ≤ limitDepth ∧
      r = if kept names = [] then out
        else (if out = [] then [] else out ++ [47]) ++ [47].intercalate (kept names) := by
  induction names generalizing out depth with
  | nil => exact safely_ok ⟨by simp [kept], by simpa [kept] using hdepth, by simp [kept]⟩
  | cons c rest ih =>
      rw [normalizeFrom]
      split
      · next hskip =>
          have hkept : kept (c :: rest) = kept rest := by
            apply List.filter_cons_of_neg
            simpa using or_iff_not_imp_left.1 hskip
          rw [hkept]
          exact ih hdepth
      · next hskip =>
          have hkept : kept (c :: rest) = c :: kept rest := by
            apply List.filter_cons_of_pos
            simpa [not_or] using hskip
          have hc : c ≠ [] := fun hc => hskip (.inl hc)
          apply safely_bind
          apply safely_dieIf
          intro hunsafe
          apply safely_bind
          apply safely_dieIf
          intro hnest
          apply safely_bind
          apply safely_dieIf
          intro hplain
          apply (ih (by omega)).mono
          rintro r ⟨hnames, hlen, hr⟩
          rw [hkept]
          refine ⟨?_, by rw [List.length_cons]; omega, ?_⟩
          · intro c' hc'
            obtain rfl | hc' := List.mem_cons.1 hc'
            · refine ⟨fun h => hunsafe (.inl h), not_lt.1 fun h => hunsafe (.inr h), fun x hx => ?_⟩
              exact ⟨UInt8.not_lt.1 fun h => hplain ⟨x, hx, .inl h⟩, fun h => hplain ⟨x, hx, .inr h⟩⟩
            · exact hnames c' hc'
          · have hne : (if out = [] then [] else out ++ [47]) ++ c ≠ [] := by simp [hc]
            rw [hr, if_neg hne, if_neg (List.cons_ne_nil _ _)]
            cases kept rest with
            | nil => simp
            | cons c' rest => simp [List.intercalate_cons_cons]

theorem Normalized.relative {path : Bytes} (h : Normalized path) : path.head? ≠ some 47 := by
  intro hhead
  obtain ⟨rest, rfl⟩ : ∃ rest, path = 47 :: rest := by
    cases path with
    | nil => cases hhead
    | cons c rest => exact ⟨rest, by rw [Option.some.inj hhead]⟩
  have hfirst : [] ∈ components (47 :: rest) := by
    rw [components, List.splitOn_cons_eq_if_modifyHead]
    simp
  exact (h.names (List.cons_ne_nil _ _) [] hfirst).1 rfl

theorem Normalized.nil : Normalized [] where
  names := fun h => absurd rfl h
  depth := by decide
  size := by decide

/-- What `path_normalize ()` returns for a path without dots and empty components. -/
theorem safely_pathNormalize {path : Bytes} (hnames : ∀ c ∈ components path, c ≠ [] ∧ c ≠ [46]) :
    Safely (pathNormalize path false) fun r => r = path ∧ Normalized path := by
  have hkept : kept (components path) = components path := by
    apply List.filter_eq_self.2
    intro c hc
    simpa using hnames c hc
  have hne : components path ≠ [] := List.splitOn_ne_nil _ _
  apply safely_bind
  apply safely_dieIf
  intro _
  apply safely_bind
  apply safely_dieIf
  intro _
  apply safely_bind
  apply (safely_normalizeFrom (Nat.zero_le _)).mono
  rintro r ⟨hallowed, hdepth, hr⟩
  simp only [Bool.false_eq_true, if_false, hkept] at hallowed hdepth hr
  have hsame : r = path := by
    rw [hr, if_neg hne, if_pos trivial, List.nil_append, components, List.intercalate_splitOn]
  apply safely_bind
  apply safely_dieIf
  intro hsize
  apply safely_pure
  refine ⟨hsame, fun _ c hc => ?_, by omega, ?_⟩
  · exact ⟨(hnames c hc).1, (hnames c hc).2, hallowed c hc⟩
  · rw [← hsame]
    omega

end Rules

end MiniDarwin.Archive
