import MiniDarwin.Installer.Basic

/-!
`util.c`: paths, files and lists of entries.

Everything here fails by calling `die`. The lemmas give each function one
rule: what has to hold afterwards, and after a `die`, for the function to
be followed by the rest. The rules for the functions that change the tree
are in the modules that need them, since they say where the changes may
be.
-/

namespace MiniDarwin.Installer

open Posix Effects Effects.Proc

/-! ### Paths -/

/-- `path_join ()` on strings. -/
def strJoin (a b : Str) : M Str :=
  if a = [] then pure b
  else if b = [] then pure a
  else if a.length + b.length + 2 > pathMax then
    die s!"path too long: {String.ofList a}/{String.ofList b}"
  else pure (a ++ (if a.getLast? = some '/' then [] else ['/']) ++ b)

/-- `path_join ()` on two relative paths. -/
def relJoin (a b : Path) : M Path :=
  if a = [] then pure b
  else if b = [] then pure a
  else if strlen a + strlen b + 2 > pathMax then die s!"path too long: {str a}/{str b}"
  else pure (a ++ b)

/-- `path_join ()` on an absolute path and a relative one. -/
def hostJoin (a b : Path) : M Path :=
  if b = [] then pure a
  else if hostLen a + strlen b + 2 > pathMax then die s!"path too long: {hostStr a}/{str b}"
  else pure (a ++ b)

/-- `path_has_prefix ()`: the path is `top` or lies beneath it. -/
def pathHasPrefix (path top : Path) : Bool := decide (top <+: path)

/-- `path_exists ()` -/
def pathExists (path : Path) : M Bool := do
  match ← ask (.lstat path) with
  | .ok _ => pure true
  | .error .ENOENT => pure false
  | .error e => die s!"stat {hostStr path}: {strerror e}"

/-- `journal_add ()` -/
def journalAdd (path : Path) : M Unit := modify fun g => { g with journal := g.journal ++ [path] }

/-- `if (create_hook) create_hook (path)` -/
def createHook (path : Path) : M Unit := do
  let g ← get
  if g.createHook then journalAdd path else pure ()

/-- The body of the loop of `path_parents ()`. -/
def pathParent (create : Bool) (host : Path) : M Unit := do
  match ← ask (.lstat host) with
  | .ok st =>
      if st.kind ≠ .dir then die s!"not a directory: {hostStr host}" else pure ()
  | .error e =>
      if e ≠ .ENOENT then die s!"stat {hostStr host}: {strerror e}"
      else if create then do
        let _ ← call (.mkdir host 0o755) fun e => s!"mkdir {hostStr host}: {strerror e}"
        createHook host
      else pure ()

/-- The directories above `done ++ rest` that lie beneath `done`. -/
def pathParentsFrom (base : Path) (create : Bool) : Path → Path → M Unit
  | done, n :: m :: rest => do
      let host ← hostJoin base (done ++ [n])
      pathParent create host
      pathParentsFrom base create (done ++ [n]) (m :: rest)
  | _, _ => pure ()

/-- `path_parents ()`: checks, and with `create` makes, every directory above
`rel` beneath `base`. -/
def pathParents (base rel : Path) (create : Bool) : M Unit := pathParentsFrom base create [] rel

/-! ### Files -/

/-- `file_read ()` -/
def fileRead (path : Path) (limit : Nat) : M Bytes := do
  let data ← call (.read path) fun _ => s!"cannot read regular file {hostStr path}"
  if data.length > limit then die s!"file too large: {hostStr path}" else pure data

/-- The loop of `write_all ()`. Each round writes at least one byte, so as many
rounds as there are bytes are enough. -/
def writeRounds (path : Path) : Nat → Bytes → M Unit
  | 0, _ => pure ()
  | rounds + 1, data =>
      if data = [] then pure ()
      else do
        let n : Nat ← call (.write path data) fun e => s!"write {hostStr path}: {strerror e}"
        if n = 0 then die s!"write {hostStr path}" else writeRounds path rounds (data.drop n)

/-- `write_all ()` -/
def writeAll (path : Path) (data : Bytes) : M Unit := writeRounds path data.length data

/-- `file_create ()` -/
def fileCreate (path : Path) : M Unit := do
  let _ ← call (.create path) fun e => s!"create {hostStr path}: {strerror e}"
  createHook path

/-- `file_finish ()` -/
def fileFinish (path : Path) (mode : Mode) : M Unit := do
  let _ ← call (.fchmod path mode) fun e => s!"flush {hostStr path}: {strerror e}"
  let _ ← call (.fsync path) fun e => s!"flush {hostStr path}: {strerror e}"
  pure ()

/-- `file_write ()` -/
def fileWrite (path : Path) (contents : Bytes) (mode : Mode) : M Unit := do
  fileCreate path
  writeAll path contents
  fileFinish path mode

/-- `file_copy ()` -/
def fileCopy (src dst : Path) (mode : Mode) : M Unit := do
  let _ ← call (.read src) fun e => s!"open {hostStr src}: {strerror e}"
  fileCreate dst
  let data ← call (.read src) fun e => s!"read {hostStr src}: {strerror e}"
  writeAll dst data
  fileFinish dst mode

/-- `file_sha256 ()` -/
def fileSha256 (env : Env) (path : Path) : M Bytes := do
  let data ← call (.read path) fun e => s!"hash {hostStr path}: {strerror e}"
  pure (env.sha256 data)

/-! ### Lists of entries -/

/-- `entries_append ()` -/
def entriesAppend {α : Type} (list : List α) (e : α) : M (List α) :=
  if list.length ≥ limitEntries then die "entry limit" else pure (list ++ [e])

/-- `path_compare ()`, in which the slash sorts first. -/
def pathCompare : Str → Str → Ordering
  | [], [] => .eq
  | [], _ :: _ => .lt
  | _ :: _, [] => .gt
  | a :: as, b :: bs =>
      let x := if a = '/' then 1 else a.toNat
      let y := if b = '/' then 1 else b.toNat
      if x = y then pathCompare as bs else compare x y

/-- `bsearch ()` over a sorted list, the first of `lim` elements being `start`. -/
def bsearch (sorted : List Entry) (key : Str) : Nat → Nat → Nat → Option Entry
  | 0, _, _ => none
  | fuel + 1, start, lim =>
      if lim = 0 then none
      else
        match sorted[start + lim / 2]? with
        | none => none
        | some e =>
            match pathCompare key (render e.path) with
            | .eq => some e
            | .gt => bsearch sorted key fuel (start + lim / 2 + 1) ((lim - 1) / 2)
            | .lt => bsearch sorted key fuel start (lim / 2)

/-- `entries_check_paths ()` -/
def entriesCheckPaths (list : List Entry) (allowRepeatedDirectories : Bool) : M Unit :=
  let sorted := list.insertionSort fun a b => pathCompare (render a.path) (render b.path) ≠ .gt
  match (sorted.zip sorted.tail).find? fun x =>
      x.1.path = x.2.path ∧ ¬ (allowRepeatedDirectories ∧ x.1.isDir ∧ x.2.isDir) with
  | some x => die s!"duplicate path in payload: {str x.2.path}"
  | none =>
      match sorted.find? fun e => e.path.dropLast.inits.tail.any fun top =>
          (bsearch sorted (render top) (sorted.length + 1) 0 sorted.length).any fun parent =>
            !parent.isDir with
      | some e => die s!"payload entry beneath a non-directory: {str e.path}"
      | none => pure ()

/-! ### Rules -/

section Rules

variable {K : Kernel Part} {E : Op Part → World Part → Prop}
  {g : Globals} {w : World Part} {D : String → Globals → World Part → Prop}

/-- `path_join ()` accepts the two paths. -/
def Fits (a b : Path) : Prop := b = [] ∨ hostLen a + strlen b + 2 ≤ pathMax

theorem wp_strJoin {a b : Str} {Q : Str → Globals → World Part → Prop}
    (hQ : ∀ s, (a = [] ∧ s = b ∨ b = [] ∧ s = a ∨ s = a ++ '/' :: b ∨
      s = a ++ b ∧ a.getLast? = some '/') → Q s g w) (hD : ∀ msg, D msg g w) :
    wp (sem K) E (strJoin a b) Q D g w := by
  unfold strJoin
  split
  · next h => exact hQ b (.inl ⟨h, rfl⟩)
  · split
    · next h => exact hQ a (.inr (.inl ⟨h, rfl⟩))
    · split
      · exact hD _
      · refine hQ _ (.inr (.inr ?_))
        split
        · next h => exact .inr ⟨by simp, h⟩
        · exact .inl (by simp)

theorem wp_relJoin {a b : Path} {Q : Path → Globals → World Part → Prop}
    (hQ : Q (a ++ b) g w) (hD : ∀ msg, D msg g w) :
    wp (sem K) E (relJoin a b) Q D g w := by
  unfold relJoin
  split
  · next h => simpa [h] using hQ
  · split
    · next h => simpa [h] using hQ
    · split
      · exact hD _
      · exact hQ

theorem wp_hostJoin {a b : Path} {Q : Path → Globals → World Part → Prop}
    (hQ : Fits a b → Q (a ++ b) g w) (hD : ¬ Fits a b → ∀ msg, D msg g w) :
    wp (sem K) E (hostJoin a b) Q D g w := by
  unfold hostJoin
  split
  · next h => simpa [h] using hQ (.inl h)
  · next h =>
      split
      · next hl => exact hD (by simp [Fits, h]; omega) _
      · next hl => exact hQ (.inr (by omega))

@[simp] theorem wp_journalAdd {p : Path} {Q : Unit → Globals → World Part → Prop} :
    wp (sem K) E (journalAdd p) Q D g w ↔
      Q () { g with journal := g.journal ++ [p] } w := Iff.rfl

/-- The variables after something was created under the name `p`. -/
def Globals.hooked (g : Globals) (p : Path) : Globals :=
  if g.createHook then { g with journal := g.journal ++ [p] } else g

@[simp] theorem wp_createHook {p : Path} {Q : Unit → Globals → World Part → Prop} :
    wp (sem K) E (createHook p) Q D g w ↔ Q () (g.hooked p) w := by
  unfold createHook Globals.hooked
  rw [wp_bind, wp_get]
  split <;> simp

theorem wp_pathExists {b B q : Path} {Q : Bool → Globals → World Part → Prop}
    (hb : At w.fs b B) (hq : q ≠ []) (hc : Clear w.fs B q) (hE : E (.lstat (b ++ q)) w)
    (hyes : w.fs.get (B ++ q) ≠ none → Q true g w) (hno : w.fs.get (B ++ q) = none → Q false g w)
    (hD : K.flaky (.lstat (b ++ q)) w → ∀ msg, D msg g w) :
    wp (sem K) E (pathExists (b ++ q)) Q D g w := by
  unfold pathExists
  rw [wp_bind]
  refine wp_lstat hb hq hc hE ?_ ?_ ?_
  · exact fun v hv => hyes (by simp [hv])
  · exact hno
  · exact fun hf => hD hf _

end Rules

end MiniDarwin.Installer
