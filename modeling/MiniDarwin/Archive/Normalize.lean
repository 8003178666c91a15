import MiniDarwin.Archive.Reading
import MiniDarwin.Archive.Bounds

/-!
What `path_normalize ()` decides and returns.

The scan copies the names it keeps into memory that is as large as what it
scans. It is repeated here with that memory, where a write outside of it is
a fault.
-/

namespace MiniDarwin.Archive

open Posix (Bytes)

variable {path out : Bytes} {absolute : Bool}

/-- What may be asked of a component. -/
structure Allowed (c : Bytes) : Prop where
  up : c ≠ [46, 46]
  size : c.length ≤ nameMax
  characters : ∀ x ∈ c, ¬ (x < 32 ∨ x = 92)

/-- The names that are kept, joined. -/
def joinedNames (path : Bytes) : Bytes := [47].intercalate (kept (components path))

/-- What is asked of a path. -/
structure Acceptable (path : Bytes) (absolute : Bool) : Prop where
  start : path.head? = some 47 ↔ absolute = true
  names : ∀ c ∈ components path, Allowed c
  depth : (kept (components path)).length ≤ limitDepth
  size : (joinedNames path).length < pathMax - nameMax

/-- There is no slash at either end, and no two of them follow each other. -/
structure Slashless (path : Bytes) : Prop where
  first : path.head? ≠ some 47
  last : path.getLast? ≠ some 47
  double : ¬ [47, 47] <:+: path

theorem ok_of_bind {α β : Type} {x : Result α} {f : α → Result β} {b : β} (h : x >>= f = .ok b) :
    ∃ a, x = .ok a ∧ f a = .ok b := by
  cases x with
  | error e => cases h
  | ok a => exact ⟨a, rfl, h⟩

/-! ### The scan -/

theorem kept_components_slash (path : Bytes) : kept (components (47 :: path)) = kept (components path) := by
  rw [components, List.splitOn_cons_eq_if_modifyHead, if_pos (by rfl)]
  rfl

theorem kept_components_dropWhile (path : Bytes) :
    kept (components (path.dropWhile (· = 47))) = kept (components path) := by
  induction path with
  | nil => rfl
  | cons x path ih =>
      by_cases hx : x = 47
      · subst hx
        rw [List.dropWhile_cons_of_pos (by simp), ih, kept_components_slash]
      · rw [List.dropWhile_cons_of_neg (by simpa using hx)]

theorem allowed_of_dot {c : Bytes} (h : c = [] ∨ c = [46]) : Allowed c := by
  obtain rfl | rfl := h
  · exact ⟨by simp, by simp, by simp⟩
  · refine ⟨by simp, by simp [nameMax], ?_⟩
    intro x hx
    obtain rfl := List.mem_singleton.1 hx
    decide

/-- What is not kept is allowed in any case. -/
theorem allowed_iff_kept {names : List Bytes} : (∀ c ∈ names, Allowed c) ↔ ∀ c ∈ kept names, Allowed c := by
  constructor
  · exact fun h c hc => h c (List.mem_of_mem_filter hc)
  · intro h c hc
    by_cases hdot : c = [] ∨ c = [46]
    · exact allowed_of_dot hdot
    · refine h c (List.mem_filter.2 ⟨hc, ?_⟩)
      simpa [not_or] using hdot

theorem normalizeFrom_kept {names : List Bytes} {depth : Nat} :
    normalizeFrom path names out depth = normalizeFrom path (kept names) out depth := by
  induction names generalizing out depth with
  | nil => rfl
  | cons c names ih =>
      by_cases hskip : c = [] ∨ c = [46]
      · have hkept : kept (c :: names) = kept names := by
          apply List.filter_cons_of_neg
          simpa using or_iff_not_imp_left.1 hskip
        rw [normalizeFrom, if_pos hskip, hkept, ih]
      · have hkept : kept (c :: names) = c :: kept names := by
          apply List.filter_cons_of_pos
          simpa [not_or] using hskip
        rw [hkept, normalizeFrom, normalizeFrom, if_neg hskip, if_neg hskip]
        simp only [ih]

/-- The scan returns when the names are allowed and not too many, and then what they are when joined. -/
theorem normalizeFrom_ok {names : List Bytes} {r : Bytes} :
    normalizeFrom path names [] 0 = .ok r ↔
      ((∀ c ∈ names, Allowed c) ∧ (kept names).length ≤ limitDepth) ∧ r = [47].intercalate (kept names) := by
  constructor
  · intro h
    obtain ⟨hallowed, hdepth, hr⟩ := (safely_normalizeFrom (Nat.zero_le _)).2 r h
    refine ⟨⟨allowed_iff_kept.2 ?_, by omega⟩, ?_⟩
    · intro c hc
      obtain ⟨hup, hsize, hchars⟩ := hallowed c hc
      refine ⟨hup, hsize, ?_⟩
      rintro x hx (hlow | hback)
      · exact absurd hlow (UInt8.not_lt.2 (hchars x hx).1)
      · exact (hchars x hx).2 hback
    · rw [hr]
      split
      next hnone =>
        rw [hnone]
        rfl
      · rfl
  · rintro ⟨⟨hallowed, hdepth⟩, rfl⟩
    rw [normalizeFrom_kept, normalizeFrom_names ?_ (by omega)]
    · split
      next hnone =>
        rw [hnone]
        rfl
      · rfl
    · intro c hc
      have hkept := List.of_mem_filter hc
      simp only [ne_eq, decide_eq_true_eq] at hkept
      have h := allowed_iff_kept.1 hallowed c hc
      refine ⟨hkept.1, hkept.2, h.up, h.size, fun x hx => ?_⟩
      have hx := not_or.1 (h.characters x hx)
      exact ⟨UInt8.not_lt.1 hx.1, hx.2⟩

/-! ### The memory of the scan -/

/-- `memcpy (mem + start, piece, n)` -/
def store (mem : Bytes) (start : Nat) (piece : Bytes) : Result Bytes :=
  if start + piece.length ≤ mem.length then .ok (mem.take start ++ piece ++ mem.drop (start + piece.length))
  else .error .fault

/-- `if (used) out[used++] = '/'` -/
def storeSlash (out : Bytes) (used : Nat) : Result (Bytes × Nat) :=
  if used = 0 then .ok (out, used) else do return (← store out used [47], used + 1)

/-- The loop of `path_normalize ()`, with `out` and `used`. -/
def normalizeInto (path : Bytes) : List Bytes → (out : Bytes) → (used depth : Nat) → Result (Bytes × Nat)
  | [], out, used, _ => .ok (out, used)
  | c :: rest, out, used, depth =>
      if c = [] ∨ c = [46] then normalizeInto path rest out used depth
      else do
        dieIf (c = [46, 46] ∨ c.length > nameMax) s!"unsafe path: {text path}"
        dieIf (depth + 1 > limitDepth) "path nesting limit"
        dieIf (∃ x ∈ c, x < 32 ∨ x = 92) s!"unsupported character in path: {text path}"
        let (out, used) ← storeSlash out used
        let out ← store out used c
        normalizeInto path rest out (used + c.length) (depth + 1)

/-- `path_normalize ()`, with the memory from `xcalloc (len + 1, 1)`. -/
def pathNormalizeInto (path : Bytes) (absolute : Bool) : Result Bytes := do
  dieIf (absolute ∧ path.head? ≠ some 47) s!"install location must be absolute: {text path}"
  dieIf (¬ absolute ∧ path.head? = some 47) s!"absolute archive path: {text path}"
  let s := if absolute then path.dropWhile (· = 47) else path
  let (out, used) ← normalizeInto path (components s) (List.replicate (s.length + 1) 0) 0 0
  dieIf (used ≥ pathMax - nameMax) "path too long"
  return cstr out

/-- Memory of `len + 1` bytes that starts with `out`. -/
def memory (len : Nat) (out : Bytes) : Bytes := out ++ List.replicate (len + 1 - out.length) 0

theorem store_memory {len : Nat} {piece : Bytes} (h : out.length + piece.length ≤ len) :
    store (memory len out) out.length piece = .ok (memory len (out ++ piece)) := by
  have hlen : (memory len out).length = len + 1 := by
    rw [memory, List.length_append, List.length_replicate]
    omega
  have htake : (memory len out).take out.length = out := List.take_left
  have hdrop : (memory len out).drop (out.length + piece.length) =
      List.replicate (len + 1 - (out ++ piece).length) 0 := by
    rw [memory, List.drop_length_add_append, List.drop_replicate, List.length_append, Nat.sub_sub]
  rw [store, if_pos (by omega), htake, hdrop, memory]

/-- What is written so far, with a slash behind it. -/
def separated (out : Bytes) : Bytes := if out = [] then [] else out ++ [47]

theorem length_separated (out : Bytes) : (separated out).length = out.length + if out = [] then 0 else 1 := by
  rw [separated]
  split
  next hout => simp [hout]
  · rw [List.length_append, List.length_singleton]

theorem storeSlash_memory {len : Nat} (h : (separated out).length ≤ len) :
    storeSlash (memory len out) out.length = .ok (memory len (separated out), (separated out).length) := by
  rw [length_separated] at h ⊢
  by_cases hout : out = []
  · subst hout
    rfl
  · have hlen : out.length ≠ 0 := fun hzero => hout (List.eq_nil_of_length_eq_zero hzero)
    rw [if_neg hout] at h ⊢
    rw [storeSlash, if_neg hlen, store_memory h, separated, if_neg hout]
    rfl

/-- There is room for the names that are left. -/
def Room (len : Nat) (out : Bytes) (names : List Bytes) : Prop :=
  names ≠ [] → (separated out).length + ([47].intercalate names).length ≤ len

theorem Room.tail {len : Nat} {c : Bytes} {names : List Bytes} (h : Room len out (c :: names)) :
    Room len out names := by
  intro hne
  have h := h (List.cons_ne_nil _ _)
  rw [List.intercalate_cons_of_ne_nil hne, List.length_append, List.length_append] at h
  omega

theorem Room.next {len : Nat} {c : Bytes} {names : List Bytes} (h : Room len out (c :: names)) :
    (separated out).length + c.length ≤ len ∧ (c ≠ [] → Room len (separated out ++ c) names) := by
  have h := h (List.cons_ne_nil _ _)
  constructor
  · obtain rfl | hne := eq_or_ne names []
    · rw [List.intercalate_singleton] at h
      exact h
    · rw [List.intercalate_cons_of_ne_nil hne, List.length_append, List.length_append] at h
      omega
  · intro hc hne
    rw [List.intercalate_cons_of_ne_nil hne, List.length_append, List.length_append, List.length_singleton] at h
    rw [length_separated, List.length_append, if_neg (by simp [hc])]
    omega

/-- The loop in its memory is the loop. -/
theorem normalizeInto_eq {len depth : Nat} {names : List Bytes} (h : Room len out names) :
    normalizeInto path names (memory len out) out.length depth =
      normalizeFrom path names out depth >>= fun r => .ok (memory len r, r.length) := by
  induction names generalizing out depth with
  | nil => rfl
  | cons c names ih =>
      rw [normalizeInto, normalizeFrom]
      split
      · exact ih h.tail
      next hskip =>
        have hc : c ≠ [] := fun hc => hskip (.inl hc)
        obtain ⟨hsize, hroom⟩ := h.next
        simp only [bind_assoc]
        refine congrArg (dieIf _ _ >>= ·) (funext fun _ => ?_)
        refine congrArg (dieIf _ _ >>= ·) (funext fun _ => ?_)
        refine congrArg (dieIf _ _ >>= ·) (funext fun _ => ?_)
        rw [storeSlash_memory (by omega)]
        change (store (memory len (separated out)) (separated out).length c >>= fun m => _) = _
        rw [store_memory hsize]
        change normalizeInto path names (memory len (separated out ++ c)) ((separated out).length + c.length) _ = _
        rw [← List.length_append]
        exact ih (hroom hc)

theorem cstr_memory (len : Nat) (h : 0 ∉ out) : cstr (memory len out) = out := by
  have hpos : ∀ x ∈ out, decide (x ≠ 0) = true := fun x hx => decide_eq_true fun hzero => h (hzero ▸ hx)
  rw [cstr, memory, List.takeWhile_append_of_pos hpos, List.takeWhile_replicate_eq_filter]
  simp

/-- Names that are allowed have no zero byte, and neither have they when joined. -/
theorem zero_notMem_joined {names : List Bytes} (h : ∀ c ∈ names, Allowed c) : 0 ∉ [47].intercalate names := by
  induction names with
  | nil => simp
  | cons c names ih =>
      have hc : 0 ∉ c := fun hzero => (h c (.head _)).characters 0 hzero (.inl (by decide))
      obtain rfl | hne := eq_or_ne names []
      · rwa [List.intercalate_singleton]
      · rw [List.intercalate_cons_of_ne_nil hne]
        simp [hc, ih fun c' hc' => h c' (.tail _ hc')]

/-- Nothing is written outside of the memory. -/
theorem pathNormalizeInto_eq (path : Bytes) (absolute : Bool) :
    pathNormalizeInto path absolute = pathNormalize path absolute := by
  refine congrArg (dieIf _ _ >>= ·) (funext fun _ => ?_)
  refine congrArg (dieIf _ _ >>= ·) (funext fun _ => ?_)
  generalize (if absolute = true then path.dropWhile (· = 47) else path) = s
  have hroom : Room s.length [] (components s) := by
    intro _
    rw [components, List.intercalate_splitOn]
    simp [separated]
  have hloop : normalizeInto path (components s) (List.replicate (s.length + 1) 0) 0 0 = _ :=
    normalizeInto_eq hroom
  simp only [hloop, bind_assoc]
  cases hr : normalizeFrom path (components s) [] 0 with
  | error e => rfl
  | ok r =>
      obtain ⟨⟨hallowed, -⟩, rfl⟩ := normalizeFrom_ok.1 hr
      have hcstr := cstr_memory s.length (zero_notMem_joined (allowed_iff_kept.1 hallowed))
      change (dieIf _ _ >>= fun _ => Except.ok (cstr (memory s.length _))) = _
      rw [hcstr]
      rfl

/-! ### The normal form -/

theorem Normalized.slashless (h : Normalized path) : Slashless path where
  first := h.relative
  last := by
    intro hlast
    obtain ⟨a, rfl⟩ := List.getLast?_eq_some_iff.1 hlast
    have hempty : [] ∈ components (a ++ [47]) := by
      rw [components, List.splitOn_append_cons_self]
      simp
    exact (h.names (by simp) [] hempty).1 rfl
  double := by
    rintro ⟨a, b, rfl⟩
    have hempty : [] ∈ components (a ++ [47, 47] ++ b) := by
      rw [components, List.append_assoc, List.cons_append, List.splitOn_append_cons_self, List.cons_append,
        List.splitOn_cons_eq_if_modifyHead]
      simp
    exact (h.names (by simp) [] hempty).1 rfl

/-- When `path_normalize ()` returns, and what. -/
theorem pathNormalize_ok : pathNormalize path absolute = .ok out ↔ Acceptable path absolute ∧ out = joinedNames path := by
  have hkept : kept (components (if absolute = true then path.dropWhile (· = 47) else path)) = kept (components path) := by
    split
    · exact kept_components_dropWhile path
    · rfl
  have hallowed : (∀ c ∈ components (if absolute = true then path.dropWhile (· = 47) else path), Allowed c) ↔
      ∀ c ∈ components path, Allowed c := by
    rw [allowed_iff_kept, hkept, ← allowed_iff_kept]
  constructor
  · intro h
    obtain ⟨_, habsolute, h⟩ := ok_of_bind h
    obtain ⟨_, hrelative, h⟩ := ok_of_bind h
    obtain ⟨r, hr, h⟩ := ok_of_bind h
    obtain ⟨_, hsize, h⟩ := ok_of_bind h
    cases h
    rw [normalizeFrom_ok, hallowed, hkept] at hr
    obtain ⟨⟨hnames, hdepth⟩, rfl⟩ := hr
    have habsolute := dieIf_eq_ok.1 habsolute
    have hrelative := dieIf_eq_ok.1 hrelative
    refine ⟨⟨?_, hnames, hdepth, not_le.1 (dieIf_eq_ok.1 hsize)⟩, rfl⟩
    cases absolute <;> simp_all
  · rintro ⟨h, rfl⟩
    have hloop : normalizeFrom path (components (if absolute = true then path.dropWhile (· = 47) else path)) [] 0 =
        .ok (joinedNames path) := by
      rw [normalizeFrom_ok, hallowed, hkept]
      exact ⟨⟨h.names, h.depth⟩, rfl⟩
    have habsolute : ¬ (absolute = true ∧ path.head? ≠ some 47) := fun hbad => hbad.2 (h.start.2 hbad.1)
    have hrelative : ¬ (¬ absolute = true ∧ path.head? = some 47) := fun hbad => hbad.1 (h.start.1 hbad.2)
    rw [pathNormalize, dieIf_neg habsolute, dieIf_neg hrelative]
    change (normalizeFrom path _ [] 0 >>= _) = _
    rw [hloop]
    change (dieIf ((joinedNames path).length ≥ pathMax - nameMax) "path too long" >>= _) = _
    rw [dieIf_neg (not_le.2 h.size)]
    rfl

/-- **`path_normalize ()` is a normal form.** It returns for the paths that are acceptable, and returns the names that
are kept, joined; these have no slash too many and are their own normal form in archive mode; and nothing is written
outside of the memory. -/
theorem pathNormalize_normal_form (path : Bytes) (absolute : Bool) :
    (∀ out, pathNormalize path absolute = .ok out ↔ Acceptable path absolute ∧ out = joinedNames path) ∧
      (∀ out, pathNormalize path absolute = .ok out → Slashless out ∧ pathNormalize out false = .ok out) ∧
      pathNormalizeInto path absolute = pathNormalize path absolute := by
  refine ⟨fun out => pathNormalize_ok, ?_, pathNormalizeInto_eq path absolute⟩
  intro out hout
  have hnormal := (pathNormalize_safely path absolute).2 out hout
  exact ⟨hnormal.slashless, pathNormalize_normalized hnormal⟩

end MiniDarwin.Archive
