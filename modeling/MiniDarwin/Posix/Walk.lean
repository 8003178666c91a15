import MiniDarwin.Posix.Tree

/-!
How the kernel reads a path.

A string is split at its slashes; empty components and `.` count for
nothing, `..` goes up, and any other component is a name. `walk` follows
such steps from a directory, through symbolic links, and gives the path
of what it arrives at; only a bounded number of links is followed. A call
that names a file by a path looks the last name up in the directory that
the names before it lead to (`locate`), so the last name itself may be a
link or missing.

The paths the programs hand to the kernel are a directory they know to be
there, under a name that may pass through links (`At`), followed by names
that may not. `locate_append` is the reason the two halves can be treated
separately.
-/

namespace Posix

inductive Errno where
  | ENOENT
  | ENOTDIR
  | EISDIR
  | EEXIST
  | ENOTEMPTY
  | EINVAL
  | ELOOP
  | ENOTSUP
  | EXDEV
  | EDEVERR
  deriving DecidableEq

/-! ### Strings -/

/-- A string without a slash. -/
abbrev Token := {s : Str // '/' ∉ s}

def tokensFrom (t : Token) : Str → List (Token × Str)
  | [] => if t.1 = [] then [] else [(t, [])]
  | c :: s =>
      if h : c = '/' then (t, s) :: tokensFrom ⟨[], by simp⟩ s
      else tokensFrom ⟨t.1 ++ [c], by simpa [t.2] using Ne.symm h⟩ s

/-- The components of a string from left to right, each with the rest of the
string after its slash: what a loop over `strcspn (s, "/")` sees. -/
def tokens (s : Str) : List (Token × Str) := tokensFrom ⟨[], by simp⟩ s

attribute [local simp] tokensFrom tokens

theorem tokensFrom_cons {t u : Token} {s rest : Str} {more : List (Token × Str)}
    (h : tokensFrom t s = (u, rest) :: more) : more = tokens rest := by
  induction s generalizing t with
  | nil =>
      unfold tokensFrom at h
      split at h
      · simp at h
      · simp only [List.cons.injEq, Prod.mk.injEq] at h
        obtain ⟨⟨-, rfl⟩, rfl⟩ := h
        simp [tokens, tokensFrom]
  | cons c s ih =>
      unfold tokensFrom at h
      split at h
      · simp only [List.cons.injEq, Prod.mk.injEq] at h
        obtain ⟨⟨-, rfl⟩, rfl⟩ := h
        rfl
      · exact ih h

theorem tokens_cons {u : Token} {s rest : Str} {more : List (Token × Str)}
    (h : tokens s = (u, rest) :: more) : more = tokens rest := tokensFrom_cons h

/-- One component of a path: up to the parent, or down to a name. -/
inductive Step where
  | up
  | down (n : Name)
  deriving DecidableEq

/-- A component that is neither empty nor `.` nor `..` is a name. -/
def Token.name (t : Token) (h1 : ¬ (t.1 = [] ∨ t.1 = ['.'])) (h2 : t.1 ≠ ['.', '.']) : Name :=
  ⟨t.1, fun h => h1 (.inl h), fun h => h1 (.inr h), h2, t.2⟩

def Token.step (t : Token) : Option Step :=
  if h1 : t.1 = [] ∨ t.1 = ['.'] then none
  else if h2 : t.1 = ['.', '.'] then some .up
  else some (.down (t.name h1 h2))

/-- What a string asks the kernel to do. -/
def steps (s : Str) : List Step := (tokens s).filterMap fun t => t.1.step

theorem steps_tokensFrom_slash (t : Token) (a b : Str) :
    (tokensFrom t (a ++ '/' :: b)).filterMap (fun u => u.1.step) =
      (tokensFrom t a).filterMap (fun u => u.1.step) ++ steps b := by
  induction a generalizing t with
  | nil =>
      by_cases ht : t.1 = []
      · simp [tokensFrom, ht, steps, tokens, Token.step]
      · cases hs : t.step <;> simp [tokensFrom, ht, steps, tokens, hs]
  | cons c a ih =>
      by_cases hc : c = '/'
      · subst hc
        cases hs : t.step <;> simp [tokensFrom, hs, ih]
      · simp [tokensFrom, hc, ih]

/-- Joining strings with a slash joins what they ask for. -/
theorem steps_append_slash (a b : Str) : steps (a ++ '/' :: b) = steps a ++ steps b :=
  steps_tokensFrom_slash _ a b

@[simp] theorem steps_nil : steps [] = [] := by simp [steps, tokens, tokensFrom]

/-- The string of a relative path. -/
def render : Path → Str
  | [] => []
  | [n] => n.1
  | n :: m :: p => n.1 ++ '/' :: render (m :: p)

theorem tokensFrom_of_not_mem (t : Token) {s : Str} (hs : '/' ∉ s) (hne : t.1 ++ s ≠ []) :
    ∃ h, tokensFrom t s = [(⟨t.1 ++ s, h⟩, [])] := by
  induction s generalizing t with
  | nil =>
      simp only [List.append_nil] at hne
      exact ⟨by simpa using t.2, by simp [tokensFrom, hne]⟩
  | cons c s ih =>
      have hc : c ≠ '/' := by rintro rfl; simp at hs
      obtain ⟨h, heq⟩ := ih ⟨t.1 ++ [c], by simpa [t.2] using Ne.symm hc⟩
        (by simp only [List.mem_cons, not_or] at hs; exact hs.2) (by simp)
      refine ⟨by simpa using h, ?_⟩
      rw [tokensFrom, dif_neg hc, heq]
      simp

theorem steps_name (n : Name) : steps n.1 = [.down n] := by
  obtain ⟨h1, h2, h3, h4⟩ := n.2
  obtain ⟨h, heq⟩ := tokensFrom_of_not_mem ⟨[], by simp⟩ h4 (by simpa using h1)
  rw [steps, tokens, heq]
  simp [Token.step, Token.name, h1, h2, h3]

@[simp] theorem steps_render (p : Path) : steps (render p) = p.map .down := by
  induction p with
  | nil => rfl
  | cons n p ih =>
      cases p with
      | nil => simp [render, steps_name]
      | cons m p =>
          rw [render, steps_append_slash, ih, steps_name]
          simp

/-! ### Walking -/

/-- Follow steps from the directory `cur`; a link is handed to `onLink` with
the steps that replace it. Also gives the number of links still allowed. -/
def walkWith (fs : Fs) (onLink : Path → List Step → Except Errno (Path × Nat)) (hops : Nat) :
    Path → List Step → Except Errno (Path × Nat)
  | cur, [] => .ok (cur, hops)
  | cur, .up :: rest => walkWith fs onLink hops cur.dropLast rest
  | cur, .down n :: rest =>
      match fs.get (cur ++ [n]) with
      | none => .error .ENOENT
      | some (.dir _) => walkWith fs onLink hops (cur ++ [n]) rest
      | some (.link t) =>
          if t = [] then .error .ENOENT
          else onLink (if t.head? = some '/' then [] else cur) (steps t ++ rest)
      | some _ => if rest = [] then .ok (cur ++ [n], hops) else .error .ENOTDIR

def walk (fs : Fs) : Nat → Path → List Step → Except Errno (Path × Nat)
  | 0 => walkWith fs (fun _ _ => .error .ELOOP) 0
  | hops + 1 => walkWith fs (walk fs hops) (hops + 1)

/-- The number of links one lookup may follow. -/
def maxSymlinks : Nat := 32

/-- The directory that a path leads to, links followed. -/
def realDir (fs : Fs) (p : Path) : Except Errno Path :=
  match walk fs maxSymlinks [] (p.map .down) with
  | .error e => .error e
  | .ok (d, _) => if fs.IsDir d then .ok d else .error .ENOTDIR

/-- Where a path points, its last name not followed. -/
def locate (fs : Fs) (p : Path) : Except Errno Path :=
  match p.getLast? with
  | none => .ok []
  | some n =>
      match realDir fs p.dropLast with
      | .error e => .error e
      | .ok d => .ok (d ++ [n])

/-- Under the name `b` the kernel finds the directory `B`. -/
def At (fs : Fs) (b B : Path) : Prop := realDir fs b = .ok B

variable {fs fs' : Fs} {b B p q : Path} {hops hops' : Nat} {cur : Path} {n : Name}

attribute [local simp] walkWith walk

theorem walk_nil : walk fs hops cur [] = .ok (cur, hops) := by
  cases hops <;> rfl

theorem walk_down_dir {l : List Step} (h : fs.IsDir (cur ++ [n])) :
    walk fs hops cur (.down n :: l) = walk fs hops (cur ++ [n]) l := by
  obtain ⟨m, h⟩ := h
  cases hops <;> simp [walk, walkWith, h]

theorem walk_down_none {l : List Step} (h : fs.get (cur ++ [n]) = none) :
    walk fs hops cur (.down n :: l) = .error .ENOENT := by
  cases hops <;> simp [walk, walkWith, h]

/-- A walk that has arrived at a directory can be continued. -/
theorem walkWith_append {onLink : Path → List Step → Except Errno (Path × Nat)}
    {l l' : List Step} {d : Path}
    (hlink : ∀ c k h, onLink c k = .ok (d, h) → onLink c (k ++ l') = walk fs h d l')
    (hstay : ∀ c, walkWith fs onLink hops c l' = walk fs hops c l')
    (h : walkWith fs onLink hops cur l = .ok (d, hops')) (hd : fs.IsDir d) :
    walkWith fs onLink hops cur (l ++ l') = walk fs hops' d l' := by
  induction l generalizing cur with
  | nil =>
      simp only [walkWith, Except.ok.injEq, Prod.mk.injEq] at h
      obtain ⟨rfl, rfl⟩ := h
      exact hstay cur
  | cons s l ih =>
      cases s with
      | up => exact ih h
      | down n =>
          simp only [walkWith, List.cons_append] at h ⊢
          split at h
          · simp at h
          · exact ih h
          · split at h
            · simp at h
            · next t _ ht =>
                rw [if_neg ht, ← List.append_assoc]
                exact hlink _ _ _ h
          · split at h
            · next v hv _ _ hl =>
                -- the walk ended at something that is not a directory
                simp only [Except.ok.injEq, Prod.mk.injEq] at h
                obtain ⟨m, hm⟩ := hd
                rw [← h.1] at hm
                simp_all
            · simp at h

theorem walk_append {l : List Step} {d : Path} (h : walk fs hops cur l = .ok (d, hops'))
    (hd : fs.IsDir d) (l' : List Step) :
    walk fs hops cur (l ++ l') = walk fs hops' d l' := by
  induction hops generalizing cur l hops' with
  | zero => exact walkWith_append (by simp) (fun _ => rfl) h hd
  | succ hops ih => exact walkWith_append (fun _ _ _ hk => ih hk) (fun _ => rfl) h hd

/-- Names that lead through directories only are taken as they are. -/
theorem walk_dirs (h : fs.IsDir (cur ++ p)) :
    walk fs hops cur (p.map .down) = .ok (cur ++ p, hops) := by
  induction p generalizing cur with
  | nil => simp [walk_nil]
  | cons n p ih =>
      have h' : fs.IsDir (cur ++ [n] ++ p) := by simpa using h
      have hn : fs.IsDir (cur ++ [n]) := by
        by_cases hp : p = []
        · simpa [hp] using h
        · exact Fs.isDir_of_append h'.ne_none hp
      rw [List.map_cons, walk_down_dir hn, ih h']
      simp

theorem walkWith_kept {onLink onLink' : Path → List Step → Except Errno (Path × Nat)}
    {l : List Step} {d : Path} (hk : fs.Kept fs')
    (hlink : ∀ c k, onLink c k = .ok (d, hops') → onLink' c k = .ok (d, hops'))
    (h : walkWith fs onLink hops cur l = .ok (d, hops')) :
    walkWith fs' onLink' hops cur l = .ok (d, hops') := by
  induction l generalizing cur with
  | nil => exact h
  | cons s l ih =>
      cases s with
      | up => exact ih h
      | down n =>
          simp only [walkWith] at h ⊢
          cases hv : fs.get (cur ++ [n]) with
          | none => simp [hv] at h
          | some v =>
              rw [hk _ (by simp [hv]), hv]
              rw [hv] at h
              cases v with
              | dir m => exact ih h
              | link t =>
                  simp only at h ⊢
                  split at h
                  · simp at h
                  · next ht => rw [if_neg ht]; exact hlink _ _ h
              | file m data => exact h
              | other => exact h

/-- What is there stays where it is when the tree grows. -/
theorem walk_kept {l : List Step} {d : Path} (hk : fs.Kept fs')
    (h : walk fs hops cur l = .ok (d, hops')) : walk fs' hops cur l = .ok (d, hops') := by
  induction hops generalizing cur l with
  | zero => exact walkWith_kept hk (by simp) h
  | succ hops ih => exact walkWith_kept hk (fun _ _ => ih) h

theorem realDir_isDir (h : realDir fs p = .ok q) : fs.IsDir q := by
  unfold realDir at h
  split at h
  · simp at h
  · split at h
    · simp_all
    · simp at h

theorem At.isDir (h : At fs b B) : fs.IsDir B := realDir_isDir h

theorem At.kept (h : At fs b B) (hk : fs.Kept fs') : At fs' b B := by
  have hd := h.isDir
  unfold At realDir at h ⊢
  cases hw : walk fs maxSymlinks [] (b.map .down) with
  | error e => simp [hw] at h
  | ok x =>
      obtain ⟨d, hops⟩ := x
      simp only [hw] at h
      split at h
      · next hdd =>
          simp only [Except.ok.injEq] at h
          subst h
          simp [walk_kept hk hw, hk.isDir hd]
      · simp at h

/-- A directory is found under its own path. -/
theorem at_self (h : fs.IsDir B) : At fs B B := by
  have hw := @walk_dirs fs B maxSymlinks [] (by simpa using h)
  simp only [List.nil_append] at hw
  simp [At, realDir, hw, h]

theorem realDir_append (hb : At fs b B) (hq : fs.IsDir (B ++ q)) :
    realDir fs (b ++ q) = .ok (B ++ q) := by
  unfold At realDir at hb
  cases hw : walk fs maxSymlinks [] (b.map .down) with
  | error e => simp [hw] at hb
  | ok x =>
      obtain ⟨d, hops⟩ := x
      simp only [hw] at hb
      split at hb
      · next hd =>
          simp only [Except.ok.injEq] at hb
          subst hb
          simp [realDir, walk_append hw hd, walk_dirs hq, hq]
      · simp at hb

theorem At.append (hb : At fs b B) (hq : fs.IsDir (B ++ q)) : At fs (b ++ q) (B ++ q) :=
  realDir_append hb hq

theorem locate_concat : locate fs (p ++ [n]) =
    match realDir fs p with
    | .error e => .error e
    | .ok d => .ok (d ++ [n]) := by
  simp [locate]

/-- In a directory that is there, a name is where it says. -/
theorem locate_append (hb : At fs b B) (hq : fs.IsDir (B ++ q)) :
    locate fs (b ++ q ++ [n]) = .ok (B ++ q ++ [n]) := by
  rw [locate_concat, realDir_append hb hq]

/-- Where a name is missing on the way, the kernel says so. -/
theorem realDir_missing (hb : At fs b B)
    (hreal : ∀ r, r <+: q → fs.get (B ++ r) = none ∨ fs.IsDir (B ++ r))
    (hq : ¬ fs.IsDir (B ++ q)) : realDir fs (b ++ q) = .error .ENOENT := by
  have key : ∀ (l r : Path) (hops : Nat), r ++ l = q → fs.IsDir (B ++ r) →
      walk fs hops (B ++ r) (l.map .down) = .error .ENOENT := by
    intro l
    induction l with
    | nil =>
        intro r hops hr hd
        simp only [List.append_nil] at hr
        exact absurd (hr ▸ hd) hq
    | cons n l ih =>
        intro r hops hr hd
        rcases hreal (r ++ [n]) ⟨l, by simpa using hr⟩ with hn | hn
        · rw [← List.append_assoc] at hn
          exact walk_down_none hn
        · rw [← List.append_assoc] at hn
          rw [List.map_cons, walk_down_dir hn, List.append_assoc]
          exact ih (r ++ [n]) hops (by simpa using hr) (by rwa [← List.append_assoc])
  have hd := hb.isDir
  unfold At realDir at hb
  cases hw : walk fs maxSymlinks [] (b.map .down) with
  | error e => simp [hw] at hb
  | ok x =>
      obtain ⟨d, hops⟩ := x
      simp only [hw] at hb
      split at hb
      · next hdd =>
          simp only [Except.ok.injEq] at hb
          subst hb
          have := key q [] hops rfl (by simpa using hd)
          simp only [List.append_nil] at this
          simp [realDir, walk_append hw hdd, this]
      · simp at hb

end Posix
