import MiniDarwin.Posix.Walk

/-!
System calls on a file tree.

`Op` lists the calls, `Op.run` says what each of them does, and `sem` what
a program may see. The two differ where the kernel has a choice, the order
of a directory listing, how much of a buffer is written, the name of a
temporary directory, and in two respects that are left to a `Kernel`: a
call it calls flaky may answer `EDEVERR` and leave the tree alone, and a child
process may do to the tree what the kernel lets it do.

Ownership and times are not part of a tree, so the calls that set them
only succeed or fail, and a time that is read may be any; nor are access
rights, so no call is refused for lack of them. The umask takes no bit away
of the modes asked for. A file that has been opened is written through the
path it was opened by, and a directory that has been opened is listed to its
end: `readdir ()` does not fail midway.

Two things are recorded beside the tree for the benefit of statements
about runs. A program may say which part of it is running (`enter`), and
the world then keeps the tree as it was at that moment (`since`); and every
path that comes into being is noted in `made`.
-/

namespace Posix

open Effects

inductive Kind where
  | dir
  | file
  | link
  | other
  deriving DecidableEq

structure Stat where
  kind : Kind
  mode : Mode
  size : Nat
  deriving DecidableEq

/-- `struct timespec` -/
structure Timespec where
  sec : Int
  nsec : Nat
  deriving DecidableEq

def Node.stat : Node → Stat
  | .dir m => ⟨.dir, m, 0⟩
  | .file m data => ⟨.file, m, data.length⟩
  | .link t => ⟨.link, 0o777, t.length⟩
  | .other => ⟨.other, 0, 0⟩

def Node.chmod (m : Mode) : Node → Node
  | .dir _ => .dir m
  | .file _ data => .file m data
  | v => v

structure World (τ : Type) where
  fs : Fs
  tag : τ
  since : Fs
  made : List Path

inductive Op (τ : Type) where
  | enter (t : τ)
  /-- `stat`, a last link followed -/
  | stat (p : Path)
  | lstat (p : Path)
  /-- the modification time that `lstat` returns -/
  | mtime (p : Path)
  | readlink (p : Path)
  /-- `opendir`, `readdir` to the end, `closedir` -/
  | listdir (p : Path)
  /-- `open` with `O_RDONLY | O_NOFOLLOW`, the contents, `close` -/
  | read (p : Path)
  /-- the same without `O_NOFOLLOW` -/
  | load (p : Path)
  | access (p : Path)
  /-- `realpath` of an absolute path that need not be normalized -/
  | realpath (s : Str)
  /-- two directories with the same device and inode, neither a link -/
  | sameDir (p q : Path)
  | mkdir (p : Path) (m : Mode)
  | symlink (t : Str) (p : Path)
  /-- `open` with `O_WRONLY | O_CREAT | O_EXCL | O_NOFOLLOW`, mode `0600` -/
  | create (p : Path)
  | write (p : Path) (data : Bytes)
  | fchmod (p : Path) (m : Mode)
  | clonefile (a b : Path)
  | mkdtemp (d : Path) (n : Name)
  /-- `open` with `O_CREAT | O_RDWR | O_NOFOLLOW`, then `flock` -/
  | lock (p : Path)
  | chmod (p : Path) (m : Mode)
  | chown (p : Path)
  /-- `utimensat` for the modification time -/
  | utimes (p : Path) (t : Timespec)
  | fsync (p : Path)
  /-- `open` with `O_RDONLY | O_DIRECTORY | O_NOFOLLOW`, then `fsync` -/
  | syncDir (p : Path)
  | unlink (p : Path)
  | rmdir (p : Path)
  | rename (a b : Path)
  /-- a child process, run to its end; true for the exit status 0 -/
  | spawn (argv : List Path)

namespace Op

variable {τ : Type}

/-- What a successful call returns. -/
@[reducible] def Val : Op τ → Type
  | .stat _ | .lstat _ => Stat
  | .mtime _ => Timespec
  | .readlink _ => Str
  | .listdir _ => List Name
  | .read _ | .load _ => Bytes
  | .realpath _ | .mkdtemp _ _ => Path
  | .sameDir _ _ | .spawn _ => Bool
  | .write _ _ => Nat
  | _ => Unit

end Op

/-- Where a path leads to, links followed to the end. -/
def realPath (fs : Fs) (p : Path) : Except Errno Path :=
  (walk fs maxSymlinks [] (p.map .down)).map Prod.fst

namespace World

variable {τ : Type}

/-- Bring `v` into being under the name `p`. -/
def add (w : World τ) (p : Path) (v : Node) : Except Errno (Path × World τ) :=
  match locate w.fs p with
  | .error e => .error e
  | .ok q =>
      if h : q ≠ [] ∧ w.fs.IsDir q.dropLast ∧ w.fs.get q = none then
        .ok (q, { w with fs := w.fs.create q v h.1 h.2.1 h.2.2, made := w.made ++ [q] })
      else .error .EEXIST

/-- Change the node at `q`. -/
def alter (w : World τ) (q : Path) (v : Node) : Except Errno (World τ) :=
  if h : (w.fs.get q).map Node.isDir = some v.isDir then
    .ok { w with fs := w.fs.replace q v h }
  else .error .EINVAL

def delete (w : World τ) (q : Path) : Except Errno (World τ) :=
  if h : q ≠ [] ∧ w.fs.children q = [] then
    .ok { w with fs := w.fs.remove q h.1 (Fs.children_eq_nil.1 h.2) }
  else .error .ENOTEMPTY

/-- Move what is at `a` to `b`, where nothing is. -/
def move (w : World τ) (a b : Path) : Except Errno (World τ) :=
  if h : b ≠ [] ∧ w.fs.IsDir b.dropLast ∧ ¬ a <+: b.dropLast then
    .ok { w with fs := w.fs.move a b h.1 h.2.1 h.2.2 }
  else .error .EINVAL

end World

open World in
/-- What a call does when nothing goes wrong. -/
def Op.run {τ : Type} : (o : Op τ) → World τ → Except Errno (o.Val × World τ)
  | .enter t, w => .ok ((), { w with tag := t, since := w.fs })
  | .stat p, w =>
      (realPath w.fs p).bind fun q =>
        match w.fs.get q with
        | none => .error .ENOENT
        | some v => .ok (v.stat, w)
  | .lstat p, w =>
      (locate w.fs p).bind fun q =>
        match w.fs.get q with
        | none => .error .ENOENT
        | some v => .ok (v.stat, w)
  | .mtime p, w =>
      (locate w.fs p).bind fun q =>
        if w.fs.get q = none then .error .ENOENT else .ok (⟨0, 0⟩, w)
  | .readlink p, w =>
      (locate w.fs p).bind fun q =>
        match w.fs.get q with
        | some (.link t) => .ok (t, w)
        | none => .error .ENOENT
        | _ => .error .EINVAL
  | .listdir p, w => (realDir w.fs p).map fun q => (w.fs.children q, w)
  | .read p, w =>
      (locate w.fs p).bind fun q =>
        match w.fs.get q with
        | some (.file _ data) => .ok (data, w)
        | none => .error .ENOENT
        | _ => .error .EINVAL
  | .load p, w =>
      (realPath w.fs p).bind fun q =>
        match w.fs.get q with
        | some (.file _ data) => .ok (data, w)
        | _ => .error .EISDIR
  | .access p, w => (realPath w.fs p).map fun _ => ((), w)
  | .realpath s, w => (walk w.fs maxSymlinks [] (steps s)).map fun x => (x.1, w)
  | .sameDir p q, w =>
      .ok (match locate w.fs p, locate w.fs q with
        | .ok p', .ok q' => decide (w.fs.IsDir p' ∧ p' = q')
        | _, _ => false, w)
  | .mkdir p m, w => (w.add p (.dir m)).map fun x => ((), x.2)
  | .symlink t p, w => (w.add p (.link t)).map fun x => ((), x.2)
  | .create p, w => (w.add p (.file 0o600 [])).map fun x => ((), x.2)
  | .write p data, w =>
      (locate w.fs p).bind fun q =>
        match w.fs.get q with
        | some (.file m old) =>
            (w.alter q (.file m (old ++ data))).map fun w' => (data.length, w')
        | _ => .error .EINVAL
  | .fchmod p m, w =>
      (locate w.fs p).bind fun q =>
        match w.fs.get q with
        | some (.file _ data) => (w.alter q (.file m data)).map fun w' => ((), w')
        | _ => .error .EINVAL
  | .clonefile a b, w =>
      (locate w.fs a).bind fun q =>
        match w.fs.get q with
        | some (.file m data) => (w.add b (.file m data)).map fun x => ((), x.2)
        | _ => .error .EINVAL
  | .mkdtemp d n, w => (w.add (d ++ [n]) (.dir 0o700)).map fun x => (d ++ [n], x.2)
  | .lock p, w =>
      (locate w.fs p).bind fun q =>
        match w.fs.get q with
        | none => (w.add p (.file 0o600 [])).map fun x => ((), x.2)
        | some (.file _ _) => .ok ((), w)
        | some (.dir _) => .error .EISDIR
        | some _ => .error .ELOOP
  | .chmod p m, w =>
      (realPath w.fs p).bind fun q =>
        match w.fs.get q with
        | none => .error .ENOENT
        | some v => (w.alter q (v.chmod m)).map fun w' => ((), w')
  | .chown p, w | .utimes p _, w | .fsync p, w =>
      (locate w.fs p).bind fun q =>
        if w.fs.get q = none then .error .ENOENT else .ok ((), w)
  | .syncDir p, w =>
      (locate w.fs p).bind fun q =>
        match w.fs.get q with
        | some (.dir _) => .ok ((), w)
        | none => .error .ENOENT
        | _ => .error .ENOTDIR
  | .unlink p, w =>
      (locate w.fs p).bind fun q =>
        match w.fs.get q with
        | none => .error .ENOENT
        | some (.dir _) => .error .EISDIR
        | some _ => (w.delete q).map fun w' => ((), w')
  | .rmdir p, w =>
      (locate w.fs p).bind fun q =>
        match w.fs.get q with
        | some (.dir _) => (w.delete q).map fun w' => ((), w')
        | none => .error .ENOENT
        | _ => .error .ENOTDIR
  | .rename a b, w =>
      (locate w.fs a).bind fun p =>
        (locate w.fs b).bind fun q =>
          match w.fs.get p, w.fs.get q with
          | none, _ => .error .ENOENT
          | some _, none => (w.move p q).map fun w' => ((), w')
          | some u, some v =>
              if p = q then .ok ((), w)
              else if u.isDir = v.isDir then
                -- an empty directory or a file in the way is replaced
                (w.delete q).bind fun w' => (w'.move p q).map fun w'' => ((), w'')
              else .error (if v.isDir then .EISDIR else .ENOTDIR)
  | .spawn _, w => .ok (true, w)

/-- The calls as a signature: each returns a value or an error number. -/
abbrev calls (τ : Type) : Sig where
  Op := Op τ
  Ans o := Except Errno o.Val

/-- What is not decided by the tree: the calls that may fail for reasons of their
own, and what a child process may make of the tree. -/
structure Kernel (τ : Type) where
  flaky : Op τ → World τ → Prop
  child : Fs → Fs → Prop
  idle : ∀ fs, child fs fs

/-- No call fails for reasons of its own, and a child process does nothing. -/
def Kernel.steady {τ : Type} : Kernel τ where
  flaky _ _ := False
  child fs fs' := fs' = fs
  idle _ := rfl

/-- The answers of a call that succeeds. -/
def Op.Answers {τ : Type} (K : Kernel τ) : (o : Op τ) → World τ → o.Val → World τ → Prop
  | .listdir p, w, (names : List Name), w' =>
      ∃ l : List Name, (Op.listdir p).run w = .ok (l, w') ∧ names.Perm l
  | .write p data, w, (n : Nat), w' =>
      (0 < n ∨ data = []) ∧ n ≤ data.length ∧ (Op.write p (data.take n)).run w = .ok (n, w')
  | .mtime p, w, _, w' => ∃ t, (Op.mtime p).run w = .ok (t, w')
  | .mkdtemp d _, w, v, w' => ∃ n, (Op.mkdtemp d n).run w = .ok (v, w')
  | .spawn _, w, _, w' => ∃ fs, K.child w.fs fs ∧ w' = { w with fs := fs }
  | o, w, v, w' => o.run w = .ok (v, w')

/-- Errors a call may report whatever the tree: an I/O error where the kernel
admits one, and `clonefile` on a volume that cannot clone. -/
def Op.Refused {τ : Type} (K : Kernel τ) (w : World τ) : Op τ → Errno → Prop
  | .enter _, _ => False
  | .clonefile a b, e => e = .ENOTSUP ∨ e = .EXDEV ∨ e = .EDEVERR ∧ K.flaky (.clonefile a b) w
  | o, e => e = .EDEVERR ∧ K.flaky o w

/-- What a program may see of a call. -/
def sem {τ : Type} (K : Kernel τ) : Sem (calls τ) (World τ) :=
  fun o w r w' =>
    match r with
    | .ok v => Op.Answers K o w v w'
    | .error e => w' = w ∧ (Op.run o w = .error e ∨ Op.Refused K w o e)

/-- The answer when nothing goes wrong. -/
def Op.answer {τ : Type} (o : Op τ) (w : World τ) : Except Errno o.Val × World τ :=
  match o.run w with
  | .ok x => (.ok x.1, x.2)
  | .error e => (.error e, w)

theorem sem_answer {τ : Type} {K : Kernel τ} (o : Op τ) (w : World τ) :
    sem K o w (o.answer w).1 (o.answer w).2 := by
  unfold Op.answer
  cases h : o.run w with
  | error e => exact ⟨rfl, .inl h⟩
  | ok x =>
      cases o with
      | listdir p => exact ⟨x.1, h, List.Perm.refl _⟩
      | mtime p => exact ⟨x.1, h⟩
      | mkdtemp d n => exact ⟨n, h⟩
      | spawn argv =>
          obtain rfl := Except.ok.inj h
          exact ⟨w.fs, K.idle _, rfl⟩
      | write p data =>
          have hn : x.1 = data.length := by
            simp only [Op.run, Except.bind, Except.map] at h
            split at h
            · simp at h
            · split at h
              · split at h
                · simp at h
                · exact (congrArg Prod.fst (Except.ok.inj h)).symm
              · simp at h
          refine ⟨?_, Nat.le_of_eq hn, ?_⟩
          · rw [hn]
            cases data <;> simp
          · rw [hn, List.take_length, h, ← hn]
      | _ => exact h

/-! ### What a call leaves behind

One structure for each kind of change, and one lemma for each call that
makes it. All of them speak of the tree through `get` only. -/

section Effects

variable {τ : Type} {K : Kernel τ} {w w' : World τ} {p q a b : Path} {v : Node}

-- every proof below unfolds these: their equations are made once, here
attribute [local simp] sem Op.Answers Op.run Except.map Except.bind

/-- Nothing but the tree has changed. -/
structure SameRun (w w' : World τ) : Prop where
  tag : w'.tag = w.tag
  since : w'.since = w.since

/-- `q` has come into being as `v`. -/
structure Made (w : World τ) (q : Path) (v : Node) (w' : World τ) : Prop extends SameRun w w' where
  ne_nil : q ≠ []
  inDir : w.fs.IsDir q.dropLast
  free : w.fs.get q = none
  get : ∀ p, w'.fs.get p = if p = q then some v else w.fs.get p
  made : w'.made = w.made ++ [q]

/-- The node at `q` is now `v`. -/
structure Altered (w : World τ) (q : Path) (v : Node) (w' : World τ) : Prop
    extends SameRun w w' where
  was : (w.fs.get q).map Node.isDir = some v.isDir
  get : ∀ p, w'.fs.get p = if p = q then some v else w.fs.get p
  made : w'.made = w.made

/-- `q` is gone. -/
structure Gone (w : World τ) (q : Path) (w' : World τ) : Prop extends SameRun w w' where
  ne_nil : q ≠ []
  bare : ∀ n, w.fs.get (q ++ [n]) = none
  get : ∀ p, w'.fs.get p = if p = q then none else w.fs.get p
  made : w'.made = w.made

/-- What was at `a` is now at `b`. -/
structure Moved (w : World τ) (a b : Path) (w' : World τ) : Prop extends SameRun w w' where
  inDir : w.fs.IsDir b.dropLast
  apart : ¬ a <+: b.dropLast
  get : ∀ p, w'.fs.get p =
    if b <+: p then w.fs.get (a ++ p.drop b.length) else if a <+: p then none else w.fs.get p
  made : w'.made = w.made

theorem Moved.get_target (h : Moved w a b w') (q : Path) :
    w'.fs.get (b ++ q) = w.fs.get (a ++ q) := by
  rw [h.get, if_pos (List.prefix_append _ _), List.drop_left]

theorem Moved.get_elsewhere (h : Moved w a b w') (hq : ¬ b <+: q) :
    w'.fs.get q = if a <+: q then none else w.fs.get q := by
  rw [h.get, if_neg hq]

theorem World.add_ok {x : Path × World τ} (h : w.add p v = .ok x) :
    locate w.fs p = .ok x.1 ∧ Made w x.1 v x.2 := by
  unfold World.add at h
  split at h
  · simp at h
  · next q hq =>
      split at h
      · next hc =>
          simp only [Except.ok.injEq] at h
          subst h
          exact ⟨hq, ⟨rfl, rfl⟩, hc.1, hc.2.1, hc.2.2, fun _ => rfl, rfl⟩
      · simp at h

theorem World.alter_ok (h : w.alter q v = .ok w') : Altered w q v w' := by
  unfold World.alter at h
  split at h
  · next hc =>
      simp only [Except.ok.injEq] at h
      subst h
      exact ⟨⟨rfl, rfl⟩, hc, fun _ => rfl, rfl⟩
  · simp at h

theorem World.delete_ok (h : w.delete q = .ok w') : Gone w q w' := by
  unfold World.delete at h
  split at h
  · next hc =>
      simp only [Except.ok.injEq] at h
      subst h
      exact ⟨⟨rfl, rfl⟩, hc.1, Fs.children_eq_nil.1 hc.2, fun _ => rfl, rfl⟩
  · simp at h

theorem World.move_ok (h : w.move a b = .ok w') : Moved w a b w' := by
  unfold World.move at h
  split at h
  · next hc =>
      simp only [Except.ok.injEq] at h
      subst h
      exact ⟨⟨rfl, rfl⟩, hc.2.1, hc.2.2, fun _ => rfl, rfl⟩
  · simp at h

/-- A call that brings a fixed node into being. -/
def Op.makes : Op τ → Option (Path × Node)
  | .mkdir p m => some (p, .dir m)
  | .symlink t p => some (p, .link t)
  | .create p => some (p, .file 0o600 [])
  | _ => none

/-- A call that only looks, or changes nothing that is modelled. -/
def Op.quiet : Op τ → Bool
  | .stat _ | .lstat _ | .mtime _ | .readlink _ | .listdir _ | .read _ | .load _ | .access _ | .realpath _
  | .sameDir _ _ | .chown _ | .utimes _ _ | .fsync _ | .syncDir _ => true
  | _ => false

theorem sem_error {o : Op τ} {e : Errno} (h : sem K o w (.error e) w') : w' = w := h.1

theorem sem_makes {o : Op τ} (ho : o.makes = some (p, v)) {r : o.Val}
    (h : sem K o w (.ok r) w') : ∃ q, locate w.fs p = .ok q ∧ Made w q v w' := by
  cases o with
  | mkdir | symlink | create =>
      simp only [Op.makes, Option.some.injEq, Prod.mk.injEq] at ho
      obtain ⟨rfl, rfl⟩ := ho
      simp only [sem, Op.Answers, Op.run, Except.map] at h
      split at h
      · simp at h
      · next x hx =>
          cases h
          exact ⟨x.1, World.add_ok hx⟩
  | _ => simp [Op.makes] at ho

theorem Op.run_quiet {o : Op τ} (ho : o.quiet = true) {x : o.Val × World τ}
    (h : o.run w = .ok x) : x.2 = w := by
  cases o with
  | stat p | lstat p | mtime p | readlink p | read p | chown p | utimes p | fsync p | syncDir p =>
      simp only [Op.run, Except.bind] at h
      split at h
      · simp at h
      · split at h <;> simp at h
        rw [← h]
  | load p =>
      simp only [Op.run, Except.bind] at h
      split at h
      · simp at h
      · split at h <;> simp at h
        rw [← h]
  | listdir p | access p | realpath p =>
      simp only [Op.run, Except.map] at h
      split at h
      · simp at h
      · simp only [Except.ok.injEq] at h
        rw [← h]
  | sameDir =>
      simp only [Op.run, Except.ok.injEq] at h
      rw [← h]
  | _ => simp [Op.quiet] at ho

theorem sem_quiet {o : Op τ} (ho : o.quiet = true) {r : Except Errno o.Val}
    (h : sem K o w r w') : w' = w := by
  cases r with
  | error e => exact h.1
  | ok r =>
      cases o with
      | listdir p =>
          obtain ⟨l, hl, -⟩ := h
          exact Op.run_quiet rfl hl
      | mtime p =>
          obtain ⟨t, ht⟩ := h
          exact Op.run_quiet rfl ht
      | stat | lstat | readlink | read | load | access | realpath | sameDir | chown | utimes | fsync
      | syncDir => exact Op.run_quiet rfl h
      | _ => simp [Op.quiet] at ho

theorem sem_write {data : Bytes} {n : Nat} (h : sem K (.write p data) w (.ok n) w') :
    (0 < n ∨ data = []) ∧ n ≤ data.length ∧ ∃ q m old, locate w.fs p = .ok q ∧
      w.fs.get q = some (.file m old) ∧ Altered w q (.file m (old ++ data.take n)) w' := by
  obtain ⟨h0, hn, h⟩ := h
  refine ⟨h0, hn, ?_⟩
  simp only [Op.run, Except.bind, Except.map] at h
  split at h
  · simp at h
  · next q hq =>
      split at h
      · next m old hold =>
          split at h
          · simp at h
          · next w'' hw =>
              obtain rfl := congrArg Prod.snd (Except.ok.inj h)
              exact ⟨q, m, old, hq, hold, World.alter_ok hw⟩
      · simp at h

theorem sem_fchmod {m : Mode} {r : Unit} (h : sem K (.fchmod p m) w (.ok r) w') :
    ∃ q m' data, locate w.fs p = .ok q ∧ w.fs.get q = some (.file m' data) ∧
      Altered w q (.file m data) w' := by
  simp only [sem, Op.Answers, Op.run, Except.bind, Except.map] at h
  split at h
  · simp at h
  · next q hq =>
      split at h
      · next m' data hold =>
          split at h
          · simp at h
          · next w'' hw =>
              obtain rfl := congrArg Prod.snd (Except.ok.inj h)
              exact ⟨q, m', data, hq, hold, World.alter_ok hw⟩
      · simp at h

theorem sem_chmod {m : Mode} {r : Unit} (h : sem K (.chmod p m) w (.ok r) w') :
    ∃ q u, realPath w.fs p = .ok q ∧ w.fs.get q = some u ∧ Altered w q (u.chmod m) w' := by
  simp only [sem, Op.Answers, Op.run, Except.bind, Except.map] at h
  split at h
  · simp at h
  · next q hq =>
      split at h
      · simp at h
      · next u hu =>
          split at h
          · simp at h
          · next w'' hw =>
              obtain rfl := congrArg Prod.snd (Except.ok.inj h)
              exact ⟨q, u, hq, hu, World.alter_ok hw⟩

theorem sem_clonefile {r : Unit} (h : sem K (.clonefile a b) w (.ok r) w') :
    ∃ p q m data, locate w.fs a = .ok p ∧ w.fs.get p = some (.file m data) ∧
      locate w.fs b = .ok q ∧ Made w q (.file m data) w' := by
  simp only [sem, Op.Answers, Op.run, Except.bind, Except.map] at h
  split at h
  · simp at h
  · next p hp =>
      split at h
      · next m data hold =>
          split at h
          · simp at h
          · next x hx =>
              obtain rfl := congrArg Prod.snd (Except.ok.inj h)
              exact ⟨p, x.1, m, data, hp, hold, World.add_ok hx⟩
      · simp at h

theorem sem_unlink {r : Unit} (h : sem K (.unlink p) w (.ok r) w') :
    ∃ q v, locate w.fs p = .ok q ∧ w.fs.get q = some v ∧ v.isDir = false ∧ Gone w q w' := by
  simp only [sem, Op.Answers, Op.run, Except.bind, Except.map] at h
  split at h
  · simp at h
  · next q hq =>
      split at h
      · simp at h
      · simp at h
      · next v hne hv =>
          split at h
          · simp at h
          · next w'' hw =>
              obtain rfl := congrArg Prod.snd (Except.ok.inj h)
              refine ⟨q, v, hq, hv, ?_, World.delete_ok hw⟩
              cases v <;> simp_all [Node.isDir]

theorem sem_rmdir {r : Unit} (h : sem K (.rmdir p) w (.ok r) w') :
    ∃ q, locate w.fs p = .ok q ∧ w.fs.IsDir q ∧ Gone w q w' := by
  simp only [sem, Op.Answers, Op.run, Except.bind, Except.map] at h
  split at h
  · simp at h
  · next q hq =>
      split at h
      · next m hm =>
          split at h
          · simp at h
          · next w'' hw =>
              obtain rfl := congrArg Prod.snd (Except.ok.inj h)
              exact ⟨q, hq, ⟨m, hm⟩, World.delete_ok hw⟩
      · simp at h
      · simp at h

/-- A `rename` onto a name that is free moves the tree. -/
theorem sem_rename {r : Unit} (h : sem K (.rename a b) w (.ok r) w')
    (hq : locate w.fs b = .ok q) (hfree : w.fs.get q = none) :
    ∃ p, locate w.fs a = .ok p ∧ w.fs.get p ≠ none ∧ Moved w p q w' := by
  simp only [sem, Op.Answers, Op.run, Except.bind, Except.map, hq, hfree] at h
  split at h
  · simp at h
  · next p hp =>
      split at h
      · simp at h
      · next hu =>
          split at h
          · simp at h
          · next w'' hw =>
              obtain rfl := congrArg Prod.snd (Except.ok.inj h)
              exact ⟨p, hp, by simp_all, World.move_ok hw⟩
      · next h1 h2 => simp at h2

theorem sem_lock {r : Unit} (h : sem K (.lock p) w (.ok r) w') :
    w' = w ∨ ∃ q, locate w.fs p = .ok q ∧ Made w q (.file 0o600 []) w' := by
  simp only [sem, Op.Answers, Op.run, Except.bind, Except.map] at h
  split at h
  · simp at h
  · next q hq =>
      split at h
      · split at h
        · simp at h
        · next x hx =>
            obtain rfl := congrArg Prod.snd (Except.ok.inj h)
            exact .inr ⟨x.1, World.add_ok hx⟩
      · exact .inl (congrArg Prod.snd (Except.ok.inj h)).symm
      · simp at h
      · simp at h

theorem sem_mkdtemp {d : Path} {n : Name} {r : Path} (h : sem K (.mkdtemp d n) w (.ok r) w') :
    ∃ n q, r = d ++ [n] ∧ locate w.fs (d ++ [n]) = .ok q ∧ Made w q (.dir 0o700) w' := by
  obtain ⟨n', h⟩ := h
  simp only [Op.run, Except.map] at h
  split at h
  · simp at h
  · next x hx =>
      cases h
      exact ⟨n', x.1, rfl, World.add_ok hx⟩

theorem SameRun.refl (w : World τ) : SameRun w w := ⟨rfl, rfl⟩

theorem SameRun.trans {w'' : World τ} (h : SameRun w w') (h' : SameRun w' w'') : SameRun w w'' :=
  ⟨h'.tag.trans h.tag, h'.since.trans h.since⟩

theorem run_rename {r : Unit} (h : (Op.rename a b).run w = .ok (r, w')) : SameRun w w' := by
  simp only [Op.run, Except.bind, Except.map] at h
  split at h
  · simp at h
  split at h
  · simp at h
  split at h
  · simp at h
  · split at h
    · simp at h
    · next hm =>
        obtain rfl := congrArg Prod.snd (Except.ok.inj h)
        exact (World.move_ok hm).toSameRun
  · split at h
    · obtain rfl := congrArg Prod.snd (Except.ok.inj h)
      exact SameRun.refl _
    · split at h
      · split at h
        · simp at h
        · next hd =>
            split at h
            · simp at h
            · next hm =>
                obtain rfl := congrArg Prod.snd (Except.ok.inj h)
                exact (World.delete_ok hd).toSameRun.trans (World.move_ok hm).toSameRun
      · simp at h

/-- Only `enter` begins another part of the run. -/
theorem sem_sameRun {o : Op τ} {r : Except Errno o.Val} (ho : ∀ t, o ≠ .enter t)
    (h : sem K o w r w') : SameRun w w' := by
  cases r with
  | error e =>
      obtain rfl := sem_error h
      exact SameRun.refl _
  | ok x =>
      cases o with
      | enter t => exact absurd rfl (ho t)
      | mkdir p m =>
          obtain ⟨_, _, hm⟩ := sem_makes (v := .dir m) rfl h
          exact hm.toSameRun
      | symlink t p =>
          obtain ⟨_, _, hm⟩ := sem_makes (v := .link t) rfl h
          exact hm.toSameRun
      | create p =>
          obtain ⟨_, _, hm⟩ := sem_makes (v := .file 0o600 []) rfl h
          exact hm.toSameRun
      | write =>
          obtain ⟨_, _, _, _, _, _, _, ha⟩ := sem_write h
          exact ha.toSameRun
      | fchmod =>
          obtain ⟨_, _, _, _, _, ha⟩ := sem_fchmod h
          exact ha.toSameRun
      | chmod =>
          obtain ⟨_, _, _, _, ha⟩ := sem_chmod h
          exact ha.toSameRun
      | clonefile =>
          obtain ⟨_, _, _, _, _, _, _, hm⟩ := sem_clonefile h
          exact hm.toSameRun
      | mkdtemp =>
          obtain ⟨_, _, _, _, hm⟩ := sem_mkdtemp h
          exact hm.toSameRun
      | lock =>
          rcases sem_lock h with rfl | ⟨_, _, hm⟩
          · exact SameRun.refl _
          · exact hm.toSameRun
      | unlink =>
          obtain ⟨_, _, _, _, _, hg⟩ := sem_unlink h
          exact hg.toSameRun
      | rmdir =>
          obtain ⟨_, _, _, hg⟩ := sem_rmdir h
          exact hg.toSameRun
      | rename => exact run_rename h
      | spawn =>
          obtain ⟨fs, _, rfl⟩ := h
          exact ⟨rfl, rfl⟩
      | _ =>
          obtain rfl := sem_quiet rfl h
          exact SameRun.refl _

end Effects

end Posix
