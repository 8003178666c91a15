import MiniDarwin.Installer.Util

/-!
`resolve_target_path ()`: where a path beneath a root leads, as the kernel
would see it with that root as `/`, except that leaving the root is
refused.

The loop of the source works on two strings, `done` and `todo`, and a
counter of links. It is written here as two nested recursions: over the
components of `todo`, and, whenever a link is spliced into `todo`, over
the number of links still allowed. `done` has only names in it from the
start, so it is kept as a path.
-/

namespace MiniDarwin.Installer

open Posix Effects Effects.Proc

/-- The loop up to the next link. `onLink` gets `done`, the link itself as a
path beneath the root and on the host, and `todo`. -/
def resolveWith (base : Path) (rel : Str) (followLast : Bool)
    (onLink : Path → Path → Path → Str → M Path) : Path → List (Token × Str) → M Path
  | done, [] => pure done
  | done, (name, todo) :: more =>
      if h1 : name.1 = [] ∨ name.1 = ['.'] then
        resolveWith base rel followLast onLink done more
      else if h2 : name.1 = ['.', '.'] then
        if done = [] then die s!"{String.ofList rel} leaves the root"
        else resolveWith base rel followLast onLink done.dropLast more
      else do
        let next ← relJoin done [name.name h1 h2]
        let host ← hostJoin base next
        match ← ask (.lstat host) with
        | .error e =>
            if e ≠ .ENOENT then die s!"stat {hostStr host}: {strerror e}"
            else resolveWith base rel followLast onLink next more
        | .ok st =>
            if st.kind = .link ∧ (todo ≠ [] ∨ followLast) then onLink done next host todo
            else if todo ≠ [] ∧ st.kind ≠ .dir then die s!"not a directory: {str next}"
            else resolveWith base rel followLast onLink next more

/-- `readlink ()` into a buffer of `PATH_MAX` bytes. -/
def readlink (host : Path) : M Str := do
  let target : Str ← call (.readlink host) fun e => s!"readlink {hostStr host}: {strerror e}"
  pure (target.take (pathMax - 1))

/-- The loop with `hops` links still allowed. -/
def resolve (base : Path) (rel : Str) (followLast live : Bool) : Nat → Path → Str → M Path
  | 0, done, todo =>
      resolveWith base rel followLast
        (fun _ _ _ _ => die s!"too many symlinks resolving {String.ofList rel}") done (tokens todo)
  | hops + 1, done, todo =>
      resolveWith base rel followLast (fun done next host todo => do
        let target ← readlink host
        if target.head? = some '/' then
          -- in the running root an absolute link points inside it
          if live then do
            let spliced ← strJoin (target.dropWhile (· = '/')) todo
            resolve base rel followLast live hops [] spliced
          else die s!"{String.ofList rel} passes through an absolute symlink: {str next}"
        else do
          let spliced ← strJoin target todo
          resolve base rel followLast live hops done spliced) done (tokens todo)

/-- `resolve_target_path ()` -/
def resolveTargetPath (base : Path) (rel : Str) (followLast live : Bool) : M Path :=
  resolve base rel followLast live limitSymlinkHops [] rel

/-- `resolve_beneath ()` -/
def resolveBeneath (base : Path) (rel : Str) (followLast : Bool) : M Path := do
  let g ← get
  resolveTargetPath base rel followLast g.live

/-! ### Confinement

`done` never passes through anything but directories and missing names.
That survives going up, and it survives a splice, which leaves `done`
alone or starts again from the root. -/

variable {K : Kernel Part} {g : Globals} {w : World Part}
  {base B done : Path} {rel todo : Str} {followLast live : Bool}

/-- Down to `p`, and at `p`, there are only directories and missing names. -/
def Open (fs : Fs) (B p : Path) : Prop := ∀ r, r <+: p → fs.get (B ++ r) = none ∨ fs.IsDir (B ++ r)

theorem Open.dropLast {fs : Fs} {p : Path} (h : Open fs B p) : Open fs B p.dropLast :=
  fun r hr => h r (hr.trans (List.dropLast_prefix p))

theorem Open.clear {fs : Fs} {p : Path} (h : Open fs B p) : Clear fs B p := fun r hr _ => h r hr

theorem Open.clear_concat {fs : Fs} {p : Path} {n : Name} (h : Open fs B p) :
    Clear fs B (p ++ [n]) := by
  intro r hr hne
  exact h r ((List.prefix_concat_iff.1 hr).resolve_left hne)

theorem Open.concat {fs : Fs} {p : Path} {n : Name} (h : Open fs B p)
    (hn : fs.get (B ++ (p ++ [n])) = none ∨ fs.IsDir (B ++ (p ++ [n]))) :
    Open fs B (p ++ [n]) := by
  intro r hr
  rcases List.prefix_concat_iff.1 hr with rfl | hr
  · exact hn
  · exact h r hr

theorem open_nil {fs : Fs} (hb : At fs base B) : Open fs B [] := by
  intro r hr
  obtain rfl := List.prefix_nil.1 hr
  exact .inr (by simpa using hb.isDir)

/-- A path that is looked at lies beneath the root, and the kernel meets no
link on the way to it. -/
def LooksBeneath (base B : Path) (o : Op Part) (v : World Part) : Prop :=
  ∃ q, (o = .lstat (base ++ q) ∨ o = .readlink (base ++ q)) ∧ q ≠ [] ∧ Clear v.fs B q

/-- What `resolve_target_path ()` returns. -/
def Placed (fs : Fs) (B : Path) (followLast : Bool) (p : Path) : Prop :=
  Clear fs B p ∧ (followLast = true → ∀ t, fs.get (B ++ p) ≠ some (.link t))

theorem Open.placed {fs : Fs} {p : Path} (h : Open fs B p) : Placed fs B followLast p := by
  refine ⟨h.clear, fun _ t ht => ?_⟩
  rcases h p (List.prefix_refl p) with hn | ⟨m, hm⟩
  · simp [ht] at hn
  · simp [ht] at hm

/-- Nothing but looking beneath the root, the tree as it was. -/
def Looking (base B : Path) (w : World Part) (o : Op Part) (v : World Part) : Prop :=
  v = w ∧ LooksBeneath base B o v

/-- The result of a resolution in the world `w`. -/
def Resolved (w : World Part) (B : Path) (followLast : Bool) (g : Globals) (p : Path)
    (g' : Globals) (v : World Part) : Prop :=
  v = w ∧ g' = g ∧ Placed w.fs B followLast p

/-- A refusal leaves everything alone. -/
def Still (w : World Part) (g : Globals) (_ : String) (g' : Globals) (v : World Part) : Prop :=
  v = w ∧ g' = g

theorem wp_resolveWith {onLink : Path → Path → Path → Str → M Path}
    (hb : At w.fs base B)
    (hlink : ∀ d n t todo, Open w.fs B d → w.fs.get (B ++ (d ++ [n])) = some (.link t) →
      wp (sem K) (Looking base B w) (onLink d (d ++ [n]) (base ++ (d ++ [n])) todo)
        (Resolved w B followLast g) (Still w g) g w)
    {todo : Str} {l : List (Token × Str)} (hl : l = tokens todo) (hdone : Open w.fs B done) :
    wp (sem K) (Looking base B w) (resolveWith base rel followLast onLink done l)
      (Resolved w B followLast g) (Still w g) g w := by
  induction l generalizing done todo with
  | nil => exact ⟨rfl, rfl, hdone.placed⟩
  | cons x l ih =>
      obtain ⟨name, todo'⟩ := x
      have hmore : l = tokens todo' := tokens_cons hl.symm
      unfold resolveWith
      split
      · exact ih hmore hdone
      · next h1 =>
          split
          · split
            · exact ⟨rfl, rfl⟩
            · exact ih hmore hdone.dropLast
          · next h2 =>
              rw [wp_bind]
              refine wp_relJoin ?_ (fun _ => ⟨rfl, rfl⟩)
              rw [wp_bind]
              refine wp_hostJoin (fun _ => ?_) (fun _ _ => ⟨rfl, rfl⟩)
              rw [wp_bind]
              refine wp_lstat hb (by simp) hdone.clear_concat
                ⟨rfl, _, .inl rfl, by simp, hdone.clear_concat⟩ ?_ ?_ ?_
              · intro v hv
                simp only
                split
                · next hk =>
                    cases v with
                    | link t => exact hlink _ _ t _ hdone hv
                    | _ => simp [Node.stat] at hk
                · next hk =>
                    split
                    · exact ⟨rfl, rfl⟩
                    · next hd =>
                        by_cases ht : todo' = []
                        · -- the last component: it may be anything but a link to follow
                          obtain rfl : l = [] := by simpa [ht, tokens, tokensFrom] using hmore
                          refine ⟨rfl, rfl, hdone.clear_concat, fun hf t heq => hk ?_⟩
                          rw [hv] at heq
                          cases heq
                          exact ⟨rfl, .inr hf⟩
                        · refine ih hmore (hdone.concat (.inr ?_))
                          cases v with
                          | dir m => exact ⟨m, hv⟩
                          | _ => exact absurd ⟨ht, by simp [Node.stat]⟩ hd
              · exact fun hn => ih hmore (hdone.concat (.inl hn))
              · exact fun _ => ⟨rfl, rfl⟩

theorem wp_readlink_host {t : Str} {E : Op Part → World Part → Prop} {b q : Path}
    {Q : Str → Globals → World Part → Prop} {D : String → Globals → World Part → Prop}
    (hb : At w.fs b B) (hq : q ≠ []) (hv : w.fs.get (B ++ q) = some (.link t))
    (hE : E (.readlink (b ++ q)) w) (hQ : Q (t.take (pathMax - 1)) g w)
    (hD : K.flaky (.readlink (b ++ q)) w → ∀ msg, D msg g w) :
    wp (sem K) E (readlink (b ++ q)) Q D g w := by
  unfold readlink
  rw [wp_bind, wp_call]
  exact Posix.wp_readlink hb hq hv hE hQ (fun hf => hD hf _)

theorem wp_resolve (hb : At w.fs base B) {hops : Nat} (hdone : Open w.fs B done) :
    wp (sem K) (Looking base B w) (resolve base rel followLast live hops done todo)
      (Resolved w B followLast g) (Still w g) g w := by
  induction hops generalizing done todo with
  | zero =>
      refine wp_resolveWith hb (fun _ _ _ _ _ _ => ?_) rfl hdone
      exact ⟨rfl, rfl⟩
  | succ hops ih =>
      refine wp_resolveWith hb (fun d n t todo hd ht => ?_) rfl hdone
      rw [wp_bind]
      refine wp_readlink_host hb (by simp) ht
        ⟨rfl, _, .inr rfl, by simp, hd.clear_concat⟩ ?_ (fun _ _ => ⟨rfl, rfl⟩)
      split
      · split
        · rw [wp_bind]
          exact wp_strJoin (fun _ _ => ih (open_nil hb)) (fun _ => ⟨rfl, rfl⟩)
        · exact ⟨rfl, rfl⟩
      · rw [wp_bind]
        exact wp_strJoin (fun _ _ => ih hd) (fun _ => ⟨rfl, rfl⟩)

theorem wp_resolveTargetPath (hb : At w.fs base B) :
    wp (sem K) (Looking base B w) (resolveTargetPath base rel followLast live)
      (Resolved w B followLast g) (Still w g) g w := wp_resolve hb (open_nil hb)

/-- **Confinement.** In every run of `resolve_target_path ()` beneath a directory,
whatever the tree, the path and the switches, and whichever calls fail:
the run ends; each call looks at a path beneath the directory that the
kernel reaches without meeting a link; and a path that is returned has
only directories and missing names above it and, if the last link was to
be followed, is not a link. -/
theorem resolveTargetPath_confined (K : Kernel Part) (w : World Part)
    (g : Globals) (base B : Path) (rel : Str) (followLast live : Bool) (hb : At w.fs base B) :
    Acc Prog.Next (resolveTargetPath base rel followLast live g) ∧
    (∀ o k v, Prog.Reach (sem K) (resolveTargetPath base rel followLast live g) w
        (.call o k) v →
      v = w ∧ ∃ q, (o = .lstat (base ++ q) ∨ o = .readlink (base ++ q)) ∧ q ≠ [] ∧
        Clear w.fs B q ∧
        (locate w.fs (base ++ q) = .ok (B ++ q) ∨ locate w.fs (base ++ q) = .error .ENOENT)) ∧
    (∀ P g' v, Prog.Reach (sem K) (resolveTargetPath base rel followLast live g) w
        (.ret (.ok P, g')) v →
      v = w ∧ (∀ r, r <+: P → r ≠ P → w.fs.get (B ++ r) = none ∨ w.fs.IsDir (B ++ r)) ∧
        (followLast = true → ∀ t, w.fs.get (B ++ P) ≠ some (.link t))) := by
  obtain ⟨hcalls, hret⟩ := Prog.spec_iff.1
    (@wp_resolveTargetPath K g w base B rel followLast live hb)
  refine ⟨Prog.halts _, ?_, ?_⟩
  · intro o k v hr
    obtain ⟨rfl, q, ho, hq, hc⟩ := hcalls o k v hr
    exact ⟨rfl, q, ho, hq, hc, (locate_clear hb hq hc).imp id And.left⟩
  · intro P g' v hr
    obtain ⟨rfl, -, hc, hl⟩ := hret _ v hr
    exact ⟨rfl, hc, hl⟩

def linkName : Name := nm "l".toList

/-- A root with the link `/l` to a name that is missing. -/
def linkedRoot : World Part :=
  let fs := Fs.bare.create [linkName] (.link "b".toList) (by decide) (by decide) (by decide)
  ⟨fs, .main, fs, []⟩

theorem resolveTargetPath_confined_linkedRoot :
    ∃ v, Prog.Reach (sem Kernel.steady) (resolveTargetPath [] "a/../l".toList true false {})
        linkedRoot (.ret (.ok [nm "b".toList], {})) v ∧
      v = linkedRoot ∧ ∀ t, linkedRoot.fs.get [nm "b".toList] ≠ some (.link t) := by
  have hr := Prog.reach_exec (sem_answer (K := Kernel.steady))
    (resolveTargetPath [] "a/../l".toList true false {}) linkedRoot
  have hx : ((resolveTargetPath [] "a/../l".toList true false {}).exec Op.answer linkedRoot).1 =
      (.ok [nm "b".toList], {}) := by decide +kernel
  rw [hx] at hr
  have h := (resolveTargetPath_confined Kernel.steady linkedRoot {} [] [] "a/../l".toList true false
    (at_self Fs.isDir_nil)).2.2 _ _ _ hr
  exact ⟨_, hr, h.1, h.2.2 rfl⟩

end MiniDarwin.Installer
