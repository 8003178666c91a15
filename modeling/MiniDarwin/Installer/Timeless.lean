import MiniDarwin.Installer.Published
import MiniDarwin.Posix.Times

/-!
The functions of the installer that set no times.

All they do to the modification times is what their other calls do, so a
tree they leave alone has the times it had.
-/

namespace MiniDarwin.Installer

open Posix Effects Effects.Proc

variable {K : Kernel Part} {tx : Tx} {pkg : Package} {g : Globals} {w : World Part} {env : Env} {base p q : Path}
  {α β γ : Type} {c : Component}

/-- No call sets a time or runs a child process. -/
def Timeless (m : M α) : Prop :=
  ∀ K g w, wp (sem K) (fun o _ => o.setsTimes = false) m (fun _ _ _ => True) (fun _ _ _ => True) g w

namespace Timeless

theorem pure (a : α) : Timeless (Pure.pure a) := fun _ _ _ => trivial

theorem die (msg : String) : Timeless (Installer.die msg : M α) := fun _ _ _ => trivial

theorem get : Timeless (Proc.get : M Globals) := fun _ _ _ => trivial

theorem modify (f : Globals → Globals) : Timeless (Proc.modify f : M Unit) := fun _ _ _ => trivial

theorem bind {m : M α} {f : α → M β} (h : Timeless m) (hf : ∀ a, Timeless (f a)) : Timeless (m >>= f) := fun K g w =>
  wp_bind.2 (wp.post (h K g w) (fun a _ _ _ => hf a K _ _) (fun _ _ _ => id))

theorem ask {o : Op Part} (ho : o.setsTimes = false) : Timeless (Posix.ask o) :=
  fun _ _ _ => wp_ask.2 ⟨ho, fun _ _ _ => trivial⟩

theorem call {o : Op Part} {msg : Errno → String} (ho : o.setsTimes = false) : Timeless (Installer.call o msg) := by
  intro K g w
  refine wp_call.2 (wp_ask.2 ⟨ho, fun r _ _ => ?_⟩)
  cases r <;> trivial

theorem ite {p : Prop} [Decidable p] {m n : M α} (hm : Timeless m) (hn : Timeless n) :
    Timeless (if p then m else n) := by
  split
  · exact hm
  · exact hn

theorem each {f : γ → M Unit} {l : List γ} (hf : ∀ x, Timeless (f x)) : Timeless (Proc.each f l) := by
  induction l with
  | nil => exact .pure _
  | cons x l ih => exact (hf x).bind fun _ => ih

/-! ### `util.c` -/

theorem strJoin {a b : Str} : Timeless (Installer.strJoin a b) :=
  .ite (.pure _) (.ite (.pure _) (.ite (.die _) (.pure _)))

theorem relJoin {a b : Path} : Timeless (Installer.relJoin a b) :=
  .ite (.pure _) (.ite (.pure _) (.ite (.die _) (.pure _)))

theorem hostJoin {a b : Path} : Timeless (Installer.hostJoin a b) := .ite (.pure _) (.ite (.die _) (.pure _))

theorem pathExists : Timeless (Installer.pathExists p) := by
  refine (ask rfl).bind fun r => ?_
  split
  · exact .pure _
  · exact .pure _
  · exact .die _

theorem entriesAppend {l : List α} {e : α} : Timeless (Installer.entriesAppend l e) := .ite (.die _) (.pure _)

theorem entriesCheckPaths {l : List Entry} {b : Bool} : Timeless (Installer.entriesCheckPaths l b) := by
  unfold Installer.entriesCheckPaths
  simp only
  split
  · exact .die _
  · split
    · exact .die _
    · exact .pure _

theorem pathParentsFrom {done rest : Path} : Timeless (Installer.pathParentsFrom base false done rest) := by
  have parent : ∀ {host}, Timeless (pathParent false host) := by
    intro host
    refine (ask rfl).bind fun r => ?_
    cases r with
    | ok st => exact .ite (.die _) (.pure _)
    | error e => exact .ite (.die _) (.pure _)
  induction rest generalizing done with
  | nil => exact .pure _
  | cons n rest ih =>
      cases rest with
      | nil => exact .pure _
      | cons m rest => exact hostJoin.bind fun host => parent.bind fun _ => ih

theorem readlink : Timeless (Installer.readlink p) := (call rfl).bind fun _ => .pure _

theorem applyOwnership : Timeless (Installer.applyOwnership env p) := .ite (.call rfl) (.pure _)

theorem writeRounds {rounds : Nat} {data : Bytes} : Timeless (Installer.writeRounds p rounds data) := by
  induction rounds generalizing data with
  | zero => exact .pure _
  | succ rounds ih => exact .ite (.pure _) ((call rfl).bind fun n => .ite (.die _) ih)

theorem createHook : Timeless (Installer.createHook p) := get.bind fun _ => .ite (.modify _) (.pure _)

theorem fileWrite {data : Bytes} {mode : Mode} : Timeless (Installer.fileWrite p data mode) :=
  ((call rfl).bind fun _ => createHook).bind fun _ => writeRounds.bind fun _ =>
    (call rfl).bind fun _ => (call rfl).bind fun _ => .pure _

theorem fileCopy {mode : Mode} : Timeless (Installer.fileCopy p q mode) :=
  (call rfl).bind fun _ => ((call rfl).bind fun _ => createHook).bind fun _ => (call rfl).bind fun _ =>
    writeRounds.bind fun _ => (call rfl).bind fun _ => (call rfl).bind fun _ => .pure _

/-! ### `remove_tree ()` -/

theorem removeNode {removeDir : Path → Stat → M Bool} (h : ∀ p st, Timeless (removeDir p st)) :
    Timeless (Installer.removeNode removeDir p) := by
  refine (ask rfl).bind fun r => ?_
  split
  · exact .pure _
  · refine .ite ((ask rfl).bind fun r => ?_) (h _ _)
    split <;> exact .pure _

theorem removeTree {left : Nat} : Timeless (Installer.removeTree left p) := by
  induction left generalizing p with
  | zero => exact removeNode fun _ _ => .pure _
  | succ left ih =>
      have each : ∀ (p : Path) (names : List Name), Timeless (removeEach (Installer.removeTree left) p names) := by
        intro p names
        induction names with
        | nil => exact .pure _
        | cons n names ih' => exact (ite (.pure _) ih).bind fun _ => ih'.bind fun _ => .pure _
      refine removeNode fun p st => (ask rfl).bind fun r => ?_
      split
      · exact .pure _
      · refine (ask rfl).bind fun r => ?_
        split
        · exact .pure _
        · refine (each _ _).bind fun _ => .ite ((ask rfl).bind fun r => ?_) (.pure _)
          split <;> exact .pure _

/-! ### `resolve_target_path ()` -/

theorem resolveWith {rel : Str} {followLast : Bool} {onLink : Path → Path → Path → Str → M Path}
    (h : ∀ d n x t, Timeless (onLink d n x t)) {done : Path} {l : List (Token × Str)} :
    Timeless (Installer.resolveWith base rel followLast onLink done l) := by
  induction l generalizing done with
  | nil => exact .pure _
  | cons x l ih =>
      unfold Installer.resolveWith
      split
      · exact ih
      · split
        · exact .ite (.die _) ih
        · refine relJoin.bind fun next => hostJoin.bind fun host => (ask rfl).bind fun r => ?_
          cases r with
          | ok st => exact .ite (h _ _ _ _) (.ite (.die _) ih)
          | error e => exact .ite (.die _) ih

theorem resolve {rel todo : Str} {followLast live : Bool} {hops : Nat} {done : Path} :
    Timeless (Installer.resolve base rel followLast live hops done todo) := by
  induction hops generalizing done todo with
  | zero => exact resolveWith fun _ _ _ _ => .die _
  | succ hops ih =>
      refine resolveWith fun _ _ _ _ => readlink.bind fun t => .ite (.ite ?_ (.die _)) ?_
      · exact strJoin.bind fun _ => ih
      · exact strJoin.bind fun _ => ih

theorem resolveBeneath {rel : Str} {followLast : Bool} : Timeless (Installer.resolveBeneath base rel followLast) :=
  get.bind fun _ => resolve

/-! ### `preflight ()` -/

theorem placeEntry {e : Entry} : Timeless (Installer.placeEntry base e) := by
  have placed : Timeless (placedPath base e) := by
    refine .ite resolveBeneath (resolveBeneath.bind fun r => ?_)
    split
    · exact .pure _
    · exact relJoin
  exact placed.bind fun _ => .ite (.die _) (.pure _)

theorem placeEntries {all es : List Entry} : Timeless (Installer.placeEntries base all es) := by
  induction es generalizing all with
  | nil => exact .pure _
  | cons e es ih => exact placeEntry.bind fun _ => entriesAppend.bind fun _ => ih.bind fun _ => .pure _

theorem placeComponents {all : List Entry} {cs : List Component} :
    Timeless (Installer.placeComponents base all cs) := by
  induction cs generalizing all with
  | nil => exact .pure _
  | cons c cs ih => exact placeEntries.bind fun _ => ih.bind fun _ => .pure _

theorem preflightEntry {e : Entry} : Timeless (Installer.preflightEntry base e) := by
  refine .ite (.pure _) (pathParentsFrom.bind fun _ => hostJoin.bind fun _ => (ask rfl).bind fun r => ?_)
  cases r with
  | ok st => exact .ite (.pure _) (.die _)
  | error e => exact .pure _

theorem preflightComponent : Timeless (Installer.preflightComponent env base c) :=
  get.bind fun _ => (each fun _ => .ite (.die _) (.pure _)).bind fun _ =>
    (each fun _ => pathParentsFrom.bind fun _ => hostJoin.bind fun _ => pathExists.bind fun _ =>
      .ite (.die _) (.pure _)).bind fun _ => .each fun _ => preflightEntry

theorem preflight : Timeless (Installer.preflight env base pkg) :=
  (placeComponents.bind fun _ => entriesCheckPaths.bind fun _ => .pure _).bind fun _ =>
    (each fun _ => preflightComponent).bind fun _ => hostJoin.bind fun _ => pathExists.bind fun _ =>
      .ite (.die _) (.pure _)

/-! ### `lock_and_recover ()` -/

theorem recoverRoot : Timeless (Installer.recoverRoot tx) :=
  pathExists.bind fun _ => .ite (pathExists.bind fun _ => .ite ((call rfl).bind fun _ => .ite (.die _) (.pure _))
    (call rfl)) (.pure _)

theorem recover : Timeless (Installer.recover tx) :=
  (call rfl).bind fun _ => .ite (.die _) (hostJoin.bind fun _ => ((call rfl).bind fun _ => .ite (.die _) (.pure _)).bind
    fun _ => .ite (.die _) (recoverRoot.bind fun _ => (removeTree.bind fun _ => .ite (.pure _) (.die _)).bind fun _ =>
      call rfl))

theorem lockAndRecover : Timeless (Installer.lockAndRecover tx) :=
  (call rfl).bind fun _ => hostJoin.bind fun _ => hostJoin.bind fun _ =>
    (pathExists.bind fun _ => .ite recover (.pure _)).bind fun _ =>
      (call rfl).bind fun _ => .ite (.die _) ((call rfl).bind fun _ => call rfl)

end Timeless

end MiniDarwin.Installer
