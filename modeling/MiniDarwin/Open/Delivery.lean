import MiniDarwin.Open.Pointers
import MiniDarwin.Data.Grouping

/-!
Every item of a request is passed to one launch, as long as no more than 64
items are opened by bundles: with more, handlers are read through pointers
that no longer lead to them.
-/

namespace MiniDarwin.Open

open Posix (Bytes Errno)
open Launchd (ascii Value)
open Data (Arena)

/-! ### Launches -/

/-- What is compared of two handlers. -/
def Handler.ident (handler : Handler) : Bytes × List Bytes := (handler.origin, handler.command)

def Launch.pair (launch : Launch) : Handler × List Bytes := (launch.handler, launch.items)

/-- Each entry, a handler and what is passed to it, is in one launch; two are in the same one
when their handlers have the same origin and command and are not single. -/
def Delivered (entries : List (Handler × Option Bytes)) (launches : List Launch) : Prop :=
  ∃ places, Data.Grouped Handler.ident Handler.single entries (launches.map Launch.pair) places

/-- The loop of `add ()` finds the first launch of the handler. -/
theorem joinLaunch_cases (handler : Handler) (value : Option Bytes) (launches : List Launch) :
    let i := (launches.map Launch.pair).findIdx fun g => g.1.ident = handler.ident
    joinLaunch handler value launches = none ∧ i = launches.length ∨
      ∃ launches', joinLaunch handler value launches = some launches' ∧ i < launches.length ∧
        launches'.map Launch.pair =
          (launches.map Launch.pair).modify i fun g => (g.1, g.2 ++ value.toList) := by
  induction launches with
  | nil => exact .inl ⟨rfl, rfl⟩
  | cons launch launches ih =>
      simp only [List.map_cons, List.findIdx_cons]
      by_cases h : launch.handler.origin = handler.origin ∧ launch.handler.command = handler.command
      · have hident : (launch.pair.1.ident = handler.ident) = True := by
          simpa [Handler.ident, Launch.pair] using h
        right
        simp only [joinLaunch, if_pos h, hident, decide_true, cond_true]
        exact ⟨_, rfl, by simp, rfl⟩
      · have hident : (launch.pair.1.ident = handler.ident) = False := by
          simpa [Handler.ident, Launch.pair] using h
        simp only [joinLaunch, if_neg h, hident, decide_false, cond_false, List.length_cons]
        rcases ih with ⟨hnone, hi⟩ | ⟨launches', hsome, hi, hpairs⟩
        · left
          exact ⟨by rw [hnone]; rfl, by rw [hi]⟩
        · right
          refine ⟨_, by rw [hsome]; rfl, by omega, ?_⟩
          rw [List.map_cons, hpairs, List.modify_succ_cons]

theorem add_eq_join (launches : List Launch) (handler : Handler) (value : Option Bytes) :
    (add launches handler value).map Launch.pair =
      Data.join Handler.ident Handler.single (launches.map Launch.pair) handler value := by
  have hlength : (launches.map Launch.pair).length = launches.length := List.length_map _
  unfold add Data.join Data.spot
  by_cases hsingle : handler.single = true
  · simp only [if_pos hsingle, hlength, lt_irrefl, if_false]
    simp [Launch.pair]
  · simp only [if_neg hsingle, hlength]
    rcases joinLaunch_cases handler value launches with ⟨hnone, hi⟩ | ⟨launches', hsome, hi, hpairs⟩
    · rw [hnone, hi, if_neg (lt_irrefl _)]
      simp [Launch.pair]
    · rw [hsome, if_pos hi]
      exact hpairs

theorem delivered_foldl {entries : List (Handler × Option Bytes)}
    (hinj : ∀ e ∈ entries, ∀ f ∈ entries, e.1.ident = f.1.ident → e.1 = f.1) :
    Delivered entries (entries.foldl (fun launches entry => add launches entry.1 entry.2) []) := by
  induction entries using List.reverseRecOn with
  | nil => exact ⟨[], .nil⟩
  | append_singleton entries entry ih =>
      obtain ⟨places, hgrouped⟩ := ih fun e he f hf =>
        hinj e (List.mem_append_left _ he) f (List.mem_append_left _ hf)
      have hlast : entry ∈ entries ++ [entry] := by simp
      rw [List.foldl_append, List.foldl_cons, List.foldl_nil, Delivered, add_eq_join]
      exact ⟨_, hgrouped.join fun e he h => hinj e (List.mem_append_left _ he) entry hlast h⟩

namespace Resolver

variable {r : Resolver} {owned : Arena Handler}

theorem foldlM_addVia {entries : List (Handler × Pointer × Option Bytes)} (launches : List Launch)
    (h : ∀ entry ∈ entries, r.Leads owned entry.2.1 entry.1) :
    (entries.map (·.2)).foldlM r.addVia launches owned =
      .ok (entries.foldl (fun launches entry => add launches entry.1 entry.2.2) launches, owned) := by
  induction entries generalizing launches with
  | nil => rfl
  | cons entry entries ih =>
      have hderef : r.deref entry.2.1 owned = .ok (entry.1, owned) := h entry List.mem_cons_self
      rw [List.map_cons, List.foldlM_cons, List.foldl_cons, ← ih _ fun e he => h e (List.mem_cons_of_mem _ he)]
      simp only [addVia, bind, StateT.bind, Except.bind, hderef]
      rfl

theorem foldlM_addVia_fault {entries : List (Pointer × Option Bytes)} {launches : List Launch}
    (h : ∃ entry ∈ entries, r.deref entry.1 owned = .error .fault) :
    entries.foldlM r.addVia launches owned = .error .fault := by
  induction entries generalizing launches with
  | nil =>
      obtain ⟨entry, hmem, -⟩ := h
      cases hmem
  | cons entry entries ih =>
      rw [List.foldlM_cons]
      rcases r.deref_cases entry.1 owned with ⟨handler, hleads⟩ | hfault
      · have hderef : r.deref entry.1 owned = .ok (handler, owned) := hleads
        have hrest : ∃ entry ∈ entries, r.deref entry.1 owned = .error .fault := by
          obtain ⟨bad, hmem, hbad⟩ := h
          rcases List.mem_cons.1 hmem with rfl | hmem
          · rw [hderef] at hbad
            cases hbad
          · exact ⟨bad, hmem, hbad⟩
        simp only [addVia, bind, StateT.bind, Except.bind, hderef]
        exact ih hrest
      · simp only [addVia, bind, StateT.bind, Except.bind, hfault]

end Resolver

/-! ### Reading -/

/-- A reader that gives values with `Q` and never faults. -/
def Reads {α : Type} (m : Reading α) (Q : α → Prop) : Prop :=
  ∀ warnings, (∀ a, (m.run.run warnings).1 = .ok a → Q a) ∧ (m.run.run warnings).1 ≠ .error .fault

theorem reads_pure {α : Type} {a : α} {Q : α → Prop} (h : Q a) : Reads (pure a) Q := by
  intro warnings
  constructor
  · intro b hb
    cases hb
    exact h
  · intro hb
    cases hb

theorem reads_bind {α β : Type} {m : Reading α} {f : α → Reading β} {P : α → Prop} {Q : β → Prop}
    (hm : Reads m P) (hf : ∀ a, P a → Reads (f a) Q) : Reads (m >>= f) Q := by
  intro warnings
  obtain ⟨hok, hfault⟩ := hm warnings
  simp only [ExceptT.run_bind, StateT.run_bind]
  cases hrun : m.run.run warnings with
  | mk result warnings' =>
      rw [hrun] at hok hfault
      cases result with
      | ok a => exact hf a (hok a rfl) warnings'
      | error stop =>
          constructor
          · intro b hb
            cases hb
          · intro hb
            cases hb
            exact hfault rfl

theorem reads_lift {α : Type} {x : Launchd.Result α} {Q : α → Prop} (h : ∀ a, x = .ok a → Q a) :
    Reads (lift x) Q := by
  intro warnings
  cases x with
  | error message =>
      constructor
      · intro a ha
        cases ha
      · intro ha
        cases ha
  | ok a =>
      constructor
      · intro b hb
        cases hb
        exact h a rfl
      · intro hb
        cases hb

theorem reads_lift_true {α : Type} (x : Launchd.Result α) : Reads (lift x) fun _ => True :=
  reads_lift fun _ _ => trivial

theorem reads_warn (message : String) : Reads (warn message) fun _ => True := by
  intro warnings
  constructor
  · intro _ _
    trivial
  · intro h
    cases h

theorem reads_warnIf (p : Prop) [Decidable p] (message : String) : Reads (warnIf p message) fun _ => True := by
  unfold warnIf
  split
  · exact reads_warn message
  · exact reads_pure trivial

theorem reads_throwIf {p : Prop} [Decidable p] {message : Bytes} :
    Reads (throwIf p (.error message)) fun _ => True := by
  unfold throwIf
  split
  · intro warnings
    constructor
    · intro _ _
      trivial
    · intro h
      cases h
  · exact reads_pure trivial

theorem reads_warnOption (options : Dict) (option : String × String) :
    Reads (warnOption options option) fun _ => True := by
  unfold warnOption
  apply reads_bind (reads_lift_true _)
  intro _ _
  exact reads_warnIf _ _

theorem reads_forM {α : Type} {f : α → Reading Unit} (l : List α) (h : ∀ a, Reads (f a) fun _ => True) :
    Reads (l.forM f) fun _ => True := by
  induction l with
  | nil => exact reads_pure trivial
  | cons a l ih => exact reads_bind (h a) fun _ _ => ih

theorem reads_warnOptions (options : Dict) : Reads (warnOptions options) fun _ => True := by
  unfold warnOptions
  apply reads_bind (reads_forM _ (reads_warnOption options))
  intro _ _
  apply reads_bind (reads_lift_true _)
  intro _ _
  exact reads_warnIf _ _

theorem value_ne_nil {value : Value} {item : Item} (h : readItem value = .ok item) : item.value ≠ [] := by
  unfold readItem at h
  obtain ⟨entry, -, h⟩ := Launchd.bind_eq_ok h
  obtain ⟨type, -, h⟩ := Launchd.bind_eq_ok h
  obtain ⟨text, -, h⟩ := Launchd.bind_eq_ok h
  split at h
  · obtain ⟨_, habs, h⟩ := Launchd.bind_eq_ok h
    cases h
    rintro rfl
    cases habs
  · split at h
    · obtain ⟨_, hcolon, h⟩ := Launchd.bind_eq_ok h
      cases h
      rintro rfl
      cases hcolon
    · cases h

theorem mem_mapM {α β : Type} {f : α → Launchd.Result β} {l : List α} {l' : List β} (h : l.mapM f = .ok l')
    {b : β} (hb : b ∈ l') : ∃ a, f a = .ok b := by
  induction l generalizing l' with
  | nil =>
      cases h
      cases hb
  | cons a l ih =>
      rw [List.mapM_cons] at h
      obtain ⟨b', hb', h⟩ := Launchd.bind_eq_ok h
      obtain ⟨l'', hl, h⟩ := Launchd.bind_eq_ok h
      cases h
      rcases List.mem_cons.1 hb with rfl | hb
      · exact ⟨a, hb'⟩
      · exact ih hl hb

theorem readItems_ok {request : Dict} {items : List Item} (h : readItems request = .ok items) :
    ∀ item ∈ items, item.value ≠ [] := by
  unfold readItems at h
  split at h
  · cases h
    exact List.forall_mem_nil _
  · obtain ⟨values, -, h⟩ := Launchd.bind_eq_ok h
    intro item hmem
    obtain ⟨value, hvalue⟩ := mem_mapM h hmem
    exact value_ne_nil hvalue

theorem dirname_ne_nil (path : Bytes) : dirname path ≠ [] := by
  unfold dirname
  split
  · simp
  · simp
  · next above name hne heq =>
      rintro rfl
      exact hne rfl

theorem reveal_cases (items folders : List Item) (hfolders : ∀ item ∈ folders, item.value ≠ []) :
    (∀ items', reveal folders items = .ok items' → ∀ item ∈ items', item.value ≠ []) ∧
      reveal folders items ≠ .error .fault := by
  induction items generalizing folders with
  | nil =>
      constructor
      · intro items' h
        cases h
        exact hfolders
      · intro h
        cases h
  | cons item items ih =>
      unfold reveal
      split
      · constructor
        · intro items' h
          cases h
        · intro h
          cases h
      · dsimp only
        split
        · exact ih folders hfolders
        · apply ih
          intro folder hmem
          rcases List.mem_append.1 hmem with hmem | hmem
          · exact hfolders folder hmem
          · rw [List.mem_singleton.1 hmem]
            exact dirname_ne_nil _

theorem reads_revealed {options : Dict} {items : List Item} (h : ∀ item ∈ items, item.value ≠ []) :
    Reads (revealed options items) fun items => ∀ item ∈ items, item.value ≠ [] := by
  unfold revealed
  apply reads_bind (reads_lift_true _)
  intro _ _
  split
  · apply reads_bind (reads_warn _)
    intro _ _ warnings
    exact reveal_cases items [] (List.forall_mem_nil _)
  · exact reads_pure h

/-- The items of a request are not empty, so that the empty string can stand for none. -/
theorem reads_readRequest (descriptors : List Nat) (requestValue : Value) :
    Reads (readRequest descriptors requestValue) fun request =>
      ∀ item ∈ request.items, item.value ≠ [] := by
  unfold readRequest
  apply reads_bind (reads_lift_true _)
  intro request _
  apply reads_bind (reads_lift_true _)
  intro version _
  apply reads_bind reads_throwIf
  intro _ _
  apply reads_bind (reads_lift_true _)
  intro names _
  apply reads_bind reads_throwIf
  intro _ _
  apply reads_bind (reads_lift_true _)
  intro streams _
  apply reads_bind (reads_lift_true _)
  intro environment _
  apply reads_bind (reads_lift_true _)
  intro arguments _
  apply reads_bind (reads_lift_true _)
  intro directory _
  apply reads_bind (reads_lift_true _)
  intro options _
  apply reads_bind (reads_lift_true _)
  intro wait _
  apply reads_bind (reads_warnOptions options)
  intro _ _
  apply reads_bind (reads_lift fun items h => readItems_ok h)
  intro items hitems
  apply reads_bind (reads_revealed hitems)
  intro items hitems
  exact reads_pure hitems

/-! ### Arguments -/

/-- The command with its items in place of `%s`, the arguments, and the items when they have no
place in the command. -/
def expanded (arguments : List Bytes) (launch : Launch) : List Bytes :=
  (launch.handler.command.flatMap fun word => if word = ascii "%s" then launch.items else [word]) ++
    arguments ++ if ascii "%s" ∈ launch.handler.command then [] else launch.items

theorem placeItems_eq (items command : List Bytes) :
    placeItems items command = (command.flatMap fun word => if word = ascii "%s" then items else [word],
      decide (ascii "%s" ∈ command)) := by
  induction command with
  | nil => rfl
  | cons word command ih =>
      simp only [placeItems, ih, List.flatMap_cons, List.mem_cons]
      by_cases h : word = ascii "%s"
      · simp [h]
      · simp [h, Ne.symm h]

theorem argv_eq (launch : Launch) (arguments : List Bytes) :
    argv launch arguments = expanded arguments launch := by
  simp only [argv, placeItems_eq, expanded, decide_eq_true_eq]

theorem prepare_ok {sys : System} {request : Request} {launch : Launch} {spawn : Spawn}
    (h : prepare sys request launch = .ok spawn) : spawn.argv = expanded request.arguments launch := by
  rw [← argv_eq]
  unfold prepare at h
  split at h
  · cases h
  · next word words hargv =>
      rw [hargv]
      simp only [bind, Except.bind] at h
      split at h
      · cases h
      · cases h
        rfl

theorem prepare_error {sys : System} {request : Request} {launch : Launch} :
    prepare sys request launch ≠ .error .fault := by
  intro h
  unfold prepare at h
  split at h
  · cases h
  · simp only [bind, Except.bind, searchPath] at h
    split at h
    · next heq =>
        split at heq
        · cases heq
        · split at heq
          · cases heq
          · cases heq
            cases h
    · cases h

/-- The launches are run in their order, until one cannot be. -/
theorem launchAll_spawned (sys : System) (exec : List Spawn → Spawn → Exec) (request : Request) (launched : Launched)
    (launches : List Launch) :
    (launchAll sys exec request launched launches).1 ≠ .error .fault ∧
      ∃ spawned, (launchAll sys exec request launched launches).2.spawned = launched.spawned ++ spawned ∧
        spawned.map (·.argv) <+: launches.map (expanded request.arguments) ∧
        ((launchAll sys exec request launched launches).1 = .ok () →
          spawned.map (·.argv) = launches.map (expanded request.arguments)) := by
  induction launches generalizing launched with
  | nil => exact ⟨by simp [launchAll], [], by simp [launchAll], List.nil_prefix, fun _ => rfl⟩
  | cons launch launches ih =>
      unfold launchAll
      split
      · next stop hprepare =>
          refine ⟨?_, [], by simp, List.nil_prefix, by simp⟩
          intro h
          exact prepare_error (hprepare.trans (by simpa using h))
      · next spawn hprepare =>
          have hargv := prepare_ok hprepare
          have hone : [spawn].map (·.argv) <+:
              (launch :: launches).map (expanded request.arguments) := by
            rw [List.map_cons, List.map_cons, hargv]
            exact List.prefix_cons_inj _ |>.2 List.nil_prefix
          split
          · next pid hexec =>
              obtain ⟨hfault, spawned, hspawned, hinit, hall⟩ :=
                ih ⟨launched.processes ++ [⟨pid, spawn.program, launch.handler.terminal⟩],
                  launched.spawned ++ [spawn]⟩
              refine ⟨hfault, spawn :: spawned, ?_, ?_, ?_⟩
              · rw [hspawned, List.append_assoc, List.singleton_append]
              · rw [List.map_cons, List.map_cons, hargv]
                exact (List.prefix_cons_inj _).2 hinit
              · intro hok
                rw [List.map_cons, List.map_cons, hargv, hall hok]
          · exact ⟨by simp, [spawn], rfl, hone, by simp⟩
          · exact ⟨by simp, [spawn], rfl, hone, by simp⟩

/-! ### Requests -/

namespace Resolver

/-- What is to be delivered: everything to the handler that is named, or each item to what it is
opened with. -/
def Entries (r : Resolver) (request : Request) (entries : List (Handler × Option Bytes)) : Prop :=
  named request.dict = .ok true ∧
      (∃ p owned' handler, r.namedHandler request.dict owned = .ok (p, owned') ∧
        r.Leads owned' p handler ∧ entries = request.values.map fun value => (handler, value)) ∨
    named request.dict = .ok false ∧
      List.Forall₂ (fun item entry => r.opens item = .ok entry.1 ∧ entry.2 = r.passed item) request.items
        entries

variable {r : Resolver} {request : Request}

theorem launchesNamed_cases (hr : r.Lawful) (hnamed : named request.dict = .ok true) :
    (∃ stop, r.launchesNamed request owned = .error stop ∧ stop ≠ .fault) ∨
      ∃ entries launches owned', r.Entries request entries ∧ Delivered entries launches ∧
        r.launchesNamed request owned = .ok (launches, owned') := by
  unfold launchesNamed
  rcases finds_namedHandler hr request.dict owned with ⟨stop, herror, hstop⟩ | ⟨p, owned', handler, hok, hleads⟩
  · refine .inl ⟨stop, ?_, hstop⟩
    simp only [bind, StateT.bind, Except.bind, herror]
  · right
    refine ⟨_, _, owned', .inl ⟨hnamed, p, owned', handler, hok, hleads, rfl⟩, delivered_foldl ?_, ?_⟩
    · intro e he f hf _
      obtain ⟨value, -, rfl⟩ := List.mem_map.1 he
      obtain ⟨value', -, rfl⟩ := List.mem_map.1 hf
      rfl
    · have hall : ∀ entry ∈ request.values.map fun value => (handler, p, value),
          r.Leads owned' entry.2.1 entry.1 := by
        intro entry hentry
        obtain ⟨value, -, rfl⟩ := List.mem_map.1 hentry
        exact hleads
      have hfold := foldlM_addVia [] hall
      simp only [bind, StateT.bind, Except.bind, hok]
      simp only [List.map_map, Function.comp_def, List.foldl_map] at hfold ⊢
      rw [hfold]

/-- What is to be delivered of resolved items. -/
theorem entries_of_resolved {owned' : Arena Handler} {items : List Item}
    {entries : List (Handler × Pointer × Bytes)} (h : r.Resolved owned items entries owned')
    (hitems : ∀ item ∈ items, item.value ≠ []) :
    List.Forall₂ (fun item entry => r.opens item = .ok entry.1 ∧ entry.2 = r.passed item) items
      (entries.map fun entry => (entry.1, if entry.2.2 = [] then none else some entry.2.2)) := by
  rw [List.forall₂_map_right_iff]
  have hall := List.forall₂_iff_zip.1 h.forall₂
  refine List.forall₂_iff_zip.2 ⟨hall.1, fun {item entry} hmem => ?_⟩
  obtain ⟨hopens, hvalue⟩ := hall.2 hmem
  refine ⟨hopens, ?_⟩
  have hne : item.value ≠ [] := hitems item (List.of_mem_zip hmem).1
  simp only [hvalue, passed]
  split
  · simp
  · simp [hne]

/-- With few bundles, resolved items are delivered. -/
theorem launchesOf_few {owned' : Arena Handler} {items : List Item}
    {entries : List (Handler × Pointer × Bytes)} (hr : r.Lawful)
    (h : r.Resolved owned items entries owned')
    (hrun : items.mapM r.resolveItem owned = .ok (entries.map (·.2), owned'))
    (hitems : ∀ item ∈ items, item.value ≠ []) (hfew : r.bundled items ≤ 64) :
    ∃ entries launches, List.Forall₂ (fun item entry => r.opens item = .ok entry.1 ∧ entry.2 = r.passed item)
        items entries ∧ Delivered entries launches ∧ r.launchesOf items owned = .ok (launches, owned') := by
  have hfits : owned.Fits (r.bundled items) := by
    unfold Arena.Fits owned
    simpa [Arena.reserve] using hfew
  have hentries := entries_of_resolved h hitems
  refine ⟨_, _, hentries, delivered_foldl ?_, ?_⟩
  · -- every entry has a handler that some item is opened with
    have hknown : ∀ e ∈ entries.map fun entry => (entry.1, if entry.2.2 = [] then none else some entry.2.2),
        Known r.sys e.1 := by
      intro e he
      obtain ⟨entry, hentry, rfl⟩ := List.mem_map.1 he
      obtain ⟨item, hopens⟩ := h.exists_item entry hentry
      exact known_of_opens hr hopens
    intro e he f hf hident
    obtain ⟨horigin, hcommand⟩ := Prod.mk.inj hident
    exact (hknown e he).eq (hknown f hf) horigin hcommand
  · have hall : ∀ entry ∈ entries.map fun entry =>
        (entry.1, entry.2.1, if entry.2.2 = [] then none else some entry.2.2),
        r.Leads owned' entry.2.1 entry.1 := by
      intro entry hentry
      obtain ⟨entry', hentry', rfl⟩ := List.mem_map.1 hentry
      exact (h.leads hfits).2 entry' hentry'
    have hfold := foldlM_addVia [] hall
    unfold launchesOf
    simp only [bind, StateT.bind, Except.bind, hrun]
    simp only [List.map_map, Function.comp_def, List.foldl_map] at hfold ⊢
    rw [hfold]

/-- With more, a handler is read that is not there any more. -/
theorem launchesOf_many {owned' : Arena Handler} {items : List Item}
    {entries : List (Handler × Pointer × Bytes)} (h : r.Resolved owned items entries owned')
    (hrun : items.mapM r.resolveItem owned = .ok (entries.map (·.2), owned'))
    (hmany : 64 < r.bundled items) : r.launchesOf items owned = .error .fault := by
  have hone : owned.Fits 1 := by
    unfold Arena.Fits owned
    simp [Arena.reserve]
  have hfits : ¬ owned.Fits (r.bundled items) := by
    unfold Arena.Fits owned
    simp only [Arena.reserve, List.length_nil, Nat.zero_add, not_le]
    exact hmany
  obtain ⟨entry, hmem, hfault⟩ := h.dangling hone hfits
  unfold launchesOf
  simp only [bind, StateT.bind, Except.bind, hrun]
  apply foldlM_addVia_fault
  exact ⟨_, List.mem_map_of_mem (List.mem_map_of_mem hmem), hfault⟩

theorem lawful_resolverOf (sys : System) (settings : Settings) (request : Request) :
    (resolverOf sys settings request).1.Lawful := lawful_make _ _ _

theorem launches_of_named (hnamed : named request.dict = .ok true) :
    r.launches request owned = r.launchesNamed request owned := by
  unfold launches
  rw [hnamed]
  rfl

theorem launches_of_items (hnamed : named request.dict = .ok false) (hitems : request.items ≠ []) :
    r.launches request owned = r.launchesOf request.items owned := by
  unfold launches
  rw [hnamed]
  simp only [hitems, if_false]
  rfl

/-- An item that cannot be resolved ends the request. -/
theorem launches_unresolved (hr : r.Lawful) (hnamed : named request.dict = .ok false) {item : Item}
    {stop : Stop} (hmem : item ∈ request.items) (hopens : r.opens item = .error stop) :
    ∃ stop, r.launches request owned = .error stop ∧ stop ≠ .fault := by
  rw [launches_of_items hnamed (List.ne_nil_of_mem hmem)]
  rcases mapM_resolveItem hr request.items owned with ⟨bad, -, stop', hbad, hrun⟩ | ⟨entries, owned', hresolved, -⟩
  · refine ⟨stop', ?_, ?_⟩
    · unfold launchesOf
      simp only [bind, StateT.bind, Except.bind, hrun]
    · rintro rfl
      exact opens_error hbad
  · obtain ⟨handler, hok⟩ := hresolved.exists_opens item hmem
    rw [hopens] at hok
    cases hok

/-- Where few items are opened by bundles, the launches of a request deliver its entries. -/
theorem launches_cases (hr : r.Lawful) (hitems : ∀ item ∈ request.items, item.value ≠ [])
    (hfew : named request.dict = .ok false → (∀ item ∈ request.items, ∃ h, r.opens item = .ok h) →
      r.bundled request.items ≤ 64) :
    (∃ stop, r.launches request owned = .error stop ∧ stop ≠ .fault) ∨
      ∃ entries launches owned', r.Entries request entries ∧ Delivered entries launches ∧
        r.launches request owned = .ok (launches, owned') := by
  cases hnamed : named request.dict with
  | error message =>
      refine .inl ⟨.error message, ?_, by simp⟩
      unfold launches
      rw [hnamed]
      rfl
  | ok by_name =>
      cases by_name with
      | true =>
          rw [launches_of_named hnamed]
          exact launchesNamed_cases hr hnamed
      | false =>
          by_cases hnil : request.items = []
          · refine .inl ⟨.error (ascii "nothing to open"), ?_, by simp⟩
            unfold launches
            rw [hnamed]
            simp only [hnil, if_true]
            rfl
          · rcases mapM_resolveItem hr request.items owned with
              ⟨bad, hmem, stop, hbad, -⟩ | ⟨entries, owned', hresolved, hrun⟩
            · exact .inl (launches_unresolved hr hnamed hmem hbad)
            · have hall := hresolved.exists_opens
              obtain ⟨entries, launches, hentries, hdelivered, hok⟩ :=
                launchesOf_few hr hresolved hrun hitems (hfew hnamed hall)
              refine .inr ⟨entries, launches, owned', .inr ⟨hnamed, hentries⟩, hdelivered, ?_⟩
              rw [launches_of_items hnamed hnil]
              exact hok

end Resolver

section Serving

variable (sys : System) (exec : List Spawn → Spawn → Exec) (settings : Settings) (descriptors : List Nat)
  (requestValue : Value)

/-- What is expected of a request. -/
structure EachOnce : Prop where
  /-- nothing is read that is not there -/
  defined : serve sys exec settings descriptors requestValue ≠ .undefined
  /-- past resolution, everything is in one launch, and the launches are run with their arguments
  until one cannot be run -/
  delivered : ∀ request warnings launches,
    (readRequest descriptors requestValue).run.run [] = (.ok request, warnings) →
    ((resolverOf sys settings request).1.launches request).run' owned = .ok launches →
    ∃ entries response spawned, (resolverOf sys settings request).1.Entries request entries ∧
      Delivered entries launches ∧
      serve sys exec settings descriptors requestValue = .answered response spawned ∧
      spawned.map (·.argv) <+: launches.map (expanded request.arguments) ∧
      ((launchAll sys exec request ⟨[], []⟩ launches).1 = .ok () →
        spawned.map (·.argv) = launches.map (expanded request.arguments))
  /-- an item that cannot be resolved keeps everything from being run -/
  unresolved : ∀ request warnings item stop,
    (readRequest descriptors requestValue).run.run [] = (.ok request, warnings) →
    Resolver.named request.dict = .ok false → item ∈ request.items →
    (resolverOf sys settings request).1.opens item = .error stop →
    ∃ response, serve sys exec settings descriptors requestValue = .answered response []

/-- At most 64 of the items are opened by bundles, unless the request says what they are opened
with or one of them cannot be resolved. -/
def FewBundles : Prop :=
  ∀ request warnings, (readRequest descriptors requestValue).run.run [] = (.ok request, warnings) →
    Resolver.named request.dict = .ok false →
    (∀ item ∈ request.items, ∃ handler, (resolverOf sys settings request).1.opens item = .ok handler) →
    (resolverOf sys settings request).1.bundled request.items ≤ 64

variable {sys exec settings descriptors requestValue} {request : Request} {warnings : List Bytes}

theorem refuse_of_ne_fault {stop : Stop} {launched : Launched} (h : stop ≠ .fault) :
    ∃ response, refuse stop warnings launched = .answered response launched.spawned := by
  cases stop with
  | failure message => exact ⟨_, rfl⟩
  | error message => exact ⟨_, rfl⟩
  | fault => exact absurd rfl h

theorem serve_unread {stop : Stop}
    (hread : (readRequest descriptors requestValue).run.run [] = (.error stop, warnings)) :
    ∃ response, serve sys exec settings descriptors requestValue = .answered response [] := by
  have hfault : stop ≠ .fault := by
    rintro rfl
    have hnever := ((reads_readRequest descriptors requestValue) []).2
    rw [hread] at hnever
    exact hnever rfl
  unfold serve
  rw [hread]
  exact refuse_of_ne_fault hfault

theorem serve_refused {stop : Stop}
    (hread : (readRequest descriptors requestValue).run.run [] = (.ok request, warnings))
    (hlaunches : (resolverOf sys settings request).1.launches request owned = .error stop)
    (hstop : stop ≠ .fault) :
    ∃ response, serve sys exec settings descriptors requestValue = .answered response [] := by
  have hrun : ((resolverOf sys settings request).1.launches request).run' owned = .error stop := by
    simp only [StateT.run', hlaunches]
    rfl
  unfold serve
  simp only [hread, hrun]
  exact refuse_of_ne_fault hstop

theorem serve_launched {launches : List Launch}
    (hread : (readRequest descriptors requestValue).run.run [] = (.ok request, warnings))
    (hrun : ((resolverOf sys settings request).1.launches request).run' owned = .ok launches) :
    ∃ response, serve sys exec settings descriptors requestValue =
      .answered response (launchAll sys exec request ⟨[], []⟩ launches).2.spawned := by
  unfold serve
  simp only [hread, hrun]
  obtain ⟨hfault, -⟩ := launchAll_spawned sys exec request ⟨[], []⟩ launches
  cases hall : launchAll sys exec request ⟨[], []⟩ launches with
  | mk result launched =>
      cases result with
      | ok _ => exact ⟨_, rfl⟩
      | error stop =>
          apply refuse_of_ne_fault
          rintro rfl
          rw [hall] at hfault
          exact hfault rfl

theorem few_of_eachOnce (h : EachOnce sys exec settings descriptors requestValue) :
    FewBundles sys settings descriptors requestValue := by
  intro request warnings hread hnamed hall
  by_contra hmany
  have hr := Resolver.lawful_resolverOf sys settings request
  rcases Resolver.mapM_resolveItem hr request.items owned with
    ⟨bad, hmem, stop, hbad, -⟩ | ⟨entries, owned', hresolved, hrun⟩
  · obtain ⟨handler, hok⟩ := hall bad hmem
    rw [hok] at hbad
    cases hbad
  · have hnil : request.items ≠ [] := by
      intro hnil
      simp [hnil, Resolver.bundled] at hmany
    have hfault := Resolver.launchesOf_many hresolved hrun (not_le.1 hmany)
    rw [← Resolver.launches_of_items hnamed hnil] at hfault
    apply h.defined
    have hrun' : ((resolverOf sys settings request).1.launches request).run' owned = .error .fault := by
      simp only [StateT.run', hfault]
      rfl
    unfold serve
    simp only [hread, hrun']
    rfl

theorem eachOnce_of_few (hfew : FewBundles sys settings descriptors requestValue) :
    EachOnce sys exec settings descriptors requestValue := by
  have hcases : ∀ request warnings,
      (readRequest descriptors requestValue).run.run [] = (.ok request, warnings) →
      (∃ stop, (resolverOf sys settings request).1.launches request owned = .error stop ∧
        stop ≠ .fault) ∨
      ∃ entries launches owned', (resolverOf sys settings request).1.Entries request entries ∧
        Delivered entries launches ∧
        (resolverOf sys settings request).1.launches request owned = .ok (launches, owned') := by
    intro request warnings hread
    have hitems := ((reads_readRequest descriptors requestValue) []).1 request (by rw [hread])
    exact Resolver.launches_cases (Resolver.lawful_resolverOf sys settings request) hitems
      (hfew request warnings hread)
  refine ⟨?_, ?_, ?_⟩
  · intro hundefined
    cases hread : (readRequest descriptors requestValue).run.run [] with
    | mk result warnings =>
        cases result with
        | error stop =>
            obtain ⟨response, hserve⟩ := serve_unread hread
            rw [hserve] at hundefined
            cases hundefined
        | ok request =>
            rcases hcases request warnings hread with
              ⟨stop, herror, hstop⟩ | ⟨entries, launches, owned', -, -, hok⟩
            · obtain ⟨response, hserve⟩ := serve_refused hread herror hstop
              rw [hserve] at hundefined
              cases hundefined
            · have hrun : ((resolverOf sys settings request).1.launches request).run' owned =
                  .ok launches := by
                simp only [StateT.run', hok]
                rfl
              obtain ⟨response, hserve⟩ := serve_launched hread hrun
              rw [hserve] at hundefined
              cases hundefined
  · intro request warnings launches hread hrun
    rcases hcases request warnings hread with
      ⟨stop, herror, hstop⟩ | ⟨entries, launches', owned', hentries, hdelivered, hok⟩
    · simp only [StateT.run', herror] at hrun
      cases hrun
    · have hsame : launches' = launches := by
        simp only [StateT.run', hok] at hrun
        cases hrun
        rfl
      subst hsame
      obtain ⟨response, hserve⟩ := serve_launched hread hrun
      obtain ⟨-, spawned, hspawned, hinit, hfull⟩ :=
        launchAll_spawned sys exec request ⟨[], []⟩ launches'
      rw [List.nil_append] at hspawned
      exact ⟨entries, response, spawned, hentries, hdelivered, by rw [hserve, hspawned], hinit, hfull⟩
  · intro request warnings item stop hread hnamed hmem hopens
    obtain ⟨stop', herror, hstop⟩ := Resolver.launches_unresolved
      (Resolver.lawful_resolverOf sys settings request) hnamed hmem hopens
    exact serve_refused hread herror hstop

/-- **Every item reaches one launch** exactly when no more than 64 items are opened by bundles. -/
theorem opened_once (sys : System) (exec : List Spawn → Spawn → Exec) (settings : Settings) (descriptors : List Nat)
    (requestValue : Value) :
    EachOnce sys exec settings descriptors requestValue ↔ FewBundles sys settings descriptors requestValue :=
  ⟨few_of_eachOnce, eachOnce_of_few⟩

end Serving

/-! An application that is opened 65 times in one request. -/

def sampleApp : Bytes := ascii "/X.app"

def sampleInfo : Bytes := ascii "<plist version=\"1.0\"><dict/></plist>"

/-- A file system with nothing but the application. -/
def sampleSystem : System where
  stat := fun path =>
    if path = sampleApp then .ok ⟨false, true, 0, 0o755⟩
    else if path = sampleApp ++ ascii "/Contents/Info.plist" then .ok ⟨true, false, 0, 0o644⟩
    else .error .ENOENT
  lstat := fun _ => .error .ENOENT
  openRead := fun _ path =>
    if path = sampleApp ++ ascii "/Contents/Info.plist" then .ok ⟨true, sampleInfo.length, .ok sampleInfo⟩
    else .error .ENOENT
  readdir := fun _ => none
  executable := fun _ => false
  strerror := fun _ => ascii "No such file or directory"
  getuid := 501
  xmlReadMemory := fun bytes =>
    if bytes = sampleInfo then
      some ⟨some (⟨ascii "plist", [⟨ascii "version", false, some (ascii "1.0")⟩], false, false⟩,
        [.element (.plain (ascii "dict")) []]), false⟩
    else none

def sampleSettings : Settings := ⟨ascii "/private/etc/open/handlers", [], true, 0⟩

def sampleDict : Dict :=
  [(ascii "Items", .array (List.replicate 65
      (.dict [(ascii "Type", .string (ascii "file")), (ascii "Value", .string sampleApp)]))),
    (ascii "Version", .integer 1)]

theorem read_sample : (readRequest [] (.dict sampleDict)).run.run [] =
    (.ok ⟨sampleDict, [], ∅, [], [47], false, List.replicate 65 ⟨false, sampleApp⟩⟩, []) := by
  rfl

theorem opens_sample (request : Request) :
    (resolverOf sampleSystem sampleSettings request).1.opens ⟨false, sampleApp⟩ =
      .ok ⟨[ascii "/X.app/Contents/MacOS/X"], false, false, true, ascii "self"⟩ := by
  rfl

theorem opened_once_dangling :
    ¬ EachOnce sampleSystem (fun _ _ => .running 2) sampleSettings [] (.dict sampleDict) := by
  intro h
  have hfew := few_of_eachOnce h _ _ read_sample rfl (by
    intro item hitem
    rw [List.eq_of_mem_replicate hitem]
    exact ⟨_, opens_sample _⟩)
  simp only [Resolver.bundled, List.countP_replicate, opens_sample] at hfew
  exact absurd hfew (by decide)

end MiniDarwin.Open
