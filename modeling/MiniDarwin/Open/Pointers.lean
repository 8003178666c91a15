import MiniDarwin.Open.Choice

/-!
The pointers of the resolver. As long as `owned_` has not moved, a pointer
leads to the handler that was chosen; `owned_` moves when a 65th handler
is kept.
-/

namespace MiniDarwin.Open

open Posix (Bytes Errno)
open Launchd (ascii)
open Data (Arena)

namespace Resolver

variable {r : Resolver} {kind key selector : Bytes} {handler : Handler} {item : Item} {p : Pointer}
  {owned owned' : Arena Handler}

/-- What resolving an item hands out: a pointer into a table, or to a handler that was kept. -/
inductive Given (r : Resolver) (owned : Arena Handler) : Handler → Pointer → Arena Handler → Prop where
  | table {t i : Nat} {selectors : List Bytes} {handler : Handler}
      (hentry : (r.tables[t]?).bind (·.entries[i]?) = some (selectors, handler))
      (hbundle : handler.bundle = false) : Given r owned handler (.entry t i) owned
  | kept {handler : Handler} (hbundle : handler.bundle = true) :
      Given r owned handler (.owned (owned.push handler).last) (owned.push handler)

/-- A pointer that leads to a handler. -/
def Leads (r : Resolver) (owned : Arena Handler) (p : Pointer) (handler : Handler) : Prop :=
  r.deref p owned = .ok (handler, owned)

theorem Given.leads (h : r.Given owned handler p owned') : r.Leads owned' p handler := by
  cases h with
  | table hentry _ => simp only [Leads, deref, hentry]
  | kept _ => simp only [Leads, deref, Arena.get_push_last]

theorem deref_cases (r : Resolver) (p : Pointer) (owned : Arena Handler) :
    (∃ handler, r.Leads owned p handler) ∨ r.deref p owned = .error .fault := by
  unfold Leads deref
  split
  · split
    · exact .inl ⟨_, rfl⟩
    · exact .inr rfl
  · split
    · exact .inl ⟨_, rfl⟩
    · exact .inr rfl

/-! ### Lookups -/

theorem find_eq (table : Table) (selector : Bytes) :
    (table.find selector).bind (table.entries[·]?) =
      table.entries.find? fun entry => selector ∈ entry.1 := by
  obtain ⟨entries⟩ := table
  simp only [Table.find]
  induction entries with
  | nil => rfl
  | cons entry entries ih =>
      rw [List.findIdx?_cons, List.find?_cons]
      by_cases h : selector ∈ entry.1
      · simp [h]
      · simp only [h, decide_false, Bool.false_eq_true, if_false]
        rw [← ih]
        cases List.findIdx? _ entries <;> rfl

theorem find_eq_none {table : Table} (h : table.find selector = none) :
    (table.entries.find? fun entry => selector ∈ entry.1) = none := by
  rw [← find_eq, h]
  rfl

/-- The index of an entry is the index of one. -/
theorem find_eq_some {table : Table} {i : Nat} (h : table.find selector = some i) :
    ∃ entry, table.entries[i]? = some entry ∧
      (table.entries.find? fun entry => selector ∈ entry.1) = some entry := by
  obtain ⟨hlt, -⟩ := List.findIdx?_eq_some_iff_getElem.1 h
  refine ⟨table.entries[i], List.getElem?_eq_getElem hlt, ?_⟩
  rw [← find_eq, h, Option.bind_some, List.getElem?_eq_getElem hlt]

/-- A pointer into the tables and the handler behind it. -/
theorem inTables_cases (r : Resolver) (selector : Bytes) :
    r.inTables selector = none ∧ r.handlerIn selector = none ∨
      ∃ t i selectors handler, r.inTables selector = some (.entry t i) ∧
        (r.tables[t]?).bind (·.entries[i]?) = some (selectors, handler) ∧
        r.handlerIn selector = some handler := by
  unfold inTables handlerIn
  -- the tables after the first `k`
  have hgen : ∀ (tables : List Table) (k : Nat), (∀ j, r.tables[k + j]? = tables[j]?) →
      ((tables.zipIdx k).findSome? fun t => (t.1.find selector).map (Pointer.entry t.2)) = none ∧
        (tables.findSome? fun table =>
          (table.entries.find? fun entry => selector ∈ entry.1).map (·.2)) = none ∨
      ∃ t i selectors handler,
        ((tables.zipIdx k).findSome? fun t => (t.1.find selector).map (Pointer.entry t.2)) =
          some (.entry t i) ∧
        (r.tables[t]?).bind (·.entries[i]?) = some (selectors, handler) ∧
        (tables.findSome? fun table =>
          (table.entries.find? fun entry => selector ∈ entry.1).map (·.2)) = some handler := by
    intro tables
    induction tables with
    | nil => exact fun _ _ => .inl ⟨rfl, rfl⟩
    | cons table tables ih =>
        intro k hk
        rw [List.zipIdx_cons, List.findSome?_cons, List.findSome?_cons]
        cases hfind : table.find selector with
        | none =>
            simp only [find_eq_none hfind, Option.map_none]
            apply ih
            intro j
            rw [Nat.add_assoc, Nat.add_comm 1 j]
            exact hk (j + 1)
        | some i =>
            obtain ⟨entry, hentry, hfirst⟩ := find_eq_some hfind
            have htable : r.tables[k]? = some table := hk 0
            refine .inr ⟨k, i, entry.1, entry.2, rfl, ?_, ?_⟩
            · rw [htable, Option.bind_some, hentry]
            · rw [hfirst]
              rfl
  exact hgen r.tables 0 fun j => by rw [Nat.zero_add]

theorem lookup_cases (hr : r.Lawful) (kind key : Bytes) (owned : Arena Handler) :
    r.choice kind key = none ∧ r.lookup kind key owned = .ok (none, owned) ∨
      ∃ handler p owned', r.choice kind key = some handler ∧
        r.lookup kind key owned = .ok (some p, owned') ∧ r.Given owned handler p owned' := by
  unfold choice lookup
  rcases r.inTables_cases (kind ++ ascii ":" ++ key) with ⟨hin, hhandler⟩ | ⟨t, i, sel, handler, hin, hentry, hhandler⟩
  · rw [hin, hhandler]
    cases hclaim : r.claimant kind key with
    | none => exact .inl ⟨rfl, rfl⟩
    | some bundle => exact .inr ⟨_, _, _, rfl, rfl, .kept rfl⟩
  · rw [hin, hhandler]
    obtain ⟨path, bytes, j, line, sel', -, -, hread⟩ := ofLine_of_handlerIn hr hhandler
    exact .inr ⟨_, _, _, rfl, rfl, .table hentry (readLine_ok hread).2⟩

theorem lookups_cases (hr : r.Lawful) (selectors : List (Bytes × Bytes)) (owned : Arena Handler) :
    (selectors.findSome? fun s => r.choice s.1 s.2) = none ∧ r.lookups selectors owned = .ok (none, owned) ∨
      ∃ handler p owned', (selectors.findSome? fun s => r.choice s.1 s.2) = some handler ∧
        r.lookups selectors owned = .ok (some p, owned') ∧ r.Given owned handler p owned' := by
  induction selectors with
  | nil => exact .inl ⟨rfl, rfl⟩
  | cons s selectors ih =>
      rw [List.findSome?_cons]
      rcases lookup_cases hr s.1 s.2 owned with ⟨hnone, hrun⟩ | ⟨handler, p, owned', hsome, hrun, hgiven⟩
      · rw [hnone]
        have hrest : r.lookups (s :: selectors) owned = r.lookups selectors owned := by
          simp only [lookups, bind, StateT.bind, Except.bind, hrun]
        rw [hrest]
        exact ih
      · rw [hsome]
        refine .inr ⟨handler, p, owned', rfl, ?_, hgiven⟩
        simp only [lookups, bind, StateT.bind, Except.bind, hrun]
        rfl

/-! ### Items -/

/-- Resolving an item hands out a pointer to what it is opened with. -/
theorem item_cases (hr : r.Lawful) (item : Item) (owned : Arena Handler) :
    (∃ stop, r.opens item = .error stop ∧ r.item item owned = .error stop) ∨
      ∃ handler p owned', r.opens item = .ok handler ∧ r.item item owned = .ok (p, owned') ∧
        r.Given owned handler p owned' := by
  unfold opens Resolver.item
  split
  · cases hread : readBundle r.sys item.value with
    | error message => exact .inl ⟨_, rfl, rfl⟩
    | ok bundle => exact .inr ⟨_, _, _, rfl, rfl, .kept rfl⟩
  · cases hsel : r.selectors item with
    | none => exact .inl ⟨_, rfl, rfl⟩
    | some selectors =>
        rcases lookups_cases hr selectors owned with ⟨hnone, hrun⟩ | ⟨handler, p, owned', hsome, hrun, hgiven⟩
        · left
          refine ⟨unknown item, by simp only [hnone], ?_⟩
          simp only [bind, StateT.bind, Except.bind, hrun]
          rfl
        · right
          refine ⟨handler, p, owned', by simp only [hsome], ?_, hgiven⟩
          simp only [bind, StateT.bind, Except.bind, hrun]
          rfl

/-- What is passed for an item. -/
def passed (r : Resolver) (item : Item) : Option Bytes :=
  if r.launchesItself item then none else some item.value

theorem resolveItem_cases (hr : r.Lawful) (item : Item) (owned : Arena Handler) :
    (∃ stop, r.opens item = .error stop ∧ r.resolveItem item owned = .error stop) ∨
      ∃ handler p owned', r.opens item = .ok handler ∧
        r.resolveItem item owned = .ok ((p, (r.passed item).getD []), owned') ∧
        r.Given owned handler p owned' := by
  unfold resolveItem
  rcases item_cases hr item owned with ⟨stop, hopens, hrun⟩ | ⟨handler, p, owned', hopens, hrun, hgiven⟩
  · refine .inl ⟨stop, hopens, ?_⟩
    simp only [bind, StateT.bind, Except.bind, hrun]
  · refine .inr ⟨handler, p, owned', hopens, ?_, hgiven⟩
    have hderef : r.deref p owned' = .ok (handler, owned') := hgiven.leads
    have hpassed : (r.passed item).getD [] = if handler.origin = ascii "self" then [] else item.value := by
      unfold passed
      by_cases hself : r.launchesItself item = true
      · rw [if_pos hself, if_pos ((origin_self_iff hr hopens).2 hself)]
        rfl
      · rw [if_neg hself, if_neg (mt (origin_self_iff hr hopens).1 hself)]
        rfl
    simp only [bind, StateT.bind, Except.bind, hrun, hderef, hpassed]
    rfl

/-- The pointers that the items of a request are resolved to, one after the other. -/
inductive Resolved (r : Resolver) : Arena Handler → List Item → List (Handler × Pointer × Bytes) →
    Arena Handler → Prop where
  | nil {owned : Arena Handler} : Resolved r owned [] [] owned
  | cons {owned owned' owned'' : Arena Handler} {item : Item} {items : List Item} {handler : Handler}
      {p : Pointer} {entries : List (Handler × Pointer × Bytes)} (hopens : r.opens item = .ok handler)
      (hgiven : r.Given owned handler p owned') (hrest : Resolved r owned' items entries owned'') :
      Resolved r owned (item :: items) ((handler, p, (r.passed item).getD []) :: entries) owned''

/-- Either every item is resolved, or the first that cannot be ends it. -/
theorem mapM_resolveItem (hr : r.Lawful) (items : List Item) (owned : Arena Handler) :
    (∃ item ∈ items, ∃ stop, r.opens item = .error stop ∧ items.mapM r.resolveItem owned = .error stop) ∨
      ∃ entries owned', r.Resolved owned items entries owned' ∧
        items.mapM r.resolveItem owned = .ok (entries.map (·.2), owned') := by
  induction items generalizing owned with
  | nil => exact .inr ⟨[], owned, .nil, rfl⟩
  | cons item items ih =>
      rw [List.mapM_cons]
      rcases resolveItem_cases hr item owned with ⟨stop, hopens, hrun⟩ | ⟨handler, p, owned', hopens, hrun, hgiven⟩
      · refine .inl ⟨item, List.mem_cons_self, stop, hopens, ?_⟩
        simp only [bind, StateT.bind, Except.bind, hrun]
      · rcases ih owned' with ⟨item', hmem, stop, hopens', hrest⟩ | ⟨entries, owned'', hresolved, hrest⟩
        · refine .inl ⟨item', List.mem_cons_of_mem _ hmem, stop, hopens', ?_⟩
          simp only [bind, StateT.bind, Except.bind, hrun, hrest]
        · refine .inr ⟨_, owned'', .cons hopens hgiven hresolved, ?_⟩
          simp only [bind, StateT.bind, Except.bind, hrun, hrest]
          rfl

/-- How many of the items are opened by a bundle. -/
def bundled (r : Resolver) (items : List Item) : Nat :=
  items.countP fun item => (r.opens item).toOption.any (·.bundle)

theorem bundled_cons (r : Resolver) {item : Item} {items : List Item} {handler : Handler}
    (hopens : r.opens item = .ok handler) :
    r.bundled (item :: items) = (if handler.bundle then 1 else 0) + r.bundled items := by
  unfold bundled
  rw [List.countP_cons, hopens, Nat.add_comm]
  rfl

namespace Resolved

variable {items : List Item} {entries : List (Handler × Pointer × Bytes)}

theorem moves_le (h : r.Resolved owned items entries owned') : owned.moves ≤ owned'.moves := by
  induction h with
  | nil => exact le_rfl
  | cons _ hgiven _ ih =>
      cases hgiven with
      | table _ _ => exact ih
      | kept _ => exact (Arena.moves_le_push _ _).trans ih

/-- Where there is room for every handler that is kept, every pointer leads to its handler. -/
theorem leads (h : r.Resolved owned items entries owned') (hfits : owned.Fits (r.bundled items)) :
    (∀ p handler, r.Leads owned p handler → r.Leads owned' p handler) ∧
      ∀ entry ∈ entries, r.Leads owned' entry.2.1 entry.1 := by
  induction h with
  | nil => exact ⟨fun _ _ h => h, List.forall_mem_nil _⟩
  | @cons owned owned1 owned2 item items handler p entries hopens hgiven _ ih =>
      rw [bundled_cons r hopens] at hfits
      cases hgiven with
      | table hentry hbundle =>
          simp only [hbundle, Bool.false_eq_true, if_false, Nat.zero_add] at hfits
          obtain ⟨hold, hnew⟩ := ih hfits
          refine ⟨hold, List.forall_mem_cons.2 ⟨?_, hnew⟩⟩
          exact hold _ _ (Given.leads (.table hentry hbundle))
      | kept hbundle =>
          simp only [hbundle, if_true, Nat.add_comm 1] at hfits
          obtain ⟨hold, hnew⟩ := ih hfits.push
          refine ⟨fun q handler' hq => hold q handler' ?_, List.forall_mem_cons.2 ⟨?_, hnew⟩⟩
          · -- what is kept does not move what is there
            cases q with
            | entry t i =>
                unfold Leads deref at hq ⊢
                dsimp only at hq ⊢
                split at hq
                · cases hq
                  rfl
                · cases hq
            | owned q =>
                unfold Leads deref at hq ⊢
                dsimp only at hq ⊢
                split at hq
                · next x hx =>
                    cases hq
                    rw [Arena.get_push hfits.moves_push hx]
                · cases hq
          · exact hold _ _ (Given.leads (.kept hbundle))

/-- Where there is not, the handlers move. -/
theorem moves_lt (h : r.Resolved owned items entries owned') (hlen : owned.Fits 0)
    (hfits : ¬ owned.Fits (r.bundled items)) : owned.moves < owned'.moves := by
  induction h with
  | nil => exact absurd hlen hfits
  | @cons owned owned1 owned2 item items handler p entries hopens hgiven hrest ih =>
      rw [bundled_cons r hopens] at hfits
      cases hgiven with
      | table hentry hbundle =>
          simp only [hbundle, Bool.false_eq_true, if_false, Nat.zero_add] at hfits
          exact ih hlen hfits
      | kept hbundle =>
          simp only [hbundle, if_true] at hfits
          by_cases hone : owned.Fits 1
          · have hmoves : (owned.push handler).moves = owned.moves := hone.moves_push
            rw [← hmoves]
            apply ih hone.push
            rw [hone.push_eq]
            unfold Arena.Fits at hfits ⊢
            simp only [List.length_append, List.length_cons, List.length_nil]
            omega
          · have hmoves : (owned.push handler).moves = owned.moves + 1 := Arena.moves_push_of_full hone
            have hle := hrest.moves_le
            omega

/-- The first handler that was kept has then been left behind. -/
theorem dangling (h : r.Resolved owned items entries owned') (hone : owned.Fits 1)
    (hfits : ¬ owned.Fits (r.bundled items)) :
    ∃ entry ∈ entries, r.deref entry.2.1 owned' = .error .fault := by
  induction h with
  | nil =>
      unfold Arena.Fits bundled at *
      simp only [List.countP_nil] at hfits
      omega
  | @cons owned owned1 owned2 item items handler p entries hopens hgiven hrest ih =>
      cases hgiven with
      | table hentry hbundle =>
          rw [bundled_cons r hopens] at hfits
          simp only [hbundle, Bool.false_eq_true, if_false, Nat.zero_add] at hfits
          obtain ⟨entry, hmem, hfault⟩ := ih hone hfits
          exact ⟨entry, List.mem_cons_of_mem _ hmem, hfault⟩
      | kept hbundle =>
          have hzero : owned.Fits 0 := by
            unfold Arena.Fits at *
            omega
          have hlt : owned.moves < owned2.moves :=
            moves_lt (.cons hopens (.kept hbundle) hrest) hzero hfits
          have hmoves : (owned.push handler).moves = owned.moves := hone.moves_push
          refine ⟨_, List.mem_cons_self, ?_⟩
          have hnone : owned2.get (owned.push handler).last = none := by
            apply Arena.get_eq_none_of_moves
            simp only [Arena.last, hmoves]
            exact hlt
          simp only [deref, hnone]

/-- The entries are those of the items. -/
theorem forall₂ (h : r.Resolved owned items entries owned') :
    List.Forall₂ (fun item entry => r.opens item = .ok entry.1 ∧ entry.2.2 = (r.passed item).getD []) items
      entries := by
  induction h with
  | nil => exact .nil
  | cons hopens _ _ ih => exact .cons ⟨hopens, rfl⟩ ih

theorem exists_opens (h : r.Resolved owned items entries owned') :
    ∀ item ∈ items, ∃ handler, r.opens item = .ok handler := by
  induction h with
  | nil => exact List.forall_mem_nil _
  | cons hopens _ _ ih => exact List.forall_mem_cons.2 ⟨⟨_, hopens⟩, ih⟩

theorem exists_item (h : r.Resolved owned items entries owned') :
    ∀ entry ∈ entries, ∃ item, r.opens item = .ok entry.1 := by
  induction h with
  | nil => exact List.forall_mem_nil _
  | cons hopens _ _ ih => exact List.forall_mem_cons.2 ⟨⟨_, hopens⟩, ih⟩

end Resolved

/-! ### Applications and roles -/

/-- A pointer that leads somewhere, or an error that is no fault. -/
def Finds (r : Resolver) (m : Resolving Pointer) : Prop :=
  ∀ owned, (∃ stop, m owned = .error stop ∧ stop ≠ .fault) ∨
    ∃ p owned' handler, m owned = .ok (p, owned') ∧ r.Leads owned' p handler

theorem finds_keep (r : Resolver) (handler : Handler) : r.Finds (keep handler) :=
  fun owned => .inr ⟨_, _, handler, rfl, by simp only [Leads, deref, Arena.get_push_last]⟩

theorem finds_throw {stop : Stop} (h : stop ≠ .fault) : r.Finds (throw stop) :=
  fun _ => .inl ⟨stop, rfl, h⟩

/-- A lookup, and something else when it finds nothing. -/
theorem finds_lookup (hr : r.Lawful) {m : Option Pointer → Resolving Pointer}
    (hsome : ∀ p, m (some p) = pure p) (hnone : r.Finds (m none)) : r.Finds (r.lookup kind key >>= m) := by
  intro owned
  rcases lookup_cases hr kind key owned with ⟨-, hrun⟩ | ⟨handler, p, owned', -, hrun, hgiven⟩
  · simp only [bind, StateT.bind, Except.bind, hrun]
    exact hnone owned
  · refine .inr ⟨p, owned', handler, ?_, hgiven.leads⟩
    simp only [bind, StateT.bind, Except.bind, hrun, hsome]
    rfl

theorem finds_lift {α : Type} {x : Launchd.Result α} {m : α → Resolving Pointer} (h : ∀ a, r.Finds (m a)) :
    r.Finds ((liftM x : Resolving α) >>= m) := by
  intro owned
  cases x with
  | error message => exact .inl ⟨.error message, rfl, by simp⟩
  | ok a => exact h a owned

theorem finds_applicationBy (hr : r.Lawful) (p : Bundle → Bool) (message : Bytes) :
    r.Finds (r.applicationBy kind key p message) := by
  unfold applicationBy
  apply finds_lookup hr
  · intro p
    rfl
  · dsimp only
    split
    · exact finds_keep r _
    · exact finds_throw (by simp)

theorem finds_applicationPath (path : Bytes) : r.Finds (r.applicationPath path) := by
  unfold applicationPath
  split
  · exact finds_throw (by simp)
  · split
    · split
      · exact finds_throw (by simp)
      · exact finds_keep r _
    · split
      · exact finds_keep r _
      · exact finds_throw (by simp)

theorem finds_application (hr : r.Lawful) (request : Dict) : r.Finds (r.application request) := by
  unfold application
  apply finds_lift
  intro value
  apply finds_lift
  intro selection
  split
  · exact finds_throw (by simp)
  · apply finds_lift
    intro path
    apply finds_lift
    intro name
    apply finds_lift
    intro identifier
    split
    · exact finds_applicationPath _
    · exact finds_applicationBy hr _ _
    · exact finds_applicationBy hr _ _
    · exact finds_throw (by simp)

theorem finds_namedHandler (hr : r.Lawful) (request : Dict) : r.Finds (r.namedHandler request) := by
  unfold namedHandler
  split
  · exact finds_application hr request
  · apply finds_lift
    intro role
    split
    · apply finds_lookup hr
      · intro p
        rfl
      · exact finds_throw (by simp)
    · exact finds_throw (by simp)

end Resolver

end MiniDarwin.Open
