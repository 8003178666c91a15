import MiniDarwin.Open.Delivery

/-!
What the calls of `keep ()` find in `owned_` while a request is served:
as many handlers as have been kept before. The 65th finds no room.
-/

namespace MiniDarwin.Open

open Posix (Bytes)
open Launchd (Value)
open Data (Arena)

namespace Resolver

variable {r : Resolver} {item : Item} {items : List Item} {a a' : Arena Handler} {n : Nat}

/-- How many handlers each call of `keep ()` in `m` finds in `owned_`. Where something is kept,
that is the last thing that may fail: what fails has kept nothing. -/
def found {α : Type} (m : Resolving α) (owned : Arena Handler) : List Nat :=
  match m owned with
  | .ok (_, owned') =>
      List.range' owned.elements.length (owned'.elements.length - owned.elements.length)
  | .error _ => []

/-- What is found while items are resolved, one after the other, until one cannot be. -/
def foundIn (r : Resolver) (owned : Arena Handler) : List Item → List Nat
  | [] => []
  | item :: items =>
      found (r.resolveItem item) owned ++
        match r.resolveItem item owned with
        | .ok (_, owned') => r.foundIn owned' items
        | .error _ => []

/-- What is found while a request is served. -/
def keeps (r : Resolver) (request : Request) : List Nat :=
  match named request.dict with
  | .ok true => found (r.namedHandler request.dict) owned
  | .ok false => r.foundIn owned request.items
  | .error _ => []

/-- The items before the first that cannot be resolved. -/
def resolvable (r : Resolver) (items : List Item) : List Item :=
  items.takeWhile fun item => (r.opens item).isOk

/-! ### Items -/

theorem mem_found {α : Type} {m : Resolving α} {x : α} (h : m a = .ok (x, a')) :
    n ∈ found m a ↔ a.elements.length ≤ n ∧ n < a'.elements.length := by
  simp only [found, h, List.mem_range'_1]
  omega

theorem length_given {handler : Handler} {p : Pointer} (h : r.Given a handler p a') :
    a'.elements.length = a.elements.length + if handler.bundle then 1 else 0 := by
  cases h with
  | table _ hbundle => simp [hbundle]
  | kept hbundle => simp [hbundle]

/-- The calls of `keep ()` find one handler more each. -/
theorem foundIn_eq (hr : r.Lawful) (a : Arena Handler) (items : List Item) :
    r.foundIn a items = List.range' a.elements.length (r.bundled (r.resolvable items)) := by
  induction items generalizing a with
  | nil => rfl
  | cons item items ih =>
      rw [foundIn, resolvable, List.takeWhile_cons]
      rcases resolveItem_cases hr item a with ⟨stop, hopens, hrun⟩ | ⟨handler, p, a', hopens, hrun, hgiven⟩
      · rw [hopens, found, hrun]
        rfl
      · have hlength := length_given hgiven
        have hok : (r.opens item).isOk = true := by rw [hopens]; rfl
        rw [if_pos hok, bundled_cons r hopens, ← resolvable]
        simp only [found, hrun]
        rw [ih, hlength, Nat.add_sub_cancel_left, List.range'_append_1]

/-- Where there is room for every handler that is kept, nothing moves. -/
theorem Resolved.moves_eq {entries : List (Handler × Pointer × Bytes)} (h : r.Resolved a items entries a')
    (hfits : a.Fits (r.bundled items)) : a'.moves = a.moves := by
  induction h with
  | nil => rfl
  | cons hopens hgiven _ ih =>
      rw [bundled_cons r hopens] at hfits
      cases hgiven with
      | table _ hbundle =>
          simp only [hbundle, Bool.false_eq_true, if_false, Nat.zero_add] at hfits
          exact ih hfits
      | kept hbundle =>
          simp only [hbundle, if_true, Nat.add_comm 1] at hfits
          rw [ih hfits.push, hfits.moves_push]

/-! ### Applications and roles -/

/-- At most one call of `keep ()`. -/
def KeepsOne (m : Resolving Pointer) : Prop :=
  ∀ a p a', m a = .ok (p, a') → a'.elements.length ≤ a.elements.length + 1

theorem keepsOne_keep (handler : Handler) : KeepsOne (keep handler) := by
  intro a p a' h
  cases h
  simp

theorem keepsOne_throw (stop : Stop) : KeepsOne (throw stop) := by
  intro a p a' h
  cases h

/-- A lookup, and something else when it finds nothing. -/
theorem keepsOne_lookup (hr : r.Lawful) {kind key : Bytes} {m : Option Pointer → Resolving Pointer}
    (hsome : ∀ p, m (some p) = pure p) (hnone : KeepsOne (m none)) : KeepsOne (r.lookup kind key >>= m) := by
  intro a p a' h
  rcases lookup_cases hr kind key a with ⟨-, hrun⟩ | ⟨handler, q, b, -, hrun, hgiven⟩
  · simp only [bind, StateT.bind, Except.bind, hrun] at h
    exact hnone a p a' h
  · simp only [bind, StateT.bind, Except.bind, hrun, hsome] at h
    cases h
    rw [length_given hgiven]
    split <;> omega

theorem keepsOne_lift {α : Type} {x : Launchd.Result α} {m : α → Resolving Pointer} (h : ∀ y, KeepsOne (m y)) :
    KeepsOne ((liftM x : Resolving α) >>= m) := by
  intro a p a' hrun
  cases x with
  | error message => cases hrun
  | ok y => exact h y a p a' hrun

theorem keepsOne_applicationBy (hr : r.Lawful) {kind key : Bytes} (p : Bundle → Bool) (message : Bytes) :
    KeepsOne (r.applicationBy kind key p message) := by
  unfold applicationBy
  apply keepsOne_lookup hr
  · intro p
    rfl
  · dsimp only
    split
    · exact keepsOne_keep _
    · exact keepsOne_throw _

theorem keepsOne_applicationPath (path : Bytes) : KeepsOne (r.applicationPath path) := by
  unfold applicationPath
  split
  · exact keepsOne_throw _
  · split
    · split
      · exact keepsOne_throw _
      · exact keepsOne_keep _
    · split
      · exact keepsOne_keep _
      · exact keepsOne_throw _

theorem keepsOne_application (hr : r.Lawful) (request : Dict) : KeepsOne (r.application request) := by
  unfold application
  apply keepsOne_lift
  intro value
  apply keepsOne_lift
  intro selection
  split
  · exact keepsOne_throw _
  · apply keepsOne_lift
    intro path
    apply keepsOne_lift
    intro name
    apply keepsOne_lift
    intro identifier
    split
    · exact keepsOne_applicationPath _
    · exact keepsOne_applicationBy hr _ _
    · exact keepsOne_applicationBy hr _ _
    · exact keepsOne_throw _

theorem keepsOne_namedHandler (hr : r.Lawful) (request : Dict) : KeepsOne (r.namedHandler request) := by
  unfold namedHandler
  split
  · exact keepsOne_application hr request
  · apply keepsOne_lift
    intro role
    split
    · apply keepsOne_lookup hr
      · intro p
        rfl
      · exact keepsOne_throw _
    · exact keepsOne_throw _

theorem found_namedHandler (hr : r.Lawful) (request : Dict) : ∀ n ∈ found (r.namedHandler request) owned, n < 64 := by
  intro n hn
  cases hrun : r.namedHandler request owned with
  | error stop => simp [found, hrun] at hn
  | ok x =>
      have hlength := keepsOne_namedHandler hr request owned x.1 x.2 hrun
      have hlt := ((mem_found hrun).1 hn).2
      rw [show owned.elements.length = 0 from rfl] at hlength
      omega

end Resolver

/-! ### Requests -/

section Serving

variable (sys : System) (settings : Settings) (descriptors : List Nat) (requestValue : Value)

/-- What is expected of `owned_` while a request is served. -/
structure Reserved : Prop where
  /-- each call of `keep ()` finds room -/
  below : ∀ request warnings, (readRequest descriptors requestValue).run.run [] = (.ok request, warnings) →
    ∀ n ∈ (resolverOf sys settings request).1.keeps request, n < 64
  /-- nothing has moved when the items have been resolved -/
  still : ∀ request warnings entries owned',
    (readRequest descriptors requestValue).run.run [] = (.ok request, warnings) →
    Resolver.named request.dict = .ok false →
    request.items.mapM (resolverOf sys settings request).1.resolveItem owned = .ok (entries, owned') →
    owned'.moves = owned.moves

variable {sys settings descriptors requestValue}

/-- **There is room for every handler** exactly when, in a request that does not say what its items
are opened with, no more than 64 of the items before the first that cannot be resolved are opened
by bundles. -/
theorem reserved_iff (sys : System) (settings : Settings) (descriptors : List Nat) (requestValue : Value) :
    Reserved sys settings descriptors requestValue ↔
      ∀ request warnings, (readRequest descriptors requestValue).run.run [] = (.ok request, warnings) →
        Resolver.named request.dict = .ok false →
        (resolverOf sys settings request).1.bundled
          ((resolverOf sys settings request).1.resolvable request.items) ≤ 64 := by
  constructor
  · intro h request warnings hread hnamed
    by_contra hmany
    have hr := Resolver.lawful_resolverOf sys settings request
    have hlt := h.below request warnings hread 64 (by
      simp only [Resolver.keeps, hnamed, Resolver.foundIn_eq hr, List.mem_range'_1]
      rw [show owned.elements.length = 0 from rfl]
      omega)
    exact absurd hlt (lt_irrefl 64)
  · intro h
    refine ⟨?_, ?_⟩
    · intro request warnings hread n hn
      have hr := Resolver.lawful_resolverOf sys settings request
      unfold Resolver.keeps at hn
      split at hn
      · exact Resolver.found_namedHandler hr _ n hn
      · next hnamed =>
          have hfew := h request warnings hread hnamed
          rw [Resolver.foundIn_eq hr, List.mem_range'_1, show owned.elements.length = 0 from rfl] at hn
          omega
      · cases hn
    · intro request warnings entries owned' hread hnamed hrun
      have hr := Resolver.lawful_resolverOf sys settings request
      rcases Resolver.mapM_resolveItem hr request.items owned with
        ⟨bad, hmem, stop, hbad, hfail⟩ | ⟨resolved, owned'', hresolved, hok⟩
      · rw [hfail] at hrun
        cases hrun
      · rw [hok] at hrun
        cases hrun
        have hall : (resolverOf sys settings request).1.resolvable request.items = request.items := by
          rw [Resolver.resolvable, List.takeWhile_eq_self_iff]
          intro item hitem
          obtain ⟨handler, hopens⟩ := hresolved.exists_opens item hitem
          rw [hopens]
          rfl
        have hfew := h request warnings hread hnamed
        rw [hall] at hfew
        apply hresolved.moves_eq
        change 0 + _ ≤ 64
        omega

/-- An application that is opened 65 times. -/
theorem reserved_full : ¬ Reserved sampleSystem sampleSettings [] (.dict sampleDict) := by
  intro h
  have hr := Resolver.lawful_resolverOf sampleSystem sampleSettings
    ⟨sampleDict, [], ∅, [], [47], false, List.replicate 65 ⟨false, sampleApp⟩⟩
  have hlt := h.below _ _ read_sample 64 (by
    have hall : ∀ item ∈ List.replicate 65 (⟨false, sampleApp⟩ : Item),
        ((resolverOf sampleSystem sampleSettings
          ⟨sampleDict, [], ∅, [], [47], false, List.replicate 65 ⟨false, sampleApp⟩⟩).1.opens item).isOk := by
      intro item hitem
      rw [List.eq_of_mem_replicate hitem, opens_sample]
      rfl
    have hnamed : Resolver.named sampleDict = .ok false := rfl
    simp only [Resolver.keeps, hnamed, Resolver.foundIn_eq hr, List.mem_range'_1, Resolver.resolvable]
    rw [List.takeWhile_eq_self_iff.2 hall]
    simp only [Resolver.bundled, List.countP_replicate, opens_sample]
    decide)
  exact absurd hlt (lt_irrefl 64)

end Serving

end MiniDarwin.Open
