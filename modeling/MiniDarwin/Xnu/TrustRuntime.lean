import MiniDarwin.Xnu.TrustCache

/-!
The lists of trust caches over any sequence of loads.

`Lists` is what the pointers stand for: three lists of nodes. `Sound` relates
it to a state and to the calls that led there, and a load keeps it.
-/

namespace MiniDarwin.Xnu

variable {ν β : Type} {mem : Memory} {s s' : State ν} {node : ν → Node ν}

/-! ### Walks -/

/-- A list from its first node on, doubly linked. -/
def Linked (node : ν → Node ν) : (prev head : Option ν) → List ν → Prop
  | _, head, [] => head = none
  | prev, head, tc :: l =>
      head = some tc ∧ (node tc).prev = prev ∧ Linked node (some tc) (node tc).next l

theorem findFrom_linked {f : ν → Option (Option β)} {g : ν → Option β} {l : List ν} {fuel : Nat}
    {prev head : Option ν} (hl : Linked node prev head l) (hfuel : l.length ≤ fuel)
    (hf : ∀ tc ∈ l, f tc = some (g tc)) : findFrom node f fuel head = some (l.findSome? g) := by
  induction l generalizing fuel prev head with
  | nil =>
      obtain rfl : head = none := hl
      cases fuel <;> rfl
  | cons tc l ih =>
      obtain ⟨rfl, -, hrest⟩ := hl
      obtain ⟨fuel, rfl⟩ : ∃ k, fuel = k + 1 := Nat.exists_eq_succ_of_ne_zero (by
        rw [List.length_cons] at hfuel
        omega)
      have hlen : l.length ≤ fuel := by simpa using hfuel
      have hnext := ih hrest hlen fun x hx => hf x (.tail _ hx)
      simp only [findFrom, hf tc (.head _), Option.bind_eq_bind, Option.bind_some,
        List.findSome?_cons]
      cases g tc with
      | none => exact hnext
      | some b => rfl

/-- The lists that the heads stand for. -/
def AllLinked (node : ν → Node ν) (heads : List (Option ν)) (ls : List (List ν)) : Prop :=
  List.Forall₂ (fun head l => Linked node none head l ∧ l.Nodup) heads ls

theorem findIn_linked [Fintype ν] {f : ν → Option (Option β)} {g : ν → Option β}
    {heads : List (Option ν)} {ls : List (List ν)} (hl : AllLinked node heads ls)
    (hf : ∀ tc ∈ ls.flatten, f tc = some (g tc)) :
    findIn node f heads = some (ls.flatten.findSome? g) := by
  induction hl with
  | nil => rfl
  | @cons head l heads ls hhead hrest ih =>
      rw [List.flatten_cons] at hf ⊢
      have hfirst := findFrom_linked hhead.1 hhead.2.length_le_card
        fun tc htc => hf tc (List.mem_append_left _ htc)
      have hothers := ih fun tc htc => hf tc (List.mem_append_right _ htc)
      simp only [findIn, hfirst, Option.bind_eq_bind, Option.bind_some, List.findSome?_append]
      cases l.findSome? g with
      | none => exact hothers
      | some b => rfl

/-! ### A new first node -/

variable [DecidableEq ν] {type : UInt8} {tc : ν} {address actual : Nat}

/-- The nodes once `tc` has been put before `head`. -/
theorem push_node (s : State ν) (type : UInt8) (tc : ν) (address actual : Nat) (x : ν) :
    (s.push type tc address actual).node x =
      if s.rt.head type = some x then
        { (if x = tc then ⟨s.rt.head type, none, type, actual, address⟩ else s.node x) with
          prev := some tc }
      else if x = tc then ⟨s.rt.head type, none, type, actual, address⟩ else s.node x := by
  unfold State.push
  dsimp only
  cases hh : s.rt.head type with
  | none => simp [Function.update_apply]
  | some head =>
      by_cases hx : head = x
      · subst hx
        simp [Function.update_apply]
      · simp [Function.update_apply, hx, Ne.symm hx]

theorem push_self (h : s.rt.head type ≠ some tc) :
    (s.push type tc address actual).node tc = ⟨s.rt.head type, none, type, actual, address⟩ := by
  rw [push_node, if_neg h, if_pos rfl]

/-- What is in another node, but for its `prev`. -/
theorem push_other {x : ν} (h : x ≠ tc) :
    ((s.push type tc address actual).node x).next = (s.node x).next ∧
    ((s.push type tc address actual).node x).module = (s.node x).module ∧
    ((s.push type tc address actual).node x).moduleSize = (s.node x).moduleSize := by
  rw [push_node]
  simp only [if_neg h]
  split <;> exact ⟨rfl, rfl, rfl⟩

theorem push_prev {x : ν} (h : x ≠ tc) (hx : s.rt.head type ≠ some x) :
    ((s.push type tc address actual).node x).prev = (s.node x).prev := by
  rw [push_node, if_neg hx, if_neg h]

/-- Another list stays as it is. -/
theorem Linked.frame {l : List ν} {prev head : Option ν} (h : Linked s.node prev head l)
    (htc : tc ∉ l) (hhead : ∀ x ∈ l, s.rt.head type ≠ some x) :
    Linked (s.push type tc address actual).node prev head l := by
  induction l generalizing prev head with
  | nil => exact h
  | cons x l ih =>
      obtain ⟨hx, hprev, hrest⟩ := h
      have hne : x ≠ tc := fun heq => htc (heq ▸ .head _)
      refine ⟨hx, ?_, ?_⟩
      · rw [push_prev hne (hhead x (.head _)), hprev]
      · rw [(push_other hne).1]
        exact ih hrest (fun hm => htc (.tail _ hm)) fun y hy => hhead y (.tail _ hy)

/-- The list that `tc` is put before. -/
theorem Linked.push {l : List ν} (h : Linked s.node none (s.rt.head type) l) (htc : tc ∉ l)
    (hnodup : l.Nodup) :
    Linked (s.push type tc address actual).node none (some tc) (tc :: l) := by
  have hself : s.rt.head type ≠ some tc := by
    intro heq
    cases l with
    | nil => exact absurd (heq.symm.trans h) (by simp)
    | cons x l =>
        cases heq.symm.trans h.1
        exact htc (.head _)
  rw [Linked, push_self hself]
  refine ⟨rfl, rfl, ?_⟩
  cases l with
  | nil => exact h
  | cons x l =>
      obtain ⟨hx, -, hrest⟩ := h
      rw [List.nodup_cons] at hnodup
      have hne : x ≠ tc := fun heq => htc (heq ▸ .head _)
      refine ⟨hx, ?_, ?_⟩
      · rw [push_node, if_pos hx]
      · rw [(push_other hne).1]
        refine hrest.frame (fun hm => htc (.tail _ hm)) fun y hy heq => ?_
        cases hx.symm.trans heq
        exact hnodup.1 hy

/-! ### The invariant -/

/-- A call of `trustCacheLoadModule ()`. The caller keeps the module's bytes. -/
structure Call (mem : Memory) (ν : Type) where
  type : UInt8
  tc : Option ν
  address : Nat
  length : Nat
  mapped : address ≠ 0 → address ≤ UINTPTR_MAX - length → Mapped mem address length

/-- The nodes in the lists. -/
structure Lists (ν : Type) where
  static : List ν
  engineering : List ν
  loadable : List ν

def Lists.lists (ls : Lists ν) : List (List ν) := [ls.static, ls.engineering, ls.loadable]

def Lists.all (ls : Lists ν) : List ν := ls.lists.flatten

def Lists.push (ls : Lists ν) (type : UInt8) (tc : ν) : Lists ν :=
  if type = kTCTypeStatic then { ls with static := tc :: ls.static }
  else if type = kTCTypeEngineering then { ls with engineering := tc :: ls.engineering }
  else { ls with loadable := tc :: ls.loadable }

omit [DecidableEq ν] in
theorem Lists.all_push (ls : Lists ν) (type : UInt8) (tc : ν) :
    (ls.push type tc).all.Perm (tc :: ls.all) := by
  unfold Lists.push
  split
  · simp [Lists.all, Lists.lists]
  · split
    · simp only [Lists.all, Lists.lists, List.flatten_cons, List.flatten_nil, List.append_nil,
        List.cons_append]
      exact List.perm_middle
    · simp only [Lists.all, Lists.lists, List.flatten_cons, List.flatten_nil, List.append_nil]
      rw [← List.append_assoc, ← List.append_assoc]
      exact List.perm_middle

/-- The UUID of the module of a node. -/
def uuidOf (mem : Memory) (s : State ν) (tc : ν) : Option (List UInt8) :=
  bytesAt mem ((s.node tc).module + 4) kUUIDSize

/-- The module of a node is one that a call brought, and has been validated. -/
def Brought (mem : Memory) (calls : List (Call mem ν)) (s : State ν) (tc : ν) : Prop :=
  (s.node tc).module ≠ 0 ∧
  (∃ version count, Valid mem (s.node tc).module (s.node tc).moduleSize version count) ∧
  ∃ call ∈ calls, call.tc = some tc ∧ call.address = (s.node tc).module ∧
    (s.node tc).moduleSize ≤ call.length

structure Sound (mem : Memory) (calls : List (Call mem ν)) (s : State ν) (ls : Lists ν) : Prop where
  linked : List.Forall₂ (Linked s.node none) s.rt.heads ls.lists
  nodup : ls.all.Nodup
  brought : ∀ tc ∈ ls.all, Brought mem calls s tc
  uuids : ls.all.Pairwise fun a b => uuidOf mem s a ≠ uuidOf mem s b
  static : ls.static.length ≤ if s.rt.allowSecondStaticTC then 2 else 1
  engineering : s.rt.allowEngineeringTC = false → ls.engineering = []
  loadable : s.rt.allowLegacyTC = false → ls.loadable = []

/-! ### Loads -/

variable {calls : List (Call mem ν)} {ls : Lists ν} {length : Nat}

omit [DecidableEq ν] in
theorem Sound.allLinked (h : Sound mem calls s ls) : AllLinked s.node s.rt.heads ls.lists := by
  have hnodup : ∀ l ∈ ls.lists, l.Nodup := (List.nodup_flatten.1 h.nodup).1
  have hlinked := h.linked
  simp only [Runtime.heads, Lists.lists, List.forall₂_cons, List.Forall₂.nil, and_true] at hlinked
  refine .cons ⟨hlinked.1, hnodup _ ?_⟩ (.cons ⟨hlinked.2.1, hnodup _ ?_⟩
    (.cons ⟨hlinked.2.2, hnodup _ ?_⟩ .nil)) <;> simp [Lists.lists]

theorem Sound.inRuntime [Fintype ν] (h : Sound mem calls s ls) (tc : ν) :
    inRuntime s tc = some (decide (tc ∈ ls.all)) := by
  unfold Xnu.inRuntime
  rw [findIn_linked h.allLinked fun _ _ => rfl]
  refine congrArg some (Bool.eq_iff_iff.2 ?_)
  rw [List.findSome?_isSome_iff, decide_eq_true_iff]
  constructor
  · rintro ⟨x, hx, heq⟩
    by_cases hxt : x = tc
    · exact hxt ▸ hx
    · simp [hxt] at heq
  · exact fun hm => ⟨tc, hm, by simp⟩

omit [DecidableEq ν] in
theorem Sound.uuid (h : Sound mem calls s ls) {x : ν} (hx : x ∈ ls.all) :
    ∃ u, bytesAt mem ((s.node x).module + 4) kUUIDSize = some u := by
  obtain ⟨-, ⟨version, count, hvalid⟩, -⟩ := h.brought x hx
  obtain ⟨u, hu, -⟩ := bytesAt_mapped (hvalid.mapped.part (q := (s.node x).module + 4)
    (m := kUUIDSize) (by omega) (by rw [hvalid.size_eq]; simp only [kUUIDSize]; omega))
  exact ⟨u, hu⟩

omit [DecidableEq ν] in
/-- A module is a duplicate if a module with its UUID is in the lists. -/
theorem Sound.checkRuntimeForUUID [Fintype ν] (h : Sound mem calls s ls) {uuid : Nat}
    {u : List UInt8} (hu : bytesAt mem uuid kUUIDSize = some u) :
    ∃ r, trustCacheCheckRuntimeForUUID mem s uuid = some r ∧
      (r.isSome ↔ ∃ x ∈ ls.all, uuidOf mem s x = some u) := by
  refine ⟨_, findIn_linked (g := fun x => if uuidOf mem s x = some u then some x else none)
    h.allLinked fun x hx => ?_, ?_⟩
  · obtain ⟨u', hu'⟩ := h.uuid hx
    simp [memcmp, uuidOf, hu', hu]
  · rw [List.findSome?_isSome_iff]
    constructor
    · rintro ⟨x, hx, hs⟩
      refine ⟨x, hx, ?_⟩
      by_contra hne
      simp [hne] at hs
    · rintro ⟨x, hx, hs⟩
      exact ⟨x, hx, by simp [hs]⟩

/-- What has been checked of a module that is loaded. -/
structure Fits (mem : Memory) (s : State ν) (ls : Lists ν) (type : UInt8) (tc : ν)
    (address length actual : Nat) : Prop where
  new : tc ∉ ls.all
  engineering : type = kTCTypeEngineering → s.rt.allowEngineeringTC = true
  legacy : type ≠ kTCTypeStatic → type ≠ kTCTypeEngineering → s.rt.allowLegacyTC = true
  valid : ∃ version count, Valid mem address actual version count
  size : actual ≤ length
  uuid : ∀ x ∈ ls.all, uuidOf mem s x ≠ bytesAt mem (address + 4) kUUIDSize
  static : type = kTCTypeStatic → staticFull s = false

theorem Sound.checkLoad [Fintype ν] (h : Sound mem calls s ls)
    (hmapped : address ≤ UINTPTR_MAX - length → Mapped mem address length) :
    ∃ r, checkLoad mem s type tc address length = some r ∧
      ∀ actual, r = .ok actual → Fits mem s ls type tc address length actual := by
  have stop : ∀ {e : TCReturn} (actual : Nat), (.error e : Except TCReturn Nat) = .ok actual →
      Fits mem s ls type tc address length actual := fun _ h => by cases h
  unfold Xnu.checkLoad
  rw [h.inRuntime tc, Option.bind_eq_bind, Option.bind_some]
  by_cases hnew : tc ∈ ls.all
  · exact ⟨_, if_pos (by simpa using hnew), stop⟩
  rw [if_neg (by simpa using hnew)]
  by_cases hover : address > UINTPTR_MAX - length
  · exact ⟨_, if_pos hover, stop⟩
  rw [if_neg hover]
  by_cases hunsupported : type ≠ kTCTypeStatic ∧ type ≠ kTCTypeEngineering ∧ type ≠ kTCTypeLegacy
  · exact ⟨_, if_pos hunsupported, stop⟩
  rw [if_neg hunsupported]
  by_cases hpermit : type = kTCTypeEngineering ∧ !s.rt.allowEngineeringTC ∨
      type = kTCTypeLegacy ∧ !s.rt.allowLegacyTC
  · exact ⟨_, if_pos hpermit, stop⟩
  rw [if_neg hpermit]
  obtain ⟨r, hr, hvalid⟩ := validate_spec (hmapped (not_lt.1 hover))
  rw [hr, Option.bind_eq_bind, Option.bind_some]
  cases r with
  | error e => exact ⟨_, rfl, stop⟩
  | ok actual =>
      obtain ⟨hsize, version, count, hv⟩ := hvalid actual rfl
      obtain ⟨u, hu, -⟩ := bytesAt_mapped (hv.mapped.part (q := address + 4)
        (m := kUUIDSize) (by omega) (by rw [hv.size_eq]; simp only [kUUIDSize]; omega))
      obtain ⟨d, hd, hdup⟩ := h.checkRuntimeForUUID hu
      dsimp only
      rw [hd, Option.bind_eq_bind, Option.bind_some]
      by_cases hsome : d.isSome
      · exact ⟨_, if_pos hsome, stop⟩
      rw [if_neg hsome]
      by_cases hfull : type = kTCTypeStatic ∧ staticFull s
      · exact ⟨_, if_pos hfull, stop⟩
      rw [if_neg hfull]
      refine ⟨_, rfl, fun actual' heq => ?_⟩
      cases heq
      have hunique : ∀ x ∈ ls.all, uuidOf mem s x ≠ bytesAt mem (address + 4) kUUIDSize :=
        fun x hx heq => hsome (hdup.2 ⟨x, hx, heq.trans hu⟩)
      have hengineering : type = kTCTypeEngineering → s.rt.allowEngineeringTC = true := by
        intro ht
        by_contra hne
        exact hpermit (.inl ⟨ht, by simpa using hne⟩)
      have hlegacy : type ≠ kTCTypeStatic → type ≠ kTCTypeEngineering →
          s.rt.allowLegacyTC = true := by
        intro hs he
        by_contra hne
        have ht : type = kTCTypeLegacy := by
          by_contra hl
          exact hunsupported ⟨hs, he, hl⟩
        exact hpermit (.inr ⟨ht, by simpa using hne⟩)
      have hstatic : type = kTCTypeStatic → staticFull s = false :=
        fun ht => Bool.eq_false_of_not_eq_true fun hf => hfull ⟨ht, hf⟩
      exact ⟨hnew, hengineering, hlegacy, ⟨version, count, hv⟩, hsize, hunique, hstatic⟩

omit [DecidableEq ν] in
/-- A list with room for one more. -/
theorem static_room (h : Sound mem calls s ls) (hfull : staticFull s = false) :
    ls.static.length + 1 ≤ if s.rt.allowSecondStaticTC then 2 else 1 := by
  have hlinked := h.linked
  simp only [Runtime.heads, Lists.lists, List.forall₂_cons] at hlinked
  obtain ⟨hstatic, -⟩ := hlinked
  unfold staticFull at hfull
  match hl : ls.static with
  | [] => split <;> simp
  | x :: l =>
      rw [hl] at hstatic
      obtain ⟨hx, -, hrest⟩ := hstatic
      rw [hx, Option.any_some, Bool.or_eq_false_iff] at hfull
      obtain ⟨hsecond, hnext⟩ := hfull
      have hlast : l = [] := by
        cases l with
        | nil => rfl
        | cons y l =>
            rw [hrest.1] at hnext
            cases hnext
      simp only [Bool.not_eq_false'] at hsecond
      simp [hsecond, hlast]

/-- The three lists once one of them is longer. -/
theorem Sound.linked_push (h : Sound mem calls s ls) (hnew : tc ∉ ls.all) :
    List.Forall₂ (Linked (s.push type tc address actual).node none)
      (s.push type tc address actual).rt.heads (ls.push type tc).lists := by
  have hnodup := h.nodup
  have hlinked := h.linked
  simp only [Lists.all, Lists.lists, List.flatten_cons, List.flatten_nil, List.append_nil,
    List.mem_append, not_or] at hnew hnodup
  simp only [Runtime.heads, Lists.lists, List.forall₂_cons, List.Forall₂.nil, and_true] at hlinked ⊢
  obtain ⟨hs, hrest, hdisj⟩ := List.nodup_append'.1 hnodup
  obtain ⟨he, hl, hdisj'⟩ := List.nodup_append'.1 hrest
  obtain ⟨hnews, hnewe, hnewl⟩ := hnew
  obtain ⟨hlinks, hlinke, hlinkl⟩ := hlinked
  -- the first node of a list is in no other list
  have away : ∀ {l l' : List ν} {head : Option ν}, Linked s.node none head l → l.Disjoint l' →
      ∀ x ∈ l', head ≠ some x := by
    intro l l' head hl hd x hx heq
    cases l with
    | nil => exact absurd (heq.symm.trans hl) (by simp)
    | cons y l =>
        cases heq.symm.trans hl.1
        exact hd (.head _) hx
  have hdse : ls.static.Disjoint ls.engineering :=
    fun x hx hy => hdisj hx (List.mem_append_left _ hy)
  have hdsl : ls.static.Disjoint ls.loadable :=
    fun x hx hy => hdisj hx (List.mem_append_right _ hy)
  by_cases h0 : type = kTCTypeStatic
  · have hhead : s.rt.head type = s.rt.staticTCHead := if_pos h0
    have hrt : (s.push type tc address actual).rt = { s.rt with staticTCHead := some tc } :=
      if_pos h0
    rw [hrt, Lists.push, if_pos h0]
    exact ⟨.push (by rw [hhead]; exact hlinks) hnews hs,
      hlinke.frame hnewe (by rw [hhead]; exact away hlinks hdse),
      hlinkl.frame hnewl (by rw [hhead]; exact away hlinks hdsl)⟩
  · by_cases h1 : type = kTCTypeEngineering
    · have hhead : s.rt.head type = s.rt.engineeringTCHead := (if_neg h0).trans (if_pos h1)
      have hrt : (s.push type tc address actual).rt = { s.rt with engineeringTCHead := some tc } :=
        (if_neg h0).trans (if_pos h1)
      rw [hrt, Lists.push, if_neg h0, if_pos h1]
      exact ⟨hlinks.frame hnews (by rw [hhead]; exact away hlinke hdse.symm),
        .push (by rw [hhead]; exact hlinke) hnewe he,
        hlinkl.frame hnewl (by rw [hhead]; exact away hlinke hdisj')⟩
    · have hhead : s.rt.head type = s.rt.loadableTCHead := (if_neg h0).trans (if_neg h1)
      have hrt : (s.push type tc address actual).rt = { s.rt with loadableTCHead := some tc } :=
        (if_neg h0).trans (if_neg h1)
      rw [hrt, Lists.push, if_neg h0, if_neg h1]
      exact ⟨hlinks.frame hnews (by rw [hhead]; exact away hlinkl hdsl.symm),
        hlinke.frame hnewe (by rw [hhead]; exact away hlinkl hdisj'.symm),
        .push (by rw [hhead]; exact hlinkl) hnewl hl⟩

omit [DecidableEq ν] in
theorem Sound.more (h : Sound mem calls s ls) (call : Call mem ν) :
    Sound mem (call :: calls) s ls where
  linked := h.linked
  nodup := h.nodup
  brought tc htc := by
    obtain ⟨h0, hv, c, hc, hrest⟩ := h.brought tc htc
    exact ⟨h0, hv, c, .tail _ hc, hrest⟩
  uuids := h.uuids
  static := h.static
  engineering := h.engineering
  loadable := h.loadable

/-- **A load keeps the lists sound.** -/
theorem Sound.push (h : Sound mem calls s ls) {call : Call mem ν} (htc : call.tc = some tc)
    (haddress : call.address ≠ 0)
    (hfits : Fits mem s ls call.type tc call.address call.length actual) :
    Sound mem (call :: calls) (s.push call.type tc call.address actual)
      (ls.push call.type tc) := by
  have hperm := ls.all_push call.type tc
  have hself : s.rt.head call.type ≠ some tc := by
    intro heq
    have hlinked := h.linked
    have hnew := hfits.new
    simp only [Runtime.heads, Lists.lists, List.forall₂_cons, List.Forall₂.nil, and_true] at hlinked
    simp only [Lists.all, Lists.lists, List.flatten_cons, List.flatten_nil, List.append_nil,
      List.mem_append, not_or] at hnew
    have first : ∀ {l : List ν} {head : Option ν}, Linked s.node none head l → head = some tc →
        tc ∈ l := by
      intro l head hl hh
      cases l with
      | nil => exact absurd (hh.symm.trans hl) (by simp)
      | cons y l =>
          cases hh.symm.trans hl.1
          exact .head _
    unfold Runtime.head at heq
    split at heq
    · exact hnew.1 (first hlinked.1 heq)
    · split at heq
      · exact hnew.2.1 (first hlinked.2.1 heq)
      · exact hnew.2.2 (first hlinked.2.2 heq)
  have hne : ∀ x ∈ ls.all, x ≠ tc := fun x hx heq => hfits.new (heq ▸ hx)
  have hold : ∀ x ∈ ls.all, uuidOf mem (s.push call.type tc call.address actual) x =
      uuidOf mem s x := by
    intro x hx
    rw [uuidOf, (push_other (hne x hx)).2.1, uuidOf]
  have hnewid : uuidOf mem (s.push call.type tc call.address actual) tc =
      bytesAt mem (call.address + 4) kUUIDSize := by
    rw [uuidOf, push_self hself]
  have hflags : (s.push call.type tc call.address actual).rt.allowSecondStaticTC =
        s.rt.allowSecondStaticTC ∧
      (s.push call.type tc call.address actual).rt.allowEngineeringTC = s.rt.allowEngineeringTC ∧
      (s.push call.type tc call.address actual).rt.allowLegacyTC = s.rt.allowLegacyTC := by
    simp only [State.push, Runtime.setHead]
    split
    · exact ⟨rfl, rfl, rfl⟩
    · split <;> exact ⟨rfl, rfl, rfl⟩
  constructor
  · exact h.linked_push hfits.new
  · exact hperm.nodup_iff.2 (List.nodup_cons.2 ⟨hfits.new, h.nodup⟩)
  · intro x hx
    obtain rfl | hx := List.mem_cons.1 (hperm.mem_iff.1 hx)
    · rw [Brought, push_self hself]
      exact ⟨haddress, hfits.valid, call, .head _, htc, rfl, hfits.size⟩
    · rw [Brought, (push_other (hne x hx)).2.1, (push_other (hne x hx)).2.2]
      exact (h.more call).brought x hx
  · refine (hperm.pairwise_iff fun hab heq => hab heq.symm).2 (List.pairwise_cons.2 ⟨?_, ?_⟩)
    · intro x hx heq
      rw [hnewid, hold x hx] at heq
      exact hfits.uuid x hx heq.symm
    · refine h.uuids.imp_of_mem fun ha hb hab => ?_
      rw [hold _ ha, hold _ hb]
      exact hab
  · rw [hflags.1]
    unfold Lists.push
    split
    · next ht => exact static_room h (hfits.static ht)
    · split <;> exact h.static
  · intro hoff
    rw [hflags.2.1] at hoff
    unfold Lists.push
    split
    · exact h.engineering hoff
    · split
      · next ht => exact absurd (hfits.engineering ht) (by simp [hoff])
      · exact h.engineering hoff
  · intro hoff
    rw [hflags.2.2] at hoff
    unfold Lists.push
    split
    · exact h.loadable hoff
    · next hs =>
        split
        · exact h.loadable hoff
        · next he => exact absurd (hfits.legacy hs he) (by simp [hoff])

/-! ### Runs -/

/-- The runtime that `trustCacheInitializeRuntime ()` sets up, with any nodes. -/
def State.initial (second engineering legacy : Bool) (node : ν → Node ν) : State ν :=
  ⟨⟨second, engineering, legacy, none, none, none⟩, node⟩

/-- The states that a sequence of calls leads to, the latest call first. -/
inductive Loads [Fintype ν] (mem : Memory) : List (Call mem ν) → State ν → Prop where
  | start (second engineering legacy : Bool) (node : ν → Node ν) :
      Loads mem [] (.initial second engineering legacy node)
  | load {calls : List (Call mem ν)} {s s' : State ν} (call : Call mem ν) {r : TCReturn}
      (h : Loads mem calls s)
      (hr : trustCacheLoadModule mem s call.type call.tc call.address call.length = some (r, s')) :
      Loads mem (call :: calls) s'

/-- A call returns, and either it has changed nothing or the module is in a list. -/
theorem Sound.load [Fintype ν] (h : Sound mem calls s ls) (call : Call mem ν) :
    ∃ r s', trustCacheLoadModule mem s call.type call.tc call.address call.length = some (r, s') ∧
      (s' = s ∨ r = .kTCReturnSuccess ∧ ∃ ls', Sound mem (call :: calls) s' ls') := by
  unfold trustCacheLoadModule
  cases htc : call.tc with
  | none => exact ⟨_, _, rfl, .inl rfl⟩
  | some tc =>
      by_cases haddress : call.address = 0
      · exact ⟨_, _, if_pos haddress, .inl rfl⟩
      · dsimp only
        obtain ⟨r, hr, hfits⟩ : ∃ r,
            Xnu.checkLoad mem s call.type tc call.address call.length = some r ∧
            ∀ actual, r = .ok actual →
              Fits mem s ls call.type tc call.address call.length actual :=
          h.checkLoad (call.mapped haddress)
        rw [if_neg haddress, hr, Option.bind_eq_bind, Option.bind_some]
        cases r with
        | error e => exact ⟨_, _, rfl, .inl rfl⟩
        | ok actual => exact ⟨_, _, rfl, .inr ⟨rfl, _, h.push htc haddress (hfits actual rfl)⟩⟩

omit [DecidableEq ν] in
theorem Sound.initial (second engineering legacy : Bool) (node : ν → Node ν) :
    Sound mem [] (.initial second engineering legacy node) ⟨[], [], []⟩ where
  linked := .cons rfl (.cons rfl (.cons rfl .nil))
  nodup := .nil
  brought _ h := by cases h
  uuids := .nil
  static := Nat.zero_le _
  engineering _ := rfl
  loadable _ := rfl

theorem Loads.sound [Fintype ν] (h : Loads mem calls s) : ∃ ls, Sound mem calls s ls := by
  induction h with
  | start second engineering legacy node => exact ⟨_, .initial second engineering legacy node⟩
  | @load calls s s' call r _ hr ih =>
      obtain ⟨ls, hs⟩ := ih
      obtain ⟨r', s1, hr', hstep⟩ := hs.load call
      obtain ⟨rfl, rfl⟩ : r' = r ∧ s1 = s' := by
        rw [hr] at hr'
        cases hr'
        exact ⟨rfl, rfl⟩
      obtain rfl | ⟨-, ls', hs'⟩ := hstep
      · exact ⟨ls, hs.more call⟩
      · exact ⟨ls', hs'⟩

/-- **The runtime is sound after every sequence of loads**, and a load that fails
changes nothing. -/
theorem runtime_sound [Fintype ν] (h : Loads mem calls s) :
    (∃ ls, Sound mem calls s ls) ∧
      ∀ call : Call mem ν, ∃ r s',
        trustCacheLoadModule mem s call.type call.tc call.address call.length = some (r, s') ∧
          (r ≠ .kTCReturnSuccess → s' = s) := by
  obtain ⟨ls, hs⟩ := h.sound
  refine ⟨⟨ls, hs⟩, fun call => ?_⟩
  obtain ⟨r, s', hr, hstep⟩ := hs.load call
  exact ⟨r, s', hr, fun hne => hstep.resolve_right fun hok => hne hok.1⟩

/-- A module of version 0 with two entries, at the address 4096. -/
def demoModule : List UInt8 :=
  [0, 0, 0, 0] ++ List.replicate 16 7 ++ [2, 0, 0, 0] ++ List.replicate 20 1 ++ List.replicate 20 2

def demoMemory : Memory := fun a => if a < 4096 then none else demoModule[a - 4096]?

theorem demoMemory_mapped : Mapped demoMemory 4096 64 := by
  intro i hi
  simp [demoMemory, demoModule, hi]

def demoCall : Call demoMemory Bool where
  type := kTCTypeStatic
  tc := some true
  address := 4096
  length := 64
  mapped _ _ := demoMemory_mapped

def demoInitial : State Bool := .initial false false false fun _ => ⟨none, none, 0, 0, 0⟩

theorem demoLoads :
    Loads demoMemory [demoCall] (demoInitial.push kTCTypeStatic true 4096 64) :=
  .load demoCall (.start false false false _) (by rfl)

theorem runtime_sound_loaded :
    (∃ ls, Sound demoMemory [demoCall] (demoInitial.push kTCTypeStatic true 4096 64) ls) ∧
      ∃ s', trustCacheLoadModule demoMemory (demoInitial.push kTCTypeStatic true 4096 64)
        demoCall.type demoCall.tc demoCall.address demoCall.length =
          some (.kTCReturnInvalidArguments, s') ∧
        s' = demoInitial.push kTCTypeStatic true 4096 64 := by
  obtain ⟨hsound, hload⟩ := runtime_sound demoLoads
  refine ⟨hsound, ?_⟩
  obtain ⟨r, s', hr, hsame⟩ := hload demoCall
  have hagain : trustCacheLoadModule demoMemory (demoInitial.push kTCTypeStatic true 4096 64)
      demoCall.type demoCall.tc demoCall.address demoCall.length =
        some (.kTCReturnInvalidArguments, demoInitial.push kTCTypeStatic true 4096 64) := by rfl
  rw [hagain] at hr
  cases hr
  exact ⟨_, hagain, hsame (by decide)⟩

end MiniDarwin.Xnu
