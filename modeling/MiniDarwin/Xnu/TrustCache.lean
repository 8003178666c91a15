import Mathlib

/-!
Trust caches (`support/trust-cache.c`, `TrustCache/API.h`).

The nodes of the lists are those of a finite type, as the structures
`TrustCache_t` that there are in memory, and a state says what is in each of
them and in the runtime. The bytes of the modules never change. A function
that reads a byte which is not there has no value, and neither has a walk
along a list that does not end.
-/

namespace MiniDarwin.Xnu

/-- The bytes there are, by their addresses. -/
abbrev Memory := Nat → Option UInt8

def kTCEntryHashSize : Nat := 20

def kUUIDSize : Nat := 16

def UINTPTR_MAX : Nat := 2 ^ 64 - 1

inductive TCReturn where
  | kTCReturnSuccess
  | kTCReturnOverflow
  | kTCReturnUnsupported
  | kTCReturnInvalidModule
  | kTCReturnDuplicate
  | kTCReturnNotFound
  | kTCReturnInvalidArguments
  | kTCReturnInsufficientLength
  | kTCReturnNotPermitted
  deriving DecidableEq

/-- `TCType_t` -/
def kTCTypeStatic : UInt8 := 0
def kTCTypeEngineering : UInt8 := 1
def kTCTypeLegacy : UInt8 := 2

/-- `TCQueryType_t` -/
def kTCQueryTypeAll : UInt8 := 0
def kTCQueryTypeStatic : UInt8 := 1
def kTCQueryTypeLoadable : UInt8 := 2
def kTCQueryTypeTotal : UInt8 := 3

/-! ### Modules -/

/-- The bytes from an address on. -/
def bytesAt (mem : Memory) (p : Nat) : Nat → Option (List UInt8)
  | 0 => some []
  | n + 1 => do return (← mem p) :: (← bytesAt mem (p + 1) n)

def le32 (mem : Memory) (p : Nat) : Option Nat := do
  return (← bytesAt mem p 4).foldr (fun c n => c.toNat + 256 * n) 0

def stride (version : Nat) : Nat :=
  if version = 0 then 20 else if version = 1 then 22 else if version = 2 then 24 else 0

def memcmp (mem : Memory) (p q n : Nat) : Option Ordering := do
  return compare (← bytesAt mem p n) (← bytesAt mem q n)

/-- `step == 24 && entry[23]` -/
def reserved (mem : Memory) (step entry : Nat) : Option Bool :=
  if step = 24 then (mem (entry + 23)).map (· ≠ 0) else some false

/-- `i && memcmp (entry - step, entry, kTCEntryHashSize) >= 0` -/
def unordered (mem : Memory) (step entry i : Nat) : Option Bool :=
  if i = 0 then some false else (memcmp mem (entry - step) entry kTCEntryHashSize).map (· ≠ .lt)

/-- The loop of `validate ()`, from the entry `i` on. -/
def validateEntries (mem : Memory) (p step : Nat) : (left i : Nat) → Option TCReturn
  | 0, _ => some .kTCReturnSuccess
  | left + 1, i => do
      let entry := p + 24 + i * step
      if ← reserved mem step entry then return .kTCReturnInvalidModule
      else if ← unordered mem step entry i then return .kTCReturnInvalidModule
      else validateEntries mem p step left (i + 1)

/-- `validate ()` with the size it finds. The addresses do not wrap: the caller has
checked that the module ends below `UINTPTR_MAX`. -/
def validate (mem : Memory) (p length : Nat) : Option (Except TCReturn Nat) :=
  if length < 24 then some (.error .kTCReturnInsufficientLength)
  else do
    let step := stride (← le32 mem p)
    if step = 0 then return .error .kTCReturnUnsupported
    else do
      let count ← le32 mem (p + 20)
      if count > (length - 24) / step then return .error .kTCReturnInsufficientLength
      else match ← validateEntries mem p step count 0 with
        | .kTCReturnSuccess => return .ok (24 + count * step)
        | error => return .error error

/-! ### The runtime -/

/-- `TrustCache_t` -/
structure Node (ν : Type) where
  next : Option ν
  prev : Option ν
  type : UInt8
  moduleSize : Nat
  module : Nat

/-- `TrustCacheRuntime_t` and the runtime it has as `mutableRT`. -/
structure Runtime (ν : Type) where
  allowSecondStaticTC : Bool
  allowEngineeringTC : Bool
  allowLegacyTC : Bool
  staticTCHead : Option ν := none
  engineeringTCHead : Option ν := none
  loadableTCHead : Option ν := none

structure State (ν : Type) where
  rt : Runtime ν
  node : ν → Node ν

variable {ν : Type} {β : Type}

def Runtime.heads (rt : Runtime ν) : List (Option ν) :=
  [rt.staticTCHead, rt.engineeringTCHead, rt.loadableTCHead]

/-- Along a list, up to the first node with an answer. -/
def findFrom (node : ν → Node ν) (f : ν → Option (Option β)) : Nat → Option ν → Option (Option β)
  | _, none => some none
  | 0, some _ => none
  | fuel + 1, some tc => do
      match ← f tc with
      | some b => return some b
      | none => findFrom node f fuel (node tc).next

variable [Fintype ν]

/-- Along several lists. A list that ends has no more nodes than there are. -/
def findIn (node : ν → Node ν) (f : ν → Option (Option β)) : List (Option ν) → Option (Option β)
  | [] => some none
  | head :: heads => do
      match ← findFrom node f (Fintype.card ν) head with
      | some b => return some b
      | none => findIn node f heads

def trustCacheCheckRuntimeForUUID (mem : Memory) (s : State ν) (uuid : Nat) : Option (Option ν) :=
  findIn s.node (fun tc => do
    return if (← memcmp mem ((s.node tc).module + 4) uuid kUUIDSize) = .eq then some tc else none)
    s.rt.heads

variable [DecidableEq ν]

/-- Is the node in one of the lists? -/
def inRuntime (s : State ν) (tc : ν) : Option Bool := do
  return (← findIn s.node (fun existing => some (if existing = tc then some () else none))
    s.rt.heads).isSome

/-- The list of a type. -/
def Runtime.head (rt : Runtime ν) (type : UInt8) : Option ν :=
  if type = kTCTypeStatic then rt.staticTCHead
  else if type = kTCTypeEngineering then rt.engineeringTCHead
  else rt.loadableTCHead

def Runtime.setHead (rt : Runtime ν) (type : UInt8) (head : Option ν) : Runtime ν :=
  if type = kTCTypeStatic then { rt with staticTCHead := head }
  else if type = kTCTypeEngineering then { rt with engineeringTCHead := head }
  else { rt with loadableTCHead := head }

/-- `*head && (!r->allowSecondStaticTC || (*head)->next)` -/
def staticFull (s : State ν) : Bool :=
  s.rt.staticTCHead.any fun head => !s.rt.allowSecondStaticTC || (s.node head).next.isSome

/-- The checks of `trustCacheLoadModule ()`, and the size of the module that passes. -/
def checkLoad (mem : Memory) (s : State ν) (type : UInt8) (tc : ν) (address length : Nat) :
    Option (Except TCReturn Nat) := do
  if ← inRuntime s tc then return .error .kTCReturnInvalidArguments
  else if address > UINTPTR_MAX - length then return .error .kTCReturnOverflow
  else if type ≠ kTCTypeStatic ∧ type ≠ kTCTypeEngineering ∧ type ≠ kTCTypeLegacy then
    return .error .kTCReturnUnsupported
  else if type = kTCTypeEngineering ∧ !s.rt.allowEngineeringTC ∨
      type = kTCTypeLegacy ∧ !s.rt.allowLegacyTC then
    return .error .kTCReturnNotPermitted
  else match ← validate mem address length with
    | .error error => return .error error
    | .ok actual => do
        if (← trustCacheCheckRuntimeForUUID mem s (address + 4)).isSome then
          return .error .kTCReturnDuplicate
        else if type = kTCTypeStatic ∧ staticFull s then return .error .kTCReturnNotPermitted
        else return .ok actual

/-- The node becomes the first of its list. -/
def State.push (s : State ν) (type : UInt8) (tc : ν) (address actual : Nat) : State ν where
  rt := s.rt.setHead type (some tc)
  node :=
    let node := Function.update s.node tc
      { type, module := address, moduleSize := actual, prev := none, next := s.rt.head type }
    match s.rt.head type with
    | some head => Function.update node head { node head with prev := some tc }
    | none => node

/-- `none` and 0 are null pointers. -/
def trustCacheLoadModule (mem : Memory) (s : State ν) (type : UInt8) (tc : Option ν)
    (address length : Nat) : Option (TCReturn × State ν) :=
  match tc with
  | none => some (.kTCReturnInvalidArguments, s)
  | some tc =>
      if address = 0 then some (.kTCReturnInvalidArguments, s)
      else do
        match ← checkLoad mem s type tc address length with
        | .error error => return (error, s)
        | .ok actual => return (.kTCReturnSuccess, s.push type tc address actual)

/-! ### Queries -/

/-- `TrustCacheQueryToken_t` -/
structure Token (ν : Type) where
  trustCache : Option ν := none
  trustCacheEntry : Nat := 0
  deriving DecidableEq

/-- The loop over the entries of a module, with the rounds that are left. -/
def searchEntries (mem : Memory) (hash : List UInt8) (module step : Nat) :
    (rounds first stop : Nat) → Option (Option Nat)
  | 0, first, stop => if first < stop then none else some none
  | rounds + 1, first, stop =>
      if first < stop then do
        let middle := first + (stop - first) / 2
        let entry := module + 24 + middle * step
        match compare hash (← bytesAt mem entry kTCEntryHashSize) with
        | .eq => return some entry
        | .lt => searchEntries mem hash module step rounds first middle
        | .gt => searchEntries mem hash module step rounds (middle + 1) stop
      else some none

/-- A token for an entry of the node. -/
def queryNode (mem : Memory) (s : State ν) (hash : List UInt8) (tc : ν) :
    Option (Option (Token ν)) := do
  let module := (s.node tc).module
  let step := stride (← le32 mem module)
  let stop ← le32 mem (module + 20)
  return (← searchEntries mem hash module step stop 0 stop).map fun entry =>
    { trustCache := some tc, trustCacheEntry := entry }

/-- The lists that a query goes through. -/
def queryHeads (rt : Runtime ν) (type : UInt8) : List (Option ν) :=
  (rt.heads.zipIdx.filter fun head =>
    ¬ (type = kTCQueryTypeStatic ∧ head.2 = 2 ∨ type = kTCQueryTypeLoadable ∧ head.2 ≠ 2)).map (·.1)

def trustCacheQuery (mem : Memory) (s : State ν) (type : UInt8)
    (hash : Vector UInt8 kTCEntryHashSize) : Option (TCReturn × Token ν) :=
  if type ≥ kTCQueryTypeTotal then some (.kTCReturnInvalidArguments, {})
  else do
    match ← findIn s.node (queryNode mem s hash.toList) (queryHeads s.rt type) with
    | some token => return (.kTCReturnSuccess, token)
    | none => return (.kTCReturnNotFound, {})

def tokenValid (mem : Memory) (s : State ν) (t : Token ν) : Option Bool :=
  match t.trustCache with
  | none => some false
  | some tc =>
      let start := (s.node tc).module
      let entry := t.trustCacheEntry
      let length := (s.node tc).moduleSize
      if start = 0 ∨ entry = 0 ∨ length < 24 then some false
      else do
        let step := stride (← le32 mem start)
        return step ≠ 0 ∧ length ≥ 24 + step ∧ entry ≥ start ∧ entry - start ≥ 24 ∧
          entry - start ≤ length - step ∧ (entry - start - 24) % step = 0

/-! ### Reading -/

variable {mem mem' : Memory} {p n : Nat}

/-- The bytes are there. -/
def Mapped (mem : Memory) (p n : Nat) : Prop := ∀ i < n, (mem (p + i)).isSome

theorem Mapped.part {q m : Nat} (h : Mapped mem p n) (hq : p ≤ q) (hm : q + m ≤ p + n) :
    Mapped mem q m := by
  intro i hi
  have := h (q - p + i) (by omega)
  rwa [show p + (q - p + i) = q + i by omega] at this

theorem bytesAt_mapped (h : Mapped mem p n) : ∃ l, bytesAt mem p n = some l ∧ l.length = n := by
  induction n generalizing p with
  | zero => exact ⟨[], rfl, rfl⟩
  | succ n ih =>
      obtain ⟨c, hc⟩ := Option.isSome_iff_exists.1 (h 0 (by omega))
      obtain ⟨l, hl, hlen⟩ := ih (h.part (by omega) (by omega) : Mapped mem (p + 1) n)
      refine ⟨c :: l, ?_, by simp [hlen]⟩
      rw [Nat.add_zero] at hc
      simp [bytesAt, hc, hl]

theorem bytesAt_congr (h : ∀ i < n, mem' (p + i) = mem (p + i)) :
    bytesAt mem' p n = bytesAt mem p n := by
  induction n generalizing p with
  | zero => rfl
  | succ n ih =>
      have hrest : bytesAt mem' (p + 1) n = bytesAt mem (p + 1) n := by
        apply ih
        intro i hi
        rw [show p + 1 + i = p + (i + 1) by omega]
        exact h (i + 1) (by omega)
      have hfirst : mem' p = mem p := h 0 (by omega)
      rw [bytesAt, bytesAt, hrest, hfirst]

theorem le32_mapped (h : Mapped mem p 4) : ∃ v, le32 mem p = some v := by
  obtain ⟨l, hl, -⟩ := bytesAt_mapped h
  exact ⟨_, by rw [le32, hl]; rfl⟩

theorem memcmp_mapped {q : Nat} (h : Mapped mem p n) (h' : Mapped mem q n) :
    ∃ o, memcmp mem p q n = some o := by
  obtain ⟨l, hl, -⟩ := bytesAt_mapped h
  obtain ⟨l', hl', -⟩ := bytesAt_mapped h'
  exact ⟨_, by rw [memcmp, hl, hl']; rfl⟩

/-! ### What is validated -/

/-- The address of an entry. -/
def entryAt (p version i : Nat) : Nat := p + 24 + i * stride version

/-- A module of `size` bytes, whose entries are in order. -/
structure Valid (mem : Memory) (p size version count : Nat) : Prop where
  version_eq : le32 mem p = some version
  count_eq : le32 mem (p + 20) = some count
  stride_pos : 0 < stride version
  size_eq : size = 24 + count * stride version
  mapped : Mapped mem p size
  sorted : ∀ i, i + 1 < count → memcmp mem (entryAt p version i) (entryAt p version (i + 1))
    kTCEntryHashSize = some .lt

theorem stride_cases (version : Nat) :
    stride version = 0 ∨ 20 ≤ stride version ∧ stride version ≤ 24 := by
  unfold stride
  split
  · omega
  · split
    · omega
    · split <;> omega

theorem entry_within {size version count i : Nat} (hi : i < count)
    (hsize : size = 24 + count * stride version) :
    entryAt p version i + stride version ≤ p + size := by
  have hle : (i + 1) * stride version ≤ count * stride version := Nat.mul_le_mul_right _ hi
  rw [Nat.add_mul] at hle
  unfold entryAt
  omega

theorem Valid.hash {size version count i : Nat} (h : Valid mem p size version count)
    (hi : i < count) :
    ∃ l, bytesAt mem (entryAt p version i) kTCEntryHashSize = some l ∧
      l.length = kTCEntryHashSize := by
  have hend := entry_within (p := p) hi h.size_eq
  have hstride := stride_cases version
  have hpos := h.stride_pos
  apply bytesAt_mapped
  apply h.mapped.part
  · unfold entryAt
    omega
  · simp only [kTCEntryHashSize]
    omega

/-- What the loop has found in order. -/
theorem validateEntries_spec {version count i k : Nat} (hleft : k + i = count)
    (hsize : Mapped mem p (24 + count * stride version)) (hstride : 0 < stride version) :
    ∃ r, validateEntries mem p (stride version) k i = some r ∧
      (r = .kTCReturnSuccess → ∀ j, i ≤ j → j < count → 0 < j →
        memcmp mem (entryAt p version (j - 1)) (entryAt p version j) kTCEntryHashSize =
          some .lt) := by
  induction k generalizing i with
  | zero => exact ⟨_, rfl, fun _ j hij hj => by omega⟩
  | succ k ih =>
      have hi : i < count := by omega
      have hend : entryAt p version i + stride version ≤ p + (24 + count * stride version) :=
        entry_within hi rfl
      have hcases := stride_cases version
      obtain ⟨b, hb⟩ : ∃ b, reserved mem (stride version) (entryAt p version i) = some b := by
        unfold reserved
        split
        · next h24 =>
            obtain ⟨c, hc⟩ := Option.isSome_iff_exists.1
              ((hsize.part (q := entryAt p version i) (m := 24) (by unfold entryAt; omega)
                (by omega)) 23 (by omega))
            exact ⟨_, by rw [hc]; rfl⟩
        · exact ⟨_, rfl⟩
      obtain ⟨o, ho⟩ : ∃ o, unordered mem (stride version) (entryAt p version i) i = some o := by
        unfold unordered
        split
        · exact ⟨_, rfl⟩
        · next h0 =>
            have hle : stride version ≤ i * stride version := Nat.le_mul_of_pos_left _ (by omega)
            obtain ⟨x, hx⟩ := memcmp_mapped (n := kTCEntryHashSize)
              (hsize.part (q := entryAt p version i - stride version)
                (by unfold entryAt; omega) (by simp only [kTCEntryHashSize]; omega))
              (hsize.part (q := entryAt p version i)
                (by unfold entryAt; omega) (by simp only [kTCEntryHashSize]; omega))
            exact ⟨_, by rw [hx]; rfl⟩
      obtain ⟨r, hr, hrest⟩ := ih (i := i + 1) (by omega)
      have hstep : validateEntries mem p (stride version) (k + 1) i =
          some (if b then .kTCReturnInvalidModule else if o then .kTCReturnInvalidModule else r) := by
        change (reserved mem (stride version) (entryAt p version i)).bind _ = _
        rw [hb, Option.bind_some]
        cases b with
        | true => rfl
        | false =>
            change (unordered mem (stride version) (entryAt p version i) i).bind _ = _
            rw [ho, Option.bind_some]
            cases o with
            | true => rfl
            | false => exact hr
      refine ⟨_, hstep, fun hok j hij hj hpos => ?_⟩
      cases b with
      | true => cases hok
      | false =>
          cases o with
          | true => cases hok
          | false =>
              by_cases heq : j = i
              · subst heq
                have hprev : entryAt p version j - stride version = entryAt p version (j - 1) := by
                  obtain ⟨k, rfl⟩ := Nat.exists_eq_succ_of_ne_zero hpos.ne'
                  simp only [entryAt, Nat.succ_eq_add_one, Nat.add_sub_cancel, Nat.add_mul]
                  omega
                rw [unordered, if_neg hpos.ne', hprev] at ho
                obtain ⟨x, hx, hne⟩ := Option.map_eq_some_iff.1 ho
                rw [hx]
                simpa using hne
              · exact hrest hok j (by omega) hj hpos

theorem validate_spec {length : Nat} (h : Mapped mem p length) :
    ∃ r, validate mem p length = some r ∧ ∀ actual, r = .ok actual → actual ≤ length ∧
      ∃ version count, Valid mem p actual version count := by
  unfold validate
  split
  · exact ⟨_, rfl, fun _ h => by cases h⟩
  · next hlong =>
      obtain ⟨version, hversion⟩ := le32_mapped (h.part le_rfl (by omega) : Mapped mem p 4)
      obtain ⟨count, hcount⟩ := le32_mapped
        (h.part (by omega) (by omega) : Mapped mem (p + 20) 4)
      rw [hversion]
      by_cases hstride : stride version = 0
      · exact ⟨.error .kTCReturnUnsupported, by simp [hstride], fun _ h => by cases h⟩
      · by_cases hmany : count > (length - 24) / stride version
        · exact ⟨.error .kTCReturnInsufficientLength, by simp [hstride, hcount, hmany],
            fun _ h => by cases h⟩
        · have hpos : 0 < stride version := Nat.pos_of_ne_zero hstride
          have hfit : count * stride version ≤ length - 24 :=
            (Nat.le_div_iff_mul_le hpos).1 (not_lt.1 hmany)
          have hsize : 24 + count * stride version ≤ length := by omega
          have hmapped : Mapped mem p (24 + count * stride version) := h.part le_rfl (by omega)
          obtain ⟨r, hr, hsorted⟩ := validateEntries_spec (k := count) (i := 0) rfl hmapped hpos
          refine ⟨match r with
            | .kTCReturnSuccess => .ok (24 + count * stride version)
            | error => .error error, ?_, fun actual hok => ?_⟩
          · simp only [Option.bind_eq_bind, Option.bind_some, hstride, if_false, hcount, hmany, hr]
            cases r <;> rfl
          · cases r <;> cases hok
            refine ⟨hsize, version, count, hversion, hcount, hpos, rfl, hmapped, fun i hi => ?_⟩
            have := hsorted rfl (i + 1) (by omega) hi (by omega)
            rwa [Nat.add_sub_cancel] at this

end MiniDarwin.Xnu
