import MiniDarwin.Xnu.TrustRuntime

/-!
Queries of the trust caches.

A query sees a memory that agrees with the one the modules were validated in
on the bytes of the modules that are loaded, and may have no other byte: a
query that has a value reads nothing else.
-/

namespace MiniDarwin.Xnu

variable {ν : Type} {mem mem' : Memory} {s : State ν} {ls : Lists ν} {tc : ν} {p : Nat}

/-! ### The entries of a module -/

/-- A module is what its bytes say. -/
theorem Valid.congr {size version count : Nat} (h : Valid mem p size version count)
    (hmem : ∀ i < size, mem' (p + i) = mem (p + i)) : Valid mem' p size version count := by
  have hbytes : ∀ {q n : Nat}, p ≤ q → q + n ≤ p + size → bytesAt mem' q n = bytesAt mem q n := by
    intro q n hq hn
    apply bytesAt_congr
    intro i hi
    have := hmem (q - p + i) (by omega)
    rwa [show p + (q - p + i) = q + i by omega] at this
  have hlong : 24 ≤ size := by
    rw [h.size_eq]
    omega
  have hwords := h.sorted
  constructor
  · rw [← h.version_eq, le32, le32, hbytes le_rfl (by omega)]
  · rw [← h.count_eq, le32, le32, hbytes (by omega) (by omega)]
  · exact h.stride_pos
  · exact h.size_eq
  · intro i hi
    rw [hmem i hi]
    exact h.mapped i hi
  · intro i hi
    have hstride := stride_cases version
    have hpos := h.stride_pos
    have hend := entry_within (p := p) (show i < count by omega) h.size_eq
    have hend' := entry_within (p := p) hi h.size_eq
    have hstart : ∀ j, p ≤ entryAt p version j := fun j => by
      unfold entryAt
      omega
    have hhash : ∀ {j}, entryAt p version j + stride version ≤ p + size →
        bytesAt mem' (entryAt p version j) kTCEntryHashSize =
          bytesAt mem (entryAt p version j) kTCEntryHashSize := by
      intro j hj
      exact hbytes (hstart j) (by simp only [kTCEntryHashSize]; omega)
    rw [← hwords i hi, memcmp, memcmp, hhash hend, hhash hend']

/-- The hashes of a module are strictly increasing. -/
theorem Valid.increasing {size version count i j : Nat} (h : Valid mem p size version count)
    (hij : i < j) (hj : j < count) {a b : List UInt8}
    (ha : bytesAt mem (entryAt p version i) kTCEntryHashSize = some a)
    (hb : bytesAt mem (entryAt p version j) kTCEntryHashSize = some b) : compare a b = .lt := by
  induction j generalizing b with
  | zero => omega
  | succ j ih =>
      obtain ⟨c, hc, -⟩ := h.hash (show j < count by omega)
      have hstep := h.sorted j hj
      rw [memcmp, hc, hb] at hstep
      have hcb : compare c b = .lt := by simpa using hstep
      obtain rfl | hij := Nat.eq_or_lt_of_le (Nat.lt_succ_iff.1 hij)
      · obtain rfl : a = c := Option.some.inj (ha.symm.trans hc)
        exact hcb
      · exact Std.TransCmp.lt_trans (ih hij (by omega) hc) hcb

/-- Where the search goes on after a comparison. -/
def searchOn (mem : Memory) (hash : List UInt8) (p version n first middle stop : Nat) :
    Ordering → Option (Option Nat)
  | .eq => some (some (entryAt p version middle))
  | .lt => searchEntries mem hash p (stride version) n first middle
  | .gt => searchEntries mem hash p (stride version) n (middle + 1) stop

/-- The binary search. -/
theorem Valid.search {size version count : Nat} (h : Valid mem p size version count)
    (hash : List UInt8) (n first stop : Nat) (hrounds : stop - first ≤ n) (hstop : stop ≤ count) :
    ∃ r, searchEntries mem hash p (stride version) n first stop = some r ∧
      match r with
      | some entry => ∃ k, k < count ∧ entry = entryAt p version k ∧
          bytesAt mem entry kTCEntryHashSize = some hash
      | none => ∀ k, first ≤ k → k < stop →
          bytesAt mem (entryAt p version k) kTCEntryHashSize ≠ some hash := by
  induction n generalizing first stop with
  | zero =>
      refine ⟨none, if_neg (by omega), fun k hk hk' => ?_⟩
      omega
  | succ n ih =>
      by_cases hlt : first < stop
      · obtain ⟨middle, hmiddle⟩ : ∃ m, first + (stop - first) / 2 = m := ⟨_, rfl⟩
        have hrange : first ≤ middle ∧ middle < stop := by omega
        obtain ⟨l, hl, -⟩ := h.hash (show middle < count by omega)
        have hstep : searchEntries mem hash p (stride version) (n + 1) first stop =
            searchOn mem hash p version n first middle stop (compare hash l) := by
          rw [searchEntries, if_pos hlt]
          dsimp only
          rw [hmiddle]
          change (bytesAt mem (entryAt p version middle) kTCEntryHashSize).bind _ = _
          rw [hl, Option.bind_some]
          cases compare hash l <;> rfl
        rw [hstep]
        cases hcmp : compare hash l with
        | eq =>
            obtain rfl : hash = l := Std.LawfulEqOrd.eq_of_compare hcmp
            exact ⟨_, rfl, middle, by omega, rfl, hl⟩
        | lt =>
            obtain ⟨r, hr, hspec⟩ := ih first middle (by omega) (by omega)
            refine ⟨r, hr, ?_⟩
            cases r with
            | some entry => exact hspec
            | none =>
                intro k hk hk' heq
                obtain hkm | rfl | hkm := lt_trichotomy k middle
                · exact hspec k hk hkm heq
                · obtain rfl : l = hash := Option.some.inj (hl.symm.trans heq)
                  simp at hcmp
                · have hlh := h.increasing hkm (by omega) hl heq
                  have := Std.TransCmp.lt_trans hcmp hlh
                  simp at this
        | gt =>
            obtain ⟨r, hr, hspec⟩ := ih (middle + 1) stop (by omega) hstop
            refine ⟨r, hr, ?_⟩
            cases r with
            | some entry => exact hspec
            | none =>
                intro k hk hk' heq
                obtain hkm | rfl | hkm := lt_trichotomy k middle
                · have hhl := h.increasing hkm (by omega) heq hl
                  rw [hhl] at hcmp
                  cases hcmp
                · obtain rfl : l = hash := Option.some.inj (hl.symm.trans heq)
                  simp at hcmp
                · exact hspec k hkm hk' heq
      · refine ⟨none, by rw [searchEntries, if_neg hlt], fun k hk hk' => ?_⟩
        omega

/-! ### Queries -/

/-- `entry` is the address of the entry `k` of the module of a node. -/
def IsEntry (mem : Memory) (s : State ν) (tc : ν) (k entry : Nat) : Prop :=
  ∃ version count, le32 mem (s.node tc).module = some version ∧
    le32 mem ((s.node tc).module + 20) = some count ∧ k < count ∧
    entry = (s.node tc).module + 24 + k * stride version

/-- A node has an entry with the hash. -/
def HasHash (mem : Memory) (s : State ν) (hash : Vector UInt8 kTCEntryHashSize) (tc : ν)
    (entry : Nat) : Prop :=
  (∃ k, IsEntry mem s tc k entry) ∧ bytesAt mem entry kTCEntryHashSize = some hash.toList

/-- The nodes in the lists that a type of query selects. -/
def Lists.selected (ls : Lists ν) (type : UInt8) : List ν :=
  if type = kTCQueryTypeStatic then ls.static ++ ls.engineering
  else if type = kTCQueryTypeLoadable then ls.loadable
  else ls.static ++ ls.engineering ++ ls.loadable

/-- The modules of the nodes as a query finds them. -/
def Readable (mem : Memory) (s : State ν) (l : List ν) : Prop :=
  ∀ tc ∈ l, (s.node tc).module ≠ 0 ∧
    ∃ version count, Valid mem (s.node tc).module (s.node tc).moduleSize version count

theorem Sound.readable {calls : List (Call mem ν)} (h : Sound mem calls s ls)
    (hmem : ∀ tc ∈ ls.all, ∀ i < (s.node tc).moduleSize,
      mem' ((s.node tc).module + i) = mem ((s.node tc).module + i)) :
    Readable mem' s ls.all := by
  intro tc htc
  obtain ⟨hne, ⟨version, count, hv⟩, -⟩ := h.brought tc htc
  exact ⟨hne, version, count, hv.congr (hmem tc htc)⟩

theorem Valid.isEntry {version count k entry : Nat}
    (h : Valid mem (s.node tc).module (s.node tc).moduleSize version count) :
    IsEntry mem s tc k entry ↔ k < count ∧ entry = entryAt (s.node tc).module version k := by
  constructor
  · rintro ⟨version', count', hversion, hcount, hk, rfl⟩
    obtain rfl : version = version' := Option.some.inj (h.version_eq.symm.trans hversion)
    obtain rfl : count = count' := Option.some.inj (h.count_eq.symm.trans hcount)
    exact ⟨hk, rfl⟩
  · rintro ⟨hk, rfl⟩
    exact ⟨version, count, h.version_eq, h.count_eq, hk, rfl⟩

theorem queryNode_spec {hash : Vector UInt8 kTCEntryHashSize}
    (h : ∃ version count, Valid mem (s.node tc).module (s.node tc).moduleSize version count) :
    ∃ r, queryNode mem s hash.toList tc = some r ∧
      (∀ token, r = some token →
        token.trustCache = some tc ∧ HasHash mem s hash tc token.trustCacheEntry) ∧
      (r = none → ∀ entry, ¬ HasHash mem s hash tc entry) := by
  obtain ⟨version, count, hv⟩ := h
  obtain ⟨r, hr, hspec⟩ := hv.search hash.toList count 0 count (by omega) le_rfl
  refine ⟨r.map fun entry => { trustCache := some tc, trustCacheEntry := entry }, ?_, ?_, ?_⟩
  · simp only [queryNode, hv.version_eq, hv.count_eq, Option.bind_eq_bind, Option.bind_some, hr]
    rfl
  · intro token htoken
    obtain ⟨entry, rfl, rfl⟩ := Option.map_eq_some_iff.1 htoken
    obtain ⟨k, hk, hentry, hbytes⟩ := hspec
    exact ⟨rfl, ⟨k, hv.isEntry.2 ⟨hk, hentry⟩⟩, hbytes⟩
  · intro hnone entry hhas
    obtain rfl : r = none := Option.map_eq_none_iff.1 hnone
    obtain ⟨⟨k, hk⟩, hbytes⟩ := hhas
    obtain ⟨hlt, rfl⟩ := hv.isEntry.1 hk
    exact hspec k (Nat.zero_le _) hlt hbytes

/-- A token is valid exactly if it points to an entry. -/
theorem tokenValid_spec (hne : (s.node tc).module ≠ 0)
    (h : ∃ version count, Valid mem (s.node tc).module (s.node tc).moduleSize version count)
    {t : Token ν} (ht : t.trustCache = some tc) :
    ∃ b, tokenValid mem s t = some b ∧ (b = true ↔ ∃ k, IsEntry mem s tc k t.trustCacheEntry) := by
  obtain ⟨version, count, hv⟩ := h
  have hsize := hv.size_eq
  have hpos := hv.stride_pos
  simp only [hv.isEntry]
  unfold tokenValid
  rw [ht]
  dsimp only
  by_cases hzero : t.trustCacheEntry = 0
  · refine ⟨false, if_pos (.inr (.inl hzero)), ?_⟩
    simp only [Bool.false_eq_true, false_iff, not_exists, not_and]
    rintro k - heq
    rw [hzero] at heq
    unfold entryAt at heq
    omega
  · rw [if_neg (by omega), hv.version_eq]
    refine ⟨_, rfl, ?_⟩
    rw [decide_eq_true_iff]
    constructor
    · rintro ⟨-, hlong, hstart, hhead, hend, hmod⟩
      obtain ⟨k, hk⟩ := Nat.dvd_of_mod_eq_zero hmod
      refine ⟨k, ?_, ?_⟩
      · by_contra hge
        have hmul : count * stride version ≤ stride version * k := by
          rw [Nat.mul_comm (stride version)]
          exact Nat.mul_le_mul_right _ (not_lt.1 hge)
        omega
      · unfold entryAt
        rw [Nat.mul_comm k]
        omega
    · rintro ⟨k, hk, heq⟩
      have hend := entry_within (p := (s.node tc).module) hk hsize
      have hoffset : t.trustCacheEntry - (s.node tc).module - 24 = k * stride version := by
        rw [heq]
        unfold entryAt
        omega
      have hmod : (t.trustCacheEntry - (s.node tc).module - 24) % stride version = 0 := by
        rw [hoffset, Nat.mul_mod_left]
      have hstart : (s.node tc).module + 24 ≤ t.trustCacheEntry := by
        rw [heq]
        unfold entryAt
        omega
      rw [← heq] at hend
      refine ⟨hpos.ne', ?_, ?_, ?_, ?_, hmod⟩ <;> omega

/-- The lists that a query goes through, in its order. -/
theorem Sound.queryHeads {calls : List (Call mem ν)} (h : Sound mem calls s ls) (type : UInt8) :
    ∃ sel : List (List ν), AllLinked s.node (queryHeads s.rt type) sel ∧
      sel.flatten = ls.selected type := by
  have hall := h.allLinked
  simp only [AllLinked, Runtime.heads, Lists.lists, List.forall₂_cons, List.Forall₂.nil,
    and_true] at hall
  obtain ⟨hstatic, hengineering, hloadable⟩ := hall
  unfold Xnu.queryHeads Lists.selected
  by_cases h1 : type = kTCQueryTypeStatic
  · subst h1
    exact ⟨[ls.static, ls.engineering], .cons hstatic (.cons hengineering .nil), by simp⟩
  · by_cases h2 : type = kTCQueryTypeLoadable
    · subst h2
      exact ⟨[ls.loadable], .cons hloadable .nil, by simp [h1]⟩
    · refine ⟨ls.lists, ?_, by simp [Lists.lists, h1, h2]⟩
      simp only [h1, h2, Runtime.heads, false_and, or_self, not_false_eq_true, decide_true,
        List.filter_true]
      exact .cons hstatic (.cons hengineering (.cons hloadable .nil))

theorem Lists.selected_subset (ls : Lists ν) (type : UInt8) (h : tc ∈ ls.selected type) :
    tc ∈ ls.all := by
  unfold Lists.selected at h
  simp only [Lists.all, Lists.lists, List.flatten_cons, List.flatten_nil, List.append_nil,
    List.mem_append]
  split at h
  · simp only [List.mem_append] at h
    tauto
  · split at h
    · exact .inr (.inr h)
    · simp only [List.mem_append] at h
      tauto

/-- **Queries are exact.** A query finds a hash exactly if a module in one of the lists
it is about has it, the token it returns is for such an entry, and the tokens for
a module that is loaded are valid exactly if they point to an entry of it. All
this holds in every memory with the bytes of the modules that are loaded. -/
theorem queries_exact [Fintype ν] [DecidableEq ν] {calls : List (Call mem ν)}
    (h : Loads mem calls s) :
    ∃ ls, Sound mem calls s ls ∧ ∀ mem' : Memory,
      (∀ tc ∈ ls.all, ∀ i < (s.node tc).moduleSize,
        mem' ((s.node tc).module + i) = mem ((s.node tc).module + i)) →
      (∀ (type : UInt8) (hash : Vector UInt8 kTCEntryHashSize), type < kTCQueryTypeTotal →
        ∃ r token, trustCacheQuery mem' s type hash = some (r, token) ∧
          (r = .kTCReturnSuccess ↔ ∃ tc ∈ ls.selected type, ∃ entry, HasHash mem' s hash tc entry) ∧
          (r = .kTCReturnSuccess → tokenValid mem' s token = some true ∧
            ∃ tc ∈ ls.selected type, token.trustCache = some tc ∧
              HasHash mem' s hash tc token.trustCacheEntry)) ∧
      ∀ tc ∈ ls.all, ∀ token : Token ν, token.trustCache = some tc →
        ∃ b, tokenValid mem' s token = some b ∧
          (b = true ↔ ∃ k, IsEntry mem' s tc k token.trustCacheEntry) := by
  obtain ⟨ls, hs⟩ := h.sound
  refine ⟨ls, hs, fun mem' hmem => ?_⟩
  have hread := hs.readable hmem
  have hvalid : ∀ tc ∈ ls.all, ∀ token : Token ν, token.trustCache = some tc →
      ∃ b, tokenValid mem' s token = some b ∧
        (b = true ↔ ∃ k, IsEntry mem' s tc k token.trustCacheEntry) :=
    fun tc htc token ht => tokenValid_spec (hread tc htc).1 (hread tc htc).2 ht
  refine ⟨fun type hash htype => ?_, hvalid⟩
  obtain ⟨sel, hlinked, hsel⟩ := hs.queryHeads type
  have hquery : ∀ tc ∈ sel.flatten, ∃ r, queryNode mem' s hash.toList tc = some r ∧
      (∀ token, r = some token →
        token.trustCache = some tc ∧ HasHash mem' s hash tc token.trustCacheEntry) ∧
      (r = none → ∀ entry, ¬ HasHash mem' s hash tc entry) := fun tc htc =>
    queryNode_spec (hread tc (ls.selected_subset type (hsel ▸ htc))).2
  have hfind := findIn_linked (f := queryNode mem' s hash.toList)
    (g := fun tc => (queryNode mem' s hash.toList tc).getD none) hlinked fun tc htc => by
      obtain ⟨r, hr, -⟩ := hquery tc htc
      rw [hr]
      rfl
  unfold trustCacheQuery
  rw [if_neg (UInt8.not_le.2 htype), hfind, Option.bind_eq_bind, Option.bind_some]
  rw [hsel] at hquery ⊢
  cases hresult : (ls.selected type).findSome? fun tc =>
      (queryNode mem' s hash.toList tc).getD none with
  | none =>
      refine ⟨_, _, rfl, ?_, fun h => by cases h⟩
      constructor
      · intro h
        cases h
      · rintro ⟨tc, htc, entry, hhas⟩
        obtain ⟨r, hr, -, hnone⟩ := hquery tc htc
        have hmiss := List.findSome?_eq_none_iff.1 hresult tc htc
        rw [hr] at hmiss
        exact absurd hhas (hnone hmiss entry)
  | some token =>
      obtain ⟨tc, htc, hfound⟩ := List.exists_of_findSome?_eq_some hresult
      obtain ⟨r, hr, hsome, -⟩ := hquery tc htc
      rw [hr] at hfound
      obtain ⟨htoken, hhas⟩ := hsome token hfound
      refine ⟨_, _, rfl, ?_, fun _ => ⟨?_, tc, htc, htoken, hhas⟩⟩
      · exact ⟨fun _ => ⟨tc, htc, _, hhas⟩, fun _ => rfl⟩
      · obtain ⟨b, hb, hiff⟩ := hvalid tc (ls.selected_subset type htc) token htoken
        rw [hb, hiff.2 hhas.1]

/-- The bytes of the demonstration's module are all that is needed. -/
theorem queries_exact_loaded :
    ∃ ls, Sound demoMemory [demoCall] (demoInitial.push kTCTypeStatic true 4096 64) ls ∧
      trustCacheQuery demoMemory (demoInitial.push kTCTypeStatic true 4096 64) kTCQueryTypeAll
        (.replicate 20 2) = some (.kTCReturnSuccess, ⟨some true, 4096 + 24 + 20⟩) ∧
      ∃ tc ∈ ls.selected kTCQueryTypeAll, ∃ entry,
        HasHash demoMemory (demoInitial.push kTCTypeStatic true 4096 64) (.replicate 20 2) tc
          entry := by
  obtain ⟨ls, hs, hquery⟩ := queries_exact demoLoads
  have hfound : trustCacheQuery demoMemory (demoInitial.push kTCTypeStatic true 4096 64)
      kTCQueryTypeAll (.replicate 20 2) =
        some (.kTCReturnSuccess, ⟨some true, 4096 + 24 + 20⟩) := by rfl
  obtain ⟨r, token, hr, hiff, -⟩ := (hquery demoMemory fun _ _ _ _ => rfl).1 kTCQueryTypeAll
    (.replicate 20 2) (by decide)
  rw [hfound] at hr
  cases hr
  exact ⟨ls, hs, hfound, hiff.1 rfl⟩

end MiniDarwin.Xnu
