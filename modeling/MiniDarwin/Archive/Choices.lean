import MiniDarwin.Archive.Selection

/-!
The choices of a Distribution that needs JavaScript (`package.c`).

A choice has three states, and each of them may have an expression. The
expressions are evaluated one after the other, each in the states that the
ones before it have left, until a whole pass changes nothing. What JavaScript
makes of an expression is a parameter, a function of the states of all
choices.
-/

namespace MiniDarwin.Archive

open Posix (Bytes)

/-! ### `initialize_choices ()` and `settle_choices ()` -/

inductive Key where
  | selected
  | enabled
  | visible
  deriving DecidableEq

def Key.name : Key → Bytes
  | .selected => lit "selected"
  | .enabled => lit "enabled"
  | .visible => lit "visible"

def Key.initial : Key → Bytes
  | .selected => lit "start_selected"
  | .enabled => lit "start_enabled"
  | .visible => lit "start_visible"

def keys : List Key := [.selected, .enabled, .visible]

/-- The states of all choices, by their place in the outline. -/
abbrev States := (choice : Nat) → Key → Bool

def States.set (s : States) (i : Nat) (k : Key) (v : Bool) : States := fun j l => if j = i ∧ l = k then v else s j l

/-- What JavaScript comes to: the script and the two checks, which may change states, and an
expression, with the choice that is `my.choice`. -/
structure Engine where
  run : States → Result States
  boolean : (my : Nat) → (source : Bytes) → States → Result Bool

def initializeKey (choice : Choice × Nat) (s : States) (k : Key) : Result States := do
  return s.set choice.2 k (← staticBoolean choice.1.node k.initial)

def initializeChoice (dist : Node) (s : States) (choice : Choice × Nat) : Result States := do
  let s ← keys.foldlM (initializeKey choice) s
  (xmlElements choice.1.node).forM fun n => do
    let _ ← findReference dist (← xmlAttr n (lit "id"))
  return s

def initializeChoices (dist : Node) (choices : List Choice) : Result States :=
  choices.zipIdx.foldlM (initializeChoice dist) fun _ _ => false

/-- The expression of a state, if there is one. -/
def Choice.expression (choice : Choice) (k : Key) : Option Bytes := choice.node.property k.name

def settleKey (boolean : (my : Nat) → (source : Bytes) → States → Result Bool) (s : States)
    (slot : (Choice × Nat) × Key) : Result States :=
  match slot.1.1.expression slot.2 with
  | none => .ok s
  | some source => do return s.set slot.1.2 slot.2 (← boolean slot.1.2 source s)

/-- The states in the order in which the loops visit them. -/
def slots (choices : List Choice) : List ((Choice × Nat) × Key) :=
  choices.zipIdx.flatMap fun choice => keys.map fun k => (choice, k)

def settlePass (boolean : (my : Nat) → (source : Bytes) → States → Result Bool) (choices : List Choice) (s : States) :
    Result States :=
  (slots choices).foldlM (settleKey boolean) s

/-- `before` -/
def snapshot (choices : List Choice) (s : States) : List Bool := (slots choices).map fun slot => s slot.1.2 slot.2

def settleFrom (boolean : (my : Nat) → (source : Bytes) → States → Result Bool) (choices : List Choice) :
    (passes : Nat) → States → Result States
  | 0, _ => die "Installer JS choices did not stabilize after 64 passes"
  | passes + 1, s => do
      let s' ← settlePass boolean choices s
      if snapshot choices s = snapshot choices s' then return s' else settleFrom boolean choices passes s'

def settleChoices (boolean : (my : Nat) → (source : Bytes) → States → Result Bool) (choices : List Choice) (s : States) :
    Result States := settleFrom boolean choices 64 s

/-- The part of `package_resolve ()` that runs JavaScript before it selects. -/
def Engine.prepare (engine : Engine) (dist : Node) (choices : List Choice) : Result States := do
  let s ← initializeChoices dist choices
  let s ← engine.run s
  settleChoices engine.boolean choices s

/-- What the selection sees of it. -/
def Engine.script (engine : Engine) (dist : Node) (choices : List Choice) : Script where
  prepare := (engine.prepare dist choices).map fun _ => ()
  selected i := (engine.prepare dist choices).map fun s => s i .selected
  active i _ expression := engine.prepare dist choices >>= engine.boolean i expression

/-! ### One pass -/

variable {boolean : (my : Nat) → (source : Bytes) → States → Result Bool} {choices : List Choice} {s s' : States}
  {i : Nat} {k : Key}

@[simp] theorem States.set_self {v : Bool} : s.set i k v i k = v := if_pos ⟨rfl, rfl⟩

theorem States.set_eq_self {v : Bool} (h : s i k = v) : s.set i k v = s := by
  ext j l
  rw [States.set]
  split
  · next heq => rw [heq.1, heq.2, h]
  · rfl

/-- Where a slot stands in the states. -/
def place (slot : (Choice × Nat) × Key) : Nat × Key := (slot.1.2, slot.2)

/-- A pass over some of the slots leaves the other states alone. -/
theorem settle_elsewhere {l : List ((Choice × Nat) × Key)} (h : ∀ slot ∈ l, place slot ≠ (i, k) ∨ slot.1.1.expression slot.2 = none) :
    Returns (l.foldlM (settleKey boolean) s) fun s' => s' i k = s i k := by
  induction l generalizing s with
  | nil => exact returns_pure rfl
  | cons slot l ih =>
      rw [List.foldlM_cons]
      apply returns_bind
      have hrest := fun s => ih (s := s) fun x hx => h x (.tail _ hx)
      intro s1 hs1
      have hsame : s1 i k = s i k := by
        unfold settleKey at hs1
        split at hs1
        · rw [← Except.ok.inj hs1]
        · next source hsource =>
            cases hv : boolean slot.1.2 source s with
            | error e =>
                rw [hv] at hs1
                cases hs1
            | ok v =>
                rw [hv] at hs1
                rw [← Except.ok.inj hs1, States.set, if_neg]
                rintro ⟨rfl, rfl⟩
                exact (h slot (.head _)).elim (fun hne => hne rfl) fun hnone => by simp [hnone] at hsource
      exact (hrest s1).mono fun s' hs' => hs'.trans hsame

/-- Every state is set at most once in a pass. So if a pass ends in the states in which it began,
they have not changed in between, and every expression was evaluated in them. -/
theorem settle_fixed {l : List ((Choice × Nat) × Key)} (hnodup : (l.map place).Nodup)
    (hpass : l.foldlM (settleKey boolean) s = .ok s') (hsame : ∀ slot ∈ l, s slot.1.2 slot.2 = s' slot.1.2 slot.2) :
    s' = s ∧ ∀ slot ∈ l, ∀ source, slot.1.1.expression slot.2 = some source →
      boolean slot.1.2 source s = .ok (s slot.1.2 slot.2) := by
  induction l generalizing s with
  | nil =>
      obtain rfl : s = s' := Except.ok.inj hpass
      exact ⟨rfl, by simp⟩
  | cons slot l ih =>
      obtain ⟨hnew, hnodup⟩ := List.nodup_cons.1 hnodup
      have hother : ∀ x ∈ l, place x ≠ (slot.1.2, slot.2) := fun x hx heq => hnew (List.mem_map.2 ⟨x, hx, heq⟩)
      rw [List.foldlM_cons] at hpass
      have hrest := fun x hx => hsame x (List.mem_cons_of_mem slot hx)
      cases hexpr : slot.1.1.expression slot.2 with
      | none =>
          have hstep : settleKey boolean s slot = .ok s := by simp only [settleKey, hexpr]
          rw [hstep] at hpass
          obtain ⟨hs, hall⟩ := ih hnodup hpass hrest
          refine ⟨hs, List.forall_mem_cons.2 ⟨?_, hall⟩⟩
          intro source hsource
          rw [hexpr] at hsource
          cases hsource
      | some source =>
          cases hv : boolean slot.1.2 source s with
          | error e =>
              have hstep : settleKey boolean s slot = .error e := by simp only [settleKey, hexpr, hv]; rfl
              rw [hstep] at hpass
              cases hpass
          | ok v =>
              have hstep : settleKey boolean s slot = .ok (s.set slot.1.2 slot.2 v) := by
                simp only [settleKey, hexpr, hv]
                rfl
              rw [hstep] at hpass
              replace hpass : l.foldlM (settleKey boolean) (s.set slot.1.2 slot.2 v) = .ok s' := hpass
              have hkept := settle_elsewhere (fun x hx => .inl (hother x hx)) s' hpass
              rw [States.set_self] at hkept
              have hvalue : s slot.1.2 slot.2 = v := (hsame slot (.head _)).trans hkept
              rw [States.set_eq_self hvalue] at hpass
              obtain ⟨hs, hall⟩ := ih hnodup hpass hrest
              refine ⟨hs, List.forall_mem_cons.2 ⟨?_, hall⟩⟩
              intro source' hsource'
              obtain rfl : source = source' := Option.some.inj (hexpr.symm.trans hsource')
              rw [hv, hvalue]

theorem nodup_places (choices : List Choice) : ((slots choices).map place).Nodup := by
  have hplaces : (slots choices).map place = (choices.zipIdx.map Prod.snd).product keys := by
    rw [slots, List.map_flatMap, List.product, List.flatMap_map]
    simp only [List.map_map]
    rfl
  rw [hplaces]
  refine List.Nodup.product ?_ (by decide)
  rw [List.zipIdx_map_snd]
  exact List.nodup_range'

/-! ### All passes -/

/-- A number of passes. -/
def settleTimes (boolean : (my : Nat) → (source : Bytes) → States → Result Bool) (choices : List Choice) :
    (passes : Nat) → States → Result States
  | 0, s => .ok s
  | passes + 1, s => settlePass boolean choices s >>= settleTimes boolean choices passes

/-- Every expression has the value of its state, and states without one are as they were. -/
structure Settled (boolean : (my : Nat) → (source : Bytes) → States → Result Bool) (choices : List Choice)
    (s s' : States) : Prop where
  fixed : ∀ choice i k source, (choice, i) ∈ choices.zipIdx → choice.expression k = some source →
    boolean i source s' = .ok (s' i k)
  kept : ∀ i k, (∀ choice, (choice, i) ∈ choices.zipIdx → choice.expression k = none) → s' i k = s i k

theorem mem_slots {choice : Choice} : ((choice, i), k) ∈ slots choices ↔ (choice, i) ∈ choices.zipIdx := by
  have hkey : k ∈ keys := by cases k <;> decide
  constructor
  · intro h
    obtain ⟨c, hc, h⟩ := List.mem_flatMap.1 h
    obtain ⟨l, -, heq⟩ := List.mem_map.1 h
    obtain ⟨rfl, -⟩ := Prod.mk.inj heq
    exact hc
  · exact fun h => List.mem_flatMap.2 ⟨_, h, List.mem_map.2 ⟨k, hkey, rfl⟩⟩

theorem settlePass_kept (h : ∀ choice, (choice, i) ∈ choices.zipIdx → choice.expression k = none) :
    Returns (settlePass boolean choices s) fun s' => s' i k = s i k := by
  apply settle_elsewhere
  rintro ⟨⟨choice, j⟩, l⟩ hslot
  by_cases hplace : (j, l) = (i, k)
  · obtain ⟨rfl, rfl⟩ := Prod.mk.inj hplace
    exact .inr (h choice (mem_slots.1 hslot))
  · exact .inl hplace

/-- A pass that changes nothing is a fixed point. -/
theorem settled_of_unchanged (hpass : settlePass boolean choices s = .ok s')
    (hsame : snapshot choices s = snapshot choices s') :
    s' = s ∧ ∀ choice i k source, (choice, i) ∈ choices.zipIdx → choice.expression k = some source →
      boolean i source s = .ok (s i k) := by
  have hslots : ∀ slot ∈ slots choices, s slot.1.2 slot.2 = s' slot.1.2 slot.2 := List.map_inj_left.1 hsame
  obtain ⟨hs, hall⟩ := settle_fixed (nodup_places choices) hpass hslots
  exact ⟨hs, fun choice i k source hmem => hall ((choice, i), k) (mem_slots.2 hmem) source⟩

theorem settleFrom_settled (passes : Nat) :
    Returns (settleFrom boolean choices passes s) fun s' =>
      Settled boolean choices s s' ∧ ∃ n, 0 < n ∧ n ≤ passes ∧ settleTimes boolean choices n s = .ok s' := by
  induction passes generalizing s with
  | zero =>
      intro s' h
      cases h
  | succ passes ih =>
      apply returns_bind
      intro s1 hpass
      split
      · next hsame =>
          obtain ⟨rfl, hfixed⟩ := settled_of_unchanged hpass hsame
          apply returns_pure
          refine ⟨⟨hfixed, fun _ _ _ => rfl⟩, 1, Nat.one_pos, Nat.succ_pos _, ?_⟩
          rw [settleTimes, hpass]
          rfl
      · refine ih.mono ?_
        rintro s' ⟨hsettled, n, -, hn, htimes⟩
        refine ⟨⟨hsettled.fixed, ?_⟩, n + 1, Nat.succ_pos _, Nat.succ_le_succ hn, ?_⟩
        · intro i k hnone
          exact (hsettled.kept i k hnone).trans (settlePass_kept hnone s1 hpass)
        · rw [settleTimes, hpass]
          exact htimes

/-- Expressions that have the values of their states leave them. -/
theorem settlePass_fixed (h : ∀ choice i k source, (choice, i) ∈ choices.zipIdx → choice.expression k = some source →
    boolean i source s = .ok (s i k)) : settlePass boolean choices s = .ok s := by
  have hslots : ∀ slot ∈ slots choices, ∀ source, slot.1.1.expression slot.2 = some source →
      boolean slot.1.2 source s = .ok (s slot.1.2 slot.2) := by
    rintro ⟨⟨choice, i⟩, k⟩ hslot source
    exact h choice i k source (mem_slots.1 hslot)
  unfold settlePass
  generalize slots choices = l at hslots
  induction l with
  | nil => rfl
  | cons slot l ih =>
      have hstep : settleKey boolean s slot = .ok s := by
        unfold settleKey
        split
        · rfl
        · next source hsource =>
            rw [hslots slot (.head _) source hsource]
            exact congrArg Except.ok (States.set_eq_self rfl)
      rw [List.foldlM_cons, hstep]
      exact ih fun x hx => hslots x (.tail _ hx)

/-- An expression does not have the value of its state. -/
def Unsettled (boolean : (my : Nat) → (source : Bytes) → States → Result Bool) (choices : List Choice)
    (s : States) : Prop :=
  ∃ choice i k source, (choice, i) ∈ choices.zipIdx ∧ choice.expression k = some source ∧
    boolean i source s ≠ .ok (s i k)

/-- If the expressions cannot fail, the only way to fail is to go on, with states that no pass has
settled. -/
theorem settleFrom_total {value : Nat → Bytes → States → Bool} (hpure : ∀ i source s, boolean i source s = .ok (value i source s))
    (passes : Nat) (s : States) : (∃ s', settleFrom boolean choices passes s = .ok s') ∨
      settleFrom boolean choices passes s = die "Installer JS choices did not stabilize after 64 passes" ∧
        ∀ n < passes, ∃ s', settleTimes boolean choices n s = .ok s' ∧ Unsettled boolean choices s' := by
  have hpass : ∀ s, ∃ s', settlePass boolean choices s = .ok s' := by
    intro s
    unfold settlePass
    generalize slots choices = l
    induction l generalizing s with
    | nil => exact ⟨s, rfl⟩
    | cons slot l ih =>
        have hstep : ∃ s1, settleKey boolean s slot = .ok s1 := by
          unfold settleKey
          split
          · exact ⟨s, rfl⟩
          · rw [hpure]
            exact ⟨_, rfl⟩
        obtain ⟨s1, hs1⟩ := hstep
        obtain ⟨s', hs'⟩ := ih s1
        refine ⟨s', ?_⟩
        rw [List.foldlM_cons, hs1]
        exact hs'
  induction passes generalizing s with
  | zero =>
      refine .inr ⟨rfl, ?_⟩
      intro n hn
      cases hn
  | succ passes ih =>
      obtain ⟨s1, hs1⟩ := hpass s
      rw [settleFrom, hs1]
      show (∃ s', (if snapshot choices s = snapshot choices s1 then pure s1 else settleFrom boolean choices passes s1) =
        .ok s') ∨ _
      split
      · exact .inl ⟨s1, rfl⟩
      · next hchanged =>
          refine (ih s1).imp_right ?_
          rintro ⟨hdie, hrest⟩
          constructor
          · show (if snapshot choices s = snapshot choices s1 then pure s1 else settleFrom boolean choices passes s1) = _
            rw [if_neg hchanged, hdie]
          · intro n hn
            cases n with
            | zero =>
                refine ⟨s, rfl, ?_⟩
                by_contra hsettled
                have hsame : settlePass boolean choices s = .ok s := by
                  apply settlePass_fixed
                  intro choice i k source hmem hexpr
                  by_contra hne
                  exact hsettled ⟨choice, i, k, source, hmem, hexpr, hne⟩
                obtain rfl := Except.ok.inj (hs1.symm.trans hsame)
                exact hchanged rfl
            | succ n =>
                rw [settleTimes, hs1]
                exact hrest n (Nat.lt_of_succ_lt_succ hn)

/-! ### What is selected -/

variable {decoders : Decoders} {dist : Node} {pkg pkg' : Package} {engine : Engine}

theorem resolved_selected (hjs : pkg.needsJs = true) (hnone : pkg.components = []) (hdist : pkg.distribution = some dist)
    (hchoices : outlineChoices dist = .ok choices)
    (h : packageResolve decoders (some (engine.script dist choices)) pkg = .ok pkg') :
    ∃ s, engine.prepare dist choices = .ok s ∧ ∀ c ∈ pkg'.components, ∃ choice i n, (choice, i) ∈ choices.zipIdx ∧
      s i .selected = true ∧ n ∈ xmlElements choice.node ∧ xmlAttr n (lit "id") = .ok c.identifier := by
  have hengine : pkg.engine (some (engine.script dist choices)) = some (engine.script dist choices) := if_pos hjs
  have hcovers := packageResolve_covers hnone hdist hchoices pkg' h
  rw [hengine] at hcovers
  cases hprepare : engine.prepare dist choices with
  | error e =>
      -- nothing is resolved without the states
      have hfail : (engine.script dist choices).prepare = .error e := by
        show (engine.prepare dist choices).map (fun _ => ()) = _
        rw [hprepare]
        rfl
      unfold packageResolve at h
      rw [hdist] at h
      simp only [hjs, Option.isNone_some, Bool.false_eq_true, and_false, dieIf, if_false, hchoices, hengine,
        Option.elim_some, hfail] at h
      cases h
  | ok s =>
      refine ⟨s, rfl, ?_⟩
      intro c hc
      obtain ⟨⟨choice, i⟩, hchoice, hselected, ⟨n, j⟩, hn, hid, -⟩ := hcovers.arises c hc
      have hstate : (engine.prepare dist choices).map (fun s => s i .selected) = .ok true := hselected
      rw [hprepare] at hstate
      exact ⟨choice, i, n, hchoice, Except.ok.inj hstate, List.fst_mem_of_mem_zipIdx hn, hid⟩

/-- **Choices are settled at a fixed point**, after 64 passes at most, unless none of the states that
the passes start in is one; and only what is selected there is loaded. -/
theorem choices_settled (value : (my : Nat) → (source : Bytes) → States → Bool) (choices : List Choice) (s : States) :
    ((settleChoices (fun i source s => .ok (value i source s)) choices s =
        die "Installer JS choices did not stabilize after 64 passes" ∧
        ∀ n < 64, ∃ s', settleTimes (fun i source s => .ok (value i source s)) choices n s = .ok s' ∧
          ∃ choice i k source, (choice, i) ∈ choices.zipIdx ∧ choice.expression k = some source ∧
            value i source s' ≠ s' i k) ∨
      ∃ s', settleChoices (fun i source s => .ok (value i source s)) choices s = .ok s' ∧
        (∀ choice i k source, (choice, i) ∈ choices.zipIdx → choice.expression k = some source →
          value i source s' = s' i k) ∧
        (∀ i k, (∀ choice, (choice, i) ∈ choices.zipIdx → choice.expression k = none) → s' i k = s i k) ∧
        ∃ n, 0 < n ∧ n ≤ 64 ∧ settleTimes (fun i source s => .ok (value i source s)) choices n s = .ok s') ∧
    ∀ decoders run dist (pkg pkg' : Package), pkg.needsJs = true → pkg.components = [] → pkg.distribution = some dist →
      outlineChoices dist = .ok choices →
      packageResolve decoders (some (Engine.script ⟨run, fun i source s => .ok (value i source s)⟩ dist choices)) pkg =
        .ok pkg' →
      ∃ s s', initializeChoices dist choices >>= run = .ok s ∧
        settleChoices (fun i source s => .ok (value i source s)) choices s = .ok s' ∧
        ∀ c ∈ pkg'.components, ∃ choice i n, (choice, i) ∈ choices.zipIdx ∧ s' i .selected = true ∧
          n ∈ xmlElements choice.node ∧ xmlAttr n (lit "id") = .ok c.identifier := by
  refine ⟨?_, ?_⟩
  · obtain ⟨s', hs'⟩ | ⟨hdie, hunsettled⟩ := settleFrom_total (fun i source s => rfl) 64 s
    · obtain ⟨hsettled, htimes⟩ := settleFrom_settled 64 s' hs'
      exact .inr ⟨s', hs', fun choice i k source hmem hexpr => Except.ok.inj (hsettled.fixed choice i k source hmem hexpr),
        hsettled.kept, htimes⟩
    · refine .inl ⟨hdie, fun n hn => ?_⟩
      obtain ⟨s', htimes, choice, i, k, source, hmem, hexpr, hne⟩ := hunsettled n hn
      exact ⟨s', htimes, choice, i, k, source, hmem, hexpr, fun heq => hne (congrArg Except.ok heq)⟩
  · intro decoders run dist pkg pkg' hjs hnone hdist hchoices h
    obtain ⟨s', hprepare, hloaded⟩ := resolved_selected hjs hnone hdist hchoices h
    have hsplit : (initializeChoices dist choices >>= run) >>=
        settleChoices (fun i source s => .ok (value i source s)) choices = .ok s' := by
      rw [bind_assoc]
      exact hprepare
    cases hstart : initializeChoices dist choices >>= run with
    | error e =>
        rw [hstart] at hsplit
        cases hsplit
    | ok s =>
        rw [hstart] at hsplit
        exact ⟨s, s', rfl, hsplit, hloaded⟩

/-! One choice that is selected if it is enabled, and does not start so. -/

def enabledChoice : Choice where
  id := lit "c"
  node := .element (lit "choice") [(lit "id", lit "c"), (lit "start_selected", lit "false"),
    (lit "selected", lit "my.choice.enabled")]
    [.element (lit "pkg-ref") [(lit "id", lit "org.a")] []]

def enabledDist : Node :=
  .element (lit "installer-gui-script") []
    [.element (lit "choices-outline") [] [.element (lit "line") [(lit "choice", lit "c")] []], enabledChoice.node,
      .element (lit "pkg-ref") [(lit "id", lit "org.a")] [.text (lit "#a.pkg")]]

theorem choices_settled_enabled :
    ∃ s s' : States, initializeChoices enabledDist [enabledChoice] = .ok s ∧ s 0 .selected = false ∧
      settleChoices (fun i _ s => .ok (s i .enabled)) [enabledChoice] s = .ok s' ∧ s' 0 .selected = true := by
  let pkg : Package := { packageOf [] with distribution := enabledDist, needsJs := true }
  have hrun : loadedNames (packageResolve sampleDecoders
      (some (Engine.script ⟨.ok, fun i _ s => .ok (s i .enabled)⟩ enabledDist [enabledChoice])) pkg) =
        some [(lit "org.a", lit "a.pkg")] := by decide +kernel
  obtain ⟨pkg', hok, hnames⟩ := exists_of_loadedNames hrun
  obtain ⟨s, s', hstart, hsettle, hloaded⟩ := (choices_settled (fun i _ s => s i .enabled) [enabledChoice] fun _ _ => true).2
    sampleDecoders .ok enabledDist pkg pkg' rfl rfl rfl rfl hok
  have hcomponent : pkg'.components ≠ [] := by
    intro hnil
    rw [hnil] at hnames
    cases hnames
  obtain ⟨c, hc⟩ := List.exists_mem_of_ne_nil _ hcomponent
  obtain ⟨choice, i, n, hchoice, hselected, -⟩ := hloaded c hc
  obtain ⟨rfl, rfl⟩ : choice = enabledChoice ∧ i = 0 := by simpa using hchoice
  have hbefore : (initializeChoices enabledDist [enabledChoice]).toOption.map (fun s => s 0 .selected) = some false := by
    decide +kernel
  cases hinitial : initializeChoices enabledDist [enabledChoice] with
  | error e =>
      rw [hinitial] at hstart
      cases hstart
  | ok s0 =>
      rw [hinitial] at hstart hbefore
      obtain rfl : s0 = s := Except.ok.inj hstart
      exact ⟨s0, s', rfl, Option.some.inj hbefore, hsettle, hselected⟩

end MiniDarwin.Archive
