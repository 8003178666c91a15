import MiniDarwin.Open.Serve
import MiniDarwin.Launchd.Roundtrip

/-!
What an item is opened with, as a handler and not as a pointer to one; and
that a handler is known by its origin and its command.
-/

namespace MiniDarwin.Open

open Posix (Bytes Errno)
open Launchd (ascii decimal digitsValue)

namespace Resolver

variable (r : Resolver)

/-- The handler of the first entry for a selector. -/
def handlerIn (selector : Bytes) : Option Handler :=
  r.tables.findSome? fun table => (table.entries.find? fun entry => selector ∈ entry.1).map (·.2)

/-- What a lookup finds. -/
def choice (kind key : Bytes) : Option Handler :=
  match r.handlerIn (kind ++ ascii ":" ++ key) with
  | some handler => some handler
  | none => (r.claimant kind key).map bundleHandler

/-- What an item is opened with. -/
def opens (item : Item) : Except Stop Handler :=
  if r.launchesItself item then
    match readBundle r.sys item.value with
    | .error message =>
        .error (.failure (ascii "Unable to launch " ++ item.value ++ ascii ": " ++ message))
    | .ok bundle => .ok { bundleHandler bundle with origin := ascii "self" }
  else
    match r.selectors item with
    | none => .error (.failure (ascii "The file " ++ item.value ++ ascii " does not exist."))
    | some selectors =>
        match selectors.findSome? fun s => r.choice s.1 s.2 with
        | some handler => .ok handler
        | none => .error (unknown item)

end Resolver

/-! ### Where handlers come from -/

/-- A handler of a line of a table. -/
def OfLine (sys : System) (handler : Handler) : Prop :=
  ∃ path bytes i line selectors, readFile sys path = .ok bytes ∧ (getlines 10 bytes)[i]? = some line ∧
    readLine (whereIs path (1 + i)) line = .ok (selectors, handler)

/-- A handler of a bundle in one of the directories for them. -/
def OfBundle (handler : Handler) : Prop :=
  ∃ bundle : Bundle, handler = bundleHandler bundle ∧ 47 ∈ bundle.path ∧
    endsWith (lower bundle.path) (ascii ".app") = true

/-- A handler of an item that launches itself. -/
def OfItself (handler : Handler) : Prop :=
  ∃ bundle : Bundle, handler = { bundleHandler bundle with origin := ascii "self" }

section Lines

variable {location line selector : Bytes} {h handler : Handler} {flags : List Bytes} {entry : Entry}

/-- The flags of a line leave where it is, and that it is not a bundle. -/
theorem readFlags_ok (hr : readFlags location h flags = .ok handler) :
    handler.origin = h.origin ∧ handler.bundle = h.bundle := by
  induction flags generalizing h with
  | nil =>
      cases hr
      exact ⟨rfl, rfl⟩
  | cons flag flags ih =>
      unfold readFlags at hr
      split at hr
      · have hrest := ih hr
        exact hrest
      · split at hr
        · have hrest := ih hr
          exact hrest
        · split at hr
          · exact ih hr
          · cases hr

theorem readLine_ok (hr : readLine location line = .ok entry) :
    entry.2.origin = location ∧ entry.2.bundle = false := by
  unfold readLine at hr
  split at hr
  · next selectors command flags =>
      simp only [bind, Except.bind] at hr
      split at hr
      · cases hr
      · split at hr
        · cases hr
        · split at hr
          · cases hr
          · next hflags =>
              cases hr
              exact readFlags_ok hflags
  · cases hr

theorem mem_readLines {path : Bytes} {number : Nat} {lines : List Bytes}
    (he : entry ∈ (readLines path number lines).1) :
    ∃ i line, lines[i]? = some line ∧ readLine (whereIs path (number + i)) line = .ok entry := by
  induction lines generalizing number with
  | nil => cases he
  | cons line lines ih =>
      have hrest : entry ∈ (readLines path (number + 1) lines).1 →
          ∃ i line', (line :: lines)[i]? = some line' ∧
            readLine (whereIs path (number + i)) line' = .ok entry := by
        intro h
        obtain ⟨i, line', hline, hread⟩ := ih h
        exact ⟨i + 1, line', hline, by rw [← hread, Nat.add_assoc, Nat.add_comm 1 i]⟩
      simp only [readLines] at he
      split at he
      · exact hrest he
      · split at he
        · next entry' hread =>
            rcases List.mem_cons.1 he with rfl | he
            · exact ⟨0, line, rfl, hread⟩
            · exact hrest he
        · exact hrest he

theorem ofLine_of_mem {sys : System} {path : Bytes} {owner : Nat}
    (he : entry ∈ (readTable sys path owner).1.entries) : OfLine sys entry.2 := by
  unfold readTable at he
  split at he
  · cases he
  · split at he
    · cases he
    · split at he
      · cases he
      · next bytes hbytes =>
          obtain ⟨i, line, hline, hread⟩ := mem_readLines he
          exact ⟨path, bytes, i, line, entry.1, hbytes, hline, hread⟩

end Lines

/-! ### Origins -/

theorem digitsValue_decimal {n : Nat} (hn : n ≠ 0) : digitsValue (decimal n) = some n := by
  have hdecimal : decimal n = (Nat.digits 10 n).reverse.map fun d => UInt8.ofNat (48 + d) := by
    rw [decimal, if_neg (by omega), if_neg (by omega), List.nil_append, Int.natAbs_natCast]
  rw [hdecimal, Launchd.digitsValue_digits hn]

theorem colon_not_mem_decimal (n : Nat) : 58 ∉ decimal n :=
  fun h => absurd (Launchd.decimal_range n 58 h).2 (by decide)

/-- A place in a table is the file and the number of the line. -/
theorem whereIs_inj {path path' : Bytes} {n n' : Nat} (hn : n ≠ 0) (hn' : n' ≠ 0)
    (h : whereIs path n = whereIs path' n') : path = path' ∧ n = n' := by
  have hcut : ∀ {a b c d : Bytes}, 58 ∉ b → 58 ∉ d → a ++ 58 :: b = c ++ 58 :: d → a = c ∧ b = d := by
    intro a b c d hb hd heq
    rcases List.append_eq_append_iff.1 heq with ⟨m, rfl, hm⟩ | ⟨m, rfl, hm⟩
    · cases m with
      | nil =>
          cases hm
          simp
      | cons x m =>
          rw [List.cons_append] at hm
          obtain ⟨rfl, rfl⟩ := List.cons.inj hm
          simp at hb
    · cases m with
      | nil =>
          cases hm
          simp
      | cons x m =>
          rw [List.cons_append] at hm
          obtain ⟨rfl, rfl⟩ := List.cons.inj hm
          simp at hd
  have hcolon : ascii ":" = [58] := by decide
  simp only [whereIs, hcolon, List.append_assoc, List.singleton_append] at h
  obtain ⟨hpath, hnum⟩ := hcut (colon_not_mem_decimal n) (colon_not_mem_decimal n') h
  have hvalue := digitsValue_decimal hn
  rw [hnum, digitsValue_decimal hn'] at hvalue
  exact ⟨hpath, (Option.some.inj hvalue).symm⟩

/-- Lines of tables at one place are one line. -/
theorem OfLine.eq {sys : System} {h h' : Handler} (hl : OfLine sys h) (hl' : OfLine sys h')
    (horigin : h.origin = h'.origin) : h = h' := by
  obtain ⟨path, bytes, i, line, selectors, hbytes, hline, hread⟩ := hl
  obtain ⟨path', bytes', i', line', selectors', hbytes', hline', hread'⟩ := hl'
  have hplace : whereIs path (1 + i) = whereIs path' (1 + i') := by
    rw [← (readLine_ok hread).1, ← (readLine_ok hread').1]
    exact horigin
  obtain ⟨rfl, hi⟩ := whereIs_inj (by omega) (by omega) hplace
  obtain rfl : i = i' := by omega
  cases hbytes.symm.trans hbytes'
  cases hline.symm.trans hline'
  cases hread.symm.trans hread'
  rfl

theorem OfLine.colon_mem {sys : System} {h : Handler} (hl : OfLine sys h) : 58 ∈ h.origin := by
  obtain ⟨path, bytes, i, line, selectors, -, -, hread⟩ := hl
  rw [(readLine_ok hread).1]
  have hcolon : ascii ":" = [58] := by decide
  simp [whereIs, hcolon]

/-- A place ends in a digit. -/
theorem OfLine.getLast {sys : System} {h : Handler} (hl : OfLine sys h) :
    ∃ c, h.origin.getLast? = some c ∧ c < 58 := by
  obtain ⟨path, bytes, i, line, selectors, -, -, hread⟩ := hl
  have hne : decimal (1 + i : Nat) ≠ [] := by
    intro hnil
    have hvalue := digitsValue_decimal (n := 1 + i) (by omega)
    rw [hnil] at hvalue
    simp [digitsValue] at hvalue
  refine ⟨(decimal (1 + i : Nat)).getLast hne, ?_, (Launchd.decimal_range _ _ (List.getLast_mem hne)).2⟩
  rw [(readLine_ok hread).1]
  simp only [whereIs]
  rw [List.getLast?_append_of_ne_nil _ hne, List.getLast?_eq_some_getLast hne]

theorem OfBundle.getLast {h : Handler} (hb : OfBundle h) : ∃ c, h.origin.getLast? = some c ∧ 58 ≤ c := by
  obtain ⟨bundle, rfl, -, hends⟩ := hb
  simp only [endsWith, decide_eq_true_eq] at hends
  obtain ⟨front, hfront⟩ := hends
  have hlast : (lower bundle.path).getLast? = some 112 := by
    rw [← hfront]
    simp [ascii]
  rw [lower, List.getLast?_map] at hlast
  obtain ⟨c, hc, hlow⟩ := Option.map_eq_some_iff.1 hlast
  refine ⟨c, hc, ?_⟩
  split at hlow
  · next hrange => exact UInt8.le_trans (by decide) hrange.1
  · rw [hlow]
    decide

/-- A handler of the three kinds. -/
def Known (sys : System) (handler : Handler) : Prop :=
  OfLine sys handler ∨ OfBundle handler ∨ OfItself handler

theorem OfItself.not_ofLine {sys : System} {h h' : Handler} (hs : OfItself h) (hl : OfLine sys h') :
    h.origin ≠ h'.origin := by
  intro horigin
  obtain ⟨bundle, rfl⟩ := hs
  have hmem := hl.colon_mem
  rw [← horigin] at hmem
  simp [ascii] at hmem

theorem OfItself.not_ofBundle {h h' : Handler} (hs : OfItself h) (hb : OfBundle h') :
    h.origin ≠ h'.origin := by
  intro horigin
  obtain ⟨bundle, rfl⟩ := hs
  obtain ⟨bundle', rfl, hslash, -⟩ := hb
  have hpath : ascii "self" = bundle'.path := horigin
  rw [← hpath] at hslash
  simp [ascii] at hslash

theorem OfLine.not_ofBundle {sys : System} {h h' : Handler} (hl : OfLine sys h) (hb : OfBundle h') :
    h.origin ≠ h'.origin := by
  intro horigin
  obtain ⟨c, hc, hlt⟩ := hl.getLast
  obtain ⟨d, hd, hle⟩ := hb.getLast
  rw [horigin, hd] at hc
  cases hc
  exact absurd hle (UInt8.not_le.2 hlt)

/-- **A handler is known by its origin and its command.** -/
theorem Known.eq {sys : System} {h h' : Handler} (hk : Known sys h) (hk' : Known sys h')
    (horigin : h.origin = h'.origin) (hcommand : h.command = h'.command) : h = h' := by
  rcases hk with hl | hb | hs
  · rcases hk' with hl' | hb' | hs'
    · exact hl.eq hl' horigin
    · exact absurd horigin (hl.not_ofBundle hb')
    · exact absurd horigin.symm (hs'.not_ofLine hl)
  · rcases hk' with hl' | hb' | hs'
    · exact absurd horigin.symm (hl'.not_ofBundle hb)
    · obtain ⟨bundle, rfl, -, -⟩ := hb
      obtain ⟨bundle', rfl, -, -⟩ := hb'
      simp only [bundleHandler] at *
      rw [hcommand, horigin]
    · exact absurd horigin.symm (hs'.not_ofBundle hb)
  · rcases hk' with hl' | hb' | hs'
    · exact absurd horigin (hs.not_ofLine hl')
    · exact absurd horigin (hs.not_ofBundle hb')
    · obtain ⟨bundle, rfl⟩ := hs
      obtain ⟨bundle', rfl⟩ := hs'
      simp only [bundleHandler] at *
      rw [hcommand]

/-! ### What is chosen is known -/

namespace Resolver

/-- The tables are what has been read. -/
def Lawful (r : Resolver) : Prop := ∀ table ∈ r.tables, ∀ entry ∈ table.entries, OfLine r.sys entry.2

theorem lawful_make (sys : System) (settings : Settings) (home : Bytes) :
    (make sys settings home).1.Lawful := by
  intro table htable entry hentry
  simp only [make, List.mem_map, List.mem_append, List.mem_singleton] at htable
  obtain ⟨read, hread, rfl⟩ := htable
  rcases hread with hread | rfl
  · split at hread
    · rw [List.mem_singleton.1 hread] at hentry
      exact ofLine_of_mem hentry
    · cases hread
  · exact ofLine_of_mem hentry

variable {r : Resolver} {kind key selector : Bytes} {handler : Handler} {item : Item}

theorem readInfo_path {path file : Bytes} {info : Dict} {bundle : Bundle}
    (h : readInfo path file info = .ok bundle) : bundle.path = path := by
  unfold readInfo at h
  obtain ⟨identifier, -, h⟩ := Launchd.bind_eq_ok h
  obtain ⟨name, -, h⟩ := Launchd.bind_eq_ok h
  obtain ⟨executable, -, h⟩ := Launchd.bind_eq_ok h
  obtain ⟨_, -, h⟩ := Launchd.bind_eq_ok h
  obtain ⟨extensions, -, h⟩ := Launchd.bind_eq_ok h
  obtain ⟨schemes, -, h⟩ := Launchd.bind_eq_ok h
  cases h
  rfl

theorem mapError_eq_ok {α ε ε' : Type} {f : ε → ε'} {x : Except ε α} {a : α} (h : x.mapError f = .ok a) :
    x = .ok a := by
  cases x with
  | error e => cases h
  | ok b =>
      cases h
      rfl

theorem readBundle_path {sys : System} {path : Bytes} {bundle : Bundle}
    (h : readBundle sys path = .ok bundle) : bundle.path = path := by
  have h := mapError_eq_ok h
  obtain ⟨bytes, -, h⟩ := Launchd.bind_eq_ok h
  obtain ⟨_, -, h⟩ := Launchd.bind_eq_ok h
  obtain ⟨value, -, h⟩ := Launchd.bind_eq_ok h
  obtain ⟨info, -, h⟩ := Launchd.bind_eq_ok h
  exact readInfo_path h

theorem eq_ok_of_toOption {α ε : Type} {x : Except ε α} {a : α} (h : x.toOption = some a) : x = .ok a := by
  cases x with
  | error e => cases h
  | ok b =>
      cases h
      rfl

theorem ofBundle_of_mem {bundle : Bundle} (h : bundle ∈ r.bundles) : OfBundle (bundleHandler bundle) := by
  simp only [bundles, List.mem_flatMap] at h
  obtain ⟨directory, -, hbundle⟩ := h
  unfold bundlesIn at hbundle
  split at hbundle
  · cases hbundle
  · obtain ⟨name, -, hname⟩ := List.mem_filterMap.1 hbundle
    dsimp only at hname
    split at hname
    · next his =>
        have hread := eq_ok_of_toOption hname
        refine ⟨bundle, rfl, ?_, ?_⟩
        · have hslash : ascii "/" = [47] := by decide
          rw [readBundle_path hread, hslash]
          simp
        · rw [readBundle_path hread]
          exact (Bool.and_eq_true_iff.1 his).1
    · cases hname

theorem mem_of_claimant {bundle : Bundle} (h : r.claimant kind key = some bundle) : bundle ∈ r.bundles := by
  unfold claimant at h
  split at h
  · exact List.mem_of_find?_eq_some h
  · split at h
    · exact List.mem_of_find?_eq_some h
    · cases h

theorem ofLine_of_handlerIn (hr : r.Lawful) (h : r.handlerIn selector = some handler) :
    OfLine r.sys handler := by
  obtain ⟨table, htable, hfind⟩ := List.exists_of_findSome?_eq_some h
  obtain ⟨entry, hentry, rfl⟩ := Option.map_eq_some_iff.1 hfind
  exact hr table htable entry (List.mem_of_find?_eq_some hentry)

/-- What a lookup finds is of a table or a bundle. -/
theorem choice_cases (hr : r.Lawful) (h : r.choice kind key = some handler) :
    OfLine r.sys handler ∨ OfBundle handler := by
  unfold choice at h
  split at h
  · next h' hin =>
      cases h
      exact .inl (ofLine_of_handlerIn hr hin)
  · obtain ⟨bundle, hbundle, rfl⟩ := Option.map_eq_some_iff.1 h
    exact .inr (ofBundle_of_mem (mem_of_claimant hbundle))

/-- Only an item that launches itself is opened with itself. -/
theorem opens_cases (hr : r.Lawful) (h : r.opens item = .ok handler) :
    r.launchesItself item = true ∧ OfItself handler ∨
      r.launchesItself item = false ∧ (OfLine r.sys handler ∨ OfBundle handler) := by
  unfold opens at h
  split at h
  · next hself =>
      split at h
      · cases h
      · cases h
        exact .inl ⟨hself, _, rfl⟩
  · next hself =>
      right
      refine ⟨by simpa using hself, ?_⟩
      split at h
      · cases h
      · split at h
        · next hfind =>
            cases h
            obtain ⟨s, -, hs⟩ := List.exists_of_findSome?_eq_some hfind
            exact choice_cases hr hs
        · cases h

theorem known_of_opens (hr : r.Lawful) (h : r.opens item = .ok handler) : Known r.sys handler := by
  rcases opens_cases hr h with ⟨-, hs⟩ | ⟨-, hl | hb⟩
  · exact .inr (.inr hs)
  · exact .inl hl
  · exact .inr (.inl hb)

/-- The origin tells whether an item launches itself. -/
theorem origin_self_iff (hr : r.Lawful) (h : r.opens item = .ok handler) :
    handler.origin = ascii "self" ↔ r.launchesItself item = true := by
  have hitself : OfItself { bundleHandler ⟨[], [], [], [], [], []⟩ with origin := ascii "self" } :=
    ⟨_, rfl⟩
  rcases opens_cases hr h with ⟨hself, bundle, rfl⟩ | ⟨hself, hl | hb⟩
  · simp [hself]
  · simpa [hself] using (hitself.not_ofLine hl).symm
  · simpa [hself] using (hitself.not_ofBundle hb).symm

theorem opens_error (h : r.opens item = .error .fault) : False := by
  unfold opens unknown at h
  repeat' split at h
  all_goals cases h

end Resolver

end MiniDarwin.Open
