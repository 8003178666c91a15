import MiniDarwin.Launchd.Timing

/-!
The text of the overrides database.

`databaseText` is what `writePlist ()` writes for a map of overrides, and
`databaseDoc` is the tree of that text. Reading the tree gives the map
back as long as it has few enough entries: the reader counts values and the
writer does not.
-/

namespace MiniDarwin.Launchd

open Posix (Bytes)

variable {entries : List (Label × Bool)} {m : Map Label Bool}

/-! ### Writing -/

def booleanText (b : Bool) : Bytes := if b then ascii "<true/>" else ascii "<false/>"

def entryText (entry : Label × Bool) : Bytes :=
  ascii "<key>" ++ entry.1 ++ ascii "</key>" ++ booleanText entry.2

def dictText (entries : List (Label × Bool)) : Bytes :=
  ascii "<dict>" ++ entries.flatMap entryText ++ ascii "</dict>"

def databaseText (entries : List (Label × Bool)) : Bytes :=
  plistHead ++ dictText entries ++ ascii "</plist>"

/-- Labels that `setOverride ()` accepts. -/
def Labelled (entries : List (Label × Bool)) : Prop := ∀ entry ∈ entries, validIdentifier entry.1 = true

/-- The characters of identifiers are letters, digits, and three more. -/
theorem identifier_range {l : Label} (h : validIdentifier l = true) : ∀ c ∈ l, 45 ≤ c ∧ c ≠ 60 ∧ c ≠ 62 := by
  intro c hc
  simp only [validIdentifier, decide_eq_true_eq, List.all_eq_true] at h
  obtain ⟨-, -, h⟩ := h
  have hc' := h c hc
  simp only [UInt8.le_iff_toNat_le, ← UInt8.toNat_inj, ne_eq] at hc' ⊢
  simp at hc' ⊢
  omega

theorem escape_identifier {l : Bytes} (h : ∀ c ∈ l, 45 ≤ c ∧ c ≠ 60 ∧ c ≠ 62) : escape l = .ok l := by
  induction l with
  | nil => rfl
  | cons c l ih =>
      obtain ⟨hc, hlt, hgt⟩ := h c (.head _)
      have hamp : c ≠ 38 := by
        rintro rfl
        revert hc
        decide
      have hprint : ¬ c < 32 := by
        rw [UInt8.le_iff_toNat_le] at hc
        rw [UInt8.lt_iff_toNat_lt]
        simp at hc ⊢
        omega
      rw [escape, ih fun c' hc' => h c' (.tail _ hc')]
      simp only [hamp, hlt, hgt, hprint, if_false, false_and]
      rfl

theorem encodeEntries_overrides (h : Labelled entries) :
    encodeEntries (entries.map fun entry => (entry.1, .boolean entry.2)) =
      .ok (entries.flatMap entryText) := by
  induction entries with
  | nil => rfl
  | cons entry entries ih =>
      have hescape := escape_identifier (identifier_range (h entry (.head _)))
      have hrest := ih fun e he => h e (.tail _ he)
      simp only [List.map_cons, encodeEntries, hescape, hrest, encode]
      rfl

/-- What is written is the text, if that is not too long. -/
theorem writePlist_overrides (h : Labelled m.toList) :
    writePlist (overridesValue m) =
      if (databaseText m.toList).length > maxMessage then .error (ascii "plist exceeds size limit")
      else .ok (databaseText m.toList) := by
  have hencode : encode (overridesValue m) = limited (dictText m.toList) := by
    simp only [overridesValue, encode, encodeEntries_overrides h]
    rfl
  have hshort : (dictText m.toList).length ≤ (databaseText m.toList).length := by
    simp [databaseText]
    omega
  rw [writePlist, hencode, limited]
  split
  · next hd => rw [if_pos (lt_of_lt_of_le hd hshort)]; rfl
  · rfl

/-! ### Reading -/

/-- What an XML parser makes of the text of an entry. -/
def entryXml (entry : Label × Bool) : List (Tag × List Xml) :=
  [(.plain (ascii "key"), [.text entry.1]),
   (.plain (if entry.2 then ascii "true" else ascii "false"), [])]

def dictXml (entries : List (Label × Bool)) : Tag × List Xml :=
  (.plain (ascii "dict"), (entries.flatMap entryXml).map fun x => .element x.1 x.2)

/-- What an XML parser makes of the whole text. -/
def databaseDoc (entries : List (Label × Bool)) : Doc where
  root := some (⟨ascii "plist", [⟨ascii "version", false, some (ascii "1.0")⟩], false, false⟩,
    [.element (dictXml entries).1 (dictXml entries).2])
  intSubset := false

theorem elements_element (l : List (Tag × List Xml)) :
    elements (l.map fun x => .element x.1 x.2) = .ok l := by
  induction l with
  | nil => rfl
  | cons x l ih =>
      rw [List.map_cons, elements, ih]
      rfl

/-- The message when there are too many values. -/
def tooMany : Bytes := ascii "plist exceeds structural limits"

/-- The first thing `parse` does is to count. -/
theorem parse_tooMany {lenient : Bool} {room count : Nat} {x : Tag × List Xml}
    (h : 16384 ≤ count) : (parse lenient (room + 1) x).run count = .error tooMany := by
  obtain ⟨tag, children⟩ := x
  simp [parse, throwIf, h, StateT.run_bind]
  rfl

theorem parse_boolean {lenient : Bool} {room count : Nat} (b : Bool) (h : count < 16384) :
    (parse lenient (room + 1) (.plain (if b then ascii "true" else ascii "false"), [])).run count =
      .ok (.boolean b, count + 1) := by
  have hcount : ¬ 16384 ≤ count := not_le.2 h
  cases b with
  | false =>
      have hname : ∀ s ∈ ["string", "real", "date", "data", "integer", "true"],
          ascii "false" ≠ ascii s := by decide
      simp only [List.forall_mem_cons] at hname
      simp [parse, Tag.plain, throwIf, hname, hcount, StateT.run_bind]
      rfl
  | true =>
      have hname : ∀ s ∈ ["string", "real", "date", "data", "integer"], ascii "true" ≠ ascii s := by
        decide
      simp only [List.forall_mem_cons] at hname
      simp [parse, Tag.plain, throwIf, hname, hcount, StateT.run_bind]
      rfl

/-- Entries put into a map one by one. -/
def insertAll {β : Type} (values : List (Bytes × β)) (result : Map Bytes β) : Map Bytes β :=
  values.foldl (fun r x => r.insert x.1 x.2) result

/-- The map that the loop over the entries builds. -/
def addEntries (entries : List (Label × Bool)) (result : Map Bytes Value) : Map Bytes Value :=
  insertAll (entries.map fun entry => (entry.1, .boolean entry.2)) result

/-- One key and its value. -/
theorem parseEntries_pair {value : Tag × List Xml → Counted Value} {count : Nat}
    {result : Map Bytes Value} {rest : List (Tag × List Xml)} {content : List Xml} {key : Bytes}
    {v : Tag × List Xml} (htext : text content = .ok key) :
    (parseEntries value ((.plain (ascii "key"), content) :: v :: rest) result).run count =
      (value v).run count >>= fun p =>
        throwIf (key ∈ result) (ascii "duplicate plist key: " ++ key) >>= fun _ =>
          (parseEntries value rest (result.insert key p.1)).run p.2 := by
  simp only [parseEntries, StateT.run_bind, Tag.plain, htext]
  change ((value v).run count >>= fun p =>
    ((throwIf (key ∈ result) (ascii "duplicate plist key: " ++ key) >>= fun a =>
      pure (a, p.2)) >>= fun q => (parseEntries value rest (result.insert key p.1)).run q.2)) = _
  congr 1
  funext p
  by_cases h : key ∈ result
  · simp only [throwIf, if_pos h]
    rfl
  · simp only [throwIf, if_neg h]
    rfl

theorem parseEntries_entry {value : Tag × List Xml → Counted Value} {count : Nat}
    {result : Map Bytes Value} {rest : List (Tag × List Xml)} (entry : Label × Bool)
    (hnew : entry.1 ∉ result) :
    (parseEntries value (entryXml entry ++ rest) result).run count =
      (value (.plain (if entry.2 then ascii "true" else ascii "false"), [])).run count >>= fun p =>
        (parseEntries value rest (result.insert entry.1 p.1)).run p.2 := by
  have htext : text [.text entry.1] = .ok entry.1 := by simp [text]
  have hdup : throwIf (entry.1 ∈ result) (ascii "duplicate plist key: " ++ entry.1) = .ok () :=
    if_neg hnew
  rw [entryXml, List.cons_append, List.cons_append, List.nil_append, parseEntries_pair htext, hdup]
  rfl

theorem parseEntries_overrides {lenient : Bool} {room count : Nat} {result : Map Bytes Value}
    (hnew : ∀ entry ∈ entries, entry.1 ∉ result) (hnodup : (entries.map (·.1)).Nodup)
    (hcount : count ≤ 16384) :
    (parseEntries (parse lenient (room + 1)) (entries.flatMap entryXml) result).run count =
      if 16384 < count + entries.length then .error tooMany
      else .ok (addEntries entries result, count + entries.length) := by
  induction entries generalizing result count with
  | nil =>
      have h : ¬ 16384 < count := by omega
      simp [parseEntries, h, addEntries, insertAll]
      rfl
  | cons entry entries ih =>
      rw [List.map_cons, List.nodup_cons] at hnodup
      have hrest : ∀ e ∈ entries, e.1 ∉ result.insert entry.1 (.boolean entry.2) := by
        intro e he hm
        obtain hm | hm := Std.ExtTreeMap.mem_insert.1 hm
        · have heq : entry.1 = e.1 := by simpa using hm
          exact hnodup.1 (List.mem_map.2 ⟨e, he, heq.symm⟩)
        · exact hnew e (.tail _ he) hm
      rw [List.flatMap_cons, parseEntries_entry entry (hnew entry (.head _)), List.length_cons]
      by_cases h : 16384 ≤ count
      · rw [parse_tooMany h, if_pos (by omega)]
        rfl
      · rw [parse_boolean entry.2 (not_le.1 h)]
        refine (ih hrest hnodup.2 (by omega)).trans ?_
        rw [show count + 1 + entries.length = count + (entries.length + 1) by omega]
        rfl

theorem parse_dict {lenient : Bool} {room count : Nat} {children : List Xml}
    {items : List (Tag × List Xml)} (hcount : count < 16384)
    (hitems : elements children = .ok items) (heven : ¬ items.length % 2 = 1) :
    (parse lenient (room + 1) (.plain (ascii "dict"), children)).run count =
      (fun p => (Value.ofMap p.1, p.2)) <$>
        (parseEntries (parse lenient room) items ∅).run (count + 1) := by
  have hname : ∀ s ∈ ["string", "real", "date", "data", "integer", "true", "false", "array"],
      ascii "dict" ≠ ascii s := by decide
  simp only [List.forall_mem_cons] at hname
  have hcount' : ¬ 16384 ≤ count := not_le.2 hcount
  simp [parse, Tag.plain, throwIf, hname, StateT.run_bind, hitems, hcount']
  change ((if items.length % 2 = 1 then Except.error _ else Except.ok ()) >>= fun _ => _) = _
  rw [if_neg heven]
  rfl

theorem length_entryXml : (entries.flatMap entryXml).length = 2 * entries.length := by
  induction entries with
  | nil => rfl
  | cons entry entries ih =>
      rw [List.flatMap_cons, List.length_append, ih, List.length_cons]
      simp only [entryXml, List.length_cons, List.length_nil]
      omega

/-- The whole text is read, if there are few enough values. -/
theorem parse_dictXml {lenient : Bool} {room : Nat} (hnodup : (entries.map (·.1)).Nodup) :
    (parse lenient (room + 2) (dictXml entries)).run 0 =
      if 16384 ≤ entries.length then .error tooMany
      else .ok (.ofMap (addEntries entries ∅), entries.length + 1) := by
  have heven : ¬ (entries.flatMap entryXml).length % 2 = 1 := by
    rw [length_entryXml]
    omega
  rw [dictXml, parse_dict (by omega) (elements_element _) heven,
    parseEntries_overrides (by simp) hnodup (by omega)]
  by_cases h : 16384 ≤ entries.length
  · rw [if_pos h, if_pos (by omega)]
    rfl
  · rw [if_neg h, if_neg (by omega), show 0 + 1 + entries.length = entries.length + 1 by omega]
    rfl

/-- The characters that `parsePlist ()` looks for are not in the text. -/
theorem databaseText_plain (h : Labelled entries) :
    ∀ c ∈ databaseText entries, c ≠ 0 ∧ c ≠ 33 := by
  have hfixed : ∀ s ∈ [plistHead, ascii "<dict>", ascii "<key>", ascii "</key>", ascii "<true/>",
      ascii "<false/>", ascii "</dict>", ascii "</plist>"], ∀ c ∈ s, c ≠ 0 ∧ c ≠ 33 := by
    simp [plistHead, ascii]
  simp only [List.forall_mem_cons] at hfixed
  obtain ⟨hhead, hdict, hkey, hkey', htrue, hfalse, hdict', hplist, -⟩ := hfixed
  have hentry : ∀ entry ∈ entries, ∀ c ∈ entryText entry, c ≠ 0 ∧ c ≠ 33 := by
    intro entry hentry
    have hlabel : ∀ c ∈ entry.1, c ≠ 0 ∧ c ≠ 33 := by
      intro c hc
      have h45 := (identifier_range (h entry hentry) c hc).1
      constructor <;>
      · rintro rfl
        revert h45
        decide
    have hbool : ∀ c ∈ booleanText entry.2, c ≠ 0 ∧ c ≠ 33 := by
      cases entry.2
      · exact hfalse
      · exact htrue
    simp only [entryText, List.forall_mem_append]
    exact ⟨⟨⟨hkey, hlabel⟩, hkey'⟩, hbool⟩
  have hentries : ∀ c ∈ entries.flatMap entryText, c ≠ 0 ∧ c ≠ 33 := by
    intro c hc
    obtain ⟨entry, he, hc⟩ := List.mem_flatMap.1 hc
    exact hentry entry he c hc
  simp only [databaseText, dictText, List.forall_mem_append]
  exact ⟨⟨hhead, ⟨hdict, hentries⟩, hdict'⟩, hplist⟩

/-- **Reading what was written.** -/
theorem parsePlist_databaseText {xmlReadMemory : Bytes → Option Doc} (hlabels : Labelled entries)
    (hnodup : (entries.map (·.1)).Nodup) (hsize : (databaseText entries).length ≤ maxMessage)
    (hxml : xmlReadMemory (databaseText entries) = some (databaseDoc entries)) :
    parsePlist xmlReadMemory (databaseText entries) false =
      if 16384 ≤ entries.length then .error tooMany else .ok (.ofMap (addEntries entries ∅)) := by
  have hplain := databaseText_plain hlabels
  have hsize' : ¬ (databaseText entries = [] ∨ (databaseText entries).length > maxMessage ∨
      0 ∈ databaseText entries) := by
    rintro (h | h | h)
    · simp [databaseText, plistHead, ascii] at h
    · omega
    · exact (hplain 0 h).1 rfl
  have hmarks : ¬ (ascii "<!ENTITY" <:+: databaseText entries ∨
      ascii "<![" <:+: databaseText entries) := by
    rintro (h | h)
    · exact (hplain 33 (h.subset (by decide))).2 rfl
    · exact (hplain 33 (h.subset (by decide))).2 rfl
  have hroot : (parse false 33 (dictXml entries)).run 0 =
      if 16384 ≤ entries.length then .error tooMany
      else .ok (.ofMap (addEntries entries ∅), entries.length + 1) := parse_dictXml hnodup
  have hone : elements [.element (dictXml entries).1 (dictXml entries).2] = .ok [dictXml entries] :=
    elements_element [dictXml entries]
  simp only [parsePlist, throwIf, if_neg hsize', if_neg hmarks, hxml, databaseDoc]
  rw [hone]
  change ((parse false 33 (dictXml entries)).run 0 >>= fun p => pure p.1) = _
  rw [hroot]
  split <;> rfl

/-! ### The map that is read -/

theorem getElem?_insertAll {β : Type} {values : List (Bytes × β)} {result : Map Bytes β} {l : Bytes}
    {b : β} (hnodup : (values.map (·.1)).Nodup) :
    (insertAll values result)[l]? = some b ↔
      (l, b) ∈ values ∨ l ∉ values.map (·.1) ∧ result[l]? = some b := by
  induction values generalizing result with
  | nil => simp [insertAll]
  | cons x values ih =>
      rw [List.map_cons, List.nodup_cons] at hnodup
      have hstep : insertAll (x :: values) result = insertAll values (result.insert x.1 x.2) := rfl
      rw [hstep, ih hnodup.2, Std.ExtTreeMap.getElem?_insert]
      by_cases hx : x.1 = l
      · subst hx
        have hnot : (x.1, b) ∉ values := fun hm => hnodup.1 (List.mem_map.2 ⟨_, hm, rfl⟩)
        have heq : (x.1, b) = x ↔ x.2 = b := by
          constructor
          · exact fun h => (congrArg Prod.snd h).symm
          · exact fun h => Prod.ext rfl h.symm
        simp [hnodup.1, hnot, heq]
      · have hne : (l, b) ≠ x := fun h => hx (congrArg Prod.fst h).symm
        simp [hx, hne, Ne.symm hx]

theorem overridesOf_boolean {entries : List (Label × Bool)} {overrides : Map Label Bool} :
    overridesOf (entries.map fun entry => (entry.1, .boolean entry.2)) overrides =
      .ok (insertAll entries overrides) := by
  induction entries generalizing overrides with
  | nil => rfl
  | cons entry entries ih => exact ih

theorem nodup_toList {β : Type} (m : Map Bytes β) : (m.toList.map (·.1)).Nodup := by
  rw [Std.ExtTreeMap.map_fst_toList_eq_keys]
  exact Std.ExtTreeMap.nodup_keys

/-- A map is the map of its entries. -/
theorem insertAll_toList {β : Type} (m : Map Bytes β) : insertAll m.toList ∅ = m := by
  apply Std.ExtTreeMap.ext_getElem?
  intro l
  apply Option.ext
  intro b
  rw [getElem?_insertAll (nodup_toList m)]
  simp [Std.ExtTreeMap.mem_toList_iff_getElem?_eq_some]

/-- The values that are read are the overrides, in the same order. -/
theorem toList_addEntries (m : Map Label Bool) :
    (addEntries m.toList ∅).toList = m.toList.map fun entry => (entry.1, .boolean entry.2) := by
  have hentries : m.toList.map (fun entry => (entry.1, Value.boolean entry.2)) =
      (m.map fun _ b => Value.boolean b).toList := by
    rw [Std.ExtTreeMap.toList_map]
  rw [addEntries, hentries, insertAll_toList]

/-- **The database can be read back** unless it has too many entries. -/
theorem readBack {xmlReadMemory : Bytes → Option Doc} (hlabels : Labelled m.toList)
    (hsize : (databaseText m.toList).length ≤ maxMessage)
    (hxml : xmlReadMemory (databaseText m.toList) = some (databaseDoc m.toList)) :
    (parsePlist xmlReadMemory (databaseText m.toList) false >>= fun value =>
      value.asDict >>= fun dict => overridesOf dict ∅) =
      if 16384 ≤ m.toList.length then .error tooMany else .ok m := by
  rw [parsePlist_databaseText hlabels (nodup_toList m) hsize hxml]
  split
  · rfl
  · change overridesOf (addEntries m.toList ∅).toList ∅ = _
    rw [toList_addEntries, overridesOf_boolean, insertAll_toList]

end MiniDarwin.Launchd
