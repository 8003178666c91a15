import MiniDarwin.Launchd.Roundtrip

/-!
Which values can be written and read at all.

The strings of a value are bytes, and an XML document is a text. `escape ()`
refuses some bytes, libxml2 refuses the others that no text has.
-/

namespace MiniDarwin.Launchd

open Posix (Bytes)

/-- **What else is assumed of libxml2**: it is told that documents are UTF-8, and one that is not,
or has a character that XML does not allow, is not well-formed (XML 1.0, 2.2 and 4.3.3). -/
def Strict (xmlReadMemory : Bytes → Option Doc) : Prop := ∀ bytes, ¬ XmlText bytes → xmlReadMemory bytes = none

/-! ### Texts in texts -/

/-- A text can be cut at a character of ASCII. -/
theorem utf8_cut {cs : List Char} {a b : Bytes} {x : UInt8} (hx : x < 128)
    (h : cs.flatMap String.utf8EncodeChar = a ++ x :: b) :
    ∃ before after c, cs = before ++ c :: after ∧ a = before.flatMap String.utf8EncodeChar ∧
      [x] = String.utf8EncodeChar c ∧ b = after.flatMap String.utf8EncodeChar := by
  induction cs generalizing a with
  | nil => simp at h
  | cons c cs ih =>
      rw [List.flatMap_cons] at h
      obtain ⟨hone, -⟩ | hhigh := utf8_cases c
      · rw [hone] at h
        cases a with
        | nil =>
            obtain ⟨hc, hb⟩ := List.cons.inj h
            exact ⟨[], cs, c, rfl, rfl, by rw [hone, hc], hb.symm⟩
        | cons y a =>
            obtain ⟨hc, hrest⟩ := List.cons.inj h
            obtain ⟨before, after, d, rfl, ha, hd, hb⟩ := ih hrest
            refine ⟨c :: before, after, d, rfl, ?_, hd, hb⟩
            rw [List.flatMap_cons, ← ha, hone, hc]
            rfl
      · -- the bytes of this character come before `x`
        obtain ⟨a', rfl, hrest⟩ : ∃ a', a = String.utf8EncodeChar c ++ a' ∧
            cs.flatMap String.utf8EncodeChar = a' ++ x :: b := by
          obtain ⟨a', ha, hrest⟩ | ⟨c', hc, hrest⟩ := List.append_eq_append_iff.1 h
          · exact ⟨a', ha, hrest⟩
          · cases c' with
            | nil => exact ⟨[], by simpa using hc.symm, hrest.symm⟩
            | cons y c' =>
                obtain ⟨rfl, -⟩ := List.cons.inj hrest
                have := hhigh x (by rw [hc]; simp)
                exact absurd hx (UInt8.not_lt.2 this)
        obtain ⟨before, after, d, rfl, ha, hd, hb⟩ := ih hrest
        exact ⟨c :: before, after, d, rfl, by rw [ha, List.flatMap_cons], hd, hb⟩

theorem XmlText.cut {a b : Bytes} {x : UInt8} (hx : x < 128) (h : XmlText (a ++ x :: b)) :
    XmlText a ∧ XmlText [x] ∧ XmlText b := by
  obtain ⟨cs, hcs, htext⟩ := h
  obtain ⟨before, after, c, rfl, ha, hc, hb⟩ := utf8_cut hx htext.symm
  obtain ⟨hbefore, hafter⟩ := List.forall_mem_append.1 hcs
  obtain ⟨hmid, hafter⟩ := List.forall_mem_cons.1 hafter
  exact ⟨⟨before, hbefore, ha⟩, ⟨[c], by simpa using hmid, by simpa using hc⟩, ⟨after, hafter, hb⟩⟩

theorem XmlText.nil : XmlText [] := ⟨[], List.forall_mem_nil _, rfl⟩

/-- What stands between two characters of ASCII. -/
theorem XmlText.between {a m b : Bytes} {x y : UInt8} (hx : x < 128) (hy : y < 128)
    (h : XmlText (a ++ x :: (m ++ y :: b))) : XmlText m := (h.cut hx).2.2.cut hy |>.1

theorem escapeText_cons (c : UInt8) (s : Bytes) : escapeText (c :: s) = escapeChar c ++ escapeText s := by
  rw [escapeText, List.flatMap_cons]
  rfl

/-- A string is a text where its escaped form is. -/
theorem XmlText.unescape {p s : Bytes} (h : XmlText (p ++ escapeText s)) : XmlText (p ++ s) := by
  induction s generalizing p with
  | nil => exact h
  | cons c s ih =>
      rw [escapeText_cons] at h
      by_cases hc : escapeChar c = [c]
      · rw [hc, ← List.append_assoc] at h
        have := ih h
        rwa [List.append_assoc] at this
      · -- an entity ends a text, and its semicolon begins another one
        obtain ⟨name, hname, hprintable⟩ : ∃ name, escapeChar c = 38 :: (name ++ [59]) ∧ 32 ≤ c ∧ c < 127 := by
          rw [escapeChar] at hc ⊢
          split_ifs at hc ⊢ with h38 h60 h62
          · exact ⟨ascii "amp", rfl, by rw [h38]; decide⟩
          · exact ⟨ascii "lt", rfl, by rw [h60]; decide⟩
          · exact ⟨ascii "gt", rfl, by rw [h62]; decide⟩
          · exact absurd rfl hc
        have hsplit : p ++ (escapeChar c ++ escapeText s) = p ++ 38 :: (name ++ 59 :: escapeText s) := by
          rw [hname]
          simp
        rw [hsplit] at h
        obtain ⟨hp, -, hrest⟩ := h.cut (by decide)
        obtain ⟨-, -, hs⟩ := hrest.cut (by decide)
        have hone : XmlText [c] := xmlText_printable (by simpa using hprintable)
        exact hp.append (hone.append (ih (p := []) hs))

/-- The content of an element. -/
theorem XmlText.content {a b name content : Bytes} (h : XmlText (a ++ Launchd.enclosed name content ++ b)) :
    XmlText content := by
  have hsplit : a ++ Launchd.enclosed name content ++ b =
      (a ++ 60 :: name) ++ 62 :: (content ++ 60 :: (47 :: name ++ 62 :: b)) := by
    simp [Launchd.enclosed]
  rw [hsplit] at h
  exact h.between (by decide) (by decide)

/-- The strings and keys of a value whose text is one. -/
theorem XmlText.texts {v : Value} {a b : Bytes} (h : XmlText (a ++ valueText v ++ b)) : ∀ s ∈ v.texts, XmlText s := by
  induction v using Value.ind generalizing a b with
  | string s =>
      rw [valueText] at h
      rw [Value.texts]
      exact List.forall_mem_singleton.2 (XmlText.unescape (p := []) h.content)
  | integer n =>
      rw [Value.texts]
      all_goals simp
  | boolean x =>
      rw [Value.texts]
      all_goals simp
  | array items ih =>
      rw [valueText] at h
      have hitems := h.content
      rw [Value.texts]
      intro s hs
      obtain ⟨x, hx, hsx⟩ := List.mem_flatMap.1 hs
      obtain ⟨before, after, hsplit⟩ := List.append_of_mem hx
      rw [hsplit, List.flatMap_append, List.flatMap_cons, ← List.append_assoc] at hitems
      exact ih x hx hitems s hsx
  | dict entries ih =>
      rw [valueText_dict] at h
      have hentries := h.content
      rw [Value.texts]
      intro s hs
      obtain ⟨e, he, hse⟩ := List.mem_flatMap.1 hs
      obtain ⟨before, after, hsplit⟩ := List.append_of_mem he
      rw [hsplit, List.flatMap_append, List.flatMap_cons, entryOf] at hentries
      obtain rfl | hse := List.mem_cons.1 hse
      · have hkey : XmlText (before.flatMap entryOf ++ Launchd.enclosed (ascii "key") (escapeText e.1) ++
            (valueText e.2 ++ after.flatMap entryOf)) := by simpa using hentries
        exact XmlText.unescape (p := []) hkey.content
      · have hvalue : XmlText (before.flatMap entryOf ++ Launchd.enclosed (ascii "key") (escapeText e.1) ++
            valueText e.2 ++ after.flatMap entryOf) := by simpa using hentries
        exact ih e he hvalue s hse

/-! ### What can be written -/

/-- The bytes of a text that are characters of their own. -/
theorem XmlText.control {s : Bytes} (h : XmlText s) : ∀ c ∈ s, 32 ≤ c ∨ c = 10 ∨ c = 13 ∨ c = 9 := by
  obtain ⟨cs, hcs, rfl⟩ := h
  intro b hb
  obtain ⟨c, hc, hb⟩ := List.mem_flatMap.1 hb
  obtain ⟨hone, hsmall⟩ | hhigh := utf8_cases c
  · rw [hone, List.mem_singleton] at hb
    subst hb
    obtain rfl | rfl | rfl | ⟨hprintable, -⟩ := hcs c hc
    · exact .inr (.inr (.inr rfl))
    · exact .inr (.inl rfl)
    · exact .inr (.inr (.inl rfl))
    · left
      rw [UInt8.le_iff_toNat_le, UInt8.toNat_ofNat', Nat.mod_eq_of_lt (by omega)]
      exact hprintable
  · left
    exact UInt8.le_trans (by decide) (hhigh b hb)

theorem escape_ok {s : Bytes} (h : XmlText s) : escape s = .ok (escapeText s) := by
  have hcontrol := h.control
  clear h
  induction s with
  | nil => rfl
  | cons c s ih =>
      obtain ⟨hc, hs⟩ := List.forall_mem_cons.1 hcontrol
      have hkeep : ¬ (c < 32 ∧ c ≠ 10 ∧ c ≠ 13 ∧ c ≠ 9) := by
        rintro ⟨hlow, h10, h13, h9⟩
        obtain h | h | h | h := hc
        · exact absurd hlow (UInt8.not_lt.2 h)
        · exact h10 h
        · exact h13 h
        · exact h9 h
      rw [escape, ih hs, escapeText_cons, escapeChar, if_neg hkeep]
      split_ifs
      all_goals rfl

theorem limited_ok {s : Bytes} (h : s.length ≤ maxMessage) : limited s = .ok s := if_neg (not_lt.2 h)

theorem encodeItems_ok {items : List Value} (h : ∀ x ∈ items, encode x = .ok (valueText x)) :
    encodeItems items = .ok (items.flatMap valueText) := by
  induction items with
  | nil => rw [encodeItems, List.flatMap_nil]
  | cons x items ih =>
      obtain ⟨hx, hitems⟩ := List.forall_mem_cons.1 h
      rw [encodeItems, hx, ih hitems, List.flatMap_cons]
      rfl

theorem encodeEntries_ok {entries : List (Bytes × Value)} (hkeys : ∀ e ∈ entries, XmlText e.1)
    (h : ∀ e ∈ entries, encode e.2 = .ok (valueText e.2)) :
    encodeEntries entries = .ok (entries.flatMap entryOf) := by
  induction entries with
  | nil => rw [encodeEntries, List.flatMap_nil]
  | cons e entries ih =>
      obtain ⟨he, hentries⟩ := List.forall_mem_cons.1 h
      obtain ⟨hkey, hkeys⟩ := List.forall_mem_cons.1 hkeys
      rw [encodeEntries, escape_ok hkey, he, ih hkeys hentries, List.flatMap_cons, entryOf]
      simp [bind, Except.bind, pure, Except.pure, enclosed, ascii]

theorem length_le_flatMap {α : Type} {l : List α} {f : α → Bytes} {x : α} (h : x ∈ l) :
    (f x).length ≤ (l.flatMap f).length := by
  obtain ⟨before, after, rfl⟩ := List.append_of_mem h
  rw [List.flatMap_append, List.flatMap_cons, List.length_append, List.length_append]
  omega

theorem length_enclosed (name content : Bytes) :
    (enclosed name content).length = content.length + 2 * name.length + 5 := by
  simp only [enclosed, List.length_append, List.length_cons, List.length_nil]
  omega

/-- **`encode ()` does not throw** where all strings and keys are texts and the size limit is kept. -/
theorem encode_ok {v : Value} (htexts : ∀ s ∈ v.texts, XmlText s) (hsize : (valueText v).length ≤ maxMessage) :
    encode v = .ok (valueText v) := by
  induction v using Value.ind with
  | string s =>
      rw [Value.texts] at htexts
      rw [encode, valueText, escape_ok (htexts s (.head _))]
      simp [bind, Except.bind, pure, Except.pure, enclosed, ascii]
  | integer n =>
      rw [encode, valueText]
      simp [enclosed, ascii]
  | boolean b => rw [encode, valueText]
  | array items ih =>
      rw [Value.texts] at htexts
      rw [valueText] at hsize
      have hlength := hsize
      rw [length_enclosed] at hlength
      have hitems : ∀ x ∈ items, encode x = .ok (valueText x) := by
        intro x hx
        apply ih x hx
        · exact fun s hs => htexts s (List.mem_flatMap.2 ⟨x, hx, hs⟩)
        · have := length_le_flatMap (f := valueText) hx
          omega
      have hframe : ascii "<array>" ++ items.flatMap valueText ++ ascii "</array>" =
          enclosed (ascii "array") (items.flatMap valueText) := by simp [enclosed, ascii]
      rw [encode, encodeItems_ok hitems, valueText]
      show limited (ascii "<array>" ++ items.flatMap valueText ++ ascii "</array>") = _
      rw [hframe, limited_ok hsize]
  | dict entries ih =>
      rw [Value.texts] at htexts
      rw [valueText_dict] at hsize
      have hlength := hsize
      rw [length_enclosed] at hlength
      have hmem : ∀ e ∈ entries, ∀ s ∈ e.1 :: e.2.texts, XmlText s :=
        fun e he s hs => htexts s (List.mem_flatMap.2 ⟨e, he, hs⟩)
      have hentries : ∀ e ∈ entries, encode e.2 = .ok (valueText e.2) := by
        intro e he
        apply ih e he
        · exact fun s hs => hmem e he s (.tail _ hs)
        · have := length_le_flatMap (f := entryOf) he
          rw [entryOf, List.length_append] at this
          omega
      have hframe : ascii "<dict>" ++ entries.flatMap entryOf ++ ascii "</dict>" =
          enclosed (ascii "dict") (entries.flatMap entryOf) := by simp [enclosed, ascii]
      rw [encode, encodeEntries_ok (fun e he => hmem e he e.1 (.head _)) hentries, valueText_dict]
      show limited (ascii "<dict>" ++ entries.flatMap entryOf ++ ascii "</dict>") = _
      rw [hframe, limited_ok hsize]

theorem writePlist_ok {v : Value} (htexts : ∀ s ∈ v.texts, XmlText s) (hsize : (plistText v).length ≤ maxMessage) :
    writePlist v = .ok (plistText v) := by
  have hvalue : (valueText v).length ≤ maxMessage := by
    rw [plistText, List.length_append, List.length_append] at hsize
    omega
  rw [writePlist, encode_ok htexts hvalue]
  exact limited_ok hsize

/-- **What is read was made of texts.** -/
theorem texts_of_read {xmlReadMemory : Bytes → Option Doc} (hstrict : Strict xmlReadMemory) {v u : Value}
    {bytes : Bytes} {lenient : Bool} (hwrite : writePlist v = .ok bytes)
    (hread : parsePlist xmlReadMemory bytes lenient = .ok u) : ∀ s ∈ v.texts, XmlText s := by
  obtain ⟨rfl, hsize⟩ := writePlist_eq hwrite
  have htext : XmlText (plistText v) := by
    by_contra hnot
    simp only [parsePlist, hstrict _ hnot, throwIf] at hread
    split_ifs at hread
    all_goals cases hread
  exact XmlText.texts htext

/-! ### What is read again -/

namespace Value

/-- The keys of dictionaries. -/
def keys : Value → List Bytes
  | .array items => items.flatMap keys
  | .dict entries => entries.flatMap fun e => e.1 :: e.2.keys
  | _ => []
decreasing_by
  · exact sizeOf_item (by assumption)
  · exact sizeOf_entry (by assumption)

theorem count_normalized (v : Value) : v.normalized.count = v.count := by
  induction v using Value.ind with
  | string s =>
      rw [normalized, count, count]
      all_goals simp
  | integer n =>
      rw [normalized]
      all_goals simp
  | boolean b =>
      rw [normalized]
      all_goals simp
  | array items ih =>
      rw [normalized, count, count, List.map_map]
      congr 2
      exact List.map_congr_left ih
  | dict entries ih =>
      rw [normalized, count, count, List.map_map]
      congr 2
      exact List.map_congr_left ih

/-- Ends of lines in the strings do not change the order of the keys. -/
theorem ordered_normalized {v : Value} (hord : v.Ordered) (hkeys : ∀ k ∈ v.keys, 13 ∉ k) : v.normalized.Ordered := by
  induction hord with
  | string s =>
      rw [normalized]
      exact .string _
  | integer n =>
      rw [normalized]
      · exact .integer n
      all_goals simp
  | boolean b =>
      rw [normalized]
      · exact .boolean b
      all_goals simp
  | array items h ih =>
      rw [keys] at hkeys
      rw [normalized]
      apply Ordered.array
      intro x hx
      obtain ⟨y, hy, rfl⟩ := List.mem_map.1 hx
      exact ih y hy fun k hk => hkeys k (List.mem_flatMap.2 ⟨y, hy, hk⟩)
  | dict entries hsorted h ih =>
      rw [keys] at hkeys
      have hmem : ∀ e ∈ entries, ∀ k ∈ e.1 :: e.2.keys, 13 ∉ k :=
        fun e he k hk => hkeys k (List.mem_flatMap.2 ⟨e, he, hk⟩)
      rw [normalized]
      apply Ordered.dict
      · have hsame : (entries.map fun e => (normalize e.1, e.2.normalized)).map (·.1) = entries.map (·.1) := by
          rw [List.map_map]
          exact List.map_congr_left fun e he => normalize_self (hmem e he e.1 (.head _))
        rwa [hsame]
      · intro x hx
        obtain ⟨e, he, rfl⟩ := List.mem_map.1 hx
        exact ih e he fun k hk => hmem e he k (.tail _ hk)

end Value

/-- No carriage return is read. -/
theorem plain_of_read {xmlReadMemory : Bytes → Option Doc} (hxml : Conforms xmlReadMemory) {v u : Value}
    {bytes : Bytes} {lenient : Bool} (hdepth : v.within 32 = true) (htexts : ∀ s ∈ v.texts, XmlText s)
    (hwrite : writePlist v = .ok bytes) (hread : parsePlist xmlReadMemory bytes lenient = .ok u) :
    ∀ s ∈ u.texts, 13 ∉ s := by
  obtain ⟨rfl, hsize⟩ := writePlist_eq hwrite
  have htext := xmlText_plistText htexts
  rw [parsePlist_plistText htext hsize (hxml _ _ hsize htext (readDocument_plistText hdepth))] at hread
  obtain ⟨⟨u, c⟩, hparse, rfl⟩ := map_eq_ok hread
  intro s hs
  exact texts_normalized v s (parse_among hparse s hs)

/-- **What was written is read with the ends of lines of XML**, where they are in no key. -/
theorem read_normalized {xmlReadMemory : Bytes → Option Doc} (hxml : Conforms xmlReadMemory) {v : Value}
    (lenient : Bool) (hord : v.Ordered) (hcount : v.count ≤ 16384) (hdepth : v.within 32 = true)
    (htexts : ∀ s ∈ v.texts, XmlText s) (hkeys : ∀ k ∈ v.keys, 13 ∉ k) (hsize : (plistText v).length ≤ maxMessage) :
    parsePlist xmlReadMemory (plistText v) lenient = .ok v.normalized := by
  have htext := xmlText_plistText htexts
  have hdoc := hxml _ _ hsize htext (readDocument_plistText hdepth)
  have hvalue : (parse lenient 33 (valueTree v.normalized)).run 0 = .ok (v.normalized, 0 + v.normalized.count) :=
    parse_valueTree (Value.ordered_normalized hord hkeys) (within_normalized 32 v hdepth)
      (by rw [Value.count_normalized]; omega)
  rw [parsePlist_plistText htext hsize hdoc, hvalue]
  rfl

end MiniDarwin.Launchd
