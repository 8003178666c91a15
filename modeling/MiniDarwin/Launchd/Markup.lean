import MiniDarwin.Launchd.Codec

/-!
The text that is written for a value is an XML document: the tree of that
document is `valueTree`, and its characters are those of XML.
-/

namespace MiniDarwin.Launchd

open Posix (Bytes)

/-! ### From texts to trees -/

/-- A text is read as a list of nodes, wherever there is room for `depth` more open elements. -/
def Reads (depth : Nat) (s : Bytes) (nodes : List Xml) : Prop :=
  ∃ ts : List Token, (∀ r, tokens (s ++ r) = (ts ++ ·) <$> tokens r) ∧
    ∀ rest stack children, stack.length + depth ≤ 256 →
      build (ts ++ rest) stack children = build rest stack (nodes.reverse ++ children)

theorem Reads.mono {d d' : Nat} {s : Bytes} {nodes : List Xml} (h : Reads d s nodes) (hd : d ≤ d') :
    Reads d' s nodes := by
  obtain ⟨ts, htokens, hbuild⟩ := h
  exact ⟨ts, htokens, fun rest stack children hroom => hbuild rest stack children (by omega)⟩

theorem Reads.nil {d : Nat} : Reads d [] [] := by
  refine ⟨[], fun r => ?_, fun rest stack children _ => rfl⟩
  cases h : tokens r with
  | none => simp [h]
  | some ts => simp [h]

theorem Reads.append {d : Nat} {s t : Bytes} {xs ys : List Xml} (h : Reads d s xs)
    (h' : Reads d t ys) : Reads d (s ++ t) (xs ++ ys) := by
  obtain ⟨ts, htokens, hbuild⟩ := h
  obtain ⟨ts', htokens', hbuild'⟩ := h'
  refine ⟨ts ++ ts', fun r => ?_, fun rest stack children hroom => ?_⟩
  · rw [List.append_assoc, htokens, htokens']
    cases tokens r with
    | none => rfl
    | some us => simp
  · rw [List.append_assoc, hbuild _ _ _ hroom, hbuild' _ _ _ hroom]
    simp

theorem Reads.flatMap {α : Type} {d : Nat} {l : List α} {f : α → Bytes} {g : α → List Xml}
    (h : ∀ x ∈ l, Reads d (f x) (g x)) : Reads d (l.flatMap f) (l.flatMap g) := by
  induction l with
  | nil => exact Reads.nil
  | cons x l ih =>
      rw [List.flatMap_cons, List.flatMap_cons]
      exact (h x (.head _)).append (ih fun y hy => h y (.tail _ hy))

theorem name_range {name : Bytes} (h : isName name = true) : ∀ c ∈ name, 97 ≤ c ∧ c ≤ 122 := by
  simp only [isName, decide_eq_true_eq, List.all_eq_true] at h
  exact h.2

/-- Markup ends at the first `>`. -/
theorem tokens_markup {s r : Bytes} {token : Token} (hend : 62 ∉ s) (h : markup s = some token) :
    tokens (60 :: s ++ 62 :: r) = ([token] ++ ·) <$> tokens r := by
  have htake : (s ++ 62 :: r).takeWhile (· ≠ 62) = s := by
    rw [List.takeWhile_append_of_pos]
    · simp
    · intro c hc
      simpa using fun h62 : c = 62 => hend (h62 ▸ hc)
  have hdrop : (s ++ 62 :: r).drop (s.length + 1) = r := by simp
  rw [List.cons_append, tokens, if_pos rfl, htake]
  simp only [h, hdrop]
  cases tokens r with
  | none => rfl
  | some ts => rfl

theorem markup_start {name : Bytes} (h : isName name = true) : markup name = some (.start (.plain name)) := by
  have hrange := name_range h
  have hplist : name ≠ ascii "plist version=\"1.0\"" := by
    rintro rfl
    exact absurd h (by decide)
  have hstop : name.head? ≠ some 47 := by
    intro h47
    exact absurd (hrange 47 (List.mem_of_head? h47)).1 (by decide)
  have hempty : name.getLast? ≠ some 47 := by
    intro h47
    exact absurd (hrange 47 (List.mem_of_getLast? h47)).1 (by decide)
  simp [markup, hplist, hstop, hempty, h]

theorem markup_stop {name : Bytes} (h : isName name = true) : markup (47 :: name) = some (.stop name) := by
  have hplist : 47 :: name ≠ ascii "plist version=\"1.0\"" := by
    intro heq
    injection heq with heq
    exact absurd heq (by decide)
  simp [markup, hplist, h]

theorem markup_empty {name : Bytes} (h : isName name = true) :
    markup (name ++ [47]) = some (.empty name) := by
  have hrange := name_range h
  have hplist : name ++ [47] ≠ ascii "plist version=\"1.0\"" := by
    intro heq
    have hlast := congrArg List.getLast? heq
    simp [ascii] at hlast
  have hstop : (name ++ [47]).head? ≠ some 47 := by
    cases name with
    | nil => exact absurd h (by decide)
    | cons c name =>
        intro h47
        have hc : c = 47 := by simpa using h47
        exact absurd (hrange c (.head _)).1 (by rw [hc]; decide)
  have hempty : (name ++ [47]).getLast? = some 47 ∧ isName (name ++ [47]).dropLast = true := by
    simpa using h
  rw [markup, if_neg hplist, if_neg fun h47 => hstop h47.1, if_pos hempty, List.dropLast_concat]

/-- What `escape ()` writes is read as what it was. -/
theorem expand_escapeText (s : Bytes) : expand none (escapeText s) = some s := by
  induction s with
  | nil => rfl
  | cons c s ih =>
      rw [escapeText, List.flatMap_cons, escapeChar, ← escapeText]
      split_ifs with h₁ h₂ h₃
      · simp [ascii, expand, entity, ih, h₁]
      · simp [ascii, expand, entity, ih, h₂]
      · simp [ascii, expand, entity, ih, h₃]
      · simp [expand, h₁, h₃, ih]

theorem lt_not_mem_escapeText (s : Bytes) : 60 ∉ escapeText s := by
  intro h
  obtain ⟨c, -, h⟩ := List.mem_flatMap.1 h
  revert h
  unfold escapeChar
  split_ifs with h₁ h₂ h₃
  · decide
  · decide
  · decide
  · simpa using Ne.symm h₂

theorem tokens_text {s : Bytes} (hs : s ≠ []) (r : Bytes) :
    tokens (escapeText s ++ 60 :: r) = ([.text s] ++ ·) <$> tokens (60 :: r) := by
  have hlt := lt_not_mem_escapeText s
  have hexpand := expand_escapeText s
  cases h : escapeText s with
  | nil =>
      rw [h] at hexpand
      exact absurd (Option.some.inj hexpand).symm hs
  | cons c raw =>
      rw [h] at hlt hexpand
      have hc : c ≠ 60 := fun hc => hlt (hc ▸ .head _)
      have htake : (raw ++ 60 :: r).takeWhile (· ≠ 60) = raw := by
        rw [List.takeWhile_append_of_pos]
        · simp
        · intro d hd
          simpa using fun h60 : d = 60 => hlt (h60 ▸ .tail _ hd)
      have hdrop : (raw ++ 60 :: r).drop raw.length = 60 :: r := by simp
      rw [List.cons_append, tokens, if_neg hc, htake]
      simp only [hexpand, hdrop]
      cases tokens (60 :: r) with
      | none => rfl
      | some ts => rfl

/-- Markup that opens and closes an element around what is read. -/
theorem Reads.around {d : Nat} {opening closing content : Bytes} {tag : Tag} {xs : List Xml}
    (hopen : 62 ∉ opening) (hopen' : markup opening = some (.start tag))
    (hclose : 62 ∉ closing) (hclose' : markup closing = some (.stop tag.name))
    (h : Reads d content xs) :
    Reads (d + 1) (60 :: opening ++ 62 :: (content ++ (60 :: closing ++ [62]))) [.element tag xs] := by
  obtain ⟨ts, htokens, hbuild⟩ := h
  refine ⟨.start tag :: ts ++ [.stop tag.name], fun r => ?_, fun rest stack children hroom => ?_⟩
  · have happend : 60 :: opening ++ 62 :: (content ++ (60 :: closing ++ [62])) ++ r =
        60 :: opening ++ 62 :: (content ++ (60 :: closing ++ 62 :: r)) := by simp
    rw [happend, tokens_markup hopen hopen', htokens, tokens_markup hclose hclose']
    cases tokens r with
    | none => rfl
    | some us => simp
  · rw [List.cons_append, List.cons_append, List.append_assoc, build, if_pos (by omega),
      hbuild _ _ _ (by simp only [List.length_cons]; omega)]
    simp [build]

theorem Reads.element {d : Nat} {name content : Bytes} {xs : List Xml} (hname : isName name = true)
    (h : Reads d content xs) : Reads (d + 1) (enclosed name content) [.element (.plain name) xs] := by
  have hend : 62 ∉ name := fun h62 => absurd (name_range hname 62 h62).1 (by decide)
  have hend' : 62 ∉ 47 :: name := List.not_mem_cons_of_ne_of_not_mem (by decide) hend
  have heq : enclosed name content =
      60 :: name ++ 62 :: (content ++ (60 :: (47 :: name) ++ [62])) := by
    simp [enclosed]
  rw [heq]
  exact Reads.around hend (markup_start hname) hend' (markup_stop hname) h

theorem Reads.leaf {d : Nat} {name s : Bytes} (hname : isName name = true) :
    Reads (d + 1) (enclosed name (escapeText s)) [.element (.plain name) (textXml s)] := by
  by_cases hs : s = []
  · subst hs
    exact Reads.element hname Reads.nil
  · have hend : 62 ∉ name := fun h62 => absurd (name_range hname 62 h62).1 (by decide)
    have hend' : 62 ∉ 47 :: name := List.not_mem_cons_of_ne_of_not_mem (by decide) hend
    refine ⟨[.start (.plain name), .text s, .stop name], fun r => ?_,
      fun rest stack children hroom => ?_⟩
    · have happend : enclosed name (escapeText s) ++ r =
          60 :: name ++ 62 :: (escapeText s ++ 60 :: ((47 :: name) ++ 62 :: r)) := by
        simp [enclosed]
      rw [happend, tokens_markup hend (markup_start hname), tokens_text hs, ← List.cons_append,
        tokens_markup hend' (markup_stop hname)]
      cases tokens r with
      | none => rfl
      | some us => rfl
    · have hroom' : stack.length < 256 := by omega
      simp [build, hroom', Tag.plain, textXml, hs]

theorem Reads.single {d : Nat} {name : Bytes} (hname : isName name = true) :
    Reads d (60 :: name ++ [47, 62]) [.element (.plain name) []] := by
  have hend : 62 ∉ name ++ [47] := by
    rw [List.mem_append]
    rintro (h62 | h62)
    · exact absurd (name_range hname 62 h62).1 (by decide)
    · exact absurd h62 (by decide)
  refine ⟨[.empty name], fun r => ?_, fun rest stack children hroom => ?_⟩
  · have happend : 60 :: name ++ [47, 62] ++ r = 60 :: (name ++ [47]) ++ 62 :: r := by simp
    rw [happend, tokens_markup hend (markup_empty hname)]
  · simp [build]

theorem escapeText_self {s : Bytes} (h : ∀ c ∈ s, c ≠ 38 ∧ c ≠ 60 ∧ c ≠ 62) : escapeText s = s := by
  induction s with
  | nil => rfl
  | cons c s ih =>
      obtain ⟨h38, h60, h62⟩ := h c (.head _)
      rw [escapeText, List.flatMap_cons, ← escapeText, ih fun d hd => h d (.tail _ hd), escapeChar,
        if_neg h38, if_neg h60, if_neg h62, List.singleton_append]

theorem escapeText_decimal (n : Int) : escapeText (decimal n) = decimal n := by
  apply escapeText_self
  intro c hc
  have hrange := decimal_range n c hc
  exact ⟨fun h => absurd (h ▸ hrange.1) (by decide), fun h => absurd (h ▸ hrange.2) (by decide),
    fun h => absurd (h ▸ hrange.2) (by decide)⟩

/-- **The text of a value is read as its tree.** -/
theorem reads_value (n : Nat) (v : Value) (h : v.within n = true) :
    Reads (n + 2) (valueText v) [node (valueTree v)] := by
  induction v using Value.ind generalizing n with
  | string s =>
      rw [valueText, valueTree]
      exact Reads.leaf (by decide)
  | integer i =>
      have hleaf : Reads (n + 2) (enclosed (ascii "integer") (escapeText (decimal i.toInt)))
          [node (.plain (ascii "integer"), textXml (decimal i.toInt))] := Reads.leaf (by decide)
      rw [escapeText_decimal] at hleaf
      rwa [valueText, valueTree]
  | boolean b =>
      rw [valueText, valueTree]
      cases b
      · exact Reads.single (show isName (ascii "false") = true by decide)
      · exact Reads.single (show isName (ascii "true") = true by decide)
  | array items ih =>
      have hitems : ∀ x ∈ items, Reads (n + 1) (valueText x) [node (valueTree x)] := by
        intro x hx
        cases n with
        | zero =>
            rw [Value.within, List.isEmpty_iff] at h
            rw [h] at hx
            cases hx
        | succ n =>
            rw [Value.within, List.all_eq_true] at h
            exact ih x hx n (h x hx)
      rw [valueText, valueTree, List.map_map, List.map_eq_flatMap]
      exact Reads.element (by decide) (Reads.flatMap hitems)
  | dict entries ih =>
      have hentries : ∀ e ∈ entries, Reads (n + 1) (entryOf e)
          [node (.plain (ascii "key"), textXml e.1), node (valueTree e.2)] := by
        intro e he
        cases n with
        | zero =>
            rw [Value.within, List.isEmpty_iff] at h
            rw [h] at he
            cases he
        | succ n =>
            rw [Value.within, List.all_eq_true] at h
            exact Reads.append (Reads.leaf (by decide)) (ih e he n (h e he))
      rw [valueText_dict, valueTree, List.map_flatMap]
      exact Reads.element (by decide) (Reads.flatMap hentries)

theorem markup_plist : markup (ascii "plist version=\"1.0\"") = some (.start plistTag) := rfl

/-- What is written for a value. -/
def plistText (v : Value) : Bytes := plistHead ++ valueText v ++ ascii "</plist>"

def plistDoc (v : Value) : Doc := { root := some (plistTag, [node (valueTree v)]), intSubset := false }

theorem normalize_plistText (v : Value) : normalize (plistText v) = plistText v.normalized := by
  have hhead : Normal plistHead plistHead := Normal.self (by simp [plistHead, ascii])
  have hend : Normal (ascii "</plist>") (ascii "</plist>") := Normal.self (by decide)
  have h := ((hhead.append (normal_value v)).append hend) []
  rwa [List.append_nil, normalize, List.append_nil] at h

theorem within_normalized (n : Nat) (v : Value) (h : v.within n = true) :
    v.normalized.within n = true := by
  induction v using Value.ind generalizing n with
  | string s =>
      rw [Value.normalized]
      cases n <;> rfl
  | integer i =>
      rw [Value.normalized]
      · exact h
      all_goals simp
  | boolean b =>
      rw [Value.normalized]
      · exact h
      all_goals simp
  | array items ih =>
      rw [Value.normalized]
      cases n with
      | zero =>
          rw [Value.within, List.isEmpty_iff] at h
          rw [h]
          rfl
      | succ n =>
          rw [Value.within, List.all_eq_true] at h ⊢
          intro x hx
          obtain ⟨y, hy, rfl⟩ := List.mem_map.1 hx
          exact ih y hy n (h y hy)
  | dict entries ih =>
      rw [Value.normalized]
      cases n with
      | zero =>
          rw [Value.within, List.isEmpty_iff] at h
          rw [h]
          rfl
      | succ n =>
          rw [Value.within, List.all_eq_true] at h ⊢
          intro x hx
          obtain ⟨y, hy, rfl⟩ := List.mem_map.1 hx
          exact ih y hy n (h y hy)

/-- **What is written is a document**, that of the value with its ends of lines normalised. -/
theorem readDocument_plistText {v : Value} (h : v.within 32 = true) :
    readDocument (plistText v) = some (plistDoc v.normalized) := by
  have hplist : Reads 35 (60 :: ascii "plist version=\"1.0\"" ++
      62 :: (valueText v.normalized ++ (60 :: (47 :: ascii "plist") ++ [62])))
      [.element plistTag [node (valueTree v.normalized)]] :=
    Reads.around (by decide) markup_plist (by decide) rfl
      (reads_value 32 _ (within_normalized 32 v h))
  have htext : plistText v.normalized = xmlDecl ++ (60 :: ascii "plist version=\"1.0\"" ++
      62 :: (valueText v.normalized ++ (60 :: (47 :: ascii "plist") ++ [62]))) := by
    simp [plistText, plistHead, xmlDecl, ascii]
  obtain ⟨ts, htokens, hbuild⟩ := hplist
  have htokens' := htokens []
  rw [List.append_nil, tokens] at htokens'
  have hbuild' := hbuild [] [] [] (by simp)
  rw [readDocument, normalize_plistText, htext]
  simp only [List.prefix_append, if_true, List.drop_left, htokens']
  simp only [Option.map_eq_map, Option.map_some, Option.bind_eq_bind, Option.bind_some, hbuild']
  rfl

/-! ### The characters of what is written -/

theorem XmlText.append {s t : Bytes} (hs : XmlText s) (ht : XmlText t) : XmlText (s ++ t) := by
  obtain ⟨cs, hcs, rfl⟩ := hs
  obtain ⟨ds, hds, rfl⟩ := ht
  exact ⟨cs ++ ds, List.forall_mem_append.2 ⟨hcs, hds⟩, List.flatMap_append.symm⟩

theorem XmlText.flatMap {α : Type} {l : List α} {f : α → Bytes} (h : ∀ x ∈ l, XmlText (f x)) :
    XmlText (l.flatMap f) := by
  induction l with
  | nil => exact ⟨[], List.forall_mem_nil _, rfl⟩
  | cons x l ih =>
      rw [List.flatMap_cons]
      exact (h x (.head _)).append (ih fun y hy => h y (.tail _ hy))

theorem xmlText_char {c : Char} (h : XmlChar c) : XmlText (String.utf8EncodeChar c) :=
  ⟨[c], by simpa using h, by simp⟩

/-- Printable ASCII. -/
theorem xmlText_printable {s : Bytes} (h : ∀ b ∈ s, 32 ≤ b ∧ b < 127) : XmlText s := by
  induction s with
  | nil => exact ⟨[], List.forall_mem_nil _, rfl⟩
  | cons b s ih =>
      obtain ⟨hlow, hhigh⟩ := h b (.head _)
      rw [UInt8.le_iff_toNat_le] at hlow
      rw [UInt8.lt_iff_toNat_lt] at hhigh
      have hlow' : 32 ≤ b.toNat := hlow
      have hhigh' : b.toNat < 127 := hhigh
      have hnat : (Char.ofUInt8 b).toNat = b.toNat := UInt8.toNat_toUInt32 b
      have hchar : XmlChar (Char.ofUInt8 b) := by
        refine .inr (.inr (.inr ?_))
        rw [hnat]
        omega
      have hencode : String.utf8EncodeChar (Char.ofUInt8 b) = [b] := by
        have hval : (Char.ofUInt8 b).val.toNat = b.toNat := hnat
        unfold String.utf8EncodeChar
        simp only [hval]
        rw [if_pos (by omega), UInt8.ofNat_toNat]
      have hone := xmlText_char hchar
      rw [hencode] at hone
      exact hone.append (ih fun c hc => h c (.tail _ hc))

/-- The bytes of a character, one of ASCII or several others. -/
theorem utf8_cases (c : Char) : String.utf8EncodeChar c = [UInt8.ofNat c.toNat] ∧ c.toNat ≤ 127 ∨
    ∀ b ∈ String.utf8EncodeChar c, 128 ≤ b := by
  have hbyte : ∀ n, 128 ≤ n → n < 256 → 128 ≤ UInt8.ofNat n := by
    intro n hlow hhigh
    rw [UInt8.le_iff_toNat_le, UInt8.toNat_ofNat', Nat.mod_eq_of_lt hhigh]
    exact hlow
  by_cases h : c.toNat ≤ 127
  · refine .inl ⟨?_, h⟩
    unfold String.utf8EncodeChar
    exact if_pos h
  · refine .inr ?_
    have hval : ¬ c.val.toNat ≤ 127 := h
    unfold String.utf8EncodeChar
    simp only [if_neg hval]
    split_ifs
    · simp only [List.forall_mem_cons]
      exact ⟨hbyte _ (by omega) (by omega), hbyte _ (by omega) (by omega), List.forall_mem_nil _⟩
    · simp only [List.forall_mem_cons]
      exact ⟨hbyte _ (by omega) (by omega), hbyte _ (by omega) (by omega),
        hbyte _ (by omega) (by omega), List.forall_mem_nil _⟩
    · simp only [List.forall_mem_cons]
      exact ⟨hbyte _ (by omega) (by omega), hbyte _ (by omega) (by omega),
        hbyte _ (by omega) (by omega), hbyte _ (by omega) (by omega), List.forall_mem_nil _⟩

theorem XmlText.escape {s : Bytes} (h : XmlText s) : XmlText (escapeText s) := by
  obtain ⟨cs, hcs, rfl⟩ := h
  rw [escapeText, List.flatMap_assoc]
  apply XmlText.flatMap
  intro c hc
  have hself := xmlText_char (hcs c hc)
  obtain ⟨hone, -⟩ | hhigh := utf8_cases c
  · rw [hone] at hself ⊢
    rw [List.flatMap_singleton, escapeChar]
    split_ifs
    · exact xmlText_printable (by simp [ascii])
    · exact xmlText_printable (by simp [ascii])
    · exact xmlText_printable (by simp [ascii])
    · exact hself
  · have heq : escapeText (String.utf8EncodeChar c) = String.utf8EncodeChar c := by
      apply escapeText_self
      intro b hb
      have h128 := hhigh b hb
      exact ⟨fun h => absurd (h ▸ h128) (by decide), fun h => absurd (h ▸ h128) (by decide),
        fun h => absurd (h ▸ h128) (by decide)⟩
    rw [escapeText] at heq
    rwa [heq]

theorem XmlText.enclosed {name content : Bytes} (hname : isName name = true) (h : XmlText content) :
    XmlText (enclosed name content) := by
  have hrange : ∀ c ∈ name, 32 ≤ c ∧ c < 127 := by
    intro c hc
    have := name_range hname c hc
    simp only [UInt8.le_iff_toNat_le, UInt8.lt_iff_toNat_lt] at this ⊢
    simp at this ⊢
    omega
  have hopen : XmlText (60 :: name ++ [62]) := by
    apply xmlText_printable
    simp only [List.forall_mem_append, List.forall_mem_cons]
    exact ⟨⟨by decide, hrange⟩, by decide, List.forall_mem_nil _⟩
  have hclose : XmlText (60 :: 47 :: name ++ [62]) := by
    apply xmlText_printable
    simp only [List.forall_mem_append, List.forall_mem_cons]
    exact ⟨⟨by decide, by decide, hrange⟩, by decide, List.forall_mem_nil _⟩
  rw [enclosed_eq]
  exact hopen.append (h.append hclose)

theorem xmlText_value (v : Value) (h : ∀ s ∈ v.texts, XmlText s) : XmlText (valueText v) := by
  induction v using Value.ind with
  | string s =>
      rw [valueText]
      exact XmlText.enclosed (by decide) (h s (by simp [Value.texts])).escape
  | integer n =>
      rw [valueText]
      apply XmlText.enclosed (by decide)
      apply xmlText_printable
      intro c hc
      have := decimal_range _ c hc
      simp only [UInt8.le_iff_toNat_le, UInt8.lt_iff_toNat_lt] at this ⊢
      simp at this ⊢
      omega
  | boolean b =>
      rw [valueText]
      apply xmlText_printable
      cases b
      · simp [ascii]
      · simp [ascii]
  | array items ih =>
      rw [valueText]
      apply XmlText.enclosed (by decide)
      apply XmlText.flatMap
      intro x hx
      apply ih x hx
      intro s hs
      apply h
      rw [Value.texts]
      exact List.mem_flatMap.2 ⟨x, hx, hs⟩
  | dict entries ih =>
      have hmem : ∀ e ∈ entries, ∀ s ∈ e.1 :: e.2.texts, XmlText s := by
        intro e he s hs
        apply h
        rw [Value.texts]
        exact List.mem_flatMap.2 ⟨e, he, hs⟩
      rw [valueText_dict]
      apply XmlText.enclosed (by decide)
      apply XmlText.flatMap
      intro e he
      exact (XmlText.enclosed (by decide) (hmem e he e.1 (.head _)).escape).append
        (ih e he fun s hs => hmem e he s (.tail _ hs))

theorem xmlText_plistText {v : Value} (h : ∀ s ∈ v.texts, XmlText s) : XmlText (plistText v) := by
  have hhead : XmlText plistHead := xmlText_printable (by simp [plistHead, ascii])
  have hend : XmlText (ascii "</plist>") := xmlText_printable (by simp [ascii])
  exact (hhead.append (xmlText_value v h)).append hend

theorem nul_not_mem {s : Bytes} (h : XmlText s) : 0 ∉ s := by
  obtain ⟨cs, hcs, rfl⟩ := h
  intro hm
  obtain ⟨c, hc, hm⟩ := List.mem_flatMap.1 hm
  obtain ⟨hone, hle⟩ | hhigh := utf8_cases c
  · rw [hone, List.mem_singleton] at hm
    have hzero : c.toNat % 256 = 0 := by
      have := congrArg UInt8.toNat hm
      rw [UInt8.toNat_ofNat'] at this
      exact this.symm
    obtain rfl | rfl | rfl | hprint := hcs c hc
    · exact absurd hzero (by decide)
    · exact absurd hzero (by decide)
    · exact absurd hzero (by decide)
    · omega
  · exact absurd (hhigh 0 hm) (by decide)

/-- There is no `<!` in a text, nor where another begins after it. -/
def NoDecl (s : Bytes) : Prop := ∀ r, [60, 33] <:+: s ++ r → [60, 33] <:+: r

theorem NoDecl.append {s t : Bytes} (hs : NoDecl s) (ht : NoDecl t) : NoDecl (s ++ t) := by
  intro r h
  rw [List.append_assoc] at h
  exact ht r (hs _ h)

theorem NoDecl.cons {c : UInt8} {s : Bytes} (hc : c ≠ 60 ∨ s ≠ [] ∧ s.head? ≠ some 33)
    (hs : NoDecl s) : NoDecl (c :: s) := by
  intro r h
  rw [List.cons_append, List.infix_cons_iff] at h
  obtain h | h := h
  · obtain ⟨h60, h⟩ := List.cons_prefix_cons.1 h
    obtain hc | ⟨hs', hc⟩ := hc
    · exact absurd h60.symm hc
    · obtain ⟨d, s, rfl⟩ := List.exists_cons_of_ne_nil hs'
      rw [List.cons_append, List.cons_prefix_cons] at h
      exact absurd (congrArg some h.1.symm) hc
  · exact hs r h

theorem NoDecl.of_not_mem {s : Bytes} (h : 60 ∉ s) : NoDecl s := by
  induction s with
  | nil => exact fun r hr => hr
  | cons c s ih =>
      apply NoDecl.cons
      · exact .inl fun hc => h (hc ▸ .head _)
      · exact ih fun hm => h (.tail _ hm)

theorem NoDecl.flatMap {α : Type} {l : List α} {f : α → Bytes} (h : ∀ x ∈ l, NoDecl (f x)) :
    NoDecl (l.flatMap f) := by
  induction l with
  | nil => exact fun r hr => hr
  | cons x l ih =>
      rw [List.flatMap_cons]
      exact (h x (.head _)).append (ih fun y hy => h y (.tail _ hy))

theorem NoDecl.enclosed {name content : Bytes} (hname : isName name = true) (h : NoDecl content) :
    NoDecl (enclosed name content) := by
  have hlt : 60 ∉ name ++ [62] := by
    rw [List.mem_append]
    rintro (h60 | h60)
    · exact absurd (name_range hname 60 h60).1 (by decide)
    · exact absurd h60 (by decide)
  have hhead : (name ++ [62]).head? ≠ some 33 := by
    intro h33
    obtain hm | hm := List.mem_append.1 (List.mem_of_head? h33)
    · exact absurd (name_range hname 33 hm).1 (by decide)
    · exact absurd hm (by decide)
  have hopen : NoDecl (60 :: (name ++ [62])) :=
    NoDecl.cons (.inr ⟨by simp, hhead⟩) (NoDecl.of_not_mem hlt)
  have hclose : NoDecl (60 :: 47 :: (name ++ [62])) :=
    NoDecl.cons (.inr ⟨by simp, by simp⟩)
      (NoDecl.of_not_mem (List.not_mem_cons_of_ne_of_not_mem (by decide) hlt))
  rw [enclosed_eq]
  exact hopen.append (h.append hclose)

theorem noDecl_value (v : Value) : NoDecl (valueText v) := by
  induction v using Value.ind with
  | string s =>
      rw [valueText]
      exact NoDecl.enclosed (by decide) (NoDecl.of_not_mem (lt_not_mem_escapeText s))
  | integer n =>
      rw [valueText, ← escapeText_decimal]
      exact NoDecl.enclosed (by decide) (NoDecl.of_not_mem (lt_not_mem_escapeText _))
  | boolean b =>
      rw [valueText]
      cases b
      · exact NoDecl.cons (.inr ⟨List.cons_ne_nil _ _, by decide⟩) (NoDecl.of_not_mem (by decide))
      · exact NoDecl.cons (.inr ⟨List.cons_ne_nil _ _, by decide⟩) (NoDecl.of_not_mem (by decide))
  | array items ih =>
      rw [valueText]
      exact NoDecl.enclosed (by decide) (NoDecl.flatMap ih)
  | dict entries ih =>
      rw [valueText_dict]
      apply NoDecl.enclosed (by decide)
      apply NoDecl.flatMap
      intro e he
      exact (NoDecl.enclosed (by decide) (NoDecl.of_not_mem (lt_not_mem_escapeText e.1))).append
        (ih e he)

theorem noDecl_plistText (v : Value) : ¬ [60, 33] <:+: plistText v := by
  have hhead : NoDecl plistHead := by
    intro r h
    simpa [plistHead, ascii, List.infix_cons_iff, List.cons_prefix_cons] using h
  have hend : NoDecl (ascii "</plist>") :=
    NoDecl.cons (.inr ⟨List.cons_ne_nil _ _, by decide⟩) (NoDecl.of_not_mem (by decide))
  intro h
  have hnil := (hhead.append (noDecl_value v)).append hend [] (by rwa [List.append_nil])
  simp at hnil

end MiniDarwin.Launchd
