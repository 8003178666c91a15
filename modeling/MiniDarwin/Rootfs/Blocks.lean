import MiniDarwin.Rootfs.Inline

/-!
What is written in blocks is read back.

A line is its indentation and its text. An entry is read from its own lines,
whatever lines follow, if none of those is indented deeper than the entry;
by induction over the document, so is a block.
-/

namespace MiniDarwin.Rootfs

open Data

/-! ### Documents -/

/-- What may stand in a list. -/
def Value.Short : Value → Prop
  | .scalar s => s.Writable
  | .map entries => ∃ fields, entries = fields.map asValue ∧ Flat fields
  | .list _ => False

/-- A document that can be written: its keys are keys, and the items of its lists are short. -/
inductive Value.Writable : Value → Prop
  | scalar {s : Scalar} (h : s.Writable) : Writable (.scalar s)
  | list {items : List Value} (h : ∀ item ∈ items, item.Short) : Writable (.list items)
  | map {entries : List (Text × Value)} (keys : ∀ e ∈ entries, IsKey e.1) (nodup : (entries.map (·.1)).Nodup)
      (values : ∀ e ∈ entries, Writable e.2) : Writable (.map entries)

/-! ### Lines -/

/-- An indentation and the text behind it. -/
abbrev Shape := Nat × Text

def draw (shape : Shape) : Text := List.replicate shape.1 32 ++ shape.2

def Line.shape (line : Line) : Shape := (line.col, line.text)

/-- The text of a line that is neither a comment nor changed when it is stripped. -/
structure Proper (text : Text) : Prop where
  printable : Printable text
  head : ∃ c rest, text = c :: rest ∧ isSpace c = false ∧ c ≠ 35
  last : ∀ c ∈ text.getLast?, isSpace c = false
  noMark : text ≠ lit "---"

/-- The text of a line that begins with a key. -/
def keyed (key rest : Text) : Text := key ++ 58 :: rest

variable {what key t : Text} {v : Value} {fuel indent : Nat} {line : Line} {lines : List Line}
  {acc : List (Text × Value)}

theorem isItem_keyed (h : IsKey key) (rest : Text) : isItem (keyed key rest) = false := by
  obtain ⟨c, key, rfl, hc⟩ := h.head
  have hne : c ≠ 45 := by
    rintro rfl
    simp [isLetter] at hc
  rw [isItem, keyed, decide_eq_false_iff_not, not_or]
  constructor
  · intro heq
    exact hne (List.cons.inj heq).1
  · intro hprefix
    exact hne (List.cons_prefix_cons.1 hprefix).1.symm

/-- An entry on one line. -/
theorem blockMapping_inline (hkey : IsKey key) (hv : Renders t v) (hline : line.shape = (indent, keyed key (32 :: t)))
    (hacc : key ∉ acc.map (·.1)) :
    blockMapping what (fuel + 1) indent (line :: lines) acc = blockMapping what fuel indent lines (acc ++ [(key, v)]) := by
  obtain ⟨hcol, htext⟩ := Prod.mk.inj hline
  obtain ⟨c, rest, rfl, hspace, hcomment⟩ := hv.head
  have hstrip : strip (32 :: c :: rest) = c :: rest := by
    rw [strip_space]
    refine strip_of_ends ?_ hv.last
    intro d hd
    obtain rfl := Option.some.inj hd
    exact hspace
  rw [blockMapping, if_neg (by omega), if_neg (by omega), if_neg (by rw [htext, isItem_keyed hkey]; decide), htext,
    keyed, matchKey_append hkey]
  simp only [hasKey_eq_false.2 hacc, hstrip, hv.read]
  rw [if_neg (by simp), if_neg Bool.false_ne_true, if_pos ⟨List.cons_ne_nil _ _, by simpa using hcomment⟩]
  rfl

/-- An entry whose value is a block. -/
theorem blockMapping_block {next : Line} {item : Value} {left : List Line} (hkey : IsKey key)
    (hline : line.shape = (indent, keyed key [])) (hacc : key ∉ acc.map (·.1)) (hnext : indent < next.col)
    (hitem : (if isItem next.text then blockList what next.col (next :: lines) []
      else blockMapping what fuel next.col (next :: lines) []) = .ok (item, left)) :
    blockMapping what (fuel + 1) indent (line :: next :: lines) acc =
      blockMapping what fuel indent left (acc ++ [(key, item)]) := by
  obtain ⟨hcol, htext⟩ := Prod.mk.inj hline
  rw [blockMapping, if_neg (by omega), if_neg (by omega), if_neg (by rw [htext, isItem_keyed hkey]; decide), htext,
    keyed, matchKey_append hkey]
  have hempty : strip [] = [] := rfl
  simp only [hasKey_eq_false.2 hacc, hempty]
  rw [if_neg (by simp), if_neg Bool.false_ne_true, if_neg (by simp), if_pos hnext]
  split at hitem
  next h =>
    rw [if_pos h, hitem]
    rfl
  next h =>
    rw [if_neg h, hitem]
    rfl

/-- Items, one a line, and what follows them. -/
theorem blockList_items {col : Nat} {texts : List Text} {items acc : List Value} {ls rest : List Line}
    (hitems : List.Forall₂ Renders texts items)
    (hall : ls.map Line.shape = texts.map fun t => (col, 45 :: 32 :: t)) (hrest : ∀ l ∈ rest.head?, l.col < col) :
    blockList what col (ls ++ rest) acc = .ok (.list (acc ++ items), rest) := by
  induction hitems generalizing acc ls with
  | nil =>
      obtain rfl := List.map_eq_nil_iff.1 hall
      rw [List.nil_append, List.append_nil]
      cases rest with
      | nil => rfl
      | cons l rest => rw [blockList, if_pos (hrest l rfl)]
  | @cons t item texts items ht _ ih =>
      obtain ⟨line, ls, rfl, hline, hls⟩ := List.map_eq_cons_iff.1 hall
      obtain ⟨hcol, htext⟩ := Prod.mk.inj hline
      obtain ⟨c, t', rfl, hspace, hcomment⟩ := ht.head
      have hdash : isItem line.text = true := by
        rw [htext, isItem, decide_eq_true_iff]
        exact .inr ⟨c :: t', rfl⟩
      have hstrip : strip (line.text.drop 1) = c :: t' := by
        rw [htext]
        change strip (32 :: c :: t') = _
        rw [strip_space]
        refine strip_of_ends ?_ ht.last
        intro d hd
        obtain rfl := Option.some.inj hd
        exact hspace
      rw [List.cons_append, blockList, if_neg (by omega), if_neg (by omega), if_neg (by simp [hdash])]
      simp only [hstrip, ht.read, ht.noKey]
      rw [if_neg (by simpa using hcomment), if_neg Bool.false_ne_true]
      refine (ih hls).trans ?_
      simp

/-! ### Entries and documents -/

theorem proper_keyed (hkey : IsKey key) (ht : Renders t v) : Proper (keyed key (32 :: t)) := by
  obtain ⟨c, rest, hc, hletter⟩ := hkey.head
  have hne : c ≠ 45 ∧ c ≠ 35 ∧ isSpace c = false := by
    simp only [isLetter, isSpace, decide_eq_true_eq, decide_eq_false_iff_not] at hletter ⊢
    omega
  obtain ⟨d, t', hd, -, -⟩ := ht.head
  have hcolon : Printable [58, 32] := by decide
  refine ⟨?_, ⟨c, rest ++ 58 :: 32 :: t, by rw [keyed, hc]; rfl, hne.2.2, hne.2.1⟩, ?_, ?_⟩
  · exact hkey.printable.append (hcolon.append ht.line)
  · intro e he
    refine ht.last e ?_
    rw [keyed, show key ++ 58 :: 32 :: t = (key ++ [58, 32]) ++ t by simp, List.getLast?_append_of_ne_nil] at he
    · exact he
    · rw [hd]
      exact List.cons_ne_nil _ _
  · rw [keyed, hc]
    intro heq
    exact hne.1 (List.cons.inj heq).1

theorem proper_key (hkey : IsKey key) : Proper (keyed key []) := by
  obtain ⟨c, rest, hc, hletter⟩ := hkey.head
  have hne : c ≠ 45 ∧ c ≠ 35 ∧ isSpace c = false := by
    simp only [isLetter, isSpace, decide_eq_true_eq, decide_eq_false_iff_not] at hletter ⊢
    omega
  have hcolon : Printable [58] := by decide
  refine ⟨hkey.printable.append hcolon, ⟨c, rest ++ [58], by rw [keyed, hc]; rfl, hne.2.2, hne.2.1⟩, ?_, ?_⟩
  · intro e he
    rw [keyed, List.getLast?_concat] at he
    cases he
    decide
  · rw [keyed, hc]
    intro heq
    exact hne.1 (List.cons.inj heq).1

theorem proper_item (ht : Renders t v) : Proper (45 :: 32 :: t) := by
  obtain ⟨d, t', hd, hspace, -⟩ := ht.head
  have hdash : Printable [45, 32] := by decide
  refine ⟨hdash.append ht.line, ⟨45, _, rfl, by decide, by decide⟩, ?_, ?_⟩
  · intro e he
    refine ht.last e ?_
    rw [show 45 :: 32 :: t = [45, 32] ++ t from rfl, List.getLast?_append_of_ne_nil] at he
    · exact he
    · rw [hd]
      exact List.cons_ne_nil _ _
  · intro heq
    cases (List.cons.inj (List.cons.inj heq).2).1

/-- The lines of an entry, and that they are read as the entry. -/
structure Entered (indent : Nat) (key : Text) (v : Value) (shapes : List Shape) : Prop where
  written : emitValue indent (List.replicate indent 32 ++ key ++ lit ":") v = .ok (shapes.map draw)
  proper : ∀ s ∈ shapes, Proper s.2
  first : ∃ t rest, shapes = (indent, keyed key t) :: rest
  read : ∀ what fuel ls rest acc, ls.map Line.shape = shapes → shapes.length ≤ fuel → key ∉ acc.map (·.1) →
    (∀ l ∈ rest.head?, l.col ≤ indent) → blockMapping what (fuel + 1) indent (ls ++ rest) acc =
      blockMapping what fuel indent rest (acc ++ [(key, v)])

/-- The lines of a mapping, and that they are read as the mapping. -/
structure Blocked (indent : Nat) (entries : List (Text × Value)) (shapes : List Shape) : Prop where
  written : emit indent entries = .ok (shapes.map draw)
  proper : ∀ s ∈ shapes, Proper s.2
  first : ∀ e ∈ entries.head?, ∃ t rest, shapes = (indent, keyed e.1 t) :: rest
  read : ∀ what fuel ls rest acc, ls.map Line.shape = shapes → shapes.length < fuel →
    (∀ e ∈ entries, e.1 ∉ acc.map (·.1)) → (∀ l ∈ rest.head?, l.col < indent) →
    blockMapping what fuel indent (ls ++ rest) acc = .ok (.map (acc ++ entries), rest)

theorem entered_inline (hkey : IsKey key) (ht : Renders t v)
    (hwritten : emitValue indent (List.replicate indent 32 ++ key ++ lit ":") v =
      .ok [List.replicate indent 32 ++ key ++ lit ":" ++ lit " " ++ t]) :
    Entered indent key v [(indent, keyed key (32 :: t))] where
  written := by
    rw [hwritten, show lit ":" = [58] from rfl, show lit " " = [32] from rfl]
    simp [draw, keyed]
  proper := by
    intro s hs
    obtain rfl := List.mem_singleton.1 hs
    exact proper_keyed hkey ht
  first := ⟨_, _, rfl⟩
  read := by
    intro what fuel ls rest acc hls _ hacc _
    obtain ⟨line, ls, rfl, hline, hls⟩ := List.map_eq_cons_iff.1 hls
    obtain rfl := List.map_eq_nil_iff.1 hls
    exact blockMapping_inline hkey ht hline hacc

theorem blocked_of_entered {entries : List (Text × Value)} (hnodup : (entries.map (·.1)).Nodup)
    (h : ∀ e ∈ entries, ∃ shapes, Entered indent e.1 e.2 shapes) : ∃ shapes, Blocked indent entries shapes := by
  induction entries with
  | nil =>
      refine ⟨[], rfl, by simp, by simp, ?_⟩
      intro what fuel ls rest acc hls hfuel _ hrest
      obtain rfl := List.map_eq_nil_iff.1 hls
      obtain ⟨fuel, rfl⟩ := Nat.exists_eq_succ_of_ne_zero (Nat.ne_of_gt hfuel)
      rw [List.nil_append, List.append_nil]
      cases rest with
      | nil => rfl
      | cons l rest => rw [blockMapping, if_pos (hrest l rfl)]
  | cons e entries ih =>
      obtain ⟨key, v⟩ := e
      obtain ⟨hnew, hnodup⟩ := List.nodup_cons.1 hnodup
      obtain ⟨shapes, he⟩ := h (key, v) (.head _)
      obtain ⟨shapes', hes⟩ := ih hnodup fun e he => h e (.tail _ he)
      refine ⟨shapes ++ shapes', ?_, ?_, ?_, ?_⟩
      · have hentry : emitEntry indent (key, v) = .ok (shapes.map draw) := by
          rw [emitEntry]
          exact he.written
        rw [emit, hentry, hes.written, List.map_append]
        rfl
      · intro s hs
        exact (List.mem_append.1 hs).elim (he.proper s) (hes.proper s)
      · intro e' he'
        obtain rfl := Option.some.inj he'
        obtain ⟨t, rest, hfirst⟩ := he.first
        exact ⟨t, rest ++ shapes', by rw [hfirst]; rfl⟩
      · intro what fuel ls rest acc hls hfuel hacc hrest
        obtain ⟨ls, ls', rfl, hls, hls'⟩ := List.map_eq_append_iff.1 hls
        obtain ⟨t, tail, hfirst⟩ := he.first
        have hpos : 0 < shapes.length := by
          rw [hfirst]
          exact Nat.succ_pos _
        rw [List.length_append] at hfuel
        obtain ⟨fuel, rfl⟩ := Nat.exists_eq_succ_of_ne_zero (show fuel ≠ 0 by omega)
        have hnext : ∀ l ∈ (ls' ++ rest).head?, l.col ≤ indent := by
          intro l hl
          cases ls' with
          | nil => exact (hrest l hl).le
          | cons l' ls' =>
              obtain rfl := Option.some.inj hl
              obtain ⟨e', entries, rfl⟩ : ∃ e' es, entries = e' :: es := by
                cases entries with
                | nil =>
                    have hnil : shapes' = [] := by
                      have hw := hes.written
                      simp only [emit, Except.ok.injEq] at hw
                      exact List.map_eq_nil_iff.1 hw.symm
                    rw [hnil] at hls'
                    cases hls'
                | cons e' es => exact ⟨e', es, rfl⟩
              obtain ⟨t', tail', hfirst'⟩ := hes.first e' rfl
              rw [hfirst', List.map_cons] at hls'
              exact (congrArg Prod.fst (List.cons.inj hls').1).le
        rw [List.append_assoc, he.read what fuel ls (ls' ++ rest) acc hls (by omega) (hacc (key, v) (.head _)) hnext,
          hes.read what fuel ls' rest _ hls' (by omega) ?_ hrest, List.append_assoc]
        · rfl
        intro e' he' hmem
        rw [List.map_append, List.mem_append] at hmem
        obtain hmem | hmem := hmem
        · exact hacc e' (.tail _ he') hmem
        · exact hnew (List.mem_map.2 ⟨e', he', List.mem_singleton.1 hmem⟩)

theorem renders_short {item : Value} (h : item.Short) :
    ∃ t, Renders t item ∧ ∀ pad, emitItem pad item = .ok (pad ++ lit "  - " ++ t) := by
  cases item with
  | scalar s => exact ⟨scalar s, renders_scalar h, fun _ => rfl⟩
  | list items => exact absurd h id
  | map entries =>
      obtain ⟨fields, rfl, hfields⟩ := h
      refine ⟨flowText fields, renders_flow hfields, ?_⟩
      intro pad
      rw [emitItem, flow_eq]
      rfl

/-- A list that is not empty, each item on a line. -/
theorem entered_list {items : List Value} (hkey : IsKey key) (hne : items ≠ []) (h : ∀ item ∈ items, item.Short) :
    ∃ shapes, Entered indent key (.list items) shapes := by
  obtain ⟨texts, hitems, hwritten⟩ : ∃ texts, List.Forall₂ Renders texts items ∧
      items.mapM (emitItem (List.replicate indent 32)) =
        .ok (texts.map fun t => draw (indent + 2, 45 :: 32 :: t)) := by
    clear hne
    induction items with
    | nil => exact ⟨[], .nil, rfl⟩
    | cons item items ih =>
        obtain ⟨t, ht, hemit⟩ := renders_short (h item (.head _))
        obtain ⟨texts, hitems, hwritten⟩ := ih fun item hitem => h item (.tail _ hitem)
        refine ⟨t :: texts, .cons ht hitems, ?_⟩
        have hdraw : List.replicate indent 32 ++ lit "  - " ++ t = draw (indent + 2, 45 :: 32 :: t) := by
          rw [draw, show lit "  - " = List.replicate 2 32 ++ [45, 32] from rfl, List.replicate_add]
          simp
        rw [List.mapM_cons, hemit, hwritten, hdraw]
        rfl
  obtain ⟨item, items, rfl⟩ := List.exists_cons_of_ne_nil hne
  refine ⟨(indent, keyed key []) :: texts.map fun t => (indent + 2, 45 :: 32 :: t), ?_, ?_, ⟨_, _, rfl⟩, ?_⟩
  · rw [emitValue, hwritten, List.map_cons, List.map_map]
    rw [show draw (indent, keyed key []) = List.replicate indent 32 ++ key ++ lit ":" by simp [draw, keyed, lit]]
    rfl
  · intro s hs
    obtain rfl | hs := List.mem_cons.1 hs
    · exact proper_key hkey
    · obtain ⟨t, ht, rfl⟩ := List.mem_map.1 hs
      obtain ⟨n, hn, rfl⟩ := List.getElem_of_mem ht
      have hn' : n < (item :: items).length := hitems.length_eq ▸ hn
      exact proper_item (List.Forall₂.get hitems hn hn')
  · intro what fuel ls rest acc hls _ hacc hrest
    obtain ⟨line, ls, rfl, hline, hls⟩ := List.map_eq_cons_iff.1 hls
    obtain ⟨t, texts, rfl⟩ : ∃ t ts, texts = t :: ts := by
      cases hitems with
      | cons _ _ => exact ⟨_, _, rfl⟩
    have hlist : blockList what (indent + 2) (ls ++ rest) [] = .ok (.list (item :: items), rest) := by
      refine blockList_items hitems hls ?_
      intro l hl
      have := hrest l hl
      omega
    obtain ⟨next, ls, rfl, hnext, -⟩ := List.map_eq_cons_iff.1 hls
    obtain ⟨hcol, htext⟩ := Prod.mk.inj hnext
    have hdash : isItem next.text = true := by
      rw [htext, isItem, decide_eq_true_iff]
      exact .inr ⟨t, rfl⟩
    refine blockMapping_block hkey hline hacc (by omega) ?_
    rw [if_pos hdash, hcol]
    exact hlist

/-- An entry of a document is read from its lines. -/
theorem Value.Writable.entered (hv : v.Writable) (hkey : IsKey key) : ∃ shapes, Entered indent key v shapes := by
  induction hv generalizing indent key with
  | @scalar s hs => exact ⟨_, entered_inline hkey (renders_scalar hs) rfl⟩
  | @list items h =>
      obtain rfl | hne := eq_or_ne items []
      · refine ⟨_, entered_inline hkey renders_nil ?_⟩
        rw [emitValue, List.append_assoc (_ ++ lit ":")]
        rfl
      · exact entered_list hkey hne h
  | @map entries keys nodup values ih =>
      cases entries with
      | nil =>
          have hflat : Flat [] := ⟨by simp, by simp, by simp⟩
          have hempty : Renders (lit "\x7b\x7d") (.map []) := renders_flow hflat
          refine ⟨_, entered_inline hkey hempty ?_⟩
          rw [emitValue, List.append_assoc (_ ++ lit ":")]
          rfl
      | cons e entries =>
          have hentered : ∀ e' ∈ e :: entries, ∃ shapes, Entered (indent + 2) e'.1 e'.2 shapes :=
            fun e' he' => ih e' he' (keys e' he')
          obtain ⟨shapes, hblock⟩ := blocked_of_entered nodup hentered
          obtain ⟨t, tail, hfirst⟩ := hblock.first e rfl
          refine ⟨(indent, keyed key []) :: shapes, ?_, ?_, ⟨_, _, rfl⟩, ?_⟩
          · rw [emitValue, hblock.written, List.map_cons]
            rw [show draw (indent, keyed key []) = List.replicate indent 32 ++ key ++ lit ":" by simp [draw, keyed, lit]]
            rfl
          · intro s hs
            obtain rfl | hs := List.mem_cons.1 hs
            · exact proper_key hkey
            · exact hblock.proper s hs
          · intro what fuel ls rest acc hls hfuel hacc hrest
            obtain ⟨line, ls, rfl, hline, hls⟩ := List.map_eq_cons_iff.1 hls
            rw [List.length_cons] at hfuel
            have hmap := hblock.read what fuel ls rest [] hls (by omega) (by simp) (by
              intro l hl
              have := hrest l hl
              omega)
            rw [hfirst] at hls
            obtain ⟨next, ls, rfl, hnext, -⟩ := List.map_eq_cons_iff.1 hls
            obtain ⟨hcol, htext⟩ := Prod.mk.inj hnext
            refine blockMapping_block hkey hline hacc (by omega) ?_
            rw [htext, isItem_keyed (keys e (.head _)), if_neg Bool.false_ne_true, hcol]
            exact hmap

/-- A document is read from its lines. -/
theorem blocked {entries : List (Text × Value)} (h : (Value.map entries).Writable) :
    ∃ shapes, Blocked 0 entries shapes := by
  cases h with
  | map keys nodup values => exact blocked_of_entered nodup fun e he => (values e he).entered (keys e he)

end MiniDarwin.Rootfs
