import MiniDarwin.Launchd.Markup

/-!
The property lists that are written are read again, except for carriage
returns, which `escape ()` lets through and which no XML parser keeps.
-/

namespace MiniDarwin.Launchd

open Posix (Bytes)

/-! ### Numbers -/

theorem digitsValue_digits {n : Nat} (h : n ≠ 0) :
    digitsValue ((Nat.digits 10 n).reverse.map fun d => UInt8.ofNat (48 + d)) = some n := by
  have hlt : ∀ d ∈ Nat.digits 10 n, d < 10 := fun d hd => Nat.digits_lt_base (by omega) hd
  have hdigit : ∀ d < 10, (UInt8.ofNat (48 + d)).toNat = 48 + d := by
    intro d hd
    rw [UInt8.toNat_ofNat', Nat.mod_eq_of_lt (by omega)]
  have hfold : ∀ L : List Nat, (∀ d ∈ L, d < 10) →
      (L.reverse.map fun d => UInt8.ofNat (48 + d)).foldl (fun n c => n * 10 + (c.toNat - 48)) 0 =
        Nat.ofDigits 10 L := by
    intro L hL
    induction L with
    | nil => rfl
    | cons d L ih =>
        rw [List.reverse_cons, List.map_append, List.foldl_append, ih fun x hx => hL x (.tail _ hx),
          Nat.ofDigits_cons]
        simp only [List.map_cons, List.map_nil, List.foldl_cons, List.foldl_nil,
          hdigit d (hL d (.head _))]
        omega
  have hvalid : (Nat.digits 10 n).reverse.map (fun d => UInt8.ofNat (48 + d)) ≠ [] ∧
      ((Nat.digits 10 n).reverse.map fun d => UInt8.ofNat (48 + d)).all
        (fun c => 48 ≤ c ∧ c ≤ 57) = true := by
    constructor
    · simpa [Nat.digits_ne_nil_iff_ne_zero] using h
    · rw [List.all_eq_true]
      intro c hc
      obtain ⟨d, hd, rfl⟩ := List.mem_map.1 hc
      have hd' := hlt d (List.mem_reverse.1 hd)
      simp only [decide_eq_true_eq, UInt8.le_iff_toNat_le, hdigit d hd']
      have h48 : (48 : UInt8).toNat = 48 := rfl
      have h57 : (57 : UInt8).toNat = 57 := rfl
      omega
  rw [digitsValue, if_pos hvalid, hfold _ hlt, Nat.ofDigits_digits]

/-- `std::from_chars ()` undoes `std::to_string ()`. -/
theorem fromChars_decimal (n : Int64) : fromChars (decimal n.toInt) = some n := by
  have hlow := n.le_toInt
  have hhigh := n.toInt_lt
  obtain hneg | hzero | hpos := lt_trichotomy n.toInt 0
  · have hnat : n.toInt.natAbs ≠ 0 := by omega
    rw [decimal, if_pos hneg, if_neg hneg.ne, List.singleton_append, fromChars,
      digitsValue_digits hnat, Option.bind_some, if_pos (by omega),
      show -(n.toInt.natAbs : Int) = n.toInt by omega, Int64.ofInt_toInt]
  · have hn : n = 0 := by
      rw [← Int64.ofInt_toInt n, hzero]
      rfl
    rw [hn]
    rfl
  · have hnat : n.toInt.natAbs ≠ 0 := by omega
    have hvalue := digitsValue_digits hnat
    have hfirst : ∀ rest, decimal n.toInt ≠ 45 :: rest := by
      intro rest heq
      have hdigits : decimal n.toInt =
          (Nat.digits 10 n.toInt.natAbs).reverse.map fun d => UInt8.ofNat (48 + d) := by
        rw [decimal, if_neg (by omega), if_neg (by omega), List.nil_append]
      rw [← hdigits, heq] at hvalue
      have hbad : digitsValue (45 :: rest) = none := by simp [digitsValue]
      rw [hbad] at hvalue
      cases hvalue
    rw [fromChars.eq_def]
    split
    · next heq => exact absurd heq (hfirst _)
    · rw [decimal, if_neg (by omega), if_neg (by omega), List.nil_append, hvalue, Option.bind_some,
        if_pos (by omega), ← Int64.ofInt_eq_ofNat, show (n.toInt.natAbs : Int) = n.toInt by omega,
        Int64.ofInt_toInt]

/-! ### Reading one value -/

variable {lenient : Bool} {room count : Nat}

theorem text_textXml (s : Bytes) : text (textXml s) = .ok s := by
  unfold textXml
  split
  · next h =>
      rw [h]
      rfl
  · simp [text]

theorem parse_string (s : Bytes) (h : count < 16384) :
    (parse lenient (room + 1) (valueTree (.string s))).run count = .ok (.string s, count + 1) := by
  have hcount : ¬ 16384 ≤ count := not_le.2 h
  rw [valueTree]
  simp [parse, Tag.plain, throwIf, hcount, StateT.run_bind, text_textXml]
  rfl

theorem parse_integer (n : Int64) (h : count < 16384) :
    (parse lenient (room + 1) (valueTree (.integer n))).run count = .ok (.integer n, count + 1) := by
  have hcount : ¬ 16384 ≤ count := not_le.2 h
  have hname : ∀ s ∈ ["string", "real", "date", "data"], ascii "integer" ≠ ascii s := by decide
  simp only [List.forall_mem_cons] at hname
  rw [valueTree]
  simp [parse, Tag.plain, throwIf, hname, hcount, StateT.run_bind, text_textXml]
  simp only [bind, Except.bind, fromChars_decimal]
  rfl

theorem parse_array {children : List Xml} {items : List (Tag × List Xml)} (h : count < 16384)
    (hitems : elements children = .ok items) :
    (parse lenient (room + 1) (.plain (ascii "array"), children)).run count =
      (fun p => (Value.array p.1, p.2)) <$> (items.mapM (parse lenient room)).run (count + 1) := by
  have hcount : ¬ 16384 ≤ count := not_le.2 h
  have hname : ∀ s ∈ ["string", "real", "date", "data", "integer", "true", "false"],
      ascii "array" ≠ ascii s := by decide
  simp only [List.forall_mem_cons] at hname
  simp [parse, Tag.plain, throwIf, hname, hcount, StateT.run_bind, hitems]
  rfl

/-! ### Reading a tree that was written -/

theorem parseItems {items : List Value}
    (ih : ∀ x ∈ items, ∀ count, count + x.count ≤ 16384 →
      (parse lenient room (valueTree x)).run count = .ok (x, count + x.count))
    (hcount : count + (items.map Value.count).sum ≤ 16384) :
    ((items.map valueTree).mapM (parse lenient room)).run count =
      .ok (items, count + (items.map Value.count).sum) := by
  induction items generalizing count with
  | nil => rfl
  | cons x items ihi =>
      rw [List.map_cons, List.sum_cons] at hcount
      have hx := ih x (.head _) count (by omega)
      have hrest := @ihi (count + x.count) (fun y hy => ih y (.tail _ hy)) (by omega)
      rw [List.map_cons, List.mapM_cons, StateT.run_bind, hx]
      change (((items.map valueTree).mapM (parse lenient room)).run (count + x.count) >>= _) = _
      rw [hrest, List.map_cons, List.sum_cons, ← Nat.add_assoc]
      rfl

/-- The key and the value of an entry. -/
def pairTree (e : Bytes × Value) : List (Tag × List Xml) :=
  [(.plain (ascii "key"), textXml e.1), valueTree e.2]

theorem parsePairs {entries : List (Bytes × Value)} {result : Map Bytes Value}
    (ih : ∀ e ∈ entries, ∀ count, count + e.2.count ≤ 16384 →
      (parse lenient room (valueTree e.2)).run count = .ok (e.2, count + e.2.count))
    (hnew : ∀ e ∈ entries, e.1 ∉ result) (hnodup : (entries.map (·.1)).Nodup)
    (hcount : count + (entries.map fun e => e.2.count).sum ≤ 16384) :
    (parseEntries (parse lenient room) (entries.flatMap pairTree) result).run count =
      .ok (insertAll entries result, count + (entries.map fun e => e.2.count).sum) := by
  induction entries generalizing result count with
  | nil => rfl
  | cons e entries ihe =>
      rw [List.map_cons, List.sum_cons] at hcount
      rw [List.map_cons, List.nodup_cons] at hnodup
      have hrest : ∀ e' ∈ entries, e'.1 ∉ result.insert e.1 e.2 := by
        intro e' he' hm
        obtain hm | hm := Std.ExtTreeMap.mem_insert.1 hm
        · have heq : e.1 = e'.1 := by simpa using hm
          exact hnodup.1 (List.mem_map.2 ⟨e', he', heq.symm⟩)
        · exact hnew e' (.tail _ he') hm
      have hdup : throwIf (e.1 ∈ result) (ascii "duplicate plist key: " ++ e.1) = .ok () :=
        if_neg (hnew e (.head _))
      rw [List.flatMap_cons, pairTree, List.cons_append, List.cons_append, List.nil_append,
        parseEntries_pair (text_textXml e.1), ih e (.head _) count (by omega), hdup]
      refine (ihe (fun e' he' => ih e' (.tail _ he')) hrest hnodup.2 (by omega)).trans ?_
      rw [List.map_cons, List.sum_cons, ← Nat.add_assoc]
      rfl

theorem length_pairTree (entries : List (Bytes × Value)) :
    (entries.flatMap pairTree).length = 2 * entries.length := by
  induction entries with
  | nil => rfl
  | cons e entries ih =>
      rw [List.flatMap_cons, List.length_append, ih, List.length_cons]
      simp only [pairTree, List.length_cons, List.length_nil]
      omega

theorem parse_arrayTree (items : List Value) (h : count < 16384) :
    (parse lenient (room + 1) (valueTree (.array items))).run count =
      (fun p => (Value.array p.1, p.2)) <$>
        ((items.map valueTree).mapM (parse lenient room)).run (count + 1) := by
  rw [valueTree]
  exact parse_array h (elements_element _)

theorem parse_dictTree (entries : List (Bytes × Value)) (h : count < 16384) :
    (parse lenient (room + 1) (valueTree (.dict entries))).run count =
      (fun p => (Value.ofMap p.1, p.2)) <$>
        (parseEntries (parse lenient room) (entries.flatMap pairTree) ∅).run (count + 1) := by
  have heven : ¬ (entries.flatMap pairTree).length % 2 = 1 := by
    rw [length_pairTree]
    omega
  rw [valueTree]
  exact parse_dict h (elements_element _) heven

/-- A map lists its entries in the order of the keys. -/
theorem toList_insertAll {entries : List (Bytes × Value)}
    (h : (entries.map (·.1)).Pairwise fun a b => compare a b = .lt) :
    (insertAll entries ∅).toList = entries := by
  have hnodup : (entries.map (·.1)).Nodup := by
    refine h.imp ?_
    rintro a b hab rfl
    simp at hab
  have hsorted : entries.Pairwise fun a b => compare a.1 b.1 = .lt := List.pairwise_map.1 h
  have : Std.Irrefl fun a b : Bytes × Value => compare a.1 b.1 = .lt := ⟨fun a => by simp⟩
  have : Std.Antisymm fun a b : Bytes × Value => compare a.1 b.1 = .lt := by
    refine ⟨fun a b hab hba => ?_⟩
    rw [Std.OrientedCmp.gt_of_lt hab] at hba
    cases hba
  apply List.Pairwise.eq_of_mem_iff Std.ExtTreeMap.ordered_keys_toList hsorted
  intro e
  rw [← Prod.mk.eta (p := e), Std.ExtTreeMap.mem_toList_iff_getElem?_eq_some,
    getElem?_insertAll hnodup]
  simp

/-- **A tree that was written is read as its value**, if there are few enough values. -/
theorem parse_valueTree {v : Value} (hord : v.Ordered) (hroom : v.within room = true)
    (hcount : count + v.count ≤ 16384) :
    (parse lenient (room + 1) (valueTree v)).run count = .ok (v, count + v.count) := by
  induction v using Value.ind generalizing room count with
  | string s =>
      rw [Value.count] at hcount ⊢
      · exact parse_string s (by omega)
      all_goals simp
  | integer n =>
      rw [Value.count] at hcount ⊢
      · exact parse_integer n (by omega)
      all_goals simp
  | boolean b =>
      rw [Value.count] at hcount ⊢
      · rw [valueTree]
        exact parse_boolean b (by omega)
      all_goals simp
  | array items ih =>
      have hitems : ∀ x ∈ items, ∀ count, count + x.count ≤ 16384 →
          (parse lenient room (valueTree x)).run count = .ok (x, count + x.count) := by
        cases hord with
        | array _ hord =>
            intro x hx count hcount
            cases room with
            | zero =>
                rw [Value.within, List.isEmpty_iff] at hroom
                rw [hroom] at hx
                cases hx
            | succ room =>
                rw [Value.within, List.all_eq_true] at hroom
                exact ih x hx (hord x hx) (hroom x hx) hcount
      rw [Value.count] at hcount ⊢
      rw [parse_arrayTree items (by omega), parseItems hitems (by omega), ← Nat.add_assoc]
      rfl
  | dict entries ih =>
      cases hord with
      | dict _ hkeys hord =>
          have hentries : ∀ e ∈ entries, ∀ count, count + e.2.count ≤ 16384 →
              (parse lenient room (valueTree e.2)).run count = .ok (e.2, count + e.2.count) := by
            intro e he count hcount
            cases room with
            | zero =>
                rw [Value.within, List.isEmpty_iff] at hroom
                rw [hroom] at he
                cases he
            | succ room =>
                rw [Value.within, List.all_eq_true] at hroom
                exact ih e he (hord e he) (hroom e he) hcount
          have hnodup : (entries.map (·.1)).Nodup := by
            refine hkeys.imp ?_
            rintro a b hab rfl
            simp at hab
          rw [Value.count] at hcount ⊢
          rw [parse_dictTree entries (by omega), parsePairs hentries (by simp) hnodup (by omega),
            ← Nat.add_assoc]
          change Except.ok (Value.ofMap (insertAll entries ∅), _) = _
          rw [Value.ofMap, toList_insertAll hkeys]

/-! ### What else may be read -/

/-- Strings and keys come from the tree. -/
def Among (u v : Value) : Prop := ∀ s ∈ u.texts, s ∈ v.texts

theorem map_eq_ok {α β : Type} {x : Result α} {f : α → β} {b : β} (h : f <$> x = .ok b) :
    ∃ a, x = .ok a ∧ f a = b := by
  cases x with
  | error e => cases h
  | ok a => exact ⟨a, rfl, Except.ok.inj h⟩

/-- A value is read only where there is room, and not after too many. -/
theorem parse_room {x : Tag × List Xml} {u : Value} {count' : Nat}
    (h : (parse lenient room x).run count = .ok (u, count')) :
    ∃ n, count < 16384 ∧ room = n + 1 := by
  cases room with
  | zero => cases h
  | succ n =>
      refine ⟨n, ?_, rfl⟩
      by_contra hcount
      rw [parse_tooMany (by omega)] at h
      cases h

theorem items_among {items us : List Value} {count' : Nat}
    (ih : ∀ x ∈ items, ∀ count u count',
      (parse lenient room (valueTree x)).run count = .ok (u, count') → Among u x)
    (h : ((items.map valueTree).mapM (parse lenient room)).run count = .ok (us, count')) :
    ∀ u ∈ us, ∃ x ∈ items, Among u x := by
  induction items generalizing count us with
  | nil =>
      cases h
      exact List.forall_mem_nil _
  | cons x items ihi =>
      rw [List.map_cons, List.mapM_cons, StateT.run_bind] at h
      obtain ⟨⟨u, c₁⟩, hx, h⟩ := bind_eq_ok h
      rw [StateT.run_bind] at h
      obtain ⟨⟨us', c₂⟩, hrest, h⟩ := bind_eq_ok h
      cases h
      intro u' hu'
      obtain rfl | hu' := List.mem_cons.1 hu'
      · exact ⟨x, .head _, ih x (.head _) count _ c₁ hx⟩
      · obtain ⟨y, hy, hamong⟩ := ihi (fun y hy => ih y (.tail _ hy)) hrest u' hu'
        exact ⟨y, .tail _ hy, hamong⟩

theorem pairs_among {entries : List (Bytes × Value)} {result m : Map Bytes Value} {count' : Nat}
    (ih : ∀ e ∈ entries, ∀ count u count',
      (parse lenient room (valueTree e.2)).run count = .ok (u, count') → Among u e.2)
    (h : (parseEntries (parse lenient room) (entries.flatMap pairTree) result).run count =
      .ok (m, count')) :
    ∀ k u, m[k]? = some u → result[k]? = some u ∨ ∃ e ∈ entries, e.1 = k ∧ Among u e.2 := by
  induction entries generalizing result count with
  | nil =>
      cases h
      exact fun k u hk => .inl hk
  | cons e entries ihe =>
      rw [List.flatMap_cons, pairTree, List.cons_append, List.cons_append, List.nil_append,
        parseEntries_pair (text_textXml e.1)] at h
      obtain ⟨⟨u, c₁⟩, hx, h⟩ := bind_eq_ok h
      obtain ⟨-, -, h⟩ := bind_eq_ok h
      intro k u' hk
      obtain hk | ⟨e', he', hk, hamong⟩ := ihe (fun y hy => ih y (.tail _ hy)) h k u' hk
      · rw [Std.ExtTreeMap.getElem?_insert] at hk
        split at hk
        · next heq =>
            cases hk
            exact .inr ⟨e, .head _, by simpa using heq, ih e (.head _) count _ c₁ hx⟩
        · exact .inl hk
      · exact .inr ⟨e', .tail _ he', hk, hamong⟩

/-- Whatever is read of a tree has its strings and keys. -/
theorem parse_among {v u : Value} {count' : Nat}
    (h : (parse lenient room (valueTree v)).run count = .ok (u, count')) : Among u v := by
  induction v using Value.ind generalizing room count u count' with
  | string s =>
      obtain ⟨room, hcount, rfl⟩ := parse_room h
      rw [parse_string s hcount] at h
      cases h
      exact fun s hs => hs
  | integer n =>
      obtain ⟨room, hcount, rfl⟩ := parse_room h
      rw [parse_integer n hcount] at h
      cases h
      exact fun s hs => hs
  | boolean b =>
      obtain ⟨room, hcount, rfl⟩ := parse_room h
      rw [valueTree, parse_boolean b hcount] at h
      cases h
      exact fun s hs => hs
  | array items ih =>
      obtain ⟨room, hcount, rfl⟩ := parse_room h
      rw [parse_arrayTree items hcount] at h
      obtain ⟨⟨us, c⟩, hus, h⟩ := map_eq_ok h
      cases h
      have hamong := items_among (fun x hx count u count' h => ih x hx h) hus
      intro s hs
      rw [Value.texts] at hs ⊢
      obtain ⟨u, hu, hs⟩ := List.mem_flatMap.1 hs
      obtain ⟨x, hx, hux⟩ := hamong u hu
      exact List.mem_flatMap.2 ⟨x, hx, hux s hs⟩
  | dict entries ih =>
      obtain ⟨room, hcount, rfl⟩ := parse_room h
      rw [parse_dictTree entries hcount] at h
      obtain ⟨⟨m, c⟩, hm, h⟩ := map_eq_ok h
      cases h
      have hamong := pairs_among (fun e he count u count' h => ih e he h) hm
      intro s hs
      rw [Value.ofMap, Value.texts] at hs
      obtain ⟨⟨k, u⟩, hku, hs⟩ := List.mem_flatMap.1 hs
      rw [Std.ExtTreeMap.mem_toList_iff_getElem?_eq_some] at hku
      obtain hnone | ⟨e, he, hek, hue⟩ := hamong k u hku
      · simp at hnone
      · rw [Value.texts]
        apply List.mem_flatMap.2 ⟨e, he, ?_⟩
        obtain hs | hs := List.mem_cons.1 hs
        · rw [hs, ← hek]
          exact .head _
        · exact .tail _ (hue s hs)

/-! ### The whole -/

theorem writePlist_eq {v : Value} {bytes : Bytes} (h : writePlist v = .ok bytes) :
    bytes = plistText v ∧ bytes.length ≤ maxMessage := by
  obtain ⟨t, ht, h⟩ := bind_eq_ok h
  rw [encode_eq v t ht] at h
  have heq := limited_eq h
  unfold limited at h
  split at h
  · cases h
  · next hsize =>
      rw [← heq] at hsize
      exact ⟨heq, not_lt.1 hsize⟩

/-- After its checks `parsePlist ()` reads the one value of the document. -/
theorem parsePlist_plistText {xmlReadMemory : Bytes → Option Doc} {v w : Value}
    (htext : XmlText (plistText v)) (hsize : (plistText v).length ≤ maxMessage)
    (hxml : xmlReadMemory (plistText v) = some (plistDoc w)) :
    parsePlist xmlReadMemory (plistText v) lenient =
      (·.1) <$> (parse lenient 33 (valueTree w)).run 0 := by
  have hsize' : ¬ (plistText v = [] ∨ (plistText v).length > maxMessage ∨ 0 ∈ plistText v) := by
    rintro (h | h | h)
    · simp [plistText, plistHead, ascii] at h
    · omega
    · exact nul_not_mem htext h
  have hdecl : ∀ s, [60, 33] <+: s → ¬ s <:+: plistText v :=
    fun s hs h => noDecl_plistText v (hs.isInfix.trans h)
  have hmarks : ¬ (ascii "<!ENTITY" <:+: plistText v ∨ ascii "<![" <:+: plistText v) := by
    rintro (h | h)
    · exact hdecl _ (by decide) h
    · exact hdecl _ (by decide) h
  have hone : elements [node (valueTree w)] = .ok [valueTree w] := elements_element [valueTree w]
  simp only [parsePlist, throwIf, if_neg hsize', if_neg hmarks, hxml, plistDoc]
  rw [hone]
  change ((parse lenient 33 (valueTree w)).run 0 >>= fun p => pure p.1) = _
  cases (parse lenient 33 (valueTree w)).run 0 with
  | error e => rfl
  | ok p => rfl

theorem normalized_self {v : Value} (h : ∀ s ∈ v.texts, 13 ∉ s) : v.normalized = v := by
  induction v using Value.ind with
  | string s => rw [Value.normalized, normalize_self (h s (by simp [Value.texts]))]
  | integer n =>
      rw [Value.normalized]
      all_goals simp
  | boolean b =>
      rw [Value.normalized]
      all_goals simp
  | array items ih =>
      have hitems : ∀ x ∈ items, x.normalized = x := by
        intro x hx
        apply ih x hx
        intro s hs
        apply h
        rw [Value.texts]
        exact List.mem_flatMap.2 ⟨x, hx, hs⟩
      rw [Value.normalized, List.map_congr_left hitems, List.map_id']
  | dict entries ih =>
      have hentries : ∀ e ∈ entries, (normalize e.1, e.2.normalized) = e := by
        intro e he
        have hmem : ∀ s ∈ e.1 :: e.2.texts, 13 ∉ s := by
          intro s hs
          apply h
          rw [Value.texts]
          exact List.mem_flatMap.2 ⟨e, he, hs⟩
        rw [normalize_self (hmem e.1 (.head _)), ih e he fun s hs => hmem s (.tail _ hs)]
      rw [Value.normalized, List.map_congr_left hentries, List.map_id']

theorem texts_normalized (v : Value) : ∀ s ∈ v.normalized.texts, 13 ∉ s := by
  induction v using Value.ind with
  | string s =>
      rw [Value.normalized, Value.texts]
      exact List.forall_mem_singleton.2 (cr_not_mem_normalize s)
  | integer n =>
      rw [Value.normalized, Value.texts]
      all_goals simp
  | boolean b =>
      rw [Value.normalized, Value.texts]
      all_goals simp
  | array items ih =>
      rw [Value.normalized, Value.texts, List.flatMap_map]
      intro s hs
      obtain ⟨x, hx, hs⟩ := List.mem_flatMap.1 hs
      exact ih x hx s hs
  | dict entries ih =>
      rw [Value.normalized, Value.texts, List.flatMap_map]
      intro s hs
      obtain ⟨e, he, hs⟩ := List.mem_flatMap.1 hs
      obtain hs | hs := List.mem_cons.1 hs
      · rw [hs]
        exact cr_not_mem_normalize e.1
      · exact ih e he s hs

/-- **What was written is read again, if and only if there is no carriage
return in a string or a key.** -/
theorem plist_roundtrip {xmlReadMemory : Bytes → Option Doc} (hxml : Conforms xmlReadMemory)
    {v : Value} (hord : v.Ordered) (hcount : v.count ≤ 16384) (hdepth : v.within 32 = true)
    (htexts : ∀ s ∈ v.texts, XmlText s) {bytes : Bytes} (hwrite : writePlist v = .ok bytes) :
    parsePlist xmlReadMemory bytes lenient = .ok v ↔ ∀ s ∈ v.texts, 13 ∉ s := by
  obtain ⟨rfl, hsize⟩ := writePlist_eq hwrite
  have htext := xmlText_plistText htexts
  have hdoc := hxml _ _ hsize htext (readDocument_plistText hdepth)
  rw [parsePlist_plistText htext hsize hdoc]
  constructor
  · intro h
    obtain ⟨⟨u, c⟩, hparse, rfl⟩ := map_eq_ok h
    intro s hs
    exact texts_normalized _ s (parse_among hparse s hs)
  · intro h
    rw [normalized_self h, parse_valueTree hord hdepth (by omega)]
    rfl

/-- A string that needs escaping, there and back. -/
theorem plist_roundtrip_markup :
    ∃ bytes, writePlist (.string [60]) = .ok bytes ∧
      parsePlist readDocument bytes false = .ok (.string [60]) := by
  have hwrite : writePlist (.string [60]) = .ok _ := rfl
  refine ⟨_, hwrite, (plist_roundtrip (fun bytes doc _ _ h => h) (.string _) ?_ rfl ?_ hwrite).2 ?_⟩
  · simp [Value.count]
  · rw [Value.texts]
    exact List.forall_mem_singleton.2 (xmlText_printable (by simp))
  · simp [Value.texts]

/-- A carriage return comes back as a line feed. -/
theorem plist_roundtrip_return :
    ∃ bytes, writePlist (.string [13]) = .ok bytes ∧ (Value.string [13]).Ordered ∧
      (Value.string [13]).count ≤ 16384 ∧ (Value.string [13]).within 32 = true ∧
      (∀ s ∈ (Value.string [13]).texts, XmlText s) ∧ Conforms readDocument ∧
      parsePlist readDocument bytes false = .ok (.string [10]) := by
  have htexts : ∀ s ∈ (Value.string [13]).texts, XmlText s := by
    rw [Value.texts]
    exact List.forall_mem_singleton.2 (xmlText_char (c := '\r') (.inr (.inr (.inl rfl))))
  have hwrite : writePlist (.string [13]) = .ok _ := rfl
  obtain ⟨heq, hsize⟩ := writePlist_eq hwrite
  refine ⟨_, hwrite, .string _, by simp [Value.count], rfl, htexts, fun bytes doc _ _ h => h, ?_⟩
  rw [heq] at hsize ⊢
  rw [parsePlist_plistText (xmlText_plistText htexts) hsize (readDocument_plistText rfl),
    Value.normalized, parse_string _ (by omega)]
  rfl

end MiniDarwin.Launchd
