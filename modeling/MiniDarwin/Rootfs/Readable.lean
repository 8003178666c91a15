import MiniDarwin.Rootfs.RoundTrip

/-!
What `parse_yaml ()` can return of a text of Unicode scalar values.

Keys are keys and differ, and no string has a high surrogate before a low
one: an escaped pair of them is read as the character it stands for. And
whatever a text is, the rounds that the loops are given suffice.
-/

namespace MiniDarwin.Rootfs

open Data

/-- A text of Unicode scalar values, as UTF-8 encodes it. -/
def Unicode (text : Text) : Prop := ∀ c ∈ text, c < 0x110000 ∧ ¬ (0xd800 ≤ c ∧ c ≤ 0xdfff)

/-- A value as it is read. -/
inductive Value.Readable : Value → Prop
  | scalar {s : Scalar} (h : s.Writable) : Readable (.scalar s)
  | list {items : List Value} (h : ∀ item ∈ items, Readable item) : Readable (.list items)
  | map {entries : List (Text × Value)} (keys : ∀ e ∈ entries, IsKey e.1) (nodup : (entries.map (·.1)).Nodup)
      (values : ∀ e ∈ entries, Readable e.2) : Readable (.map entries)

variable {text rest s : Text} {v : Value}

theorem Unicode.mono (h : Unicode text) (hsub : ∀ c ∈ rest, c ∈ text) : Unicode rest := fun c hc => h c (hsub c hc)

theorem Unicode.tail {c : Nat} (h : Unicode (c :: text)) : Unicode text := fun d hd => h d (.tail _ hd)

/-! ### Strings -/

theorem hexDigit_lt {c n : Nat} (h : hexDigit c = some n) : n < 16 := by
  simp only [hexDigit, isDigit, decide_eq_true_eq] at h
  split_ifs at h <;> cases h <;> omega

theorem hex4_lt {a b c d n : Nat} (h : hex4 a b c d = some n) : n < 0x10000 := by
  simp only [hex4, Option.bind_eq_bind, Option.bind_eq_some_iff, Option.pure_def, Option.some.injEq] at h
  obtain ⟨x, hx, y, hy, z, hz, w, hw, rfl⟩ := h
  have := hexDigit_lt hx
  have := hexDigit_lt hy
  have := hexDigit_lt hz
  have := hexDigit_lt hw
  omega

theorem prepend_eq_some {c : Nat} {r : Option (Text × Text)} (h : prepend c r = some (s, rest)) :
    ∃ s', s = c :: s' ∧ r = some (s', rest) := by
  obtain ⟨x, rfl, hx⟩ := Option.map_eq_some_iff.1 h
  cases hx
  exact ⟨x.1, rfl, rfl⟩

theorem unescape_lt {c n : Nat} (h : unescape c = some n) : n < 128 := by
  simp only [unescape] at h
  split_ifs at h <;> cases h <;> omega

theorem Writable.cons {c : Nat} (hc : c < 0x110000) (h : Rootfs.Writable s)
    (hpair : isHigh c = true → ∀ d ∈ s.head?, isLow d = false) : Rootfs.Writable (c :: s) where
  points := by
    intro d hd
    obtain rfl | hd := List.mem_cons.1 hd
    · exact hc
    · exact h.points d hd
  unpaired := by
    cases s with
    | nil => exact List.isChain_singleton c
    | cons d s =>
        refine List.isChain_cons_cons.2 ⟨?_, h.unpaired⟩
        rintro ⟨hhigh, hlow⟩
        rw [hpair hhigh d rfl] at hlow
        cases hlow

/-- A low surrogate at the head of a string comes from an escape of it. -/
theorem scanString_head (ht : Unicode text) (h : scanString text = some (s, rest)) {d : Nat} (hd : d ∈ s.head?)
    (hlow : isLow d = true) :
    ∃ x y z w tail, text = 92 :: 117 :: x :: y :: z :: w :: tail ∧ hex4 x y z w = some d := by
  obtain ⟨s, rfl⟩ : ∃ s', s = d :: s' := by
    cases s with
    | nil => cases hd
    | cons c s =>
        obtain rfl := Option.some.inj hd
        exact ⟨s, rfl⟩
  have hlow' : 0xdc00 ≤ d ∧ d ≤ 0xdfff := of_decide_eq_true hlow
  rw [scanString.eq_def] at h
  split at h
  case h_1 => cases h
  case h_2 => cases h
  case h_3 x y z w x' y' z' w' tail =>
    split at h
    next u u' hu hu' =>
      split at h
      next hpair =>
        obtain ⟨s', hs', -⟩ := prepend_eq_some h
        have hjoined := (List.cons.inj hs').1
        unfold joinSurrogates at hjoined
        omega
      next =>
        obtain ⟨s', hs', -⟩ := prepend_eq_some h
        obtain ⟨rfl, -⟩ := List.cons.inj hs'
        exact ⟨x, y, z, w, _, rfl, hu⟩
    · cases h
  case h_4 x y z w tail _ =>
    split at h
    next u hu =>
      obtain ⟨s', hs', -⟩ := prepend_eq_some h
      obtain ⟨rfl, -⟩ := List.cons.inj hs'
      exact ⟨x, y, z, w, tail, rfl, hu⟩
    · cases h
  case h_5 c tail _ _ =>
    split at h
    next c' hc' =>
      obtain ⟨s', hs', -⟩ := prepend_eq_some h
      obtain ⟨rfl, -⟩ := List.cons.inj hs'
      have := unescape_lt hc'
      omega
    · cases h
  case h_6 c tail _ _ =>
    split at h
    · cases h
    · obtain ⟨s', hs', -⟩ := prepend_eq_some h
      obtain ⟨rfl, -⟩ := List.cons.inj hs'
      have := ht d (.head _)
      omega

/-- A double-quoted string, as it is read. -/
theorem scanString_writable (ht : Unicode text) (h : scanString text = some (s, rest)) :
    Rootfs.Writable s ∧ Unicode rest := by
  fun_induction scanString text generalizing s rest with
  | case1 => cases h
  | case2 rest' =>
      cases h
      exact ⟨⟨by simp, List.isChain_nil⟩, ht.tail⟩
  | case3 a b c d a' b' c' d' tail u u' hu' hu hpair ih =>
      obtain ⟨s', rfl, hs'⟩ := prepend_eq_some h
      have htail : Unicode tail := ht.mono fun e he => by simp [he]
      obtain ⟨hw, hrest⟩ := ih htail hs'
      have hhigh : 0xd800 ≤ u ∧ u ≤ 0xdbff := of_decide_eq_true hpair.1
      have hlow : 0xdc00 ≤ u' ∧ u' ≤ 0xdfff := of_decide_eq_true hpair.2
      have hpoint : 0x10000 ≤ joinSurrogates u u' ∧ joinSurrogates u u' < 0x110000 := by
        unfold joinSurrogates
        omega
      refine ⟨hw.cons hpoint.2 ?_, hrest⟩
      intro hjoined
      have : joinSurrogates u u' ≤ 0xdbff := (of_decide_eq_true hjoined).2
      omega
  | case4 a b c d a' b' c' d' tail u u' hu' hu hpair ih =>
      obtain ⟨s', rfl, hs'⟩ := prepend_eq_some h
      have htail : Unicode (92 :: 117 :: a' :: b' :: c' :: d' :: tail) := ht.mono fun e he => by
        simp only [List.mem_cons] at he ⊢
        tauto
      obtain ⟨hw, hrest⟩ := ih htail hs'
      refine ⟨hw.cons (Nat.lt_trans (hex4_lt hu) (by decide)) ?_, hrest⟩
      intro hhigh e he
      by_contra hlow
      rw [Bool.not_eq_false] at hlow
      obtain ⟨x, y, z, w, _, heq, hx⟩ := scanString_head htail hs' he hlow
      simp only [List.cons.injEq, true_and] at heq
      obtain ⟨rfl, rfl, rfl, rfl, -⟩ := heq
      obtain rfl := Option.some.inj (hu'.symm.trans hx)
      exact hpair ⟨hhigh, hlow⟩
  | case5 => cases h
  | case6 a b c d tail hno u hu ih =>
      obtain ⟨s', rfl, hs'⟩ := prepend_eq_some h
      have htail : Unicode tail := ht.mono fun e he => by simp [he]
      obtain ⟨hw, hrest⟩ := ih htail hs'
      refine ⟨hw.cons (Nat.lt_trans (hex4_lt hu) (by decide)) ?_, hrest⟩
      intro _ e he
      by_contra hlow
      rw [Bool.not_eq_false] at hlow
      obtain ⟨x, y, z, w, _, heq, -⟩ := scanString_head htail hs' he hlow
      exact hno _ _ _ _ _ heq
  | case7 => cases h
  | case8 c tail _ _ c' hc' ih =>
      obtain ⟨s', rfl, hs'⟩ := prepend_eq_some h
      obtain ⟨hw, hrest⟩ := ih ht.tail.tail hs'
      have hsmall := unescape_lt hc'
      refine ⟨hw.cons (by omega) ?_, hrest⟩
      intro hhigh
      have : 0xd800 ≤ c' := (of_decide_eq_true hhigh).1
      omega
  | case9 => cases h
  | case10 => cases h
  | case11 c tail _ _ _ _ _ ih =>
      obtain ⟨s', rfl, hs'⟩ := prepend_eq_some h
      obtain ⟨hw, hrest⟩ := ih ht.tail hs'
      have hc := ht c (.head _)
      refine ⟨hw.cons hc.1 ?_, hrest⟩
      intro hhigh
      have : 0xd800 ≤ c ∧ c ≤ 0xdbff := of_decide_eq_true hhigh
      omega

/-- A single-quoted string, as it is read. -/
theorem scanSingle_unicode (ht : Unicode text) (h : scanSingle text = some (s, rest)) : Unicode s ∧ Unicode rest := by
  fun_induction scanSingle text generalizing s rest with
  | case1 => cases h
  | case2 tail ih =>
      obtain ⟨s', rfl, hs'⟩ := prepend_eq_some h
      obtain ⟨hs, hrest⟩ := ih ht.tail.tail hs'
      refine ⟨?_, hrest⟩
      intro c hc
      obtain rfl | hc := List.mem_cons.1 hc
      · decide
      · exact hs c hc
  | case3 tail _ =>
      cases h
      exact ⟨by simp [Unicode], ht.tail⟩
  | case4 c tail _ _ ih =>
      obtain ⟨s', rfl, hs'⟩ := prepend_eq_some h
      obtain ⟨hs, hrest⟩ := ih ht.tail hs'
      refine ⟨?_, hrest⟩
      intro d hd
      obtain rfl | hd := List.mem_cons.1 hd
      · exact ht d (.head _)
      · exact hs d hd

/-! ### Values -/

theorem plain_writable {place token : Text} {s : Scalar} (ht : Unicode token) (h : plain place token = .ok s) :
    s.Writable := by
  rw [plain] at h
  split_ifs at h <;> cases h
  iterate 4 trivial
  exact writable_of_unicode ht

theorem plainEnd_subset (flow : Bool) (text : Text) :
    (∀ c ∈ (plainEnd flow text).1, c ∈ text) ∧ ∀ c ∈ (plainEnd flow text).2, c ∈ text := by
  induction text with
  | nil => exact ⟨fun _ => id, fun _ => id⟩
  | cons c text ih =>
      rw [plainEnd]
      split
      · exact ⟨by simp, fun _ => id⟩
      · refine ⟨?_, fun d hd => .tail _ (ih.2 d hd)⟩
        intro d hd
        obtain rfl | hd := List.mem_cons.1 hd
        · exact .head _
        · exact .tail _ (ih.1 d hd)

theorem strip_subset (text : Text) : ∀ c ∈ strip text, c ∈ text := by
  intro c hc
  exact (List.dropWhile_sublist _).subset ((List.rdropWhile_prefix _ _).subset hc)

theorem skip_subset (text : Text) : ∀ c ∈ skip text, c ∈ text := fun _ hc => (List.dropWhile_sublist _).subset hc

theorem matchKey_ok {key : Text} (h : matchKey text = some (key, rest)) :
    IsKey key ∧ ∀ c ∈ rest, c ∈ text := by
  cases text with
  | nil => cases h
  | cons c text =>
      rw [matchKey] at h
      split at h
      next hc =>
        cases h
        refine ⟨?_, fun d hd => .tail _ ((List.dropWhile_sublist _).subset hd)⟩
        have hall : ∀ d ∈ text.takeWhile (fun c => isLetter c || isDigit c || c == 95 || c == 45),
            (isLetter d || isDigit d || d == 95 || d == 45) = true := by
          intro d hd
          have hmore := List.mem_takeWhile_imp hd
          exact hmore
        rw [IsKey, matchKey, if_pos hc]
        simp only [List.takeWhile_eq_self_iff.2 hall, List.dropWhile_eq_nil_iff.2 hall]
      · cases h

/-- Entries that have been read. -/
structure Entries (entries : List (Text × Value)) : Prop where
  keys : ∀ e ∈ entries, IsKey e.1
  nodup : (entries.map (·.1)).Nodup
  values : ∀ e ∈ entries, e.2.Readable

theorem Entries.map {entries : List (Text × Value)} (h : Entries entries) : (Value.map entries).Readable :=
  .map h.keys h.nodup h.values

theorem Entries.concat {entries : List (Text × Value)} {key : Text} (h : Entries entries) (hkey : IsKey key)
    (hnew : hasKey entries key = false) (hv : v.Readable) : Entries (entries ++ [(key, v)]) where
  keys := by
    intro e he
    obtain he | he := List.mem_append.1 he
    · exact h.keys e he
    · rwa [List.mem_singleton.1 he]
  nodup := by
    rw [List.map_append, List.nodup_append]
    refine ⟨h.nodup, List.nodup_singleton _, ?_⟩
    rintro a ha b hb rfl
    obtain rfl := List.mem_singleton.1 hb
    exact hasKey_eq_false.1 hnew ha
  values := by
    intro e he
    obtain he | he := List.mem_append.1 he
    · exact h.values e he
    · rwa [List.mem_singleton.1 he]

/-- What a value on one line is, and a mapping and a list from the middle on. -/
theorem value_readable (place : Text) (fuel : Nat) :
    (∀ {flow : Bool} {text v rest}, Unicode text → value place fuel flow text = .ok (v, rest) →
      v.Readable ∧ Unicode rest) ∧
    (∀ {text acc v rest}, Unicode text → Entries acc → flowMapping place fuel text acc = .ok (v, rest) →
      v.Readable ∧ Unicode rest) ∧
    ∀ {text acc v rest}, Unicode text → (∀ item ∈ acc, item.Readable) → flowList place fuel text acc = .ok (v, rest) →
      v.Readable ∧ Unicode rest := by
  induction fuel with
  | zero =>
      refine ⟨?_, ?_, ?_⟩ <;> intros <;> contradiction
  | succ fuel ih =>
      obtain ⟨ihv, ihm, ihl⟩ := ih
      refine ⟨?_, ?_, ?_⟩
      · intro flow text v rest ht h
        rw [value] at h
        split at h
        · cases h
        next c tail heq =>
          have htext : Unicode (c :: tail) := ht.mono fun d hd => skip_subset text d (heq ▸ hd)
          split at h
          next =>
            split at h
            next s left hs =>
              obtain ⟨hw, hleft⟩ := scanString_writable htext.tail hs
              cases h
              exact ⟨.scalar hw, hleft⟩
            · cases h
          split at h
          next =>
            split at h
            next s left hs =>
              obtain ⟨hu, hleft⟩ := scanSingle_unicode htext.tail hs
              cases h
              exact ⟨.scalar (writable_of_unicode hu), hleft⟩
            · cases h
          have hskip : Unicode (skip tail) := htext.tail.mono (skip_subset tail)
          split at h
          next =>
            split at h
            next left heq' =>
              cases h
              rw [heq'] at hskip
              exact ⟨.map (by simp) (by simp) (by simp), hskip.tail⟩
            · exact ihm hskip ⟨by simp, by simp, by simp⟩ h
          split at h
          next =>
            split at h
            next left heq' =>
              cases h
              rw [heq'] at hskip
              exact ⟨.list (by simp), hskip.tail⟩
            · exact ihl hskip (by simp) h
          split at h
          · cases h
          simp only at h
          split at h
          · cases h
          obtain ⟨s, hs, h⟩ := bind_ok.1 h
          cases h
          obtain ⟨htoken, hleft⟩ := plainEnd_subset flow (c :: tail)
          refine ⟨.scalar (plain_writable ?_ hs), htext.mono hleft⟩
          exact htext.mono fun d hd => htoken d (strip_subset _ d hd)
      · intro text acc v rest ht hacc h
        rw [flowMapping] at h
        split at h
        next key tail hkey =>
          obtain ⟨hkey, hsub⟩ := matchKey_ok hkey
          have htail : Unicode tail := ht.mono fun c hc => skip_subset text c (hsub c (.tail _ hc))
          split at h
          · cases h
          next hnew =>
            rw [Bool.not_eq_true] at hnew
            obtain ⟨⟨item, left⟩, hitem, h⟩ := bind_ok.1 h
            obtain ⟨hv, hleft⟩ := ihv htail hitem
            have hconcat := hacc.concat hkey hnew hv
            simp only at h
            split at h
            next next heq =>
              have hnext : Unicode next := hleft.mono fun c hc => skip_subset left c (heq ▸ .tail _ hc)
              exact ihm hnext hconcat h
            next next heq =>
              have hnext : Unicode next := hleft.mono fun c hc => skip_subset left c (heq ▸ .tail _ hc)
              cases h
              exact ⟨hconcat.map, hnext⟩
            · cases h
        · cases h
      · intro text acc v rest ht hacc h
        rw [flowList] at h
        obtain ⟨⟨item, left⟩, hitem, h⟩ := bind_ok.1 h
        obtain ⟨hv, hleft⟩ := ihv ht hitem
        have hconcat : ∀ x ∈ acc ++ [item], x.Readable := by
          intro x hx
          obtain hx | hx := List.mem_append.1 hx
          · exact hacc x hx
          · rwa [List.mem_singleton.1 hx]
        simp only at h
        split at h
        next next heq =>
          have hnext : Unicode next := hleft.mono fun c hc => skip_subset left c (heq ▸ .tail _ hc)
          exact ihl hnext hconcat h
        next next heq =>
          have hnext : Unicode next := hleft.mono fun c hc => skip_subset left c (heq ▸ .tail _ hc)
          cases h
          exact ⟨.list hconcat, hnext⟩
        · cases h

theorem inline_readable {place : Text} (ht : Unicode text) (h : inline place text = .ok v) : v.Readable := by
  obtain ⟨⟨item, left⟩, hitem, h⟩ := bind_ok.1 h
  simp only at h
  split at h
  · cases h
  · cases h
    exact ((value_readable place _).1 ht hitem).1

/-! ### Blocks -/

variable {what : Text} {indent : Nat} {lines left : List Line}

theorem blockList_readable {items : List Value} (hlines : ∀ l ∈ lines, Unicode l.text)
    (hitems : ∀ item ∈ items, item.Readable) (h : blockList what indent lines items = .ok (v, left)) :
    v.Readable ∧ ∀ l ∈ left, l ∈ lines := by
  induction lines generalizing items with
  | nil =>
      cases h
      exact ⟨.list hitems, fun _ => id⟩
  | cons line lines ih =>
      rw [blockList] at h
      split at h
      · cases h
        exact ⟨.list hitems, fun _ => id⟩
      split at h
      · cases h
      split at h
      · cases h
        exact ⟨.list hitems, fun _ => id⟩
      simp only at h
      split at h
      · cases h
      split at h
      · cases h
      obtain ⟨item, hitem, h⟩ := bind_ok.1 h
      have htext : Unicode (strip (line.text.drop 1)) :=
        (hlines line (.head _)).mono fun c hc => List.mem_of_mem_drop (strip_subset _ c hc)
      obtain ⟨hv, hleft⟩ := ih (fun l hl => hlines l (.tail _ hl)) (by
        intro x hx
        obtain hx | hx := List.mem_append.1 hx
        · exact hitems x hx
        · rw [List.mem_singleton.1 hx]
          exact inline_readable htext hitem) h
      exact ⟨hv, fun l hl => .tail _ (hleft l hl)⟩

theorem blockMapping_readable {fuel : Nat} {acc : List (Text × Value)} (hlines : ∀ l ∈ lines, Unicode l.text)
    (hacc : Entries acc) (h : blockMapping what fuel indent lines acc = .ok (v, left)) :
    v.Readable ∧ ∀ l ∈ left, l ∈ lines := by
  induction fuel generalizing indent lines acc v left with
  | zero => cases h
  | succ fuel ih =>
      cases lines with
      | nil =>
          cases h
          exact ⟨hacc.map, fun _ => id⟩
      | cons line lines =>
          rw [blockMapping] at h
          split at h
          · cases h
            exact ⟨hacc.map, fun _ => id⟩
          split at h
          · cases h
          split at h
          · cases h
          split at h
          next key tail hkey =>
            obtain ⟨hkey, hsub⟩ := matchKey_ok hkey
            have htail : Unicode tail := (hlines line (.head _)).mono fun c hc => hsub c (.tail _ hc)
            have hrest : ∀ l ∈ lines, Unicode l.text := fun l hl => hlines l (.tail _ hl)
            split at h
            · cases h
            split at h
            · cases h
            next hnew =>
              rw [Bool.not_eq_true] at hnew
              simp only at h
              split at h
              · obtain ⟨item, hitem, h⟩ := bind_ok.1 h
                have hv := inline_readable (htail.mono (strip_subset tail)) hitem
                obtain ⟨hv, hleft⟩ := ih hrest (hacc.concat hkey hnew hv) h
                exact ⟨hv, fun l hl => .tail _ (hleft l hl)⟩
              · -- a value on lines of its own: the lines after it are a part of these
                have hafter : ∀ {item : Value} {more : List Line}, item.Readable → (∀ l ∈ more, l ∈ lines) →
                    blockMapping what fuel indent more (acc ++ [(key, item)]) = .ok (v, left) →
                    v.Readable ∧ ∀ l ∈ left, l ∈ line :: lines := by
                  intro item more hv hmore h
                  obtain ⟨hv, hleft⟩ := ih (fun l hl => hrest l (hmore l hl)) (hacc.concat hkey hnew hv) h
                  exact ⟨hv, fun l hl => .tail _ (hmore l (hleft l hl))⟩
                have hnull : (Value.scalar .null).Readable := .scalar trivial
                cases lines with
                | nil => exact hafter hnull (fun _ => id) h
                | cons next lines =>
                    simp only at h
                    split at h
                    · split at h
                      · obtain ⟨⟨item, more⟩, hitem, h⟩ := bind_ok.1 h
                        obtain ⟨hv, hmore⟩ := blockList_readable hrest (by simp) hitem
                        exact hafter hv hmore h
                      · obtain ⟨⟨item, more⟩, hitem, h⟩ := bind_ok.1 h
                        obtain ⟨hv, hmore⟩ := ih hrest ⟨by simp, by simp, by simp⟩ hitem
                        exact hafter hv hmore h
                    split at h
                    · obtain ⟨⟨item, more⟩, hitem, h⟩ := bind_ok.1 h
                      obtain ⟨hv, hmore⟩ := blockList_readable hrest (by simp) hitem
                      exact hafter hv hmore h
                    · exact hafter hnull (fun _ => id) h
          · cases h

/-- A line is a part of the text. -/
theorem readLines_subset {number : Nat} {raws : List Text} {result : List Line}
    (hraws : ∀ raw ∈ raws, Unicode raw) (hlines : ∀ l ∈ lines, Unicode l.text)
    (h : readLines what number raws lines = .ok result) : ∀ l ∈ result, Unicode l.text := by
  induction raws generalizing number lines with
  | nil =>
      cases h
      exact hlines
  | cons raw raws ih =>
      have hmore : ∀ raw ∈ raws, Unicode raw := fun r hr => hraws r (.tail _ hr)
      rw [readLines] at h
      simp only at h
      split at h
      · cases h
      split at h
      · exact ih hmore hlines h
      · refine ih hmore ?_ h
        intro l hl
        obtain hl | hl := List.mem_append.1 hl
        · exact hlines l hl
        · obtain rfl := List.mem_singleton.1 hl
          refine (hraws raw (.head _)).mono fun c hc => ?_
          exact (List.rdropWhile_prefix _ _).subset ((List.dropWhile_sublist _).subset hc)

theorem mem_of_mem_splitOn {c sep : Nat} {part : Text} (hpart : part ∈ text.splitOn sep) (hc : c ∈ part) :
    c ∈ text := by
  induction text generalizing part with
  | nil =>
      rw [List.splitOn_nil] at hpart
      rwa [List.mem_singleton.1 hpart] at hc
  | cons d text ih =>
      rw [List.splitOn_cons_eq_if_modifyHead] at hpart
      split at hpart
      · obtain rfl | hpart := List.mem_cons.1 hpart
        · cases hc
        · exact .tail _ (ih hpart hc)
      · obtain ⟨first, parts, hparts⟩ := List.exists_cons_of_ne_nil (List.splitOn_ne_nil sep text)
        rw [hparts] at hpart ih
        obtain rfl | hpart := List.mem_cons.1 hpart
        · obtain rfl | hc := List.mem_cons.1 hc
          · exact .head _
          · exact .tail _ (ih (.head _) hc)
        · exact .tail _ (ih (.tail _ hpart) hc)

/-- What is read of a text of Unicode scalar values. -/
theorem parseYaml_readable (ht : Unicode text) (h : parseYaml text what = .ok v) : v.Readable := by
  obtain ⟨lines, hlines, h⟩ := bind_ok.1 h
  have hunicode := readLines_subset (fun part hpart => ht.mono fun c => mem_of_mem_splitOn hpart) (by simp) hlines
  split at h
  · cases h
  split at h
  · cases h
  simp only at h
  split at h
  · obtain ⟨⟨document, left⟩, hdocument, h⟩ := bind_ok.1 h
    have hreadable := (blockList_readable hunicode (by simp) hdocument).1
    split at h
    · cases h
      exact hreadable
    · cases h
  · obtain ⟨⟨document, left⟩, hdocument, h⟩ := bind_ok.1 h
    have hreadable := (blockMapping_readable hunicode ⟨by simp, by simp, by simp⟩ hdocument).1
    split at h
    · cases h
      exact hreadable
    · cases h

/-! ### Rounds -/

/-- A result that a loop did not run out of rounds for, and what it is like. -/
def Suffices {α : Type} (r : Result α) (P : α → Prop) : Prop := r ≠ .error .exhausted ∧ ∀ a, r = .ok a → P a

section Rules

variable {α β : Type} {r : Result α} {f : α → Result β} {P Q : α → Prop} {R : β → Prop}

theorem suffices_ok {a : α} (h : P a) : Suffices (.ok a) P := ⟨by simp, fun _ hb => Except.ok.inj hb ▸ h⟩

theorem suffices_invalid {message : Text} : Suffices (invalid message) P := ⟨by simp [invalid], by simp [invalid]⟩

theorem suffices_bind (h : Suffices r P) (hf : ∀ a, P a → Suffices (f a) R) : Suffices (r >>= f) R := by
  cases r with
  | error e =>
      refine ⟨fun heq => h.1 (congrArg Except.error (Except.error.inj heq)), ?_⟩
      intro b hb
      cases hb
  | ok a => exact hf a (h.2 a rfl)

theorem Suffices.mono (h : Suffices r P) (hPQ : ∀ a, P a → Q a) : Suffices r Q := ⟨h.1, fun a ha => hPQ a (h.2 a ha)⟩

end Rules

theorem plain_suffices (place token : Text) : Suffices (plain place token) fun _ => True := by
  rw [plain]
  split_ifs
  iterate 3 exact suffices_ok trivial
  · exact suffices_invalid
  · exact suffices_ok trivial
  · exact suffices_invalid
  · exact suffices_ok trivial

theorem length_prepend {c n : Nat} {r : Option (Text × Text)} (hr : ∀ {s rest}, r = some (s, rest) → rest.length ≤ n)
    (h : prepend c r = some (s, rest)) : rest.length ≤ n := by
  obtain ⟨s', -, hs'⟩ := prepend_eq_some h
  exact hr hs'

theorem length_scanString (h : scanString text = some (s, rest)) : rest.length ≤ text.length := by
  fun_induction scanString text generalizing s rest with
  | case1 | case5 | case7 | case9 | case10 => cases h
  | case2 tail =>
      cases h
      exact Nat.le_succ _
  | case3 a b c d a' b' c' d' tail u u' hu' hu hpair ih =>
      have hle := length_prepend ih h
      simp only [List.length_cons]
      omega
  | case4 a b c d a' b' c' d' tail u u' hu' hu hpair ih =>
      have hle := length_prepend ih h
      simp only [List.length_cons] at hle ⊢
      omega
  | case6 a b c d tail hno u hu ih =>
      have hle := length_prepend ih h
      simp only [List.length_cons]
      omega
  | case8 c tail _ _ c' hc' ih =>
      have hle := length_prepend ih h
      simp only [List.length_cons]
      omega
  | case11 c tail _ _ _ _ _ ih => exact (length_prepend ih h).trans (Nat.le_succ _)

theorem length_scanSingle (h : scanSingle text = some (s, rest)) : rest.length ≤ text.length := by
  fun_induction scanSingle text generalizing s rest with
  | case1 => cases h
  | case2 tail ih => exact (length_prepend ih h).trans ((Nat.le_succ _).trans (Nat.le_succ _))
  | case3 tail _ =>
      cases h
      exact Nat.le_succ _
  | case4 c tail _ _ ih => exact (length_prepend ih h).trans (Nat.le_succ _)

theorem length_plainEnd (flow : Bool) (text : Text) : (plainEnd flow text).2.length ≤ text.length := by
  induction text with
  | nil => exact le_rfl
  | cons c text ih =>
      rw [plainEnd]
      split
      · exact le_rfl
      · exact ih.trans (Nat.le_succ _)

theorem length_skip (text : Text) : (skip text).length ≤ text.length := (List.dropWhile_sublist _).length_le

theorem length_of_skip {c : Nat} (h : skip text = c :: rest) : rest.length < text.length := by
  have hle := length_skip text
  rw [h] at hle
  exact hle

/-- A key is a character at least, so behind its colon there are two fewer. -/
theorem length_matchKey {key : Text} (h : matchKey text = some (key, 58 :: rest)) : rest.length + 1 < text.length := by
  cases text with
  | nil => cases h
  | cons c text =>
      rw [matchKey] at h
      split at h
      · obtain ⟨-, hrest⟩ := Prod.mk.inj (Option.some.inj h)
        have hle := (List.dropWhile_sublist (l := text) fun c => isLetter c || isDigit c || c == 95 || c == 45).length_le
        rw [hrest] at hle
        simp only [List.length_cons] at hle ⊢
        omega
      · cases h

/-- A bracket takes two rounds, one for the value and one for what is in it. -/
theorem value_suffices (place : Text) (fuel : Nat) :
    (∀ flow text, 2 * text.length + 1 ≤ fuel →
      Suffices (value place fuel flow text) fun r => r.2.length ≤ text.length) ∧
    (∀ text acc, 2 * text.length + 2 ≤ fuel →
      Suffices (flowMapping place fuel text acc) fun r => r.2.length ≤ text.length) ∧
    ∀ text acc, 2 * text.length + 2 ≤ fuel →
      Suffices (flowList place fuel text acc) fun r => r.2.length ≤ text.length := by
  induction fuel with
  | zero =>
      refine ⟨?_, ?_, ?_⟩
      · intro flow text h
        omega
      · intro text acc h
        omega
      · intro text acc h
        omega
  | succ fuel ih =>
      obtain ⟨ihv, ihm, ihl⟩ := ih
      refine ⟨?_, ?_, ?_⟩
      · intro flow text h
        rw [value]
        split
        · exact suffices_invalid
        next c tail heq =>
          have hlt := length_of_skip heq
          have hskip := length_skip tail
          split
          · split
            · next s left hs => exact suffices_ok ((length_scanString hs).trans hlt.le)
            · exact suffices_invalid
          split
          · split
            · next s left hs => exact suffices_ok ((length_scanSingle hs).trans hlt.le)
            · exact suffices_invalid
          split
          · split
            · next left heq' => exact suffices_ok ((length_of_skip heq').le.trans hlt.le)
            · exact (ihm _ [] (by omega)).mono fun _ hr => hr.trans (hskip.trans hlt.le)
          split
          · split
            · next left heq' => exact suffices_ok ((length_of_skip heq').le.trans hlt.le)
            · exact (ihl _ [] (by omega)).mono fun _ hr => hr.trans (hskip.trans hlt.le)
          split
          · exact suffices_invalid
          dsimp only
          split
          · exact suffices_invalid
          · refine suffices_bind (plain_suffices _ _) fun s _ => suffices_ok ?_
            exact (length_plainEnd flow (c :: tail)).trans (heq ▸ length_skip text)
      · intro text acc h
        rw [flowMapping]
        split
        next key tail hkey =>
          have hlt := (length_matchKey hkey).trans_le (length_skip text)
          split
          · exact suffices_invalid
          · refine suffices_bind (ihv true tail (by omega)) ?_
            rintro ⟨item, left⟩ hle
            dsimp only at hle ⊢
            split
            · next heq =>
                have hnext := length_of_skip heq
                exact (ihm _ _ (by omega)).mono fun _ hr => by omega
            · next heq =>
                have hnext := length_of_skip heq
                exact suffices_ok (by dsimp only; omega)
            · exact suffices_invalid
        · exact suffices_invalid
      · intro text acc h
        rw [flowList]
        refine suffices_bind (ihv true text (by omega)) ?_
        rintro ⟨item, left⟩ hle
        dsimp only at hle ⊢
        split
        · next heq =>
            have hnext := length_of_skip heq
            exact (ihl _ _ (by omega)).mono fun _ hr => by omega
        · next heq =>
            have hnext := length_of_skip heq
            exact suffices_ok (by dsimp only; omega)
        · exact suffices_invalid

theorem inline_suffices (place text : Text) : Suffices (inline place text) fun _ => True := by
  refine suffices_bind ((value_suffices place _).1 false text (by omega)) ?_
  rintro ⟨item, rest⟩ -
  dsimp only
  split
  · exact suffices_invalid
  · exact suffices_ok trivial

theorem blockList_suffices (lines : List Line) (items : List Value) :
    Suffices (blockList what indent lines items) fun r => r.2.length ≤ lines.length := by
  induction lines generalizing items with
  | nil => exact suffices_ok le_rfl
  | cons line lines ih =>
      rw [blockList]
      split
      · exact suffices_ok le_rfl
      split
      · exact suffices_invalid
      split
      · exact suffices_ok le_rfl
      dsimp only
      split
      · exact suffices_invalid
      split
      · exact suffices_invalid
      exact suffices_bind (inline_suffices _ _) fun item _ => (ih _).mono fun _ hr => hr.trans (Nat.le_succ _)

/-- Every round takes a line, and leaves the rest to the rounds that are left. -/
theorem blockMapping_suffices {fuel : Nat} {acc : List (Text × Value)} (hfuel : lines.length < fuel) :
    Suffices (blockMapping what fuel indent lines acc) fun r => r.2.length ≤ lines.length := by
  induction fuel generalizing indent lines acc with
  | zero => omega
  | succ fuel ih =>
      cases lines with
      | nil => exact suffices_ok le_rfl
      | cons line lines =>
          rw [List.length_cons] at hfuel ⊢
          -- what comes after a value, on the lines that it has left
          have hafter : ∀ {more : List Line} {acc}, more.length ≤ lines.length →
              Suffices (blockMapping what fuel indent more acc) fun r => r.2.length ≤ lines.length + 1 := by
            intro more acc hmore
            exact (ih (by omega)).mono fun _ hr => hr.trans (hmore.trans (Nat.le_succ _))
          rw [blockMapping]
          split
          · exact suffices_ok (by simp)
          split
          · exact suffices_invalid
          split
          · exact suffices_invalid
          split
          next key tail hkey =>
            split
            · exact suffices_invalid
            split
            · exact suffices_invalid
            dsimp only
            split
            · exact suffices_bind (inline_suffices _ _) fun item _ => hafter le_rfl
            cases lines with
            | nil => exact hafter le_rfl
            | cons next lines =>
                dsimp only
                split
                · split
                  · refine suffices_bind (blockList_suffices _ _) ?_
                    rintro ⟨item, more⟩ hmore
                    exact hafter hmore
                  · refine suffices_bind (ih (by omega)) ?_
                    rintro ⟨item, more⟩ hmore
                    exact hafter hmore
                split
                · refine suffices_bind (blockList_suffices _ _) ?_
                  rintro ⟨item, more⟩ hmore
                  exact hafter hmore
                · exact hafter le_rfl
          · exact suffices_invalid

theorem readLines_suffices (number : Nat) (raws : List Text) (lines : List Line) :
    Suffices (readLines what number raws lines) fun _ => True := by
  induction raws generalizing number lines with
  | nil => exact suffices_ok trivial
  | cons raw raws ih =>
      rw [readLines]
      dsimp only
      split
      · exact suffices_invalid
      split
      · exact ih _ _
      · exact ih _ _

/-- **No loop of the reader runs out of rounds**, whatever the text. -/
theorem parseYaml_ne_exhausted (text what : Text) : parseYaml text what ≠ .error .exhausted := by
  have hsuffices : Suffices (parseYaml text what) fun _ => True := by
    refine suffices_bind (readLines_suffices _ _ _) fun lines _ => ?_
    split
    · exact suffices_invalid
    split
    · exact suffices_invalid
    dsimp only
    split
    · refine suffices_bind (blockList_suffices _ _) ?_
      rintro ⟨document, left⟩ -
      dsimp only
      split
      · exact suffices_ok trivial
      · exact suffices_invalid
    · refine suffices_bind (blockMapping_suffices (Nat.lt_succ_self _)) ?_
      rintro ⟨document, left⟩ -
      dsimp only
      split
      · exact suffices_ok trivial
      · exact suffices_invalid
  exact hsuffices.1

/-- Brackets that are never closed are an error of the document. -/
example : inline [] (lit "[[[") = invalid (lit "missing value") := rfl

end MiniDarwin.Rootfs
