import MiniDarwin.Rootfs.Blocks
import MiniDarwin.Rootfs.Merkle

/-!
A document that has been written is read back.

What remains, once blocks are read back, is the text as a whole: it is
split into the lines that were joined, the comments at its head are passed
over, and every other line gives its indentation and its text.
-/

namespace MiniDarwin.Rootfs

open Data

/-- A line with nothing but a comment. -/
def IsComment (line : Text) : Prop := ∃ k t, line = List.replicate k 32 ++ 35 :: t ∧ 10 ∉ t

/-- A header of comment lines. -/
def headerOf (comments : List Text) : Text := comments.flatMap (· ++ [10])

variable (what : Text) {shapes : List Shape}

/-- Texts of which each is ended by the same character, taken apart again. -/
theorem splitOn_lines {c : Nat} {ls : List Text} (h : ∀ l ∈ ls, c ∉ l) : (ls.flatMap (· ++ [c])).splitOn c = ls ++ [[]] := by
  induction ls with
  | nil => rfl
  | cons l ls ih =>
      rw [List.flatMap_cons, List.append_assoc, List.singleton_append,
        List.splitOn_append_cons_self_of_not_mem (h l (.head _)), ih fun l hl => h l (.tail _ hl), List.cons_append]

theorem intercalate_newline {ls : List Text} (h : ls ≠ []) :
    (lit "\n").intercalate ls ++ lit "\n" = ls.flatMap (· ++ [10]) := by
  rw [show lit "\n" = [10] from rfl]
  induction ls with
  | nil => exact absurd rfl h
  | cons l ls ih =>
      obtain rfl | hne := eq_or_ne ls []
      · simp
      · rw [List.intercalate_cons_of_ne_nil hne, List.append_assoc, ih hne, List.flatMap_cons]

theorem rdropWhile_append_cons {α : Type} {p : α → Bool} {a t : List α} {c : α} (hc : p c = false) :
    (a ++ c :: t).rdropWhile p = a ++ c :: t.rdropWhile p := by
  induction t using List.reverseRecOn with
  | nil => exact List.rdropWhile_concat_neg _ _ _ (by simp [hc])
  | append_singleton t d ih =>
      rw [← List.cons_append, ← List.append_assoc, List.rdropWhile_concat, List.rdropWhile_concat]
      split
      · exact ih
      · simp

theorem dropWhile_replicate {k : Nat} {c : Nat} {t : Text} (hc : c ≠ 32) :
    (List.replicate k 32 ++ c :: t).dropWhile (· = 32) = c :: t := by
  rw [List.dropWhile_append_of_pos (by simp [List.mem_replicate])]
  exact List.dropWhile_cons_of_neg (by simpa using hc)

/-- A line as it is when the white space at its end is gone. -/
theorem take_indent {k : Nat} {c : Nat} {t : Text} :
    (List.replicate k 32 ++ c :: t).length - (c :: t).length = k ∧
      (List.replicate k 32 ++ c :: t).take k = List.replicate k 32 := by
  constructor
  · simp
  · rw [List.take_append_of_le_length (by simp)]
    simp

theorem readLines_comments (n : Nat) {comments : List Text} (rest : List Text) (lines : List Line)
    (h : ∀ l ∈ comments, IsComment l) :
    ∃ m, readLines what n (comments ++ rest) lines = readLines what m rest lines := by
  induction comments generalizing n with
  | nil => exact ⟨n, rfl⟩
  | cons l comments ih =>
      obtain ⟨m, hm⟩ := ih (n + 1) fun l hl => h l (.tail _ hl)
      refine ⟨m, Eq.trans ?_ hm⟩
      obtain ⟨k, t, rfl, -⟩ := h l (.head _)
      rw [List.cons_append, readLines, rdropWhile_append_cons (by decide), dropWhile_replicate (by decide)]
      simp only [take_indent.1, take_indent.2]
      rw [if_neg, if_pos (by simp)]
      simp [List.mem_replicate]

theorem readLines_shapes (n : Nat) (rest : List Text) (lines : List Line) (h : ∀ s ∈ shapes, Proper s.2) :
    ∃ ls m, ls.map Line.shape = shapes ∧
      readLines what n (shapes.map draw ++ rest) lines = readLines what m rest (lines ++ ls) := by
  induction shapes generalizing n lines with
  | nil => exact ⟨[], n, rfl, by simp⟩
  | cons s shapes ih =>
      obtain ⟨col, text⟩ := s
      obtain ⟨ls, m, hls, hread⟩ := ih (n + 1) (lines ++ [⟨n, col, text⟩]) fun s hs => h s (.tail _ hs)
      refine ⟨⟨n, col, text⟩ :: ls, m, by rw [List.map_cons, hls]; rfl, ?_⟩
      have hproper : Proper text := h (col, text) (.head _)
      obtain ⟨c, t, rfl, hspace, hcomment⟩ := hproper.head
      have hdraw : draw (col, c :: t) = List.replicate col 32 ++ c :: t := rfl
      have hc : c ≠ 32 ∧ c ≠ 9 := by
        simp only [isSpace, decide_eq_false_iff_not] at hspace
        omega
      have hbody : (List.replicate col 32 ++ c :: t).rdropWhile (fun c => c = 32 ∨ c = 13) =
          List.replicate col 32 ++ c :: t := by
        rw [List.rdropWhile_eq_self_iff]
        intro hne
        have hend : (List.replicate col 32 ++ c :: t).getLast? = (c :: t).getLast? :=
          List.getLast?_append_of_ne_nil _ (List.cons_ne_nil c t)
        have hlast := hproper.last _ (hend.symm.trans (List.getLast?_eq_some_getLast hne))
        generalize (List.replicate col 32 ++ c :: t).getLast hne = d at hlast
        simp only [isSpace, decide_eq_false_iff_not] at hlast
        simp only [decide_eq_true_eq]
        omega
      rw [List.append_cons, ← hread, List.map_cons, List.cons_append, hdraw, readLines, hbody,
        dropWhile_replicate hc.1]
      simp only [take_indent.1, take_indent.2]
      rw [if_neg, if_neg]
      · simp [hcomment, hproper.noMark]
      · simp [hc.2, List.mem_replicate]

/-- What is written under a header is a text of its own characters and ASCII, and it is read back. -/
theorem dumpYaml_read {comments : List Text} {document : List (Text × Value)} (hcomments : ∀ l ∈ comments, IsComment l)
    (hdocument : (Value.map document).Writable) (hne : document ≠ []) :
    ∃ body, Ascii body ∧ dumpYaml (headerOf comments) document = .ok (headerOf comments ++ body) ∧
      parseYaml (headerOf comments ++ body) what = .ok (.map document) := by
  obtain ⟨shapes, hblock⟩ := blocked hdocument
  obtain ⟨e, entries, rfl⟩ := List.exists_cons_of_ne_nil hne
  obtain ⟨t, tail, hfirst⟩ := hblock.first e rfl
  have hkey : IsKey e.1 := by
    cases hdocument with
    | map keys _ _ => exact keys e (.head _)
  have hlines : shapes.map draw ≠ [] := by simp [hfirst]
  refine ⟨(shapes.map draw).flatMap (· ++ [10]), ?_, ?_, ?_⟩
  · intro c hc
    obtain ⟨l, hl, hc⟩ := List.mem_flatMap.1 hc
    obtain ⟨s, hs, rfl⟩ := List.mem_map.1 hl
    obtain hc | hc := List.mem_append.1 hc
    · obtain hc | hc := List.mem_append.1 hc
      · rw [(List.mem_replicate.1 hc).2]
        decide
      · exact Nat.lt_of_le_of_lt ((hblock.proper s hs).printable c hc).2 (by decide)
    · rw [List.mem_singleton.1 hc]
      decide
  · rw [← intercalate_newline hlines, ← List.append_assoc]
    rw [dumpYaml, hblock.written]
    rfl
  · have hsplit : (headerOf comments ++ (shapes.map draw).flatMap (· ++ [10])).splitOn 10 =
        comments ++ (shapes.map draw ++ [[]]) := by
      rw [headerOf, ← List.flatMap_append, splitOn_lines, List.append_assoc]
      intro l hl
      obtain hl | hl := List.mem_append.1 hl
      · obtain ⟨k, t, rfl, ht⟩ := hcomments l hl
        simp [List.mem_replicate, ht]
      · obtain ⟨s, hs, rfl⟩ := List.mem_map.1 hl
        intro hmem
        obtain hmem | hmem := List.mem_append.1 hmem
        · cases (List.mem_replicate.1 hmem).2
        · exact absurd ((hblock.proper s hs).printable 10 hmem).1 (by decide)
    obtain ⟨m, hm⟩ := readLines_comments what 1 (shapes.map draw ++ [[]]) [] hcomments
    obtain ⟨ls, m', hls, hread⟩ := readLines_shapes what m [[]] [] hblock.proper
    have hend : readLines what m' [[]] ([] ++ ls) = .ok ls := rfl
    have hblocks := hblock.read what (ls.length + 1) ls [] [] hls (by rw [← hls]; simp) (by simp) (by simp)
    rw [hfirst] at hls
    obtain ⟨line, ls, rfl, hline, -⟩ := List.map_eq_cons_iff.1 hls
    obtain ⟨hcol, htext⟩ := Prod.mk.inj hline
    rw [parseYaml, hsplit, hm, hread, hend]
    change (if line.col ≠ 0 then _ else _) = _
    rw [if_neg (not_not.2 hcol), htext, isItem_keyed hkey, if_neg Bool.false_ne_true]
    rw [List.append_nil] at hblocks
    rw [hblocks]
    rfl

/-- A string of Unicode scalar values is one that can be written. -/
theorem writable_of_unicode {s : Text} (h : ∀ c ∈ s, c < 0x110000 ∧ ¬ (0xd800 ≤ c ∧ c ≤ 0xdfff)) :
    Rootfs.Writable s where
  points := fun c hc => (h c hc).1
  unpaired := by
    rw [List.isChain_iff_forall_rel_of_append_cons_cons]
    rintro c d s₁ s₂ rfl ⟨hhigh, -⟩
    have := (h c (by simp)).2
    simp only [isHigh, decide_eq_true_eq] at hhigh
    omega

/-- **What `dump_yaml ()` writes of a document, `parse_yaml ()` reads as the document.** -/
theorem round_trip {comments : List Text} {document : List (Text × Value)} (hcomments : ∀ l ∈ comments, IsComment l)
    (hdocument : (Value.map document).Writable) (hne : document ≠ []) (what : Text) :
    ∃ text, dumpYaml (headerOf comments) document = .ok text ∧ parseYaml text what = .ok (.map document) := by
  obtain ⟨body, -, hdump, hparse⟩ := dumpYaml_read what hcomments hdocument hne
  exact ⟨_, hdump, hparse⟩

/-- A mapping with every kind of value in it. -/
def sample : List (Text × Value) :=
  [(lit "none", null), (lit "list", .list [.scalar (.int (-5)), .map [(lit "k", str (lit "x: y")), (lit "t", .scalar (.bool true))]]),
    (lit "map", .map [(lit "text", str [0x1f600, 0xe9, 10]), (lit "map", .map []), (lit "list", .list [])])]

theorem round_trip_sample : ∃ text, dumpYaml (headerOf [lit "# a header"]) sample = .ok text ∧
    parseYaml text (lit "sample") = .ok (.map sample) := by
  refine round_trip ?_ ?_ (List.cons_ne_nil _ _) (lit "sample")
  · intro l hl
    obtain rfl := List.mem_singleton.1 hl
    exact ⟨0, lit " a header", rfl, by decide⟩
  · have hflat : Flat [(lit "k", .str (lit "x: y")), (lit "t", .bool true)] := by
      refine ⟨by decide, by decide, ?_⟩
      simp only [List.forall_mem_cons, List.not_mem_nil, false_implies, implies_true, and_true]
      exact ⟨writable_of_unicode (by decide), trivial⟩
    have hinner : (Value.map [(lit "text", str [0x1f600, 0xe9, 10]), (lit "map", .map []), (lit "list", .list [])]).Writable := by
      refine .map (by decide) (by decide) ?_
      simp only [List.forall_mem_cons, List.not_mem_nil, false_implies, implies_true, and_true]
      exact ⟨.scalar (writable_of_unicode (by decide)), .map (by simp) (by simp) (by simp), .list (by simp)⟩
    refine .map (by decide) (by decide) ?_
    simp only [List.forall_mem_cons, List.not_mem_nil, false_implies, implies_true, and_true]
    refine ⟨.scalar trivial, .list ?_, hinner⟩
    simp only [List.forall_mem_cons, List.not_mem_nil, false_implies, implies_true, and_true]
    exact ⟨trivial, _, rfl, hflat⟩

end MiniDarwin.Rootfs
