import StackLowering.Proofs.Source.Located
/-! Reading the text of a line by itself. It is what the line was before, up to the number and to
the blanks in front: trimming moves all words to the left together, and no two slashes come to stand
side by side. -/
namespace StackLowering
open Text

namespace Text

/-- What trimming takes away are blanks. -/
private theorem trim_append (cs : List Char) :
    ∃ blanks, (∀ c ∈ blanks, isBlank c = true) ∧
      cs = cs.takeWhile isBlank ++ (trim cs ++ blanks) := by
  let rest := cs.dropWhile isBlank
  refine ⟨(rest.reverse.takeWhile isBlank).reverse, fun c hc => ?_, ?_⟩
  · exact List.all_eq_true.1 List.all_takeWhile c (List.mem_reverse.1 hc)
  · have hr : trim cs ++ (rest.reverse.takeWhile isBlank).reverse = rest := by
      rw [trim, ← List.reverse_append, List.takeWhile_append_dropWhile, List.reverse_reverse]
    rw [hr, List.takeWhile_append_dropWhile]

private theorem isInfix_trim (cs : List Char) : trim cs <:+: cs := by
  obtain ⟨blanks, -, h⟩ := trim_append cs
  exact ⟨cs.takeWhile isBlank, blanks, by rw [List.append_assoc, ← h]⟩

private theorem trim_trim (cs : List Char) : trim (trim cs) = trim cs :=
  trim_eq_self (fun _ h => head?_trim h) fun _ h => getLast?_trim h

end Text

namespace Source

def Word.shift (width : Nat) (w : Word) : Word := ⟨w.column + width, w.text⟩

private theorem runs_add (column width : Nat) (text : List Char) :
    runs (column + width) text = (runs column text).map (Word.shift width) := by
  induction column, text using runs.induct with
  | case1 column => rw [runs_nil, runs_nil, List.map_nil]
  | case2 column c cs hc ih =>
    rw [runs_cons_blank _ hc, runs_cons_blank _ hc, ← ih, Nat.add_right_comm]
  | case3 column c cs hc run ih =>
    rw [runs, runs, if_neg hc, if_neg hc, List.map_cons, ← ih, Nat.add_right_comm]
    rfl

/-- Blanks in front only move the words. -/
private theorem runs_blanks_append {blanks : List Char} (h : ∀ c ∈ blanks, isBlank c = true)
    (column : Nat) (text : List Char) :
    runs column (blanks ++ text) = (runs column text).map (Word.shift blanks.length) := by
  rw [← runs_add]
  induction blanks generalizing column with
  | nil => rfl
  | cons c blanks ih =>
    obtain ⟨hc, hb⟩ := List.forall_mem_cons.1 h
    rw [List.cons_append, runs_cons_blank _ hc, ih hb, List.length_cons, Nat.add_assoc,
      Nat.add_comm 1]

/-- Blanks behind do not matter. -/
private theorem runs_append_blanks {blanks : List Char} (h : ∀ c ∈ blanks, isBlank c = true)
    (column : Nat) (text : List Char) : runs column (text ++ blanks) = runs column text := by
  induction column, text using runs.induct with
  | case1 column =>
    rw [List.nil_append, runs_nil, ← List.append_nil blanks, runs_blanks_append h, runs_nil]
    rfl
  | case2 column c cs hc ih =>
    rw [List.cons_append, runs_cons_blank _ hc, runs_cons_blank _ hc, ih]
  | case3 column c cs hc run ih =>
    obtain ⟨ht, hrun, hrest⟩ := eq_run_append hc cs
    have hb : ∀ x, (cs.dropWhile (!isBlank ·) ++ blanks).head? = some x → isBlank x := by
      intro x hx
      rw [List.head?_append, Option.or_eq_some_iff] at hx
      rcases hx with hx | ⟨-, hx⟩
      · exact hrest x hx
      · exact h x (List.mem_of_head? hx)
    rw [ht, List.append_assoc, runs_append _ hrun hb, runs_append _ hrun hrest]
    exact congrArg _ ih

private theorem runs_trim (text : List Char) :
    runs 1 text = (runs 1 (trim text)).map (Word.shift (text.takeWhile isBlank).length) := by
  obtain ⟨blanks, hb, ht⟩ := trim_append text
  have hf : ∀ c ∈ text.takeWhile isBlank, isBlank c = true :=
    fun c hc => List.all_eq_true.1 List.all_takeWhile c hc
  calc runs 1 text = runs 1 (text.takeWhile isBlank ++ (trim text ++ blanks)) := by rw [← ht]
    _ = (runs 1 (trim text)).map (Word.shift (text.takeWhile isBlank).length) := by
      rw [runs_blanks_append hf, runs_append_blanks hb]

private theorem not_isInfix_uncommented (piece : List Char) :
    ¬['/', '/'] <:+: uncommented piece := by
  obtain ⟨⟨rest, hr, -⟩, hf⟩ := beforeComment_uncommented piece
  rintro ⟨front, back, hu⟩
  have hl := hf front (back ++ rest) (by rw [hr, ← hu]; simp)
  rw [← hu] at hl
  simp only [List.length_append, List.length_cons, List.length_nil] at hl
  omega

/-- What has no two slashes is not cut. -/
private theorem uncommented_eq_self {text : List Char} (h : ¬['/', '/'] <:+: text) :
    uncommented text = text := by
  refine (BeforeComment.iff_eq.1 ⟨⟨[], (List.append_nil text).symm, .inl rfl⟩, ?_⟩).symm
  rintro front back rfl
  exact absurd ⟨front, back, by simp⟩ h

/-- The blanks in front of a piece with a word are those in front of its text. -/
private theorem takeWhile_uncommented {piece : List Char} (h : runs 1 (uncommented piece) ≠ []) :
    (uncommented piece).takeWhile isBlank = piece.takeWhile isBlank := by
  obtain ⟨⟨rest, hr, -⟩, -⟩ := beforeComment_uncommented piece
  have hword : (uncommented piece).takeWhile isBlank ≠ uncommented piece := by
    intro he
    have hb : ∀ c ∈ uncommented piece, isBlank c = true := fun c hc =>
      List.all_eq_true.1 List.all_takeWhile c (by rwa [he])
    exact h (by rw [← List.nil_append (uncommented piece), runs_append_blanks hb, runs_nil])
  conv_rhs => rw [hr, List.takeWhile_append]
  rw [if_neg fun hl => hword ((List.takeWhile_prefix _).eq_of_length hl)]

/-- The numbers of lines go up. -/
private theorem pairwise_number (source : String) :
    (cutLines source).Pairwise (·.number < ·.number) := by
  have hp : ((pieces '\n' source.toList).zipIdx 1).Pairwise (·.2 < ·.2) := by
    rw [← List.pairwise_map (R := (· < ·)), List.zipIdx_map_snd]
    exact List.pairwise_lt_range'
  rw [cutLines, List.pairwise_filterMap]
  refine hp.imp fun {a b} hlt l hl m hm => ?_
  rwa [(cutLine?_eq_some_iff.1 hl).number, (cutLine?_eq_some_iff.1 hm).number]

private theorem cutLines_of_not_mem {text : String} (h : '\n' ∉ text.toList) :
    cutLines text = (cutLine? 1 text.toList).toList := by
  rw [cutLines, pieces_of_not_mem h, filterMap_cutLine?_cons]
  exact List.append_nil _

section
variable {number : Nat} {piece : List Char} {l : Line}

private theorem CutFrom.toList_text (h : CutFrom number piece l) :
    l.text.toList = trim (uncommented piece) := by
  obtain ⟨text, hb, ht, -⟩ := h.content
  obtain rfl := BeforeComment.iff_eq.1 hb
  rw [ht, String.toList_ofList]

private theorem CutFrom.words_eq (h : CutFrom number piece l) :
    l.words = runs 1 (uncommented piece) := by
  obtain ⟨text, hb, -, hs⟩ := h.content
  obtain rfl := BeforeComment.iff_eq.1 hb
  exact splits_iff.1 hs

private theorem CutFrom.newline_not_mem (h : CutFrom number piece l) (hp : '\n' ∉ piece) :
    '\n' ∉ l.text.toList :=
  fun hm => hp (h.text_sublist.subset hm)

private theorem CutFrom.not_isInfix_text (h : CutFrom number piece l) :
    ¬['/', '/'] <:+: l.text.toList := by
  rw [h.toList_text]
  exact fun hi => not_isInfix_uncommented piece (hi.trans (isInfix_trim _))

/-- The text of a line, read by itself, is one line with the first number. Its words are those of
the line, further to the left by as many blanks as were in front. -/
private theorem CutFrom.cutLines_text (h : CutFrom number piece l) (hn : '\n' ∉ l.text.toList) :
    ∃ m, cutLines l.text = [m] ∧ m.number = 1 ∧ m.text = l.text ∧
      l.words = m.words.map (Word.shift (piece.takeWhile isBlank).length) := by
  have hwords : runs 1 (uncommented piece) ≠ [] := by
    rw [← h.words_eq]
    exact List.cons_ne_nil _ _
  have hshift := runs_trim (uncommented piece)
  rw [takeWhile_uncommented hwords, ← h.toList_text] at hshift
  cases hr : runs 1 l.text.toList with
  | nil =>
    rw [hr] at hshift
    exact absurd hshift hwords
  | cons head operands =>
    refine ⟨⟨1, l.text, head, operands⟩, ?_, rfl, rfl, ?_⟩
    · have ht : trim l.text.toList = l.text.toList := by rw [h.toList_text, trim_trim]
      rw [cutLines_of_not_mem hn, cutLine?, uncommented_eq_self h.not_isInfix_text, hr,
        Line.ofWords?, ht, String.ofList_toList]
      rfl
    · rw [h.words_eq, hshift, hr]
      rfl

end

/-- The text of a line stands on its own: it has no newline, no two slashes side by side and no
blank at its ends, and read by itself it is the line again, up to the number and to the blanks in
front. So each command of a source that is read can be read from its own text. -/
theorem text_reads_again (source : String) :
    (∀ l ∈ lines source, '\n' ∉ l.text.toList ∧ ¬['/', '/'] <:+: l.text.toList ∧
      (∀ c, l.text.toList.head? = some c → isBlank c = false) ∧
      (∀ c, l.text.toList.getLast? = some c → isBlank c = false) ∧
      1 ≤ l.number ∧ ∃ piece, (pieces '\n' source.toList)[l.number - 1]? = some piece ∧
        ∃ m, lines l.text = [m] ∧ m.number = 1 ∧ m.text = l.text ∧
          l.words = m.words.map (Word.shift (piece.takeWhile isBlank).length) ∧
          l.words.map Word.token = m.words.map Word.token) ∧
    ∀ ls, parse source = .ok ls →
      (∀ d ∈ ls, parse d.text = .ok [⟨1, d.text, d.command⟩]) ∧ ls.Pairwise (·.line < ·.line) := by
  refine ⟨fun l hl => ?_, fun ls h => ⟨fun d hd => ?_, ?_⟩⟩
  · rw [lines_eq_cutLines] at hl
    obtain ⟨hn, piece, hp, hc⟩ := exists_cutFrom hl
    have hnewline := hc.newline_not_mem (not_mem_of_mem_pieces (List.mem_of_getElem? hp))
    refine ⟨hnewline, hc.not_isInfix_text, ?_, ?_, hn, piece, hp, ?_⟩
    · rw [hc.toList_text]
      exact fun c => head?_trim
    · rw [hc.toList_text]
      exact fun c => getLast?_trim
    · obtain ⟨m, hm, hnumber, htext, hwords⟩ := hc.cutLines_text hnewline
      refine ⟨m, by rwa [lines_eq_cutLines], hnumber, htext, hwords, ?_⟩
      rw [hwords, List.map_map]
      rfl
  · obtain ⟨l, hl, hg⟩ := exists_gives h hd
    obtain ⟨-, piece, hp, hc⟩ := exists_cutFrom hl
    obtain ⟨m, hm, hnumber, htext, hwords⟩ :=
      hc.cutLines_text (hc.newline_not_mem (not_mem_of_mem_pieces (List.mem_of_getElem? hp)))
    have hcommand : Writes (m.words.map Word.text) d.command := by
      have hw := hg.command
      rwa [hwords, List.map_map] at hw
    rw [parse_eq_ok_iff, hg.text, hm]
    exact .cons ⟨hnumber.symm, htext.symm, hcommand⟩ .nil
  · have hl : (cutLines source).map Line.number = ls.map Located.line := by
      rw [← List.forall₂_eq_eq_eq, List.forall₂_map_left_iff, List.forall₂_map_right_iff]
      exact (parse_eq_ok_iff.1 h).imp fun l d hg => hg.line.symm
    have hp := List.pairwise_map.2 (pairwise_number source)
    rw [hl] at hp
    exact List.pairwise_map.1 hp

/-- Slashes at the ends of words, right in front of a comment, and a blank that is not of ASCII. -/
theorem slashes_read_again :
    (∃ l ∈ lines "\n\u3000\tlabel a/ /b/ // c", l.text = "label a/ /b/" ∧
      ∃ m, lines l.text = [m] ∧ m.text = "label a/ /b/" ∧
        l.words = m.words.map (Word.shift 2)) ∧
      parse "\u3000push\u00A0constant 007//goto" =
        .ok [⟨1, "push\u00A0constant 007", .push .constant 7⟩] ∧
      parse "push\u00A0constant 007" = .ok [⟨1, "push\u00A0constant 007", .push .constant 7⟩] := by
  have hl : lines "\n\u3000\tlabel a/ /b/ // c" =
      [⟨2, "label a/ /b/", ⟨3, "label"⟩, [⟨9, "a/"⟩, ⟨12, "/b/"⟩]⟩] := by rfl
  have hp : parse "\u3000push\u00A0constant 007//goto" =
      .ok [⟨1, "push\u00A0constant 007", .push .constant 7⟩] := by rfl
  obtain ⟨hlines, -⟩ := text_reads_again "\n\u3000\tlabel a/ /b/ // c"
  obtain ⟨-, hparse⟩ := text_reads_again "\u3000push\u00A0constant 007//goto"
  rw [hl] at hlines ⊢
  obtain ⟨-, -, -, -, -, piece, hpiece, m, hm, -, htext, hwords, -⟩ :=
    hlines _ List.mem_cons_self
  have hwidth : (piece.takeWhile isBlank).length = 2 := by
    rw [← Option.some.inj hpiece]
    rfl
  rw [hwidth] at hwords
  have hagain := (hparse _ hp).1 _ List.mem_cons_self
  exact ⟨⟨_, List.mem_cons_self, rfl, m, hm, htext, hwords⟩, hp, hagain⟩

end Source
end StackLowering
