import Mathlib.Data.String.Basic
import StackLowering.Proofs.Source.Refusals
import StackLowering.Proofs.Source.Cutting
/-! What the commands of a source take over from it. Each stands in one piece between newlines, and
its line number, its text and its name are bounded by the source. -/
namespace StackLowering
open Text

namespace Text

private theorem trim_sublist (cs : List Char) : (trim cs).Sublist cs := by
  have h := (List.dropWhile_sublist isBlank (l := (cs.dropWhile isBlank).reverse)).reverse
  rw [List.reverse_reverse] at h
  exact h.trans (List.dropWhile_sublist isBlank)

/-- Characters that are left out make a text no longer. -/
theorem utf8ByteSize_le_of_sublist {s t : String} (h : s.toList.Sublist t.toList) :
    s.utf8ByteSize ≤ t.utf8ByteSize := by
  have hl := String.utf8Len_le_of_sublist h
  rwa [← String.utf8ByteSize_ofList, ← String.utf8ByteSize_ofList, String.ofList_toList,
    String.ofList_toList] at hl

private theorem length_le_utf8ByteSize (s : String) : s.toList.length ≤ s.utf8ByteSize := by
  rw [← String.ofList_toList (s := s), String.utf8ByteSize_ofList, String.toList_ofList]
  induction s.toList with
  | nil => exact Nat.zero_le _
  | cons c cs ih =>
    have hc := Char.utf8Size_pos c
    rw [String.utf8Len_cons, List.length_cons]
    omega

end Text

namespace Source
variable {source : String} {ls : List Located} {d : Located}

/-- Every line is cut from one piece of its source. -/
theorem exists_cutFrom {l : Line} (h : l ∈ cutLines source) :
    1 ≤ l.number ∧ ∃ piece, (pieces '\n' source.toList)[l.number - 1]? = some piece ∧
      CutFrom l.number piece l := by
  obtain ⟨⟨piece, number⟩, hm, hc⟩ := List.mem_filterMap.1 h
  obtain ⟨hn, hp⟩ := List.mem_zipIdx_iff_le_and_getElem?_sub.1 hm
  have hl := cutLine?_eq_some_iff.1 hc
  obtain rfl := hl.number
  exact ⟨hn, piece, hp, hl⟩

/-- Every command is given by one line. -/
theorem exists_gives (h : parse source = .ok ls) (hd : d ∈ ls) :
    ∃ l ∈ cutLines source, l.Gives d := by
  obtain ⟨i, rfl⟩ := List.mem_iff_get.1 hd
  have hf := List.forall₂_iff_get.1 (parse_eq_ok_iff.1 h)
  have hi : i < (cutLines source).length := by rw [hf.1]; exact i.isLt
  exact ⟨_, List.get_mem _ ⟨i, hi⟩, hf.2 i hi i.isLt⟩

/-- Every command is written by what is left of one piece of its source. -/
private theorem exists_piece (h : parse source = .ok ls) (hd : d ∈ ls) :
    ∃ k piece l, (pieces '\n' source.toList)[k]? = some piece ∧ CutFrom (k + 1) piece l ∧
      l.Gives d := by
  obtain ⟨l, hl, hg⟩ := exists_gives h hd
  obtain ⟨hn, piece, hp, hc⟩ := exists_cutFrom hl
  exact ⟨l.number - 1, piece, l, hp, by rwa [Nat.sub_add_cancel hn], hg⟩

theorem CutFrom.text_sublist {number : Nat} {piece : List Char} {l : Line}
    (h : CutFrom number piece l) : l.text.toList.Sublist piece := by
  obtain ⟨text, hb, ht, -⟩ := h.content
  obtain ⟨rest, rfl, -⟩ := hb.behind
  rw [ht, String.toList_ofList]
  exact (trim_sublist text).trans (List.sublist_append_left text rest)

private theorem CutFrom.word_sublist {number : Nat} {piece : List Char} {l : Line}
    (h : CutFrom number piece l) {w : Word} (hw : w ∈ l.words) :
    w.text.toList.Sublist piece := by
  obtain ⟨text, hb, -, hs⟩ := h.content
  obtain ⟨front, back, rfl, -⟩ := (hs.mem_iff w).1 hw
  obtain ⟨rest, rfl, -⟩ := hb.behind
  exact ((List.sublist_append_left ..).trans (List.sublist_append_right ..)).trans
    (List.sublist_append_left ..)

/-- A line has a word, so that it does not come of nothing. -/
private theorem CutFrom.piece_ne_nil {number : Nat} {piece : List Char} {l : Line}
    (h : CutFrom number piece l) : piece ≠ [] := by
  have hw : l.head ∈ l.words := List.mem_cons_self ..
  obtain ⟨text, -, -, hs⟩ := h.content
  obtain ⟨front, back, -, -, hne, -⟩ := (hs.mem_iff l.head).1 hw
  rintro rfl
  exact hne (List.sublist_nil.1 (h.word_sublist hw))

/-- The name in a command is one of the words that write it. -/
private theorem Writes.name_mem {words : List String} {c : Command} (h : Writes words c)
    {n : String} (hn : c.name? = some n) : n ∈ words := by
  cases h <;> cases hn <;> simp

theorem newline_not_mem_located (h : parse source = .ok ls) (hd : d ∈ ls) :
    '\n' ∉ d.text.toList := by
  obtain ⟨k, piece, l, hp, hc, hg⟩ := exists_piece h hd
  rw [hg.text]
  exact fun hm => not_mem_of_mem_pieces (List.mem_of_getElem? hp) (hc.text_sublist.subset hm)

theorem text_size_le (h : parse source = .ok ls) (hd : d ∈ ls) :
    d.text.utf8ByteSize ≤ source.utf8ByteSize := by
  obtain ⟨k, piece, l, hp, hc, hg⟩ := exists_piece h hd
  rw [hg.text]
  exact utf8ByteSize_le_of_sublist
    (hc.text_sublist.trans (sublist_of_mem_pieces (List.mem_of_getElem? hp)))

theorem name_size_le (h : parse source = .ok ls) (hd : d ∈ ls) {n : String}
    (hn : d.command.name? = some n) : n.utf8ByteSize ≤ source.utf8ByteSize := by
  obtain ⟨k, piece, l, hp, hc, hg⟩ := exists_piece h hd
  obtain ⟨w, hw, rfl⟩ := List.mem_map.1 (hg.command.name_mem hn)
  exact utf8ByteSize_le_of_sublist
    ((hc.word_sublist hw).trans (sublist_of_mem_pieces (List.mem_of_getElem? hp)))

/-- A source with a command has no more lines than bytes. -/
private theorem length_pieces_le_size (h : parse source = .ok ls) (hd : d ∈ ls) :
    (pieces '\n' source.toList).length ≤ source.utf8ByteSize := by
  obtain ⟨k, piece, l, hp, hc, -⟩ := exists_piece h hd
  exact (length_pieces_le (List.mem_of_getElem? hp) hc.piece_ne_nil).trans
    (length_le_utf8ByteSize source)

theorem line_le (h : parse source = .ok ls) (hd : d ∈ ls) : d.line ≤ source.utf8ByteSize := by
  obtain ⟨k, piece, l, hp, hc, hg⟩ := exists_piece h hd
  obtain ⟨hk, -⟩ := List.getElem?_eq_some_iff.1 hp
  have hs := length_pieces_le_size h hd
  rw [hg.line, hc.number]
  omega

theorem length_parse_le (h : parse source = .ok ls) : ls.length ≤ source.utf8ByteSize := by
  cases ls with
  | nil => exact Nat.zero_le _
  | cons d ls =>
    have hl := (parse_eq_ok_iff.1 h).length_eq
    have hc : (cutLines source).length ≤ (pieces '\n' source.toList).length := by
      have hz := List.length_zipIdx (l := pieces '\n' source.toList) (i := 1)
      exact hz ▸ List.length_filterMap_le ..
    exact (hl ▸ hc).trans (length_pieces_le_size h (List.mem_cons_self ..))

end Source
end StackLowering
