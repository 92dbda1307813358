import StackLowering.Source.Line
import StackLowering.Text.Pieces
/-! The lines of a source by cutting it up: at every newline, each piece before its first comment,
and what is left into runs of characters that are not blank. The scan finds the same lines. -/
namespace StackLowering.Source
open Text

/-- What stands before the first two slashes. -/
def uncommented : List Char → List Char
  | [] => []
  | c :: cs => if c = '/' ∧ cs.head? = some '/' then [] else c :: uncommented cs

/-- The runs of characters that are not blank, where `column` is that of the first character. -/
def runs (column : Nat) : List Char → List Word
  | [] => []
  | c :: cs =>
    if isBlank c then runs (column + 1) cs
    else
      let run := c :: cs.takeWhile (!isBlank ·)
      ⟨column, String.ofList run⟩ :: runs (column + run.length) (cs.dropWhile (!isBlank ·))
termination_by cs => cs.length
decreasing_by
  · simp
  · have := (List.dropWhile_sublist (l := cs) (!isBlank ·)).length_le
    rw [List.length_cons]
    omega

@[simp] theorem uncommented_nil : uncommented [] = [] := rfl

theorem uncommented_of_not_mem {cs : List Char} (h : '/' ∉ cs) : uncommented cs = cs := by
  induction cs with
  | nil => rfl
  | cons c cs ih =>
    rw [List.mem_cons, not_or] at h
    rw [uncommented, if_neg fun hc => h.1 hc.1.symm, ih h.2]

@[simp] theorem runs_nil (column : Nat) : runs column [] = [] := by rw [runs]

def cutLine? (number : Nat) (piece : List Char) : Option Line :=
  let text := uncommented piece
  Line.ofWords? number text (runs 1 text)

def cutLines (source : String) : List Line :=
  ((pieces '\n' source.toList).zipIdx 1).filterMap fun (piece, number) => cutLine? number piece

/-- The first piece leaves its line in front of those of the others. -/
theorem filterMap_cutLine?_cons (number : Nat) (p : List Char) (ps : List (List Char)) :
    (((p :: ps).zipIdx number).filterMap fun (piece, number) => cutLine? number piece) =
      (cutLine? number p).toList ++
        (ps.zipIdx (number + 1)).filterMap fun (piece, number) => cutLine? number piece := by
  rw [List.zipIdx_cons, List.filterMap_cons]
  cases h : cutLine? number p <;> simp [h]

/-- A run that ends the text or comes before a blank. -/
theorem runs_append {run rest : List Char} (column : Nat) (hr : ∀ c ∈ run, isBlank c = false)
    (hs : ∀ c, rest.head? = some c → isBlank c) :
    runs column (run ++ rest) =
      (if run.isEmpty then [] else [⟨column, String.ofList run⟩]) ++
        runs (column + run.length) rest := by
  cases run with
  | nil => simp
  | cons c cs =>
    have hcs : ∀ x ∈ cs, isBlank x = false := fun x hx => hr x (List.mem_cons_of_mem _ hx)
    rw [List.cons_append, runs, if_neg (by simp [hr c])]
    simp [takeWhile_run hcs hs, dropWhile_run hcs hs]

theorem runs_cons_blank {c : Char} (column : Nat) (hc : isBlank c) (cs : List Char) :
    runs column (c :: cs) = runs (column + 1) cs := by
  rw [runs, if_pos hc]

namespace Scanner

/-- What a scan keeps: the word that is being read is a run, and it ends at the column. -/
structure Sound (s : Scanner) : Prop where
  word : ∀ c ∈ s.word, isBlank c = false
  column : s.word.length < s.column
  comment : s.inComment → s.word = []

def lineWith? (s : Scanner) (piece : List Char) : Option Line :=
  let rest := if s.inComment then [] else uncommented piece
  Line.ofWords? s.number (s.text.reverse ++ rest)
    (s.words.reverse ++ runs (s.column - s.word.length) (s.word.reverse ++ rest))

private theorem words_endWord (s : Scanner) :
    s.endWord.words.reverse = s.words.reverse ++
      (if s.word.reverse.isEmpty then []
        else [⟨s.column - s.word.length, String.ofList s.word.reverse⟩]) := by
  rw [endWord]
  cases s.word <;> simp

private theorem eq_endWord (s : Scanner) :
    s.endWord = { s with word := [], words := s.endWord.words } := by
  obtain ⟨_, _, _, word, _, _, _⟩ := s
  cases word <;> rfl

private theorem runs_word {s : Scanner} (h : s.Sound) (rest : List Char)
    (hr : ∀ c, rest.head? = some c → isBlank c) :
    s.words.reverse ++ runs (s.column - s.word.length) (s.word.reverse ++ rest) =
      s.endWord.words.reverse ++ runs s.column rest := by
  rw [runs_append _ (by simpa using h.word) hr, words_endWord, List.append_assoc,
    List.length_reverse, Nat.sub_add_cancel (Nat.le_of_lt h.column)]

private theorem line?_endWord {s : Scanner} (h : s.Sound) : s.endWord.line? = s.lineWith? [] := by
  rw [lineWith?, uncommented_nil, ite_self, runs_word h _ (by simp), line?, eq_endWord]
  simp

/-- A character inside a piece leaves the line that comes of it as it is. -/
private theorem lineWith?_step {s : Scanner} (h : s.Sound) {c : Char} (hc : c ≠ '\n')
    {cs q : List Char} {qs : List (List Char)} (hq : pieces '\n' cs = q :: qs) :
    (s.step c cs.head?).Sound ∧ (s.step c cs.head?).number = s.number ∧
      (s.step c cs.head?).lines = s.lines ∧
      (s.step c cs.head?).lineWith? q = s.lineWith? (c :: q) := by
  rw [step, if_neg hc]
  split
  · next hi => exact ⟨h, rfl, rfl, by rw [lineWith?, lineWith?, if_pos hi, if_pos hi]⟩
  · next hi =>
    split
    · next hs =>
      rw [eq_endWord]
      refine ⟨⟨by simp, Nat.zero_lt_of_lt h.column, by simp⟩, rfl, rfl, ?_⟩
      have hu : uncommented (c :: q) = [] := by
        rw [uncommented, if_pos ⟨hs.1, (head?_of_pieces (by decide) hq).2 hs.2⟩]
      rw [lineWith?, lineWith?, hu, ite_self, runs_word h _ (by simp)]
      simp
    · next hs =>
      have hu : uncommented (c :: q) = c :: uncommented q := by
        rw [uncommented, if_neg (by rwa [head?_of_pieces (by decide) hq])]
      split
      · next hb =>
        rw [eq_endWord]
        refine ⟨⟨by simp, by simp, by simp⟩, rfl, rfl, ?_⟩
        have hr := runs_word h (c :: uncommented q) (by simpa using hb)
        rw [runs_cons_blank _ hb] at hr
        simp [lineWith?, hi, hu, hr]
      · next hb =>
        refine ⟨⟨?_, ?_, ?_⟩, rfl, rfl, ?_⟩
        · simpa [hb] using h.word
        · simpa using h.column
        · simp [hi]
        · rw [lineWith?, lineWith?, hu]
          simp [hi, Nat.add_sub_add_right]

private theorem sound_endLine (s : Scanner) : s.endLine.Sound :=
  ⟨by simp [endLine, start], by simp [endLine, start], by simp [endLine, start]⟩

private theorem lineWith?_endLine (s : Scanner) (piece : List Char) :
    s.endLine.lineWith? piece = cutLine? (s.number + 1) piece := by
  simp [lineWith?, endLine, start, cutLine?]

private theorem lines_scan {s : Scanner} (h : s.Sound) {cs p : List Char} {ps : List (List Char)}
    (hp : pieces '\n' cs = p :: ps) :
    (s.scan cs).lines.reverse = s.lines.reverse ++ (s.lineWith? p).toList ++
      (ps.zipIdx (s.number + 1)).filterMap fun (piece, number) => cutLine? number piece := by
  have ends (s : Scanner) (h : s.Sound) :
      s.endLine.lines.reverse = s.lines.reverse ++ (s.lineWith? []).toList := by
    rw [endLine, line?_endWord h]
    cases s.lineWith? [] <;> simp
  induction cs generalizing s p ps with
  | nil =>
    rw [pieces] at hp
    obtain ⟨rfl, rfl⟩ := List.cons.inj hp
    simpa [scan] using ends s h
  | cons c cs ih =>
    obtain ⟨q, qs, hq⟩ := List.exists_cons_of_ne_nil (pieces_ne_nil '\n' cs)
    rw [scan]
    by_cases hc : c = '\n'
    · rw [pieces, if_pos hc, hq] at hp
      obtain ⟨rfl, rfl⟩ := List.cons.inj hp
      rw [step, if_pos hc, ih (sound_endLine s) hq, ends s h, lineWith?_endLine,
        filterMap_cutLine?_cons, List.append_assoc]
      rfl
    · obtain ⟨q, qs, hq, hs⟩ := pieces_cons_of_ne hc cs
      rw [hs] at hp
      obtain ⟨rfl, rfl⟩ := List.cons.inj hp
      obtain ⟨hsound, hnumber, hlines, hline⟩ := lineWith?_step h hc hq
      rw [ih hsound hq, hnumber, hlines, hline]

end Scanner

theorem lines_eq_cutLines (source : String) : lines source = cutLines source := by
  obtain ⟨p, ps, hp⟩ := List.exists_cons_of_ne_nil (pieces_ne_nil '\n' source.toList)
  have hs : Scanner.start.Sound := ⟨by simp [Scanner.start], by decide, by simp [Scanner.start]⟩
  have hl : Scanner.start.lineWith? p = cutLine? 1 p := by
    simp [Scanner.lineWith?, Scanner.start, cutLine?]
  rw [lines, cutLines, Scanner.lines_scan hs hp, hl, hp, filterMap_cutLine?_cons]
  rfl

end StackLowering.Source
