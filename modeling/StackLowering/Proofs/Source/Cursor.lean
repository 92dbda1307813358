import StackLowering.Proofs.Source.Cutting
/-! Finding the lines of a source from place to place. Words and comments have loops of their own
inside the loop over the source, and each round of a loop gets further. The lines that are found are
those that the cutting leaves. -/
namespace StackLowering.Source
open Text

/-- A word and what is noted of it where it is found: its token, once and for all, and its line. -/
structure FoundWord extends Word where
  token : Token
  line : Nat
  classified : token = .ofWord text
  deriving DecidableEq

/-- A line as it is found, which by its form might be without words. -/
structure FoundLine where
  number : Nat
  text : String
  words : List FoundWord
  deriving DecidableEq

def Word.found (number : Nat) (w : Word) : FoundWord := ⟨w, w.token, number, rfl⟩

def Line.found (l : Line) : FoundLine := ⟨l.number, l.text, l.words.map (·.found l.number)⟩

/-- A place in a source, behind its last character or further. -/
structure Cursor where
  source : List Char
  position : Nat
  line : Nat
  column : Nat

namespace Cursor

def start (source : String) : Cursor := ⟨source.toList, 0, 1, 1⟩

def current? (c : Cursor) : Option Char := c.source[c.position]?

def next? (c : Cursor) : Option Char := c.source[c.position + 1]?

def advance (c : Cursor) : Cursor :=
  if c.current? = some '\n' then ⟨c.source, c.position + 1, c.line + 1, 1⟩
  else ⟨c.source, c.position + 1, c.line, c.column + 1⟩

def atComment (c : Cursor) : Bool := c.current? = some '/' && c.next? = some '/'

def left (c : Cursor) : Nat := c.source.length - c.position

private theorem left_advance_lt {c : Cursor} {x : Char} (h : c.current? = some x) :
    c.advance.left < c.left := by
  obtain ⟨hl, -⟩ := List.getElem?_eq_some_iff.1 h
  rw [advance]
  split <;> simp only [left] <;> omega

def skipComment (c : Cursor) : Cursor :=
  match _h : c.current? with
  | none => c
  | some x => if x = '\n' then c else c.advance.skipComment
termination_by c.left
decreasing_by exact left_advance_lt _h

/-- Goes to the end of a word. Its characters are put behind those of the word and of the line. -/
def readWord (c : Cursor) (text word : List Char) : Cursor × List Char × List Char :=
  match _h : c.current? with
  | none => (c, text, word)
  | some x =>
    if isBlank x || c.atComment then (c, text, word)
    else c.advance.readWord (text ++ [x]) (word ++ [x])
termination_by c.left
decreasing_by exact left_advance_lt _h

private theorem left_skipComment_le (c : Cursor) : c.skipComment.left ≤ c.left := by
  fun_induction skipComment c with
  | case1 | case2 => exact Nat.le_refl _
  | case3 c x h hn ih => exact Nat.le_trans ih (Nat.le_of_lt (left_advance_lt h))

/-- A comment has its slashes to pass. -/
private theorem left_skipComment_lt {c : Cursor} (h : c.atComment) :
    c.skipComment.left < c.left := by
  have hc : c.current? = some '/' := by
    rw [atComment, Bool.and_eq_true, decide_eq_true_eq] at h
    exact h.1
  have hs : c.skipComment = c.advance.skipComment := by
    rw [skipComment]
    split
    · next hn =>
      rw [hn] at hc
      cases hc
    · next x hx =>
      obtain rfl := Option.some.inj (hx.symm.trans hc)
      exact if_neg (by decide)
  rw [hs]
  exact Nat.lt_of_le_of_lt (left_skipComment_le _) (left_advance_lt hc)

private theorem left_readWord_le (c : Cursor) (text word : List Char) :
    (c.readWord text word).1.left ≤ c.left := by
  fun_induction readWord c text word with
  | case1 | case2 => exact Nat.le_refl _
  | case3 c text word x h hn ih => exact Nat.le_trans ih (Nat.le_of_lt (left_advance_lt h))

private theorem left_readWord_lt {c : Cursor} {x : Char} (h : c.current? = some x)
    (hx : isBlank x = false) (hc : c.atComment = false) (text word : List Char) :
    (c.readWord text word).1.left < c.left := by
  have hw : c.readWord text word = c.advance.readWord (text ++ [x]) (word ++ [x]) := by
    rw [readWord]
    split
    · next hn =>
      rw [hn] at h
      cases h
    · next y hy =>
      obtain rfl := Option.some.inj (hy.symm.trans h)
      exact if_neg (by simp [hx, hc])
  rw [hw]
  exact Nat.lt_of_le_of_lt (left_readWord_le ..) (left_advance_lt h)

end Cursor

structure Finder where
  lines : List FoundLine
  words : List FoundWord
  text : List Char
  number : Nat

namespace Finder

/-- Only a line with words is kept. -/
def endLine (f : Finder) : List FoundLine :=
  if f.words.isEmpty then f.lines
  else f.lines ++ [⟨f.number, String.ofList (trim f.text), f.words⟩]

def addWord (f : Finder) (c : Cursor) (read : List Char × List Char) : Finder :=
  let word := String.ofList read.2
  { f with words := f.words ++ [⟨⟨c.column, word⟩, .ofWord word, c.line, rfl⟩], text := read.1 }

def find (f : Finder) (c : Cursor) : List FoundLine :=
  match _h : c.current? with
  | none => f.endLine
  | some x =>
    if x = '\n' then find ⟨f.endLine, [], [], c.advance.line⟩ c.advance
    else if _hc : c.atComment then f.find c.skipComment
    else if _hx : isBlank x then find { f with text := f.text ++ [x] } c.advance
    else (f.addWord c (c.readWord f.text []).2).find (c.readWord f.text []).1
termination_by c.left
decreasing_by
  · exact Cursor.left_advance_lt _h
  · exact Cursor.left_skipComment_lt _hc
  · exact Cursor.left_advance_lt _h
  · exact Cursor.left_readWord_lt _h (by simpa using _hx) (by simpa using _hc) _ _

end Finder

def findLines (source : String) : List FoundLine :=
  Finder.find ⟨[], [], [], 1⟩ (Cursor.start source)

namespace Cursor

def rest (c : Cursor) : List Char := c.source.drop c.position

variable {c : Cursor} {x : Char}

private theorem rest_of_none (h : c.current? = none) : c.rest = [] :=
  List.drop_eq_nil_iff.2 (List.getElem?_eq_none_iff.1 h)

private theorem rest_of_some (h : c.current? = some x) : c.rest = x :: c.advance.rest := by
  obtain ⟨hl, hx⟩ := List.getElem?_eq_some_iff.1 h
  rw [rest, List.drop_eq_getElem_cons hl, hx, advance]
  split <;> rfl

private theorem atComment_iff (h : c.current? = some x) :
    c.atComment ↔ x = '/' ∧ c.advance.rest.head? = some '/' := by
  have hn : c.next? = c.advance.rest.head? := by
    rw [next?, advance]
    split <;> exact List.head?_drop.symm
  rw [atComment, h, hn]
  simp

private theorem line_advance (h : c.current? = some x) (hx : x ≠ '\n') :
    c.advance.line = c.line := by
  rw [advance, if_neg (by simpa [h] using hx)]

private theorem column_advance (h : c.current? = some x) (hx : x ≠ '\n') :
    c.advance.column = c.column + 1 := by
  rw [advance, if_neg (by simpa [h] using hx)]

variable {p : List Char} {ps : List (List Char)}

private theorem pieces_of_none (h : c.current? = none) (hp : pieces '\n' c.rest = p :: ps) :
    p = [] ∧ ps = [] := by
  rw [rest_of_none h, pieces] at hp
  obtain ⟨rfl, rfl⟩ := List.cons.inj hp
  exact ⟨rfl, rfl⟩

private theorem pieces_of_newline (h : c.current? = some '\n') (hp : pieces '\n' c.rest = p :: ps) :
    p = [] ∧ pieces '\n' c.advance.rest = ps := by
  rw [rest_of_some h, pieces, if_pos rfl] at hp
  obtain ⟨rfl, hps⟩ := List.cons.inj hp
  exact ⟨rfl, hps⟩

private theorem pieces_of_some (h : c.current? = some x) (hx : x ≠ '\n')
    (hp : pieces '\n' c.rest = p :: ps) :
    ∃ q, p = x :: q ∧ pieces '\n' c.advance.rest = q :: ps := by
  obtain ⟨q, qs, hq, hs⟩ := pieces_cons_of_ne hx c.advance.rest
  rw [rest_of_some h, hs] at hp
  obtain ⟨rfl, rfl⟩ := List.cons.inj hp
  exact ⟨q, rfl, hq⟩

private theorem pieces_skipComment (hp : pieces '\n' c.rest = p :: ps) :
    pieces '\n' c.skipComment.rest = [] :: ps := by
  fun_induction skipComment c generalizing p with
  | case1 c hc => rw [hp, (pieces_of_none hc hp).1]
  | case2 c hc => rw [hp, (pieces_of_newline hc hp).1]
  | case3 c x hc hx ih =>
    obtain ⟨q, -, hq⟩ := pieces_of_some hc hx hp
    exact ih hq

private theorem line_skipComment (c : Cursor) : c.skipComment.line = c.line := by
  fun_induction skipComment c with
  | case1 | case2 => rfl
  | case3 c x hc hx ih => rw [ih, line_advance hc hx]

/-- The text before a comment starts with the current character, unless the comment does. -/
private theorem uncommented_of_some (h : c.current? = some x) {q : List Char}
    (hq : pieces '\n' c.advance.rest = q :: ps) :
    uncommented (x :: q) = if c.atComment then [] else x :: uncommented q := by
  rw [uncommented]
  simp only [atComment_iff h, head?_of_pieces (show '/' ≠ '\n' by decide) hq]

/-- A word is what the text before the comment goes on with, up to a blank. -/
private theorem readWord_eq (text word : List Char) (hp : pieces '\n' c.rest = p :: ps) :
    ∃ run q, (c.readWord text word).2 = (text ++ run, word ++ run) ∧
      pieces '\n' (c.readWord text word).1.rest = q :: ps ∧
      uncommented p = run ++ uncommented q ∧ (∀ x ∈ run, isBlank x = false) ∧
      (∀ x, (uncommented q).head? = some x → isBlank x) ∧
      (c.readWord text word).1.line = c.line ∧
      (c.readWord text word).1.column = c.column + run.length := by
  fun_induction readWord c text word generalizing p with
  | case1 c text word hc =>
    obtain ⟨rfl, rfl⟩ := pieces_of_none hc hp
    exact ⟨[], [], by simp, hp, rfl, by simp, by simp, rfl, rfl⟩
  | case2 c text word x hc hx =>
    -- The word ends at a newline, where the piece does, at a comment, or at a blank in the piece.
    refine ⟨[], p, by simp, hp, rfl, by simp, fun y hy => ?_, rfl, rfl⟩
    by_cases hn : x = '\n'
    · subst hn
      rw [(pieces_of_newline hc hp).1] at hy
      cases hy
    · obtain ⟨q, rfl, hq⟩ := pieces_of_some hc hn hp
      rw [uncommented_of_some hc hq] at hy
      by_cases hcomment : c.atComment
      · rw [if_pos hcomment] at hy
        cases hy
      · rw [if_neg hcomment] at hy
        obtain rfl := Option.some.inj hy
        simpa [hcomment] using hx
  | case3 c text word x hc hx ih =>
    rw [Bool.or_eq_true, not_or] at hx
    have hn : x ≠ '\n' := by
      rintro rfl
      exact hx.1 rfl
    obtain ⟨q, rfl, hq⟩ := pieces_of_some hc hn hp
    obtain ⟨run, q', hw, hq', hu, hr, hs, hl, hcol⟩ := ih hq
    refine ⟨x :: run, q', by simp [hw], hq', ?_, by simpa [hx.1] using hr, hs, ?_, ?_⟩
    · rw [uncommented_of_some hc hq, if_neg hx.2, hu, List.cons_append]
    · rw [hl, line_advance hc hn]
    · rw [hcol, column_advance hc hn, List.length_cons]
      omega

end Cursor

def FoundLine.ofWords? (number : Nat) (text : List Char) (words : List FoundWord) :
    Option FoundLine :=
  if words.isEmpty then none else some ⟨number, String.ofList (trim text), words⟩

private theorem ofWords?_found (number : Nat) (text : List Char) (words : List Word) :
    FoundLine.ofWords? number text (words.map (·.found number)) =
      (Line.ofWords? number text words).map Line.found := by
  cases words <;> rfl

namespace Finder

private theorem endLine_eq (f : Finder) :
    f.endLine = f.lines ++ (FoundLine.ofWords? f.number f.text f.words).toList := by
  rw [endLine, FoundLine.ofWords?]
  split <;> simp

def lineWith? (f : Finder) (c : Cursor) (piece : List Char) : Option FoundLine :=
  let text := uncommented piece
  FoundLine.ofWords? f.number (f.text ++ text)
    (f.words ++ (runs c.column text).map (·.found c.line))

private theorem lineWith?_atStart (lines : List FoundLine) {c : Cursor} (h : c.column = 1)
    (piece : List Char) :
    lineWith? ⟨lines, [], [], c.line⟩ c piece = (cutLine? c.line piece).map Line.found := by
  rw [lineWith?, h, List.nil_append, List.nil_append, ofWords?_found]
  rfl

private theorem find_eq {f : Finder} {c : Cursor} {p : List Char} {ps : List (List Char)}
    (hp : pieces '\n' c.rest = p :: ps) (hn : f.number = c.line) :
    f.find c = f.lines ++ (f.lineWith? c p).toList ++
      ((ps.zipIdx (c.line + 1)).filterMap fun (piece, number) =>
        cutLine? number piece).map Line.found := by
  fun_induction find f c generalizing p ps with
  | case1 f c hc =>
    obtain ⟨rfl, rfl⟩ := c.pieces_of_none hc hp
    simp [endLine_eq, lineWith?]
  | case2 f c hc ih =>
    obtain ⟨rfl, hps⟩ := c.pieces_of_newline hc hp
    obtain ⟨q, qs, hq⟩ := List.exists_cons_of_ne_nil (pieces_ne_nil '\n' c.advance.rest)
    rw [hq] at hps
    have hl : c.advance.line = c.line + 1 := by rw [Cursor.advance, if_pos hc]
    have hcol : c.advance.column = 1 := by rw [Cursor.advance, if_pos hc]
    rw [ih hq rfl, lineWith?_atStart _ hcol, hl, ← hps, filterMap_cutLine?_cons, endLine_eq]
    simp [lineWith?, Option.toList_map]
  | case3 f c x hc hx hcomment ih =>
    obtain ⟨q, rfl, hq⟩ := c.pieces_of_some hc hx hp
    have hu : uncommented (x :: q) = [] := by rw [c.uncommented_of_some hc hq, if_pos hcomment]
    rw [ih (c.pieces_skipComment hp) (by rw [hn, c.line_skipComment]), c.line_skipComment]
    simp [lineWith?, hu]
  | case4 f c x hc hx hcomment hblank ih =>
    obtain ⟨q, rfl, hq⟩ := c.pieces_of_some hc hx hp
    have hu : uncommented (x :: q) = x :: uncommented q := by
      rw [c.uncommented_of_some hc hq, if_neg hcomment]
    rw [ih hq (by rw [hn, c.line_advance hc hx]), c.line_advance hc hx]
    simp [lineWith?, hu, runs_cons_blank _ hblank, c.line_advance hc hx, c.column_advance hc hx]
  | case5 f c x hc hx hcomment hblank ih =>
    obtain ⟨run, q, hw, hq, hu, hr, hs, hl, hcol⟩ := c.readWord_eq f.text [] hp
    have hne : run ≠ [] := by
      rintro rfl
      obtain ⟨q', rfl, hq'⟩ := c.pieces_of_some hc hx hp
      rw [c.uncommented_of_some hc hq', if_neg hcomment, List.nil_append] at hu
      exact hblank (hs x (by rw [← hu]; rfl))
    rw [ih hq (by rw [addWord, hn, hl]), hl, hw]
    simp [lineWith?, addWord, hu, hcol, hl, hne, runs_append c.column hr hs, Word.found, Word.token]

end Finder

theorem findLines_eq (source : String) : findLines source = (cutLines source).map Line.found := by
  obtain ⟨p, ps, hp⟩ := List.exists_cons_of_ne_nil (pieces_ne_nil '\n' source.toList)
  have hrest : (Cursor.start source).rest = source.toList := rfl
  have hl : Finder.lineWith? ⟨[], [], [], 1⟩ (.start source) p =
      (cutLine? 1 p).map Line.found := Finder.lineWith?_atStart [] rfl p
  rw [findLines, Finder.find_eq (hrest ▸ hp) rfl, hl, cutLines, hp, filterMap_cutLine?_cons,
    List.map_append, Option.toList_map]
  rfl

/-- Finding lines from place to place ends, and it finds just what the cutting leaves, each word
with its class, its line and its column, and no line without words. So does the scan that reads
character by character. What the cutting leaves of a piece is said by `CutFrom`. -/
theorem found_lines_are_cut (source : String) :
    findLines source = (cutLines source).map Line.found ∧
      lines source = cutLines source ∧
      (∀ l ∈ findLines source, l.words ≠ []) ∧
      ∀ number piece l, cutLine? number piece = some l ↔ CutFrom number piece l := by
  refine ⟨findLines_eq source, lines_eq_cutLines source, ?_,
    fun number piece l => cutLine?_eq_some_iff⟩
  rw [findLines_eq]
  intro l hl
  obtain ⟨k, -, rfl⟩ := List.mem_map.1 hl
  exact List.cons_ne_nil _ _

end StackLowering.Source
