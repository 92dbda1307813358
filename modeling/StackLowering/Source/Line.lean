import StackLowering.Source.Token
import StackLowering.Text.Blank
/-! The lines of a source text that hold words. Two slashes start a comment wherever they stand,
also inside a word, and only a newline ends a line. -/
namespace StackLowering.Source

/-- A word and the column of its first character, counted from 1. -/
structure Word where
  column : Nat
  text : String
  deriving DecidableEq

def Word.token (w : Word) : Token := .ofWord w.text

/-- A line with at least one word outside its comment. -/
structure Line where
  /-- Its number in the source, counted from 1. -/
  number : Nat
  /-- What stands before the comment, without the blanks at both ends. -/
  text : String
  head : Word
  operands : List Word
  deriving DecidableEq

namespace Line

def words (l : Line) : List Word := l.head :: l.operands

def ofWords? (number : Nat) (text : List Char) : List Word → Option Line
  | [] => none
  | head :: operands => some ⟨number, String.ofList (Text.trim text), head, operands⟩

end Line

/-- What a scan holds between two characters. Everything that it collects is latest first. -/
structure Scanner where
  number : Nat
  column : Nat
  /-- The current line up to here or up to its comment. -/
  text : List Char
  /-- The word that is being read, empty between words. -/
  word : List Char
  words : List Word
  inComment : Bool
  lines : List Line

namespace Scanner

def start : Scanner := ⟨1, 1, [], [], [], false, []⟩

def endWord (s : Scanner) : Scanner :=
  if s.word.isEmpty then s
  else
    let word := ⟨s.column - s.word.length, String.ofList s.word.reverse⟩
    { s with word := [], words := word :: s.words }

def line? (s : Scanner) : Option Line :=
  Line.ofWords? s.number s.text.reverse s.words.reverse

def endLine (s : Scanner) : Scanner :=
  { start with number := s.number + 1, lines := s.endWord.line?.toList ++ s.lines }

def step (s : Scanner) (c : Char) (next : Option Char) : Scanner :=
  if c = '\n' then s.endLine
  else if s.inComment then s
  else if c = '/' ∧ next = some '/' then { s.endWord with inComment := true }
  else if Text.isBlank c then
    { s.endWord with column := s.column + 1, text := c :: s.text }
  else { s with column := s.column + 1, text := c :: s.text, word := c :: s.word }

/-- Reads all characters; the end of the source ends its last line. -/
def scan (s : Scanner) : List Char → Scanner
  | [] => s.endLine
  | c :: cs => (s.step c cs.head?).scan cs

end Scanner

def lines (source : String) : List Line :=
  (Scanner.start.scan source.toList).lines.reverse

end StackLowering.Source
