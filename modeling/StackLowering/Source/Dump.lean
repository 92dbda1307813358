import StackLowering.Source.Line
import StackLowering.Text.Quoted
/-! The token list of a source: place, class and word of each token on a line of its own. -/
namespace StackLowering.Source

def titled (word : String) : String :=
  String.ofList (upper true word.toList)
where
  upper (first : Bool) : List Char → List Char
    | [] => []
    | c :: cs =>
      if c = '-' then upper true cs
      else (if first then c.toUpper else c) :: upper false cs

namespace Token

def kind : Token → String
  | keyword _ => "KEYWORD"
  | operator _ => "OP"
  | segment _ => "SEGMENT"
  | integer _ => "INT"
  | name _ => "IDENT"

def color : Token → String
  | keyword _ => "\x1b[32m"
  | operator _ => "\x1b[35m"
  | segment _ | integer _ => "\x1b[36m"
  | name _ => "\x1b[33m"

def term : Token → String
  | keyword k => titled k.word
  | operator op => s!"Op({titled op.word})"
  | segment s => s!"Segment({titled s.word})"
  | integer n => s!"Integer({n})"
  | name w => s!"Ident({Text.quoted w})"

end Token

def colorReset : String := "\x1b[0m"

structure DumpStyle where
  colored : Bool
  /-- Shows the token as a term, otherwise the word as it was written. -/
  asTerm : Bool

def Word.display (style : DumpStyle) (line : Nat) (w : Word) : String :=
  let token := w.token
  let place := s!"[{Text.zeroPadded 2 line}:{Text.zeroPadded 2 w.column}]"
  let body := if style.asTerm then token.term else w.text
  let entry := s!"{Text.leftAligned 8 token.kind} {body}"
  if style.colored then s!"{place} {token.color}{entry}{colorReset}" else s!"{place} {entry}"

def dump (style : DumpStyle) (source : String) : List String :=
  (lines source).flatMap fun l => l.words.map (·.display style l.number)

end StackLowering.Source
