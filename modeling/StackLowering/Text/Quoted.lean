import StackLowering.Text.GraphemeExtend
import StackLowering.Text.Unprintable
/-! Words in double quotes, with every character that would not show escaped. -/
namespace StackLowering.Text

def hexadecimal (n : Nat) : List Char := Nat.toDigits 16 n

/-- A filler letter: a letter with the property Default_Ignorable_Code_Point, which shows as
nothing. -/
def isFiller (c : Char) : Bool :=
  c == '\u115F' || c == '\u1160' || c == '\u3164' || c == '\uFFA0'

/-- A halfwidth sound mark: a letter with a place of its own, although it has the property
Grapheme_Extend. -/
def isSoundMark (c : Char) : Bool := c == '\uFF9E' || c == '\uFF9F'

/-- Whether a character would not show by itself: it is unprintable, a filler, or a mark drawn
on the character before it. -/
def isHidden (c : Char) : Bool :=
  isUnprintable c || isFiller c || (isGraphemeExtend c && !isSoundMark c)

/-- A quoted character: `\0 \t \r \n \\ \"` have short escapes, a character that would not show
is written by its code point, and all else stands for itself. -/
def quotedChar (c : Char) : List Char :=
  match c with
  | '\x00' => ['\\', '0']
  | '\t' => ['\\', 't']
  | '\r' => ['\\', 'r']
  | '\n' => ['\\', 'n']
  | '\\' => ['\\', '\\']
  | '"' => ['\\', '"']
  | c =>
    if isHidden c then
      ['\\', 'u', '\x7b'] ++ hexadecimal c.toNat ++ ['\x7d']
    else [c]

def quoted (word : String) : String :=
  String.ofList (['"'] ++ word.toList.flatMap quotedChar ++ ['"'])

end StackLowering.Text
