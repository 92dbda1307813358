import StackLowering.Assembly.Instruction
import StackLowering.Symbol
/-! Lines of assembly. Symbols keep what they stand for, so that a generated label is never mixed
up with a name from a source; only the text of a line forgets the difference. -/
namespace StackLowering.Assembly

inductive Register where
  | sp | lcl | arg | this | that | r13 | r14
  deriving DecidableEq

def Register.text : Register → String
  | sp => "SP"
  | lcl => "LCL"
  | arg => "ARG"
  | this => "THIS"
  | that => "THAT"
  | r13 => "R13"
  | r14 => "R14"

inductive Label where
  /-- A resolved label or function name of a source. -/
  | named (name : String)
  /-- The label of one kind with a number of its own. -/
  | generated (kind : LabelKind) (number : Nat)
  deriving DecidableEq

def Label.text : Label → String
  | named n => n
  | generated kind n => kind.stem ++ toString n

inductive Symbol where
  | register (r : Register)
  /-- The static variable of a unit. -/
  | static (unit : String) (index : UInt16)
  | label (l : Label)
  deriving DecidableEq

def Symbol.text : Symbol → String
  | register r => r.text
  | static u i => u ++ "." ++ toString i.toNat
  | label l => l.text

inductive Line where
  /-- Defines a label as the address of the next instruction. -/
  | define (l : Label)
  /-- Puts the address of a symbol into A. -/
  | address (s : Symbol)
  /-- Puts a number into A. -/
  | literal (n : UInt16)
  | compute (i : Instruction)
  | comment (text : String)
  deriving DecidableEq

namespace Line

def text : Line → String
  | define l => "(" ++ l.text ++ ")"
  | address s => "@" ++ s.text
  | literal n => "@" ++ toString n.toNat
  | compute i => i.text
  | comment t => "// " ++ t

def size : Line → Nat
  | define _ | comment _ => 0
  | address _ | literal _ | compute _ => 1

@[match_pattern] def register (r : Register) : Line := address (.register r)

@[match_pattern] def pointer (l : Label) : Line := address (.label l)

@[match_pattern] def assign (dest : Dest) (c : Computation) : Line := compute ⟨dest, c, none⟩

@[match_pattern] def jump (c : Computation) (when : Jump) : Line := compute ⟨.none, c, some when⟩

end Line

/-- The text of a file that holds the lines: each ends with a newline. -/
def fileText (lines : List String) : String :=
  String.join (lines.map (· ++ "\n"))

end StackLowering.Assembly
