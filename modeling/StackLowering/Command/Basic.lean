import StackLowering.Command.Segment
import StackLowering.Command.Operator
import StackLowering.Command.Keyword
/-! The commands of the stack language. Names are arbitrary here: reading a source line and
lowering a command each check them. -/
namespace StackLowering

inductive Command where
  | push (segment : Segment) (index : UInt16)
  | pop (segment : Segment) (index : UInt16)
  | operate (op : Operator)
  /-- Marks this place as the target of jumps. -/
  | label (name : String)
  | goto (name : String)
  /-- Takes a word and jumps unless it is zero. -/
  | ifGoto (name : String)
  /-- Entry of a function with `locals` words of zero. -/
  | function (name : String) (locals : UInt16)
  /-- Takes `args` words and leaves the result. -/
  | call (name : String) (args : UInt16)
  | ret
  deriving DecidableEq

namespace Command

def words : Command → List String
  | push s i => [Keyword.push.word, s.word, toString i.toNat]
  | pop s i => [Keyword.pop.word, s.word, toString i.toNat]
  | operate op => [op.word]
  | label n => [Keyword.label.word, n]
  | goto n => [Keyword.goto.word, n]
  | ifGoto n => [Keyword.ifGoto.word, n]
  | function n k => [Keyword.function.word, n, toString k.toNat]
  | call n k => [Keyword.call.word, n, toString k.toNat]
  | ret => [Keyword.ret.word]

def text (c : Command) : String := " ".intercalate c.words

/-- How many words the command takes from the stack of its function, and how many it leaves.
A function entry is not counted: it starts a stack of its own. -/
def effect : Command → Nat × Nat
  | push .. => (0, 1)
  | pop .. => (1, 0)
  | operate op => (op.operands, 1)
  | label _ | goto _ | function .. => (0, 0)
  | ifGoto _ => (1, 0)
  | call _ args => (args.toNat, 1)
  | ret => (1, 0)

/-- The name that the command marks, jumps to, enters or calls. -/
def name? : Command → Option String
  | label n | goto n | ifGoto n | function n _ | call n _ => some n
  | _ => none

end Command
end StackLowering
