import StackLowering.Command.Basic
import StackLowering.Text.Decimal
/-! The classes of source words. Every word has one: what is nothing else is a name. -/
namespace StackLowering.Source

inductive Token where
  | keyword (keyword : Keyword)
  | operator (op : Operator)
  | segment (segment : Segment)
  /-- A run of digits whose value is below `integerLimit`. -/
  | integer (value : Nat)
  | name (word : String)
  deriving DecidableEq

namespace Token

/-- Runs of digits from this value on are names. -/
def integerLimit : Nat := UInt64.size

def ofWord (word : String) : Token :=
  match Keyword.ofWord? word, Operator.ofWord? word, Segment.ofWord? word with
  | some k, _, _ => .keyword k
  | none, some op, _ => .operator op
  | none, none, some s => .segment s
  | none, none, none =>
    let value := Text.decimal word.toList
    if Text.isDecimal word.toList ∧ value < integerLimit then .integer value else .name word

def operands? : Token → Option Nat
  | keyword k => some k.operands
  | operator _ => some 0
  | segment _ | integer _ | name _ => none

end Token
end StackLowering.Source
