/-! The operators on the words at the top of the stack. -/
namespace StackLowering

inductive Operator where
  | add | sub | and | or | neg | not | eq | gt | lt
  deriving DecidableEq

namespace Operator

def all : List Operator := [add, sub, and, or, neg, not, eq, gt, lt]

def word : Operator → String
  | add => "add"
  | sub => "sub"
  | and => "and"
  | or => "or"
  | neg => "neg"
  | not => "not"
  | eq => "eq"
  | gt => "gt"
  | lt => "lt"

def ofWord? (w : String) : Option Operator :=
  all.find? (·.word == w)

/-- How many words the operator takes from the stack; it always leaves one. -/
def operands : Operator → Nat
  | neg | not => 1
  | _ => 2

theorem ofWord?_eq_some_iff {w : String} {op : Operator} : ofWord? w = some op ↔ w = op.word := by
  constructor
  · intro h
    have hw := List.find?_some h
    exact (eq_of_beq hw).symm
  · rintro rfl
    cases op <;> rfl

end Operator
end StackLowering
