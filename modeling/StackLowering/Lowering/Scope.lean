import StackLowering.Block.Operator
import StackLowering.Block.Transfer
import StackLowering.Command.Basic
import Std.Data.TreeSet
/-! What lowering a command to assembly depends on, and the lowering of one command.

A label inside a function is resolved to the function's name, a dollar sign and its own name;
elsewhere it keeps its name. No two commands define the same symbol, in whichever units they
stand. -/
namespace StackLowering
open Assembly

structure Scope where
  /-- Names the static variables. -/
  unit : String
  /-- The function whose body is being lowered. -/
  function : Option String
  /-- The symbols of all labels and functions so far. -/
  defined : Std.TreeSet String
  /-- How many numbers of generated labels are taken; they are not given back. -/
  issued : Nat

namespace Scope

def initial : Scope := ⟨"Main", none, ∅, 0⟩

/-- A new unit starts outside all functions. -/
def beginUnit (s : Scope) (name : String) : Scope :=
  { s with unit := name, function := none }

def symbol (s : Scope) (name : String) : String :=
  match s.function with
  | some f => f ++ "$" ++ name
  | none => name

def checkReserved (symbol : String) : Except Refusal String :=
  if isReserved symbol then .error (.reservedLabel symbol) else .ok symbol

def resolve (s : Scope) (name : String) : Except Refusal String :=
  if isSymbol name then checkReserved (s.symbol name) else .error (.invalidName name)

/-- Function names are the same in every unit. -/
def resolveFunction (name : String) : Except Refusal String :=
  if isSymbol name then checkReserved name else .error (.invalidName name)

def define (s : Scope) (symbol : String) : Except Refusal Scope :=
  if s.defined.contains symbol then .error (.duplicateLabel symbol)
  else .ok { s with defined := s.defined.insert symbol }

def issue (s : Scope) : Scope := { s with issued := s.issued + 1 }

def lower (s : Scope) : Command → Except Refusal (Scope × List Line)
  | .push segment index => return (s, ← Block.push s.unit segment index)
  | .pop segment index => return (s, ← Block.pop s.unit segment index)
  | .operate op =>
    return (if op.isComparison then s.issue else s, Block.operator op s.issued)
  | .label name => do
    let symbol ← s.resolve name
    return (← s.define symbol, Block.label symbol)
  | .goto name => return (s, Block.goto (← s.resolve name))
  | .ifGoto name => return (s, Block.ifGoto (← s.resolve name))
  | .function name locals => do
    let symbol ← resolveFunction name
    return ({ ← s.define symbol with function := some symbol }, Block.function symbol locals)
  | .call name args => return (s.issue, Block.call (← resolveFunction name) args s.issued)
  | .ret => return (s, Block.ret)

def bootstrap (s : Scope) : Scope × List Line := (s.issue, Block.bootstrap s.issued)

end Scope
end StackLowering
