import StackLowering.Program.Basic
import StackLowering.Source.Line
import StackLowering.Symbol
/-! Reading one command from each line. The first bad line is reported, and in it the first of:
the head word, the number of operands, the operands from left to right. -/
namespace StackLowering.Source

inductive Fault where
  | unknownCommand (word : String)
  | operandCount (word : String) (expected found : Nat)
  | unknownSegment (word : String)
  | invalidName (word : String)
  | malformedNumber (word : String)
  deriving DecidableEq

def Fault.message : Fault → String
  | unknownCommand w => s!"unknown command or operator '{w}'"
  | operandCount w expected found =>
    let operands := if expected = 1 then "operand" else "operands"
    s!"'{w}' takes {expected} {operands}, found {found}"
  | unknownSegment w => s!"unknown segment '{w}'"
  | invalidName w => s!"invalid label or function name '{w}'"
  | malformedNumber w => s!"malformed numeric operand '{w}'"

structure Error where
  line : Nat
  column : Nat
  /-- The text of the line. -/
  text : String
  fault : Fault
  deriving DecidableEq

def Error.message (e : Error) : String :=
  s!"{e.line}:{e.column}: {e.fault.message}\n  | {e.text}"

namespace Word

def refuse {α : Type} (w : Word) (fault : String → Fault) : Except (Nat × Fault) α :=
  .error (w.column, fault w.text)

def segment (w : Word) : Except (Nat × Fault) Segment :=
  match w.token with
  | .segment s => .ok s
  | _ => w.refuse .unknownSegment

/-- Any symbol will do for a name, keywords included. -/
def name (w : Word) : Except (Nat × Fault) String :=
  if isSymbol w.text then .ok w.text else w.refuse .invalidName

def number (w : Word) : Except (Nat × Fault) UInt16 :=
  match w.token with
  | .integer n => if h : n < UInt16.size then .ok (.ofNatLT n h) else w.refuse .malformedNumber
  | _ => w.refuse .malformedNumber

end Word

def statement (head : Word) (operands : List Word) : Except (Nat × Fault) Command :=
  match head.token, operands with
  | .keyword .push, [s, i] => return .push (← s.segment) (← i.number)
  | .keyword .pop, [s, i] => return .pop (← s.segment) (← i.number)
  | .keyword .label, [n] => return .label (← n.name)
  | .keyword .goto, [n] => return .goto (← n.name)
  | .keyword .ifGoto, [n] => return .ifGoto (← n.name)
  | .keyword .function, [n, k] => return .function (← n.name) (← k.number)
  | .keyword .call, [n, k] => return .call (← n.name) (← k.number)
  | .keyword .ret, [] => return .ret
  | .operator op, [] => return .operate op
  | token, _ =>
    match token.operands? with
    | some expected => head.refuse (.operandCount · expected operands.length)
    | none => head.refuse .unknownCommand

def Line.located (l : Line) : Except Error Located :=
  match statement l.head l.operands with
  | .ok command => .ok ⟨l.number, l.text, command⟩
  | .error (column, fault) => .error ⟨l.number, column, l.text, fault⟩

def parse (source : String) : Except Error (List Located) :=
  (lines source).mapM Line.located

end StackLowering.Source
