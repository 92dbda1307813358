import StackLowering.Command.Basic
/-! Programs: units of commands that still know their source lines. -/
namespace StackLowering

structure Located where
  line : Nat
  /-- The source line without its comment; a program made by other means may leave it empty. -/
  text : String
  command : Command
  deriving DecidableEq

/-- The commands of one source; the name tells its static variables from those of others. -/
structure SourceUnit where
  name : String
  commands : List Located
  deriving DecidableEq

def SourceUnit.defines (u : SourceUnit) (function : String) : Bool :=
  u.commands.any fun l =>
    match l.command with
    | .function name _ => name == function
    | _ => false

structure Program where
  units : List SourceUnit
  deriving DecidableEq

namespace Program

def commandCount (p : Program) : Nat := (p.units.flatMap (·.commands)).length

def defines (p : Program) (function : String) : Bool := p.units.any (·.defines function)

end Program
end StackLowering
