import StackLowering.Assembly.Line
import StackLowering.Block.Access
import StackLowering.Command.Operator
/-! The code of the operators. A truth value is a word: -1 if true, 0 if false. -/
namespace StackLowering
open Assembly Assembly.Line

def Operator.isComparison : Operator → Bool
  | eq | gt | lt => true
  | _ => false

namespace Block

/-- Pops the upper operand into D; A then names the lower one, which the result replaces. -/
def operands : List Line := popD ++ [assign .toA (.pred .a)]

def binary (c : Computation) : List Line := operands ++ [assign .toM c]

def unary (c : Computation) : List Line := [register .sp, assign .toA (.pred .m), assign .toM c]

def setTop (c : Computation) : List Line := unary c

/-- Compares by the sign of the difference, with two labels of the given number. -/
def compare (when : Jump) (number : Nat) : List Line :=
  operands ++ [assign .toD (.subD .m)] ++
    [pointer (.generated .holds number), jump .d when] ++ setTop .zero ++
    [pointer (.generated .done number), jump .zero .always] ++
    [define (.generated .holds number)] ++ setTop .minusOne ++ [define (.generated .done number)]

def operator (op : Operator) (number : Nat) : List Line :=
  match op with
  | .add => binary (.add .m)
  | .sub => binary (.subD .m)
  | .and => binary (.and .m)
  | .or => binary (.or .m)
  | .neg => unary (.neg .m)
  | .not => unary (.not .m)
  | .eq => compare .eq number
  | .gt => compare .gt number
  | .lt => compare .lt number

end Block
end StackLowering
