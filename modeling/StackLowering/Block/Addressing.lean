import StackLowering.Assembly.Line
import StackLowering.Command.Segment
/-! Where the words of a segment lie. -/
namespace StackLowering
open Assembly

inductive Addressing where
  /-- The index is itself the word. -/
  | immediate
  /-- Behind the address that a register holds. -/
  | indirect (base : Register)
  /-- Behind a fixed address. -/
  | fixed (base : UInt16)
  /-- A variable of its own for each unit and index. -/
  | static
  deriving DecidableEq

namespace Segment

def addressing : Segment → Addressing
  | constant => .immediate
  | locals => .indirect .lcl
  | arguments => .indirect .arg
  | this => .indirect .this
  | that => .indirect .that
  | temp => .fixed 5
  | pointer => .fixed 3
  | static => .static

/-- The greatest index. For all but the two fixed segments that is the greatest number which an
address line can hold. -/
def maxIndex : Segment → UInt16
  | temp => 7
  | pointer => 1
  | _ => 0x7FFF

end Segment
end StackLowering
