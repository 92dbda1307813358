import StackLowering.Block.Addressing
/-! Why a command that can be read cannot be lowered. -/
namespace StackLowering

inductive Refusal where
  | indexOutOfRange (segment : Segment) (index : UInt16)
  /-- The segment has no place to store into. -/
  | notStorable (segment : Segment)
  | invalidName (name : String)
  /-- The symbol is defined by an earlier command. -/
  | duplicateLabel (symbol : String)
  /-- The symbol could be that of a generated label. -/
  | reservedLabel (symbol : String)
  deriving DecidableEq

def Refusal.message : Refusal → String
  | indexOutOfRange s i =>
    s!"index {i.toNat} out of range for segment '{s.word}' (max {s.maxIndex.toNat})"
  | notStorable s => s!"cannot pop into segment '{s.word}'"
  | invalidName n => s!"invalid label or function name '{n}'"
  | duplicateLabel s => s!"label '{s}' is already defined"
  | reservedLabel s => s!"label '{s}' is reserved for generated code"

end StackLowering
