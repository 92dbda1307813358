import StackLowering.Refusal
/-! The code of `push` and `pop`. The stack pointer names the first free word above the stack. -/
namespace StackLowering
open Assembly Assembly.Line

def Segment.checkIndex (s : Segment) (index : UInt16) : Except Refusal Unit :=
  if index ≤ s.maxIndex then .ok () else .error (.indexOutOfRange s index)

namespace Block

def pushD : List Line :=
  [register .sp, assign .toA (.get .m), assign .toM .d, register .sp, assign .toM (.succ .m)]

/-- Pops into D; the pointer and A then name the freed word. -/
def popD : List Line :=
  [register .sp, assign .toAM (.pred .m), assign .toD (.get .m)]

def load (unit : String) (index : UInt16) : Addressing → List Line
  | .immediate => [literal index, assign .toD (.get .a)]
  | .indirect base =>
    [literal index, assign .toD (.get .a), register base, assign .toA (.add .m),
      assign .toD (.get .m)]
  | .fixed base =>
    [literal index, assign .toD (.get .a), literal base, assign .toA (.add .a),
      assign .toD (.get .m)]
  | .static => [address (.static unit index), assign .toD (.get .m)]

def locate? (unit : String) (index : UInt16) : Addressing → Option (List Line)
  | .immediate => none
  | .indirect base =>
    some [literal index, assign .toD (.get .a), register base, assign .toD (.add .m)]
  | .fixed base =>
    some [literal index, assign .toD (.get .a), literal base, assign .toD (.add .a)]
  | .static => some [address (.static unit index), assign .toD (.get .a)]

def push (unit : String) (s : Segment) (index : UInt16) : Except Refusal (List Line) := do
  s.checkIndex index
  return load unit index s.addressing ++ pushD

/-- R13 keeps the address while D takes the word. -/
def pop (unit : String) (s : Segment) (index : UInt16) : Except Refusal (List Line) := do
  s.checkIndex index
  match locate? unit index s.addressing with
  | none => throw (.notStorable s)
  | some code =>
    return code ++ [register .r13, assign .toM .d] ++ popD ++
      [register .r13, assign .toA (.get .m), assign .toM .d]

end Block
end StackLowering
