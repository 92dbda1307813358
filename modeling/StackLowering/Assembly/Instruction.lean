/-! The computing instructions of the 16-bit machine: a computation, where its result goes, and
when it jumps. Each has one spelling here. -/
namespace StackLowering.Assembly

structure Dest where
  a : Bool
  m : Bool
  d : Bool
  deriving DecidableEq

namespace Dest

def none : Dest := ⟨false, false, false⟩
def toA : Dest := ⟨true, false, false⟩
def toM : Dest := ⟨false, true, false⟩
def toD : Dest := ⟨false, false, true⟩
def toAM : Dest := ⟨true, true, false⟩

def text (t : Dest) : String :=
  (if t.a then "A" else "") ++ (if t.m then "M" else "") ++ (if t.d then "D" else "")

end Dest

/-- What the machine can combine with its register D. -/
inductive Operand where
  /-- The register A. -/
  | a
  /-- The memory word at A. -/
  | m
  deriving DecidableEq

def Operand.text : Operand → String
  | a => "A"
  | m => "M"

inductive Computation where
  | zero | one | minusOne
  | d | notD | negD | succD | predD
  | get (x : Operand) | not (x : Operand) | neg (x : Operand)
  | succ (x : Operand) | pred (x : Operand)
  /-- `x + D` -/
  | add (x : Operand)
  /-- `D - x` -/
  | sub (x : Operand)
  /-- `x - D` -/
  | subD (x : Operand)
  | and (x : Operand) | or (x : Operand)
  deriving DecidableEq

def Computation.text : Computation → String
  | zero => "0"
  | one => "1"
  | minusOne => "-1"
  | d => "D"
  | notD => "!D"
  | negD => "-D"
  | succD => "D+1"
  | predD => "D-1"
  | get x => x.text
  | not x => "!" ++ x.text
  | neg x => "-" ++ x.text
  | succ x => x.text ++ "+1"
  | pred x => x.text ++ "-1"
  | add x => x.text ++ "+D"
  | sub x => "D-" ++ x.text
  | subD x => x.text ++ "-D"
  | and x => x.text ++ "&D"
  | or x => x.text ++ "|D"

/-- How the result compares with zero for the jump to be taken. -/
inductive Jump where
  | gt | eq | ge | lt | ne | le | always
  deriving DecidableEq

def Jump.text : Jump → String
  | gt => "JGT"
  | eq => "JEQ"
  | ge => "JGE"
  | lt => "JLT"
  | ne => "JNE"
  | le => "JLE"
  | always => "JMP"

structure Instruction where
  dest : Dest
  computation : Computation
  jump : Option Jump
  deriving DecidableEq

def Instruction.text (i : Instruction) : String :=
  let target := i.dest.text
  let assigned := if target.isEmpty then i.computation.text else target ++ "=" ++ i.computation.text
  match i.jump with
  | none => assigned
  | some j => assigned ++ ";" ++ j.text

end StackLowering.Assembly
