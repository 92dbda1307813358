import StackLowering.Assembly.Image
import StackLowering.Assembly.Listing
import StackLowering.Text.Blank
/-! The assembler, from lines of text to code in two passes. The first finds the addresses of the
labels, the second gives every other line its word of code. -/
namespace StackLowering.Assembly

namespace Computation

def all : List Computation :=
  [zero, one, minusOne, d, notD, negD, succD, predD] ++ [Operand.a, .m].flatMap fun x =>
    [get x, not x, neg x, succ x, pred x, add x, sub x, subD x, and x, or x]

/-- The ways to write a computation; the operands of some may change places. -/
def spellings (c : Computation) : List String :=
  c.text :: match c with
  | add x => ["D+" ++ x.text]
  | and x => ["D&" ++ x.text]
  | or x => ["D|" ++ x.text]
  | _ => []

def ofText? (text : String) : Option Computation := all.find? fun c => text ∈ c.spellings

end Computation

namespace Jump

def all : List Jump := [gt, eq, ge, lt, ne, le, always]

def ofText? (text : String) : Option Jump := all.find? fun j => j.text = text

end Jump

namespace Assembler
open Machine

def splitOnce (sep : Char) : List Char → List Char × Option (List Char)
  | [] => ([], none)
  | c :: cs =>
    if c = sep then ([], some cs) else ((c :: (splitOnce sep cs).1), (splitOnce sep cs).2)

/-- The part of an instruction in front of the jump. The letters before the equals sign are the
registers that take the result. -/
def assignment? (cs : List Char) : Option (Dest × Computation) :=
  match splitOnce '=' cs with
  | (front, none) => (Computation.ofText? (String.ofList front)).map (.none, ·)
  | (front, some back) =>
    (Computation.ofText? (String.ofList back)).map
      (⟨front.contains 'A', front.contains 'M', front.contains 'D'⟩, ·)

def jump? (cs : List Char) : Option (Option Jump) :=
  if cs = [] then some none else (Jump.ofText? (String.ofList cs)).map some

def instruction? (line : String) : Option Instruction := do
  let (dest, computation) ← assignment? (splitOnce ';' line.toList).1
  let jump ← jump? ((splitOnce ';' line.toList).2.getD [])
  return ⟨dest, computation, jump⟩

def number? (text : String) : Option Nat :=
  let digits := match text.toList with
    | '+' :: cs => cs
    | cs => cs
  if Text.isDecimal digits ∧ Text.decimal digits < 0x10000 then some (Text.decimal digits) else none

def significant (lines : List String) : List String :=
  (lines.map fun line => String.ofList (Text.trim line.toList)).filter fun line =>
    !line.isEmpty && !Listing.isComment line

/-- The labels of lines with their addresses, unless a name is defined twice. -/
def labels? (address : Nat) : List String → Option (List (String × Nat))
  | [] => some []
  | line :: lines =>
    match Listing.definition? line with
    | none => labels? (address + 1) lines
    | some name => do
      let found ← labels? address lines
      if (found.lookup name).isSome then none else some ((name, address) :: found)

def allocate (known : List String) (name : String) : List String :=
  if name ∈ known then known else known ++ [name]

/-- The word that an address line loads, and the variables behind the line. -/
def operand? (labels : List (String × Nat)) (known : List String) (name : String) :
    Option (Word × List String) :=
  match number? name with
  | some n => if n ≤ 0x7FFF then some (.ofNat 16 n, known) else none
  | none =>
    match labels.lookup name, predefined.lookup name with
    | some n, _ => some (.ofNat 16 n, known)
    | none, some w => some (w, known)
    | none, none =>
      some (.ofNat 16 (variableBase + (allocate known name).idxOf name), allocate known name)

def codes? (labels : List (String × Nat)) (known : List String) :
    List String → Option (List Code)
  | [] => some []
  | line :: lines =>
    if ['('].isPrefixOf line.toList then codes? labels known lines
    else match Listing.operand? line with
      | some name => do
        let (w, known) ← operand? labels known name
        return .load w :: (← codes? labels known lines)
      | none => do
        let i ← instruction? line
        return .compute i :: (← codes? labels known lines)

end Assembler

def assemble? (lines : List String) : Option (List Machine.Code) := do
  let labels ← Assembler.labels? 0 (Assembler.significant lines)
  Assembler.codes? labels [] (Assembler.significant lines)

end StackLowering.Assembly
