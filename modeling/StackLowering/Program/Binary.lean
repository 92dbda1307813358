import StackLowering.Program.Basic
import StackLowering.Binary.Varint
import StackLowering.Text.Utf8
/-! The binary form of a program. Choices are written as the number of the variant, lists and
texts behind their length, records field by field. Bytes behind a program are ignored. -/
namespace StackLowering
namespace Binary

def writeText (s : String) : List UInt8 :=
  let bytes := Text.toBytes s
  writeVarint bytes.length ++ bytes

def writeMany {α : Type} (item : α → List UInt8) (xs : List α) : List UInt8 :=
  writeVarint xs.length ++ xs.flatMap item

def writeVariant {α : Type} [BEq α] (all : List α) (a : α) : List UInt8 :=
  writeVarint (all.idxOf a)

def writeOperand (n : UInt16) : List UInt8 := writeVarint n.toNat

def writeCommand : Command → List UInt8
  | .push s i => writeVarint 0 ++ writeVariant Segment.all s ++ writeOperand i
  | .pop s i => writeVarint 1 ++ writeVariant Segment.all s ++ writeOperand i
  | .operate op => writeVarint 2 ++ writeVariant Operator.all op
  | .label n => writeVarint 3 ++ writeText n
  | .goto n => writeVarint 4 ++ writeText n
  | .ifGoto n => writeVarint 5 ++ writeText n
  | .function n k => writeVarint 6 ++ writeText n ++ writeOperand k
  | .call n k => writeVarint 7 ++ writeText n ++ writeOperand k
  | .ret => writeVarint 8

def writeLocated (l : Located) : List UInt8 :=
  writeVarint l.line ++ writeText l.text ++ writeCommand l.command

def writeUnit (u : SourceUnit) : List UInt8 :=
  writeText u.name ++ writeMany writeLocated u.commands

def readText : Reader String := do
  let bytes ← readBytes (← readVarint bits64)
  match Text.ofBytes? bytes with
  | some s => return s
  | none => throw .badText

def readVariant {α : Type} (all : List α) : Reader α := do
  match all[← readVarint bits32]? with
  | some a => return a
  | none => throw .unknownVariant

def readOperand : Reader UInt16 := return .ofNat (← readVarint bits16)

def readCommand : Reader Command := do
  match ← readVarint bits32 with
  | 0 => return .push (← readVariant Segment.all) (← readOperand)
  | 1 => return .pop (← readVariant Segment.all) (← readOperand)
  | 2 => return .operate (← readVariant Operator.all)
  | 3 => return .label (← readText)
  | 4 => return .goto (← readText)
  | 5 => return .ifGoto (← readText)
  | 6 => return .function (← readText) (← readOperand)
  | 7 => return .call (← readText) (← readOperand)
  | 8 => return .ret
  | _ => throw .unknownVariant

def readLocated : Reader Located := do
  return ⟨← readVarint bits64, ← readText, ← readCommand⟩

def readUnit : Reader SourceUnit := do
  return ⟨← readText, ← readMany readLocated (← readVarint bits64)⟩

def readProgram : Reader Program := do
  return ⟨← readMany readUnit (← readVarint bits64)⟩

end Binary

namespace Program

def toBytes (p : Program) : List UInt8 := Binary.writeMany Binary.writeUnit p.units

/-- The program at the front of the bytes. -/
def ofBytes (bytes : List UInt8) : Except Binary.Fault Program :=
  (·.1) <$> Binary.readProgram bytes

end Program
end StackLowering
