import StackLowering.Assembly.Line
import StackLowering.Machine
/-! The code that lines of assembly stand for. A symbol goes by its text: it is the address of the
label of that name if there is one, else a predefined address, else a variable of its own. -/
namespace StackLowering.Assembly
open Machine

def codeSize : List Line → Nat
  | [] => 0
  | line :: lines => line.size + codeSize lines

def Line.defines (name : String) : Line → Bool
  | define l => l.text == name
  | _ => false

def labelAddress? (name : String) : List Line → Option Nat
  | [] => none
  | line :: lines =>
    if line.defines name then some 0 else (labelAddress? name lines).map (line.size + ·)

/-- The addresses that have a name from the start. -/
def predefined : List (String × Word) :=
  [("SP", 0), ("LCL", 1), ("ARG", 2), ("THIS", 3), ("THAT", 4), ("SCREEN", 0x4000),
    ("KBD", 0x6000)] ++ (List.range 16).map fun n => ("R" ++ toString n, .ofNat 16 n)

def variableBase : Nat := 16

def Line.symbol? : Line → Option String
  | address s => some s.text
  | _ => none

/-- The symbols that are neither labels nor predefined, by their first use. -/
def variableNames (lines : List Line) : List String :=
  ((lines.filterMap Line.symbol?).filter fun name =>
    (labelAddress? name lines).isNone && (predefined.lookup name).isNone).eraseDups

def symbolValue (lines : List Line) (name : String) : Word :=
  match labelAddress? name lines, predefined.lookup name with
  | some n, _ => .ofNat 16 n
  | none, some w => w
  | none, none => .ofNat 16 (variableBase + (variableNames lines).idxOf name)

def Line.code? (value : String → Word) : Line → Option Code
  | define _ | comment _ => none
  | address s => some (.load (value s.text))
  | literal n => some (.load n.toBitVec)
  | compute i => some (.compute i)

def image (lines : List Line) : List Code := lines.filterMap (Line.code? (symbolValue lines))

@[simp] theorem codeSize_append (first second : List Line) :
    codeSize (first ++ second) = codeSize first + codeSize second := by
  induction first with
  | nil => simp [codeSize]
  | cons line lines ih => rw [List.cons_append, codeSize, codeSize, ih, Nat.add_assoc]

theorem length_filterMap_code? (value : String → Word) (lines : List Line) :
    (lines.filterMap (Line.code? value)).length = codeSize lines := by
  induction lines with
  | nil => rfl
  | cons line lines ih =>
    cases line <;> simp [List.filterMap_cons, Line.code?, codeSize, Line.size, ih, Nat.add_comm]

theorem length_image (lines : List Line) : (image lines).length = codeSize lines :=
  length_filterMap_code? _ lines

end StackLowering.Assembly
