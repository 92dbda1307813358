import StackLowering.Text.Decimal
import Std.Data.TreeSet
/-! Listings: lines of assembly with the address of each instruction in code memory. They are made
from any lines of text, by how the lines begin and end. -/
namespace StackLowering.Assembly.Listing

def definition? (line : String) : Option String :=
  match line.toList with
  | '(' :: cs => if cs.getLast? = some ')' then some (String.ofList cs.dropLast) else none
  | _ => none

def operand? (line : String) : Option String :=
  match line.toList with
  | '@' :: cs => some (String.ofList cs)
  | _ => none

def isComment (line : String) : Bool := ['/', '/'].isPrefixOf line.toList

def isInstruction (line : String) : Bool :=
  !(['('].isPrefixOf line.toList || isComment line)

def instructionCount (lines : List String) : Nat := lines.countP isInstruction

def jumps (line : String) : Bool := search line.toList
where
  search : List Char → Bool
    | ';' :: 'J' :: _ => true
    | _ :: cs => search cs
    | [] => false

/-- The names on address lines directly in front of a jump. -/
def jumpTargets (lines : List String) : Std.TreeSet String :=
  .ofList <| (lines.zip lines.tail).filterMap fun (first, second) =>
    if jumps second then operand? first else none

def separator : String := "      ┌──────────────────────────────────"

def entry (targets : Std.TreeSet String) (address : Nat) (line : String) : List String :=
  let shown := Text.zeroPadded 4 address
  match definition? line with
  | some name =>
    if targets.contains name then [separator, s!"{shown} ► {line}"] else [s!"{shown}   {line}"]
  | none => if isComment line then [s!"       {line}"] else [s!"{shown}     {line}"]

/-- The address behind a line. A parenthesis that is never closed counts as an instruction. -/
def addressAfter (address : Nat) (line : String) : Nat :=
  if (definition? line).isSome || isComment line then address else address + 1

structure State where
  address : Nat
  listed : Array String

def State.step (targets : Std.TreeSet String) (s : State) (line : String) : State :=
  ⟨addressAfter s.address line, s.listed ++ entry targets s.address line⟩

/-- A listing: every line with its address, labels that are jumped to set off and marked. -/
def listing (lines : List String) : List String :=
  (lines.foldl (State.step (jumpTargets lines)) ⟨0, #[]⟩).listed.toList

def rule : String := "════════════════════════════════════════"

def headedListing (lines : List String) : List String :=
  [rule, s!" {lines.length} lines, {instructionCount lines} instructions", rule] ++ listing lines

end StackLowering.Assembly.Listing
