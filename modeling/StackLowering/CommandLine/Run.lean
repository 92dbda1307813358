import StackLowering.Assembly.Listing
import StackLowering.CommandLine.Options
import StackLowering.Source.Dump
import StackLowering.StackCheck
import StackLowering.Lowering.Basic
/-! Runs of the command line, in any monad with access to files. -/
namespace StackLowering.CommandLine
open Assembly Disk

structure Outcome where
  status : UInt32
  out : String
  err : String
  deriving DecidableEq

def Outcome.failure (message : String) : Outcome := ⟨1, "", message ++ "\n"⟩

inductive RunError where
  | load (error : LoadError)
  | underflow (unit : String) (underflow : Underflow)
  | rejected (rejection : Rejection)
  | save (path : Path) (fault : Disk.Fault)
  deriving DecidableEq

def RunError.message : RunError → String
  | load e => e.message
  | underflow unit u => s!"{unit}: {u.message}"
  | rejected r => r.message
  | save p f => s!"{p.text}: {f.message}"

def checkUnits : List SourceUnit → Except RunError Unit
  | [] => .ok ()
  | u :: us =>
    match checkStack u.commands with
    | .ok () => checkUnits us
    | .error underflow => .error (.underflow u.name underflow)

variable {m : Type → Type} [Monad m] [Access m]

/-- A program is started from its entry point if it fills a directory that has a unit for it. -/
def defaultBootstrap (input : Path) (p : Program) : m Bool := do
  return (← Access.isDirectory input) && p.units.any (·.name == "Sys")

def save (p : Path) (bytes : List UInt8) : ExceptT RunError m Unit :=
  (writeAtomic p bytes).adapt (.save p)

/-- Writes the binary form beside the output, unless that is where the program came from. -/
def saveBinary (input output : Path) (p : Program) : ExceptT RunError m Unit := do
  let path := output.withExtension binaryExtension
  unless path.same input do save path p.toBytes

/-- Lowers the input and writes the output; the result is the text to print. -/
def lower (o : Options) : ExceptT RunError m String := do
  let program ← (load o.input).adapt .load
  if o.flags.check then liftExcept (checkUnits program.units)
  let bootstrap ← match o.flags.bootstrap with
    | some asked => pure asked
    | none => (defaultBootstrap o.input program : m Bool)
  let code ← liftExcept <|
    (program.lower ⟨bootstrap, o.flags.annotate⟩).mapError .rejected
  let lines := code.map Line.text
  let output ← match o.flags.output with
    | some path => pure path
    | none => (defaultOutput o.input : m Path)
  if o.flags.emitBinary then saveBinary o.input output program
  save output (Text.toBytes (fileText lines))
  return if o.flags.listing then fileText (Listing.headedListing lines) else ""
where
  liftExcept {α : Type} (r : Except RunError α) : ExceptT RunError m α := ExceptT.mk (pure r)

def showTokens (o : Options) : m Outcome := do
  match ← (readText o.input).run with
  | .ok source => return ⟨0, fileText (Source.dump ⟨!o.flags.noColor, false⟩ source), ""⟩
  | .error fault => return .failure s!"Failed to read '{o.input.text}': {fault.message}"

def run (arguments : List String) : m Outcome := do
  if arguments.isEmpty then return ⟨1, fileText help, ""⟩
  if asksForHelp arguments then return ⟨0, fileText help, ""⟩
  match Options.ofArguments arguments with
  | .error e => return .failure s!"Error: {e.message}"
  | .ok o =>
    if o.flags.tokens then showTokens o
    else match ← (lower o).run with
      | .ok out => return ⟨0, out, ""⟩
      | .error e => return .failure e.message

end StackLowering.CommandLine
