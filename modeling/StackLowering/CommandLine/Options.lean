import StackLowering.Disk.Path
import StackLowering.Program.Load
/-! The arguments of the command line. -/
namespace StackLowering.CommandLine
open Disk

structure Flags where
  output : Option Path
  /-- Whether to start with the entry point; if not told, that hangs on the input. -/
  bootstrap : Option Bool
  annotate : Bool
  check : Bool
  listing : Bool
  /-- Shows the tokens of the source and does nothing else. -/
  tokens : Bool
  noColor : Bool
  /-- Writes the program in binary form too. -/
  emitBinary : Bool
  deriving DecidableEq

def Flags.default : Flags := ⟨none, none, false, false, false, false, false, false⟩

structure Options where
  input : Path
  flags : Flags
  deriving DecidableEq

inductive UsageError where
  | missingFilename (option : String)
  | unknownOption (option : String)
  | extraInput (argument : String)
  | noInput
  | tokensOfOther (input : Path)
  deriving DecidableEq

def UsageError.message : UsageError → String
  | missingFilename o => s!"{o} requires a filename"
  | unknownOption o => s!"unknown option '{o}'"
  | extraInput a => s!"unexpected extra input '{a}'"
  | noInput => "no input file or directory given"
  | tokensOfOther p => s!"--tokens needs a .{sourceExtension} source file, got '{p.text}'"

def Flags.switch? (f : Flags) : String → Option Flags
  | "--bootstrap" => some { f with bootstrap := some true }
  | "--no-bootstrap" => some { f with bootstrap := some false }
  | "--annotate" => some { f with annotate := true }
  | "--check" => some { f with check := true }
  | "--listing" => some { f with listing := true }
  | "--tokens" => some { f with tokens := true }
  | "--no-color" => some { f with noColor := true }
  | "--emit-bin" => some { f with emitBinary := true }
  | _ => none

def readArguments (f : Flags) (input : Option Path) :
    List String → Except UsageError (Flags × Option Path)
  | [] => .ok (f, input)
  | argument :: rest =>
    if argument = "-o" ∨ argument = "--output" then
      match rest with
      | [] => .error (.missingFilename argument)
      | path :: rest => readArguments { f with output := some ⟨path⟩ } input rest
    else
      match f.switch? argument with
      | some f => readArguments f input rest
      | none =>
        if argument.toList.head? = some '-' then .error (.unknownOption argument)
        else if input.isSome then .error (.extraInput argument)
        else readArguments f (some ⟨argument⟩) rest

def Options.ofArguments (arguments : List String) : Except UsageError Options := do
  match ← readArguments .default none arguments with
  | (_, none) => throw .noInput
  | (flags, some input) =>
    if flags.tokens && input.extension? ≠ some sourceExtension then throw (.tokensOfOther input)
    return ⟨input, flags⟩

/-- Whether the arguments ask for help, which goes before all else. -/
def asksForHelp (arguments : List String) : Bool :=
  arguments.any fun a => a == "-h" || a == "--help"

def help : List String := [
  "hackvm - VM to Hack assembly translator",
  "",
  "Usage:",
  "  hackvm <file.vm>              Translate one file to <file>.asm",
  "  hackvm <dir>                  Translate every .vm file to <dir>/<dir>.asm",
  "  hackvm <file.vmb>             Translate a binary command stream",
  "",
  "Options:",
  "  -o, --output <path>           Output file",
  "  --bootstrap / --no-bootstrap  Force the SP=256, call Sys.init preamble on or off",
  "  --annotate                    Emit each VM command as a comment",
  "  --check                       Fail on operand stack underflow",
  "  --listing                     Print the result with ROM addresses",
  "  --emit-bin                    Also write the parsed program as .vmb",
  "  --tokens [--no-color]         Show the tokens of a .vm file only",
  "  -h, --help                    Show this help",
  "",
  "Set RUST_LOG=info or RUST_LOG=debug for progress output."]

end StackLowering.CommandLine
