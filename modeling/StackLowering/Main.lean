import StackLowering.CommandLine.Run
/-! The command line on the files of the machine. All that it does is in `CommandLine.run`; here
are only the operations on files and the printing. Names of files are text here. -/
namespace StackLowering.Disk

/-- A failure by its number, which some operations give negated. -/
def Fault.ofNumber (code : UInt32) (details : String) : Fault :=
  match if 2 * code.toNat < UInt32.size then code.toNat else UInt32.size - code.toNat with
  | 2 => .notFound
  | 16 => .busy
  | 20 => .notDirectory
  | 21 => .isDirectory
  | 36 => .nameTooLong
  | number => .other s!"{details} (os error {number})"

def Fault.ofError : IO.Error → Fault
  | .alreadyExists _ code details | .otherError code details | .resourceBusy code details
  | .resourceVanished code details | .unsupportedOperation code details
  | .hardwareFault code details | .unsatisfiedConstraints code details
  | .illegalOperation code details | .protocolError code details | .timeExpired code details
  | .interrupted _ code details | .noFileOrDirectory _ code details
  | .invalidArgument _ code details | .permissionDenied _ code details
  | .resourceExhausted _ code details | .inappropriateType _ code details
  | .noSuchThing _ code details => .ofNumber code details
  | e => .other e.toString

def attempt {α : Type} (action : IO α) : ExceptT Fault IO α :=
  ExceptT.mk do
    try return .ok (← action)
    catch e => return .error (.ofError e)

def orElse {α : Type} (default : α) (action : IO α) : IO α :=
  try action catch _ => return default

instance : Access IO where
  isDirectory p := orElse false do (← IO.FS.realPath p.text).isDir
  isFile
    | .path p => orElse false do return (← (← IO.FS.realPath p.text).metadata).type == .file
    | .stray .. => return false
  read
    | .path p => attempt do return (← IO.FS.readBinFile p.text).data.toList
    | .stray .. => throw .notFound
  names p := attempt do
    return (← (← IO.FS.realPath p.text).readDir).toList.map fun e => Text.toBytes e.fileName
  ownName? p := orElse none do
    return (← IO.FS.realPath p.text).fileName.map Text.toBytes
  write p bytes := attempt (IO.FS.writeBinFile p.text ⟨bytes.toArray⟩)
  rename old new := attempt (IO.FS.rename old.text new.text)
  remove p := attempt (IO.FS.removeFile p.text)

end StackLowering.Disk

def main (arguments : List String) : IO UInt32 := do
  let outcome ← StackLowering.CommandLine.run arguments
  IO.print outcome.out
  IO.eprint outcome.err
  return outcome.status
