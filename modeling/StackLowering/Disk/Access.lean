import StackLowering.Disk.Path
import StackLowering.Text.Lossy
/-! What a program may ask of a file system, and how that can fail. A path that a program is given
is text, but the names that it finds in a directory need not be. -/
namespace StackLowering.Disk

abbrev Name := List UInt8

inductive Location where
  | path (path : Path)
  /-- An entry of a directory whose name is no text. -/
  | stray (directory : Path) (name : Name)
  deriving DecidableEq

instance : Coe Path Location := ⟨.path⟩

def Path.entry (directory : Path) (name : Name) : Location :=
  match Text.ofBytes? name with
  | some s => .path (directory.join s)
  | none => .stray directory name

namespace Location

def dot : UInt8 := 0x2E

def text : Location → String
  | path p => p.text
  | stray directory name => (directory.join (Text.lossy name)).text

/-- The length of the location as it is given to the system, in bytes. -/
def size : Location → Nat
  | path p => p.text.utf8ByteSize
  | stray directory name => (directory.join "").text.utf8ByteSize + name.length

def stem? : Location → Option String
  | path p => p.stem?
  | stray _ name => some (Text.lossy (Text.cutLast dot name).1)

def extension? : Location → Option String
  | path p => p.extension?
  | stray _ name => (Text.cutLast dot name).2.bind Text.ofBytes?

end Location

inductive Fault where
  | notFound
  | notDirectory
  | isDirectory
  | busy
  | nameTooLong
  /-- No path may hold the character NUL. -/
  | nulInPath
  /-- The bytes of a text file are not UTF-8. -/
  | notText
  /-- A failure that the file system describes itself. -/
  | other (message : String)
  deriving DecidableEq

def Fault.message : Fault → String
  | notFound => "No such file or directory (os error 2)"
  | notDirectory => "Not a directory (os error 20)"
  | isDirectory => "Is a directory (os error 21)"
  | busy => "Device or resource busy (os error 16)"
  | nameTooLong => "File name too long (os error 36)"
  | nulInPath => "file name contained an unexpected NUL byte"
  | notText => "stream did not contain valid UTF-8"
  | other message => message

/-- The operations on files, in a monad that can carry them out. -/
class Access (m : Type → Type) where
  isDirectory : Path → m Bool
  isFile : Location → m Bool
  read : Location → ExceptT Fault m (List UInt8)
  /-- The names in a directory, in no particular order. -/
  names : Path → ExceptT Fault m (List Name)
  /-- The name that a directory goes by in its parent, the root having none. -/
  ownName? : Path → m (Option Name)
  /-- Makes the file, or replaces what it holds. -/
  write : Path → List UInt8 → ExceptT Fault m Unit
  /-- Moves a file, in place of the one at the new path if there is one. -/
  rename : (old new : Path) → ExceptT Fault m Unit
  remove : Path → ExceptT Fault m Unit

variable {m : Type → Type} [Monad m] [Access m]

def readText (l : Location) : ExceptT Fault m String := do
  match Text.ofBytes? (← Access.read l) with
  | some s => return s
  | none => throw .notText

/-- Writes a file beside `p` and then moves it there, so that `p` never holds a part of the bytes.
If it cannot be moved it is removed. -/
def writeAtomic (p : Path) (bytes : List UInt8) : ExceptT Fault m Unit := do
  let draft := p.extend ".tmp"
  Access.write draft bytes
  try Access.rename draft p
  catch fault =>
    try Access.remove draft catch _ => pure ()
    throw fault

end StackLowering.Disk
