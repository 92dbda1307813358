import StackLowering.Disk.Access
import StackLowering.Program.Binary
import StackLowering.Source.Statement
/-! Loading programs: from a source file, from all source files of a directory, or from a file in
binary form. -/
namespace StackLowering
open Disk

def sourceExtension : String := "vm"
def binaryExtension : String := "vmb"
def outputExtension : String := "asm"

inductive LoadError where
  | access (location : Location) (fault : Disk.Fault)
  | source (location : Location) (error : Source.Error)
  | binary (path : Path) (fault : Binary.Fault)
  /-- A directory without source files. -/
  | noSources (path : Path)
  /-- A file that is neither a source nor in binary form. -/
  | badExtension (path : Path)
  deriving DecidableEq

def LoadError.message : LoadError → String
  | access l f => s!"{l.text}: {f.message}"
  | source l e => s!"parse error: {l.text}:{e.message}"
  | binary p f => s!"{p.text}: invalid .{binaryExtension} file: {f.message}"
  | noSources p => s!"{p.text}: no .{sourceExtension} files found"
  | badExtension p =>
    s!"expected a .{sourceExtension} or .{binaryExtension} file or a directory, got {p.text}"

/-- The file name without its extension; what of it is no text is replaced. -/
def unitName (l : Location) : String := l.stem?.getD ""

variable {m : Type → Type} [Monad m] [Access m]

/-- Loads a source file, whatever its extension. -/
def loadUnit (l : Location) : ExceptT LoadError m SourceUnit := do
  let source ← (readText l).adapt (.access l)
  match Source.parse source with
  | .ok commands => return ⟨unitName l, commands⟩
  | .error e => throw (.source l e)

/-- The source files of a directory, in the order of the bytes of their names. -/
def sourceFiles (directory : Path) : ExceptT Disk.Fault m (List Location) := do
  let names ← Access.names directory
  let found := names.mergeSort.map directory.entry
  (found.filter (·.extension? == some sourceExtension)).filterM fun l => (Access.isFile l : m Bool)

def loadDirectory (p : Path) : ExceptT LoadError m Program := do
  let files ← (sourceFiles p).adapt (.access p)
  if files.isEmpty then throw (.noSources p)
  return ⟨← files.mapM loadUnit⟩

def loadBinary (p : Path) : ExceptT LoadError m Program := do
  let bytes ← (Access.read (.path p)).adapt (.access p)
  match Program.ofBytes bytes with
  | .ok program => return program
  | .error fault => throw (.binary p fault)

def load (p : Path) : ExceptT LoadError m Program := do
  if ← (Access.isDirectory p : m Bool) then loadDirectory p
  else if p.extension? = some sourceExtension then return ⟨[← loadUnit p]⟩
  else if p.extension? = some binaryExtension then loadBinary p
  else throw (.badExtension p)

/-- Where the output goes unless told otherwise: beside a file, or into a directory under the
directory's own name. -/
def defaultOutput (p : Path) : m Path := do
  if ← Access.isDirectory p then
    let name := ((← Access.ownName? p).map Text.lossy).getD "out"
    return p.join s!"{name}.{outputExtension}"
  else return p.withExtension outputExtension

end StackLowering
