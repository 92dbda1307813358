import StackLowering.Text.Pieces
/-! Paths as they are written. Slashes part the names; where several stand together, or one stands
last, they count as one, and so does a dot between them. -/
namespace StackLowering.Disk

structure Path where
  text : String
  deriving DecidableEq

namespace Path

def pieces (p : Path) : List String := (Text.pieces '/' p.text.toList).map String.ofList

def isIdle (piece : String) : Bool := piece == "" || piece == "."

inductive Component where
  | root
  /-- A dot at the very front, the only one that counts. -/
  | here
  | up
  | name (name : String)
  deriving DecidableEq

def components (p : Path) : List Component :=
  let first := match p.pieces with
    | "" :: _ :: _ => [.root]
    | "." :: _ => [.here]
    | _ => []
  first ++ (p.pieces.filter (!isIdle ·)).map fun s => if s == ".." then .up else .name s

/-- Two ways of writing the same names. -/
def same (p q : Path) : Bool := p.components == q.components

/-- The last name, if the path ends with a name. -/
def fileName? (p : Path) : Option String :=
  match (p.pieces.filter (!isIdle ·)).getLast? with
  | some ".." => none
  | name => name

/-- Cuts a file name at its last dot, unless nothing stands before that. -/
def splitName (name : String) : String × Option String :=
  let (stem, extension) := Text.cutLast '.' name.toList
  (String.ofList stem, extension.map String.ofList)

def stem? (p : Path) : Option String := p.fileName?.map fun name => (splitName name).1

def extension? (p : Path) : Option String := p.fileName?.bind fun name => (splitName name).2

/-- Puts another extension in place of the path's own, or behind a name that has none. The old one
is cut off at the end of the path, and what is then no file name stays as it is. -/
def withExtension (p : Path) (extension : String) : Path :=
  let old := (p.extension?.getD "").length
  let cut : Path := ⟨String.ofList (p.text.toList.take (p.text.length - old))⟩
  match cut.stem? with
  | none => cut
  | some stem =>
    let before := (cut.pieces.reverse.dropWhile isIdle).tail.reverse
    ⟨"/".intercalate (before ++ [stem ++ "." ++ extension])⟩

def join (p : Path) (name : String) : Path :=
  if p.text.isEmpty || p.text.toList.getLast? = some '/' then ⟨p.text ++ name⟩
  else ⟨p.text ++ "/" ++ name⟩

def extend (p : Path) (suffix : String) : Path := ⟨p.text ++ suffix⟩

end Path
end StackLowering.Disk
