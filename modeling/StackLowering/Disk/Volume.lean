import StackLowering.Disk.Access
/-! A file system as a value: a tree of directories and files, in which relative paths start at a
directory of their own. There are no links and no permissions, names are text, and a change that
fits the tree always goes through. -/
namespace StackLowering.Disk

inductive Entry where
  | directory
  | file (bytes : List UInt8)
  deriving DecidableEq

/-- A place in the tree: names from the inside out. The root has none. -/
abbrev Place := List String

structure Volume where
  /-- Where relative paths start. -/
  here : Place
  entries : List (Place × Entry)

namespace Volume

def get? (v : Volume) : Place → Option Entry
  | [] => some .directory
  | place => v.entries.lookup place

def isDirectoryAt (v : Volume) (place : Place) : Bool := v.get? place == some .directory

def erase (v : Volume) (place : Place) : Volume :=
  { v with entries := v.entries.filter (·.1 ≠ place) }

def set (v : Volume) (place : Place) (entry : Entry) : Volume :=
  { v with entries := (place, entry) :: (v.erase place).entries }

private theorem lookup_erase (v : Volume) (erased place : Place) :
    (v.erase erased).entries.lookup place =
      if place = erased then none else v.entries.lookup place := by
  rw [erase]
  induction v.entries with
  | nil => simp
  | cons e es ih =>
    obtain ⟨p, e⟩ := e
    by_cases hp : p = erased
    · rw [List.filter_cons_of_neg (by simp [hp]), ih]
      split
      · rfl
      · next h => rw [List.lookup_cons, hp, beq_false_of_ne h]
    · rw [List.filter_cons_of_pos (by simp [hp]), List.lookup_cons, ih, List.lookup_cons]
      by_cases h : place = p
      · simp [h, hp]
      · simp [beq_false_of_ne h]

theorem get?_erase {erased : Place} (h : erased ≠ []) (v : Volume) (place : Place) :
    (v.erase erased).get? place = if place = erased then none else v.get? place := by
  cases place with
  | nil => rw [if_neg (Ne.symm h)]; rfl
  | cons name parent => exact lookup_erase v erased (name :: parent)

theorem get?_set {changed : Place} (h : changed ≠ []) (v : Volume) (entry : Entry)
    (place : Place) :
    (v.set changed entry).get? place = if place = changed then some entry else v.get? place := by
  cases place with
  | nil => rw [if_neg (Ne.symm h)]; rfl
  | cons name parent =>
    show List.lookup _ ((changed, entry) :: (v.erase changed).entries) = _
    rw [List.lookup_cons, lookup_erase]
    by_cases hp : name :: parent = changed
    · simp [hp]
    · simp [hp, beq_eq_false_iff_ne.2 hp]
      rfl

/-- Puts an entry at a place and makes the directories above it. -/
def grow (v : Volume) (place : Place) (entry : Entry) : Volume :=
  match place with
  | [] => v
  | name :: parent =>
    let v := if (v.get? parent).isSome then v else v.grow parent .directory
    v.set (name :: parent) entry

/-- The greatest length of a name, in bytes. -/
def maxName : Nat := 255

/-- The greatest length of a path, in bytes. -/
def maxPath : Nat := 4095

def requireDirectory (v : Volume) (place : Place) : Except Fault Unit :=
  match v.get? place with
  | some .directory => .ok ()
  | some (.file _) => .error .notDirectory
  | none => .error .notFound

def child (v : Volume) (place : Place) (name : String) : Except Fault Place := do
  v.requireDirectory place
  if maxName < name.utf8ByteSize then throw .nameTooLong
  return name :: place

/-- Follows one piece of a path. Even one that leads nowhere must start at a directory. -/
def follow (v : Volume) (place : Place) (piece : String) : Except Fault Place :=
  if Path.isIdle piece then do
    v.requireDirectory place
    return place
  else if piece = ".." then do
    v.requireDirectory place
    return place.tail
  else v.child place piece

def start (v : Volume) (p : Path) : Except Fault Place :=
  if p.text.toList.contains '\x00' then .error .nulInPath
  else if p.text.isEmpty then .error .notFound
  else if maxPath < p.text.utf8ByteSize then .error .nameTooLong
  else .ok (if p.text.toList.head? = some '/' then [] else v.here)

/-- The place that a path leads to. Nothing need be there, but all before it is a directory. -/
def locate (v : Volume) (p : Path) : Except Fault Place := do
  p.pieces.foldlM v.follow (← v.start p)

def find (v : Volume) (p : Path) : Except Fault (Place × Entry) := do
  let place ← v.locate p
  match v.get? place with
  | some entry => return (place, entry)
  | none => throw .notFound

/-- A path as the place of an entry that can be made, moved or removed. -/
structure Target where
  directory : Place
  /-- The last piece of the path, empty for the root. -/
  name : String
  /-- Whether a slash follows, which only directories allow. -/
  slashed : Bool

def Target.isNamed (t : Target) : Bool := !Path.isIdle t.name && t.name ≠ ".."

def Target.place (t : Target) : Place := t.name :: t.directory

def target (v : Volume) (p : Path) : Except Fault Target := do
  let start ← v.start p
  let back := p.pieces.reverse
  match back.dropWhile (·.isEmpty) with
  | [] => return ⟨[], "", true⟩
  | name :: before =>
    let directory ← before.reverse.foldlM v.follow start
    let _ ← v.child directory name
    return ⟨directory, name, back.head? = some ""⟩

def read (v : Volume) (p : Path) : Except Fault (List UInt8) := do
  match (← v.find p).2 with
  | .file bytes => return bytes
  | .directory => throw .isDirectory

def names (v : Volume) (p : Path) : Except Fault (List String) := do
  match ← v.find p with
  | (_, .file _) => throw .notDirectory
  | (directory, .directory) =>
    return v.entries.filterMap fun (place, _) =>
      match place with
      | name :: parent => if parent = directory then some name else none
      | [] => none

def write (v : Volume) (p : Path) (bytes : List UInt8) : Except Fault Volume := do
  let t ← v.target p
  if t.slashed || !t.isNamed || v.isDirectoryAt t.place then throw .isDirectory
  return v.set t.place (.file bytes)

def rename (v : Volume) (old new : Path) : Except Fault Volume := do
  let source ← v.target old
  let goal ← v.target new
  if !source.isNamed || !goal.isNamed then throw .busy
  match v.get? source.place with
  | none => throw .notFound
  | some .directory => throw .isDirectory
  | some (.file bytes) =>
    if source.slashed || goal.slashed then throw .notDirectory
    if v.isDirectoryAt goal.place then throw .isDirectory
    return (v.erase source.place).set goal.place (.file bytes)

def remove (v : Volume) (p : Path) : Except Fault Volume := do
  match ← v.find p with
  | (place, .file _) => return v.erase place
  | (_, .directory) => throw .isDirectory

/-- A change of the volume, which a failure leaves as it is. -/
def change (f : Volume → Except Fault Volume) : ExceptT Fault (StateM Volume) Unit :=
  fun v => match f v with
    | .ok v => (.ok (), v)
    | .error fault => (.error fault, v)

instance : Access (StateM Volume) where
  isDirectory p := return match (← get).find p with
    | .ok (_, .directory) => true
    | _ => false
  isFile
    | .path p => return match (← get).find p with
      | .ok (_, .file _) => true
      | _ => false
    | .stray .. => return false
  read
    | .path p => do ExceptT.mk (return (← get).read p)
    | .stray .. => throw .notFound
  names p := do ExceptT.mk (return ((← get).names p).map (·.map Text.toBytes))
  ownName? p := return match (← get).find p with
    | .ok (place, _) => place.head?.map Text.toBytes
    | .error _ => none
  write p bytes := change (·.write p bytes)
  rename old new := change (·.rename old new)
  remove p := change (·.remove p)

end Volume

/-- A computation on a part of a state. -/
def within {σ τ α : Type} (part : σ → τ) (update : σ → τ → σ) (x : StateM τ α) : StateM σ α :=
  fun s =>
    let (a, t) := x.run (part s)
    (a, update s t)

end StackLowering.Disk
