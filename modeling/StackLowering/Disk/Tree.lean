import StackLowering.Disk.Volume
/-! A volume whose directories hold further entries, with names that are no text. No path leads to
those; they are met only where a directory is listed. -/
namespace StackLowering.Disk

structure Tree where
  volume : Volume
  /-- The further entries, each by its directory and its name there. -/
  strays : List ((Place × Name) × Entry)

namespace Tree

def lookup? (t : Tree) (directory : Place) (name : Name) : Option Entry :=
  match Text.ofBytes? name with
  | some s => t.volume.get? (s :: directory)
  | none => t.strays.lookup (directory, name)

/-- The bytes of a further entry by the path of its directory, if that is not too long. -/
def readStray? (t : Tree) (directory : Path) (name : Name) : Option (List UInt8) :=
  match t.volume.find directory with
  | .ok (place, .directory) =>
    match t.strays.lookup (place, name) with
    | some (.file bytes) =>
      if (Location.stray directory name).size ≤ Volume.maxPath then some bytes else none
    | _ => none
  | _ => none

def strayNames (t : Tree) (directory : Place) : List Name :=
  t.strays.filterMap fun e => if e.1.1 = directory then some e.1.2 else none

def names (t : Tree) (p : Path) : Except Fault (List Name) := do
  let names ← t.volume.names p
  let (place, _) ← t.volume.find p
  return names.map Text.toBytes ++ t.strayNames place

def inner {α : Type} : StateM Volume α → StateM Tree α :=
  within Tree.volume fun t v => { t with volume := v }

instance : Access (StateM Tree) where
  isDirectory p := inner (Access.isDirectory p)
  isFile
    | .path p => inner (Access.isFile p)
    | .stray directory name => return ((← get).readStray? directory name).isSome
  read
    | .path p => ExceptT.mk (inner (Access.read p).run)
    | .stray directory name => do
      ExceptT.mk (return ((← get).readStray? directory name).elim (.error .notFound) .ok)
  names p := do ExceptT.mk (return (← get).names p)
  ownName? p := inner (Access.ownName? p)
  write p bytes := ExceptT.mk (inner (Access.write p bytes).run)
  rename old new := ExceptT.mk (inner (Access.rename old new).run)
  remove p := ExceptT.mk (inner (Access.remove p).run)

end Tree
end StackLowering.Disk
