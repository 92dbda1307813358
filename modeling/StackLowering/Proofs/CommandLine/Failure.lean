import StackLowering.Proofs.CommandLine.Running
import StackLowering.Proofs.Disk.Atomicity
/-! What a run that fails leaves behind. Nothing is written before the program is lowered, and a
write that fails changes at most the place where the file was to be written first: a file may be
lost there, and where changes are interrupted a part of the new one may be left. -/
namespace StackLowering.CommandLine
open Disk Disk.Volume

/-- Whether a file is lost that stood where the file for a path is written before it is moved there.
The path takes no file, which shows only when the other one is gone. -/
structure Lost (v w : Volume) (p : Path) (place : Place) : Prop where
  refused : ∀ g, v.target p = .ok g → ¬v.Free g
  beside : ∃ t, v.target p.draft = .ok t ∧ t.place = place
  before : ∃ bytes, v.get? place = some (.file bytes)
  after : w.get? place = none

/-- Whether a place is where the file for a path is written first, and that file is gone or holds a
beginning of the bytes, all of them included. -/
structure Begun (v w : Volume) (p : Path) (bytes : List UInt8) (place : Place) : Prop where
  beside : ∃ t, v.target p.draft = .ok t ∧ v.Free t ∧ t.place = place
  after : w.get? place = none ∨ ∃ part, part <+: bytes ∧ w.get? place = some (.file part)

/-- Whether a path takes a file, and a place is its own or that of the file written first. -/
structure Takes (v : Volume) (p : Path) (place : Place) : Prop where
  free : ∃ g, v.target p = .ok g ∧ v.Free g
  near : (∃ g, v.target p = .ok g ∧ g.place = place) ∨
    ∃ t, v.target p.draft = .ok t ∧ t.place = place

section
variable {u v w : Volume} {p : Path} {bytes : List UInt8} {place : Place}

private theorem Lost.of_sameDirectories (h : SameDirectories u v)
    (hp : v.get? place = u.get? place) (hl : Lost v w p place) : Lost u w p place where
  refused g hg hf := hl.refused g (h.target_of hg) (hf.of_sameDirectories h)
  beside := by
    obtain ⟨t, ht, he⟩ := hl.beside
    exact ⟨t, h.symm.target_of ht, he⟩
  before := by
    rw [← hp]
    exact hl.before
  after := hl.after

private theorem Begun.of_sameDirectories (h : SameDirectories u v) (hl : Begun v w p bytes place) :
    Begun u w p bytes place where
  beside := by
    obtain ⟨t, ht, hf, he⟩ := hl.beside
    exact ⟨t, h.symm.target_of ht, hf.of_sameDirectories h.symm, he⟩
  after := hl.after

end

section
variable {σ : Type} [Access (StateM σ)] {volume : σ → Volume} {s t : σ} {o : Options} {j : Job}

end

end StackLowering.CommandLine
