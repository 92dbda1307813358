import StackLowering.Proofs.Disk.Directory
import StackLowering.Proofs.Disk.Rewriting
import StackLowering.Proofs.Program.Loaded
/-! Volumes that load the same programs. They need only have the same directories and the same
sources; other files may come and go. -/
namespace StackLowering
open Disk Disk.Volume

def isSourceName (name : String) : Bool :=
  ("." ++ sourceExtension).toList.isSuffixOf name.toList

theorem isSourceName_iff {name : String} :
    isSourceName name = true ↔ ∃ stem, name = stem ++ "." ++ sourceExtension := by
  rw [isSourceName, List.isSuffixOf_iff_suffix]
  constructor
  · rintro ⟨front, hf⟩
    refine ⟨String.ofList front, String.toList_injective ?_⟩
    rw [String.append_assoc, String.toList_append, String.toList_ofList, hf]
  · rintro ⟨stem, rfl⟩
    exact ⟨stem.toList, by simp⟩

def isSourcePlace : Place → Bool
  | [] => false
  | name :: _ => isSourceName name

/-- Whether volumes have the same directories, and the same entries under the names of sources. -/
structure SameSources (v w : Volume) : Prop extends SameDirectories v w where
  kept : v.kept isSourcePlace = w.kept isSourcePlace

section
variable {v w : Volume} {p : Path} {place : Place} {name : String} {names : List String}

private theorem isSourceName_of_extension (h : (Path.splitName name).2 = some sourceExtension) :
    isSourceName name = true :=
  isSourceName_iff.2 ⟨_, Path.eq_of_splitName h⟩

/-- A file that holds a program has one of two extensions. -/
theorem HoldsProgram.extension?_of_file {program : Program} {bytes : List UInt8}
    (h : HoldsProgram v p program) (hf : v.find p = .ok (place, .file bytes)) :
    p.extension? = some sourceExtension ∨ p.extension? = some binaryExtension := by
  cases h with
  | directory hd =>
    rw [hf] at hd
    cases hd
  | source _ hx _ => exact .inl hx
  | binary hx _ _ => exact .inr hx

/-- A file by the path of a source has the name of one. -/
private theorem exists_sourceName {bytes : List UInt8} (hf : v.find p = .ok (place, .file bytes))
    (hx : p.extension? = some sourceExtension) :
    ∃ before name directory, p.pieces = before ++ [name] ∧ place = name :: directory ∧
      isSourceName name = true := by
  rw [Path.extension?, Option.bind_eq_some_iff] at hx
  obtain ⟨name, hn, hx⟩ := hx
  obtain ⟨before, directory, hp, -, rfl⟩ := pieces_of_find_file hf hn
  exact ⟨before, name, directory, hp, rfl, isSourceName_of_extension hx⟩

/-- A name in a directory ends as the last piece of its path does. -/
private theorem isSourceName_of_join (hp : p.text ≠ "") {before : List String} {last : String}
    (hj : (p.join name).pieces = before ++ [last]) (hl : isSourceName last = true) :
    isSourceName name = true := by
  obtain ⟨front, hf, -⟩ := Path.pieces_join hp name
  obtain ⟨inner, last', hn⟩ := Path.exists_pieces ⟨name⟩
  rw [hn, hj, ← List.append_assoc] at hf
  obtain ⟨-, hlast⟩ := List.append_inj' hf rfl
  obtain rfl := (List.cons.inj hlast).1
  obtain ⟨ps, last', hps, rfl, hl'⟩ := List.map_eq_append_iff.1 hn
  obtain ⟨cs, rfl, rfl⟩ := List.map_eq_singleton_iff.1 hl'
  have hps : Text.pieces '/' name.toList = ps ++ [[] ++ cs] := hps
  obtain ⟨start, hs, -⟩ := Text.append_of_pieces hps
  rw [isSourceName, List.isSuffixOf_iff_suffix, String.toList_ofList] at hl
  rw [isSourceName, List.isSuffixOf_iff_suffix, hs]
  exact hl.trans (List.suffix_append ..)

namespace SameSources

private theorem symm (h : SameSources v w) : SameSources w v :=
  ⟨h.toSameDirectories.symm, h.kept.symm⟩

theorem find_of (h : SameSources v w) (hx : p.extension? = some sourceExtension)
    {bytes : List UInt8} (hf : v.find p = .ok (place, .file bytes)) :
    w.find p = .ok (place, .file bytes) := by
  obtain ⟨before, name, directory, -, rfl, hs⟩ := exists_sourceName hf hx
  obtain ⟨hl, he⟩ := find_eq_ok_iff.1 hf
  have hk : v.get? (name :: directory) = w.get? (name :: directory) := get?_of_kept h.kept hs
  exact find_eq_ok_iff.2 ⟨h.locate_of hl, hk ▸ he⟩

private theorem holdsUnit_of (h : SameSources v w) (hx : p.extension? = some sourceExtension)
    {u : SourceUnit} (hu : HoldsUnit v p u) : HoldsUnit w p u := by
  obtain ⟨hn, bytes, source, hr, ht, hp⟩ := hu
  obtain ⟨place, hf⟩ := read_eq_ok_iff.1 hr
  have hf := h.find_of hx (find_eq_ok_iff.2 hf)
  exact ⟨hn, bytes, source, read_eq_ok_iff.2 ⟨place, find_eq_ok_iff.1 hf⟩, ht, hp⟩

/-- The names of sources in a directory are the same, and are found in the same order. -/
private theorem names_of (h : SameSources v w) (hd : v.find p = .ok (place, .directory))
    (hn : v.names p = .ok names) :
    ∃ names', w.names p = .ok names' ∧ names'.filter isSourceName = names.filter isSourceName := by
  have picked (u : Volume) :
      ((u.entries.map (·.1)).filterMap (nameIn? place)).filter isSourceName =
        (u.kept isSourcePlace).filterMap (nameIn? place ·.1) := by
    rw [Volume.kept, List.filterMap_map, List.filter_filterMap, List.filterMap_filter]
    refine congrArg (List.filterMap · u.entries) (funext fun e => ?_)
    obtain ⟨_ | ⟨name, parent⟩, entry⟩ := e
    · rfl
    · by_cases hp : parent = place
      · simp [nameIn?, isSourcePlace, hp, Option.filter]
      · simp [nameIn?, isSourcePlace, hp]
  rw [names_eq_filterMap hd] at hn
  obtain rfl := Except.ok.inj hn
  exact ⟨_, names_eq_filterMap (h.find_directory hd), by rw [picked, picked, h.kept]⟩

private theorem sourcesAmong_eq {names' : List String} (h : SameSources v w) (hp : p.text ≠ "")
    (hn : names'.filter isSourceName = names.filter isSourceName) :
    sourcesAmong w p names' = sourcesAmong v p names := by
  have isSource {u u' : Volume} (hu : SameSources u u') {name : String}
      (hs : (answer u (Access.isFile (p.join name)) &&
        (p.join name).extension? == some sourceExtension) = true) :
      isSourceName name = true ∧ (answer u' (Access.isFile (p.join name)) &&
        (p.join name).extension? == some sourceExtension) = true := by
    rw [Bool.and_eq_true, answer_isFile, beq_iff_eq] at hs ⊢
    obtain ⟨⟨q, bytes, hf⟩, hx⟩ := hs
    obtain ⟨before, last, directory, hj, -, hlast⟩ := exists_sourceName hf hx
    exact ⟨isSourceName_of_join hp hj hlast, ⟨q, bytes, hu.find_of hx hf⟩, hx⟩
  have picked {u : Volume} (hu : SameSources u w) (names : List String) :
      sourceNames u p names = (names.filter isSourceName).mergeSort.filter fun name =>
        answer w (Access.isFile (p.join name)) &&
          (p.join name).extension? == some sourceExtension := by
    rw [sourceNames, mergeSort_filter, List.filter_filter]
    refine List.filter_congr fun name _ => ?_
    rw [Bool.eq_iff_iff, Bool.and_eq_true (_ && _)]
    exact ⟨fun hs => (isSource hu hs).symm, fun hs => (isSource hu.symm hs.1).2⟩
  rw [StackLowering.sourcesAmong_eq, StackLowering.sourcesAmong_eq,
    picked ⟨.refl w, rfl⟩, picked h, hn]

/-- A program is loaded again where the input, if it is a file, is still the same. -/
theorem holdsProgram_of (h : SameSources v w)
    (hi : ∀ place bytes, v.find p = .ok (place, .file bytes) → w.find p = .ok (place, .file bytes))
    {program : Program} (hp : HoldsProgram v p program) : HoldsProgram w p program := by
  cases hp with
  | @directory place names units hd hn hne hu =>
    obtain ⟨hl, -⟩ := find_eq_ok_iff.1 hd
    obtain ⟨s, hs, -⟩ := locate_eq_ok_iff.1 hl
    obtain ⟨names', hn', hf⟩ := h.names_of hd hn
    have hsources := h.sourcesAmong_eq (start_eq_ok_iff.1 hs).2.1 hf
    refine .directory (h.find_directory hd) hn' (hsources ▸ hne) ?_
    rw [hsources]
    have hx : ∀ q ∈ sourcesAmong v p names, q.extension? = some sourceExtension := fun q hq => by
      have hq := (List.mem_filter.1 (List.mem_filter.1 hq).1).2
      exact beq_iff_eq.1 hq
    exact ((List.forall₂_and_left _ _).2 ⟨hx, hu⟩).imp fun q u hq => h.holdsUnit_of hq.1 hq.2
  | source hd hx hu =>
    exact .source (fun place hw => hd place (h.symm.find_directory hw)) hx (h.holdsUnit_of hx hu)
  | binary hx hr hb =>
    obtain ⟨place, hf⟩ := read_eq_ok_iff.1 hr
    have hf := hi place _ (find_eq_ok_iff.2 hf)
    exact .binary hx (read_eq_ok_iff.2 ⟨place, find_eq_ok_iff.1 hf⟩) hb

end SameSources
end
end StackLowering
