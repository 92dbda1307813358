import StackLowering.Program.Load
import StackLowering.Result
import StackLowering.Proofs.Disk.Extension
import StackLowering.Proofs.Program.Decoding
import StackLowering.Proofs.Source.Located
/-! Loading a program. It only reads, and what is loaded from a volume can be written in binary
form, provided that the sizes on the volume are numbers that can be written. -/
namespace StackLowering
open Disk Disk.Volume

section Reading
variable {σ : Type} [Access (StateM σ)] [LawfulAccess σ] {s : σ} {p : Path}

private theorem keeps_loadUnit (l : Location) :
    Keeps (loadUnit l : ExceptT LoadError (StateM σ) _).run :=
  ((keeps_readText l).adapt _).andThen fun source => by
    cases Source.parse source
    · exact keeps_error _
    · exact keeps_ok _

private theorem keeps_sourceFiles (p : Path) :
    Keeps (sourceFiles p : ExceptT Disk.Fault (StateM σ) _).run :=
  (LawfulAccess.names p).andThen fun _ => keeps_filterM LawfulAccess.isFile _

private theorem keeps_loadDirectory (p : Path) :
    Keeps (loadDirectory p : ExceptT LoadError (StateM σ) _).run :=
  ((keeps_sourceFiles p).adapt _).andThen fun files => by
    have hu : Keeps (do return ⟨← files.mapM loadUnit⟩ :
        ExceptT LoadError (StateM σ) Program).run :=
      (keeps_mapM keeps_loadUnit files).andThen fun _ => keeps_ok _
    dsimp only
    split
    · exact (keeps_error _).andThen fun _ => hu
    · exact hu

private theorem keeps_loadBinary (p : Path) :
    Keeps (loadBinary p : ExceptT LoadError (StateM σ) _).run :=
  ((LawfulAccess.read _).adapt _).andThen fun bytes => by
    cases Program.ofBytes bytes
    · exact keeps_error _
    · exact keeps_ok _

theorem keeps_load (p : Path) : Keeps (load p : ExceptT LoadError (StateM σ) _).run :=
  (LawfulAccess.isDirectory p).lift.andThen fun directory => by
    cases directory
    · simp only [Bool.false_eq_true, if_false]
      split
      · exact (keeps_loadUnit _).andThen fun _ => keeps_ok _
      · split
        · exact keeps_loadBinary p
        · exact keeps_error _
    · exact keeps_loadDirectory p

theorem keeps_defaultOutput (p : Path) : Keeps (defaultOutput p : StateM σ Path) :=
  (LawfulAccess.isDirectory p).bind fun directory => by
    cases directory
    · exact keeps_pure _
    · exact (LawfulAccess.ownName? p).bind fun _ => keeps_pure _

theorem ask_loadUnit (s : σ) (l : Location) : ask s (loadUnit l) =
    (ask s (readText l)).mapError (.access l) >>= fun source =>
      ((Source.parse source).map (SourceUnit.mk (unitName l))).mapError (.source l) := by
  rw [loadUnit, ((keeps_readText l).adapt _).ask_bind, ask_adapt]
  congr 1
  funext source
  cases Source.parse source <;> rfl

def sourcesIn (s : σ) (p : Path) (names : List Name) : List Location :=
  ((names.mergeSort.map p.entry).filter (·.extension? == some sourceExtension)).filter fun l =>
    answer s (Access.isFile l)

private theorem ask_sourceFiles :
    ask s (sourceFiles p) = (ask s (Access.names p)).map (sourcesIn s p) := by
  rw [sourceFiles, (LawfulAccess.names p).ask_bind]
  cases ask s (Access.names p) with
  | error fault => rfl
  | ok names => exact ask_filterM LawfulAccess.isFile _

/-- All sources of a directory are loaded, if there are any. -/
theorem ask_loadDirectory : ask s (loadDirectory p) =
    (ask s (Access.names p)).mapError (.access p) >>= fun names =>
      if sourcesIn s p names = [] then .error (.noSources p)
      else Program.mk <$> (sourcesIn s p names).mapM fun l => ask s (loadUnit l) := by
  have hu (files : List Location) : ask s (do return ⟨← files.mapM loadUnit⟩ :
      ExceptT LoadError (StateM σ) Program) =
      Program.mk <$> files.mapM fun l => ask s (loadUnit l) := by
    rw [(keeps_mapM keeps_loadUnit files).ask_bind, ask_mapM keeps_loadUnit]
    cases files.mapM fun l => ask s (loadUnit l) <;> rfl
  rw [loadDirectory, ((keeps_sourceFiles p).adapt _).ask_bind, ask_adapt, ask_sourceFiles]
  cases ask s (Access.names p) with
  | error fault => rfl
  | ok names =>
    show ask s _ = if _ then _ else _
    rw [← hu]
    by_cases hne : sourcesIn s p names = []
    · rw [if_pos hne, if_pos (by simpa using hne)]
      rfl
    · rw [if_neg hne, if_neg (by simpa using hne)]

private theorem ask_loadBinary (s : σ) (p : Path) : ask s (loadBinary p) =
    (ask s (Access.read (.path p))).mapError (.access p) >>= fun bytes =>
      (Program.ofBytes bytes).mapError (.binary p) := by
  rw [loadBinary, ((LawfulAccess.read _).adapt _).ask_bind, ask_adapt]
  congr 1
  funext bytes
  cases Program.ofBytes bytes <;> rfl

private theorem ask_load (s : σ) (p : Path) : ask s (load p) =
    if answer s (Access.isDirectory p) then ask s (loadDirectory p)
    else if p.extension? = some sourceExtension then
      (fun u => ⟨[u]⟩) <$> ask s (loadUnit p)
    else if p.extension? = some binaryExtension then ask s (loadBinary p)
    else .error (.badExtension p) := by
  have hu : ask s (do return ⟨[← loadUnit p]⟩ : ExceptT LoadError (StateM σ) Program) =
      (fun u => ⟨[u]⟩) <$> ask s (loadUnit p) := by
    rw [(keeps_loadUnit _).ask_bind]
    cases ask s (loadUnit p) <;> rfl
  rw [load, (LawfulAccess.isDirectory p).lift.ask_bind, ask_lift]
  show ask s (if answer s (Access.isDirectory p) = true then _ else _) = _
  split
  · rfl
  · split
    · exact hu
    · split <;> rfl

theorem ask_load_of_directory (hd : answer s (Access.isDirectory p) = true) :
    ask s (load p) = ask s (loadDirectory p) := by
  rw [ask_load, if_pos hd]

end Reading

/-- Whether reading comes to the same in two states, of whatever file systems. -/
structure ReadAlike {σ τ : Type} [Access (StateM σ)] [Access (StateM τ)] (s : σ) (t : τ) :
    Prop where
  isDirectory : ∀ p, answer s (Access.isDirectory p) = answer t (Access.isDirectory p)
  isFile : ∀ l, answer s (Access.isFile l) = answer t (Access.isFile l)
  read : ∀ l, ask s (Access.read l) = ask t (Access.read l)
  names : ∀ p, ask s (Access.names p) = ask t (Access.names p)
  ownName? : ∀ p, answer s (Access.ownName? p) = answer t (Access.ownName? p)

namespace ReadAlike
variable {σ τ : Type} [Access (StateM σ)] [Access (StateM τ)] [LawfulAccess σ] [LawfulAccess τ]
  {s : σ} {t : τ}

private theorem loadUnit (h : ReadAlike s t) (l : Location) :
    ask s (StackLowering.loadUnit l) = ask t (StackLowering.loadUnit l) := by
  rw [ask_loadUnit, ask_loadUnit, ask_readText, ask_readText, h.read]

theorem load (h : ReadAlike s t) (p : Path) :
    ask s (StackLowering.load p) = ask t (StackLowering.load p) := by
  have hd : ask s (loadDirectory p) = ask t (loadDirectory p) := by
    have hs : sourcesIn s p = sourcesIn t p := by
      funext names
      simp only [sourcesIn, h.isFile]
    simp only [ask_loadDirectory, h.names, hs, h.loadUnit]
  rw [ask_load, ask_load, h.isDirectory, hd, h.loadUnit, ask_loadBinary, ask_loadBinary, h.read]

theorem defaultOutput (h : ReadAlike s t) (p : Path) :
    answer s (StackLowering.defaultOutput p) = answer t (StackLowering.defaultOutput p) := by
  rw [StackLowering.defaultOutput, (LawfulAccess.isDirectory p).answer_bind, h.isDirectory,
    StackLowering.defaultOutput, (LawfulAccess.isDirectory p).answer_bind]
  split
  · rw [(LawfulAccess.ownName? p).answer_bind, h.ownName?, (LawfulAccess.ownName? p).answer_bind]
    rfl
  · rfl

end ReadAlike

section
variable {v : Volume} {p : Path}

/-- Whether a path leads to a source, and a unit is what it holds. -/
structure HoldsUnit (v : Volume) (p : Path) (u : SourceUnit) : Prop where
  name : u.name = unitName p
  commands : ∃ bytes source, v.read p = .ok bytes ∧ Text.ofBytes? bytes = some source ∧
    Source.parse source = .ok u.commands

def sourcesAmong (v : Volume) (p : Path) (names : List String) : List Path :=
  ((names.mergeSort.map p.join).filter (·.extension? == some sourceExtension)).filter fun p =>
    answer v (Access.isFile p)

/-- Whether a path leads to a program: to a directory with sources, to a source, or to one in binary
form. -/
inductive HoldsProgram (v : Volume) (p : Path) : Program → Prop where
  | directory {place : Place} {names : List String} {units : List SourceUnit}
    (hd : v.find p = .ok (place, .directory)) (hn : v.names p = .ok names)
    (hne : sourcesAmong v p names ≠ [])
    (hu : List.Forall₂ (HoldsUnit v) (sourcesAmong v p names) units) : HoldsProgram v p ⟨units⟩
  | source {u : SourceUnit} (hd : ∀ place, v.find p ≠ .ok (place, .directory))
    (hx : p.extension? = some sourceExtension) (hu : HoldsUnit v p u) : HoldsProgram v p ⟨[u]⟩
  | binary {program : Program} {bytes : List UInt8} (hx : p.extension? = some binaryExtension)
    (hr : v.read p = .ok bytes) (hb : Program.ofBytes bytes = .ok program) :
    HoldsProgram v p program

/-- A unit of a program in sources is held by one of the paths. -/
theorem exists_holdsUnit {paths : List Path} {units : List SourceUnit}
    (h : List.Forall₂ (HoldsUnit v) paths units) {u : SourceUnit} (hu : u ∈ units) :
    ∃ q ∈ paths, HoldsUnit v q u := by
  induction h with
  | nil => cases hu
  | @cons q w paths units hw _ ih =>
    rcases List.mem_cons.1 hu with rfl | hu
    · exact ⟨q, List.mem_cons_self, hw⟩
    · obtain ⟨q', hq, hu⟩ := ih hu
      exact ⟨q', List.mem_cons_of_mem q hq, hu⟩

private theorem ask_loadUnit_eq_ok_iff {u : SourceUnit} :
    ask v (loadUnit p) = .ok u ↔ HoldsUnit v p u := by
  rw [ask_loadUnit, bind_eq_ok_iff]
  simp only [mapError_eq_ok_iff, ask_readText_eq_ok_iff]
  constructor
  · rintro ⟨source, ⟨bytes, hr, ht⟩, h⟩
    obtain ⟨commands, hp, rfl⟩ := map_eq_ok_iff.1 h
    exact ⟨rfl, bytes, source, hr, ht, hp⟩
  · obtain ⟨name, commands⟩ := u
    rintro ⟨rfl, bytes, source, hr, ht, hp⟩
    exact ⟨source, ⟨bytes, hr, ht⟩, map_eq_ok_iff.2 ⟨commands, hp, rfl⟩⟩

/-- On a volume all names are text. -/
private theorem sourcesIn_toBytes (v : Volume) (p : Path) (names : List String) :
    sourcesIn v p (names.map Text.toBytes) = (sourcesAmong v p names).map Location.path := by
  have hentry : p.entry ∘ Text.toBytes = Location.path ∘ p.join := funext fun name => by
    rw [Function.comp_apply, Path.entry, Text.ofBytes?_toBytes]
    rfl
  have hsort : (names.map Text.toBytes).mergeSort = names.mergeSort.map Text.toBytes :=
    (List.map_mergeSort fun a _ b _ => decide_eq_decide.2 Text.toBytes_le_iff.symm).symm
  rw [sourcesIn, hsort, List.map_map, hentry, ← List.map_map, List.filter_map, List.filter_map]
  rfl

private theorem ask_loadDirectory_of_volume : ask v (loadDirectory p) =
    (v.names p).mapError (.access p) >>= fun names =>
      if sourcesAmong v p names = [] then .error (.noSources p)
      else Program.mk <$> (sourcesAmong v p names).mapM fun q => ask v (loadUnit (.path q)) := by
  rw [ask_loadDirectory, ask_names]
  cases v.names p with
  | error fault => rfl
  | ok names =>
    show (if sourcesIn v p (names.map Text.toBytes) = [] then _ else _) = _
    rw [sourcesIn_toBytes, List.mapM_map]
    simp only [List.map_eq_nil_iff]
    rfl

private theorem ask_loadDirectory_eq_ok_iff {program : Program} :
    ask v (loadDirectory p) = .ok program ↔
      ∃ names, v.names p = .ok names ∧ sourcesAmong v p names ≠ [] ∧
        List.Forall₂ (HoldsUnit v) (sourcesAmong v p names) program.units := by
  rw [ask_loadDirectory_of_volume, bind_eq_ok_iff]
  simp only [mapError_eq_ok_iff]
  refine exists_congr fun names => and_congr_right fun _ => ?_
  split
  · next h => simp [h]
  · next h =>
    simp only [map_eq_ok_iff, mapM_eq_ok_iff, ask_loadUnit_eq_ok_iff, ne_eq, h, not_false_eq_true,
      true_and]
    constructor
    · rintro ⟨units, hu, rfl⟩
      exact hu
    · exact fun hu => ⟨_, hu, rfl⟩

private theorem ask_loadBinary_eq_ok_iff {program : Program} : ask v (loadBinary p) = .ok program ↔
    ∃ bytes, v.read p = .ok bytes ∧ Program.ofBytes bytes = .ok program := by
  rw [ask_loadBinary, bind_eq_ok_iff]
  simp only [mapError_eq_ok_iff, ask_read]

theorem answer_isDirectory : answer v (Access.isDirectory p) = true ↔
    ∃ place, v.find p = .ok (place, .directory) := by
  simp only [answer, Access.isDirectory, StateT.run_bind, StateT.run_get, StateT.run_pure,
    pure_bind]
  split
  · next place h => exact ⟨fun _ => ⟨place, h⟩, fun _ => rfl⟩
  · next h =>
    refine ⟨fun hd => Bool.noConfusion hd, ?_⟩
    rintro ⟨place, hd⟩
    exact absurd hd (h place)

theorem answer_isDirectory_eq_false (hd : ∀ place, v.find p ≠ .ok (place, .directory)) :
    answer v (Access.isDirectory p) = false := by
  rw [← Bool.not_eq_true, answer_isDirectory]
  rintro ⟨place, h⟩
  exact hd place h

theorem defaultOutput_of_directory {place : Place} (hd : v.find p = .ok (place, .directory)) :
    answer v (defaultOutput p) = p.join (place.head?.getD "out" ++ "." ++ outputExtension) := by
  have hn : answer v (Access.ownName? p) = place.head?.map Text.toBytes := by
    simp only [answer, Access.ownName?, StateT.run_bind, StateT.run_get, StateT.run_pure,
      pure_bind, hd]
    rfl
  have hl : Text.lossy ∘ Text.toBytes = id := funext Text.lossy_toBytes
  rw [defaultOutput, (LawfulAccess.isDirectory p).answer_bind, answer_isDirectory.2 ⟨place, hd⟩,
    if_pos rfl, (LawfulAccess.ownName? p).answer_bind, hn, Option.map_map, hl, Option.map_id]
  rfl

theorem defaultOutput_of_file (hd : ∀ place, v.find p ≠ .ok (place, .directory)) :
    answer v (defaultOutput p) = p.withExtension outputExtension := by
  rw [defaultOutput, (LawfulAccess.isDirectory p).answer_bind, answer_isDirectory_eq_false hd,
    if_neg Bool.false_ne_true, answer_pure]

theorem answer_isFile : answer v (Access.isFile p) = true ↔
    ∃ place bytes, v.find p = .ok (place, .file bytes) := by
  simp only [answer, Access.isFile, StateT.run_bind, StateT.run_get, StateT.run_pure, pure_bind]
  split
  · next place bytes h => exact ⟨fun _ => ⟨place, bytes, h⟩, fun _ => rfl⟩
  · next h =>
    refine ⟨fun hf => Bool.noConfusion hf, ?_⟩
    rintro ⟨place, bytes, hf⟩
    exact absurd hf (h place bytes)

def sourceNames (v : Volume) (p : Path) (names : List String) : List String :=
  names.mergeSort.filter fun name =>
    answer v (Access.isFile (p.join name)) && (p.join name).extension? == some sourceExtension

theorem sourcesAmong_eq (v : Volume) (p : Path) (names : List String) :
    sourcesAmong v p names = (sourceNames v p names).map p.join := by
  rw [sourcesAmong, List.filter_filter, List.filter_map]
  rfl

private theorem holdsProgram_iff_of_directory {program : Program} {place : Place}
    (hd : v.find p = .ok (place, .directory)) : HoldsProgram v p program ↔
      ∃ names, v.names p = .ok names ∧ sourcesAmong v p names ≠ [] ∧
        List.Forall₂ (HoldsUnit v) (sourcesAmong v p names) program.units := by
  constructor
  · intro h
    cases h with
    | directory _ hn hne hu => exact ⟨_, hn, hne, hu⟩
    | source hs => exact absurd hd (hs place)
    | binary _ hr =>
      obtain ⟨place', hl, hf⟩ := read_eq_ok_iff.1 hr
      rw [find_eq_ok_iff.2 ⟨hl, hf⟩] at hd
      cases hd
  · rintro ⟨names, hn, hne, hu⟩
    exact .directory hd hn hne hu

theorem holdsProgram_iff_of_source {program : Program}
    (hd : ∀ place, v.find p ≠ .ok (place, .directory))
    (hx : p.extension? = some sourceExtension) :
    HoldsProgram v p program ↔ ∃ u, HoldsUnit v p u ∧ ⟨[u]⟩ = program := by
  constructor
  · intro h
    cases h with
    | directory h => exact absurd h (hd _)
    | source _ _ hu => exact ⟨_, hu, rfl⟩
    | binary hb =>
      rw [hx] at hb
      exact absurd hb (by decide)
  · rintro ⟨u, hu, rfl⟩
    exact .source hd hx hu

private theorem holdsProgram_iff_of_other {program : Program}
    (hd : ∀ place, v.find p ≠ .ok (place, .directory))
    (hx : p.extension? ≠ some sourceExtension) : HoldsProgram v p program ↔
      p.extension? = some binaryExtension ∧
        ∃ bytes, v.read p = .ok bytes ∧ Program.ofBytes bytes = .ok program := by
  constructor
  · intro h
    cases h with
    | directory h => exact absurd h (hd _)
    | source _ h => exact absurd h hx
    | binary hb hr h => exact ⟨hb, _, hr, h⟩
  · rintro ⟨hb, bytes, hr, h⟩
    exact .binary hb hr h

/-- A program is loaded just if the path leads to it. -/
theorem ask_load_eq_ok_iff {program : Program} :
    ask v (load p) = .ok program ↔ HoldsProgram v p program := by
  rw [ask_load]
  split
  · next hd =>
    obtain ⟨place, hd⟩ := answer_isDirectory.1 hd
    rw [ask_loadDirectory_eq_ok_iff, holdsProgram_iff_of_directory hd]
  · next hd =>
    have hd : ∀ place, v.find p ≠ .ok (place, .directory) := fun place h =>
      hd (answer_isDirectory.2 ⟨place, h⟩)
    split
    · next hx =>
      rw [map_eq_ok_iff, holdsProgram_iff_of_source hd hx]
      simp only [ask_loadUnit_eq_ok_iff]
    · next hx =>
      rw [holdsProgram_iff_of_other hd hx]
      split
      · next hb => rw [ask_loadBinary_eq_ok_iff, and_iff_right hb]
      · next hb => exact ⟨(nomatch ·), fun h => absurd h.1 hb⟩

/-- Whether the number of entries and the sizes of files are numbers that can be written. -/
structure Addressable (v : Volume) : Prop where
  entries : v.entries.length < Binary.bits64.limit
  bytes : ∀ place bytes, v.get? place = some (.file bytes) → bytes.length < Binary.bits64.limit

theorem Addressable.of_files (hn : v.entries.length < Binary.bits64.limit)
    (hb : ∀ place bytes, (place, Entry.file bytes) ∈ v.entries →
      bytes.length < Binary.bits64.limit) : Addressable v := by
  refine ⟨hn, fun place bytes h => hb place bytes ?_⟩
  cases place with
  | nil => cases h
  | cons name parent =>
    obtain ⟨front, back, he, -⟩ := List.lookup_eq_some_iff.1 h
    rw [he]
    exact List.mem_append_right _ List.mem_cons_self

private theorem unitName_size_le (p : Path) : (unitName p).utf8ByteSize ≤ p.text.utf8ByteSize := by
  rw [unitName, Location.stem?, Path.stem?]
  cases hf : p.fileName? with
  | none => exact Nat.zero_le _
  | some name =>
    have hm : name ∈ p.pieces := by
      rw [Path.fileName?] at hf
      split at hf
      · cases hf
      · exact (List.mem_filter.1 (List.mem_of_getLast? hf)).1
    obtain ⟨piece, hp, rfl⟩ := List.mem_map.1 hm
    have hs := Text.sublist_of_mem_pieces hp
    refine Text.utf8ByteSize_le_of_sublist ((Path.splitName_fst_sublist _).trans ?_)
    rwa [String.toList_ofList]

private theorem maxPath_lt : maxPath < Binary.bits64.limit := by decide

private theorem HoldsUnit.writable (ha : Addressable v) {u : SourceUnit} (h : HoldsUnit v p u) :
    u.Writable := by
  obtain ⟨bytes, source, hr, ht, hp⟩ := h.commands
  obtain ⟨place, -, hb⟩ := read_eq_ok_iff.1 hr
  have hs : source.utf8ByteSize < Binary.bits64.limit := by
    rw [← Text.length_toBytes, Text.toBytes_of_ofBytes? ht]
    exact ha.bytes place bytes hb
  refine ⟨?_, (Source.length_parse_le hp).trans_lt hs, fun l hl => ⟨?_, ?_, fun n hn => ?_⟩⟩
  · rw [h.name]
    exact ((unitName_size_le p).trans (text_size_le_of_read hr)).trans_lt maxPath_lt
  · exact (Source.line_le hp hl).trans_lt hs
  · exact (Source.text_size_le hp hl).trans_lt hs
  · exact (Source.name_size_le hp hl hn).trans_lt hs

/-- What is loaded can be written in binary form. -/
theorem HoldsProgram.writable {program : Program} (ha : Addressable v)
    (h : HoldsProgram v p program) : program.Writable := by
  cases h with
  | @directory _ names units _ hn _ hu =>
    have hl : (sourcesAmong v p names).length ≤ names.length := by
      rw [sourcesAmong]
      refine (List.length_filter_le ..).trans ((List.length_filter_le ..).trans ?_)
      rw [List.length_map, List.length_mergeSort]
    refine ⟨?_, fun u hm => ?_⟩
    · show units.length < _
      rw [← hu.length_eq]
      exact (hl.trans (length_names_le hn)).trans_lt ha.entries
    · obtain ⟨q, -, hf⟩ := exists_holdsUnit hu hm
      exact hf.writable ha
  | source _ _ hu =>
    refine ⟨Nat.lt_of_lt_of_le Nat.one_lt_two (by decide), fun u hm => ?_⟩
    rw [List.mem_singleton.1 hm]
    exact hu.writable ha
  | binary _ _ hb => exact Program.writable_of_ofBytes hb

end
end StackLowering
