import Mathlib.Data.List.Nodup
import Mathlib.Data.List.Sort
import StackLowering.Proofs.Disk.Directory
import StackLowering.Proofs.Machine.References
import StackLowering.Proofs.Program.Loaded
/-! Loading a directory. Its sources are read in the order of the bytes of their names, whatever the
order in which the names are found. A source whose path is too long is left out without a word, and
sources share their static variables if their names differ only in what is no text. -/
namespace StackLowering
open Assembly Disk Disk.Volume

def sourceEnding : Name := Text.toBytes ("." ++ sourceExtension)

def sourceStem (name : Name) : Name := name.take (name.length - sourceEnding.length)

/-- The unit in a file of a directory: the bytes are text, which is parsed. The stem of the name
need not be text. -/
def unitIn (t : Tree) (p : Path) (directory : Place) (name : Name) :
    Except LoadError SourceUnit :=
  match t.lookup? directory name with
  | some (.file bytes) =>
    match Text.ofBytes? bytes with
    | none => .error (.access (p.entry name) .notText)
    | some source =>
      match Source.parse source with
      | .ok commands => .ok ⟨Text.lossy (sourceStem name), commands⟩
      | .error e => .error (.source (p.entry name) e)
  | _ => .error (.access (p.entry name) .notFound)

/-- What loading a directory comes to, given the names of the sources in it. -/
structure LoadsSources (t : Tree) (p : Path) (directory : Place) (names : List Name) : Prop where
  sorted : names.Pairwise (· < ·)
  /-- A source is a file with the right ending behind a stem, by a path that is not too long. -/
  mem_iff : ∀ name, name ∈ names ↔ (∃ bytes, t.lookup? directory name = some (.file bytes)) ∧
    (sourceEnding <:+ name ∧ name ≠ sourceEnding) ∧ (p.entry name).size ≤ maxPath
  ok_iff : ∀ program, ask t (load p) = .ok program ↔ names ≠ [] ∧
    List.Forall₂ (fun name u => unitIn t p directory name = .ok u) names program.units
  /-- The first file that holds no unit is the one that is reported. -/
  error_iff : ∀ e, ask t (load p) = .error e ↔ names = [] ∧ e = .noSources p ∨
    ∃ before name after, names = before ++ name :: after ∧
      (∀ n ∈ before, ∃ u, unitIn t p directory n = .ok u) ∧ unitIn t p directory name = .error e

/-- Whether units have names of their own, and static variables of theirs that no other has. -/
structure KeepsApart (program : Program) : Prop where
  names : (program.units.map (·.name)).Nodup
  /-- The output names the static variables of the commands, one after the other. -/
  named : ∀ o lines, program.lower o = .ok lines →
    lines.filterMap Line.static? = program.sites.filterMap Site.static?
  statics : ∀ u ∈ program.units, ∀ u' ∈ program.units, ∀ s ∈ u.sites, ∀ s' ∈ u'.sites, ∀ i i',
    s.command = .push .static i ∨ s.command = .pop .static i →
    s'.command = .push .static i' ∨ s'.command = .pop .static i' →
    (s.static? = s'.static? ↔ u = u' ∧ i = i')

section
variable {t t' : Tree} {p : Path} {place : Place} {name : Name} {names : List Name}

private theorem sourceStem_append (stem : Name) : sourceStem (stem ++ sourceEnding) = stem := by
  rw [sourceStem, List.length_append, Nat.add_sub_cancel, List.take_left]

/-- The ending of a text is that of its bytes. -/
private theorem ending_toBytes_iff {s : String} :
    (sourceEnding <:+ Text.toBytes s ∧ Text.toBytes s ≠ sourceEnding) ↔
      ∃ stem, stem ≠ "" ∧ s = stem ++ "." ++ sourceExtension := by
  rw [sourceEnding, Text.suffix_toBytes_iff, ne_eq, Text.toBytes_inj]
  constructor
  · rintro ⟨⟨stem, rfl⟩, hne⟩
    exact ⟨stem, fun h => hne (by rw [h, String.empty_append]), String.append_assoc.symm⟩
  · rintro ⟨stem, hstem, rfl⟩
    refine ⟨⟨stem, String.append_assoc⟩, fun h => hstem ?_⟩
    rw [String.append_assoc] at h
    exact String.append_eq_right_iff.1 h

private theorem splitName_snd_iff {s : String} :
    (Path.splitName s).2 = some sourceExtension ↔
      ∃ stem, stem ≠ "" ∧ s = stem ++ "." ++ sourceExtension := by
  constructor
  · intro h
    rcases Path.splitName_cases s with hs | ⟨stem, extension, hs, hname, hne, -⟩ <;> rw [hs] at h
    · cases h
    · exact ⟨stem, hne, Option.some.inj h ▸ hname⟩
  · rintro ⟨stem, hne, rfl⟩
    rw [Path.splitName_append hne (by decide)]

/-- How an entry of a directory is read by the location that it is given there. -/
private structure ReadsEntry (t : Tree) (p : Path) (place : Place) (name : Name) : Prop where
  extension? : (p.entry name).extension? = some sourceExtension ↔
    sourceEnding <:+ name ∧ name ≠ sourceEnding
  isFile : answer t (Access.isFile (p.entry name)) = true ↔
    (p.entry name).size ≤ maxPath ∧ ∃ bytes, t.lookup? place name = some (.file bytes)
  read : (p.entry name).size ≤ maxPath → ∀ bytes, t.lookup? place name = some (.file bytes) →
    ask t (Access.read (p.entry name)) = .ok bytes
  unitName : sourceEnding <:+ name ∧ name ≠ sourceEnding →
    unitName (p.entry name) = Text.lossy (sourceStem name)

/-- An entry whose name is text is read by a path with that name. -/
private theorem readsEntry_of_text (hp : t.volume.find p = .ok (place, .directory)) {s : String}
    (hn : Path.ProperName s) : ReadsEntry t p place (Text.toBytes s) := by
  have hentry : p.entry (Text.toBytes s) = .path (p.join s) := by
    rw [Path.entry, Text.ofBytes?_toBytes]
  have hsize : (p.entry (Text.toBytes s)).size = (p.join s).text.utf8ByteSize := by
    rw [hentry, Location.size]
  refine ⟨?_, ?_, fun hs bytes hb => ?_, fun hx => ?_⟩
  · rw [hentry, Location.extension?, Path.extension?, fileName?_join hp hn, Option.bind_some,
      ending_toBytes_iff, splitName_snd_iff]
  · have hfile : answer t (Access.isFile (p.entry (Text.toBytes s))) =
        answer t.volume (Access.isFile (.path (p.join s))) := by
      rw [hentry]
      rfl
    rw [hfile, answer_isFile, hsize, Tree.lookup?_toBytes]
    simp only [find_eq_ok_iff, locate_join hp hn]
    constructor
    · rintro ⟨q, bytes, ⟨hs, rfl⟩, hb⟩
      exact ⟨hs, bytes, hb⟩
    · rintro ⟨hs, bytes, hb⟩
      exact ⟨_, bytes, ⟨hs, rfl⟩, hb⟩
  · have hread : ask t (Access.read (p.entry (Text.toBytes s))) = t.volume.read (p.join s) := by
      rw [hentry]
      rfl
    rw [hsize] at hs
    rw [Tree.lookup?_toBytes] at hb
    exact hread.trans ((read_join hp hn hs).2 hb)
  · obtain ⟨stem, hstem, rfl⟩ := ending_toBytes_iff.1 hx
    have hbytes : Text.toBytes (stem ++ "." ++ sourceExtension) =
        Text.toBytes stem ++ sourceEnding := by
      rw [String.append_assoc, Text.toBytes_append, sourceEnding]
    have hcut : Path.splitName (stem ++ "." ++ sourceExtension) = (stem, some sourceExtension) :=
      Path.splitName_append hstem (by decide)
    rw [hentry, StackLowering.unitName, Location.stem?, Path.stem?, fileName?_join hp hn,
      Option.map_some, Option.getD_some, hcut, hbytes, sourceStem_append, Text.lossy_toBytes]

/-- Any other entry is read by its bytes. -/
private theorem readsEntry_of_stray (hp : t.volume.find p = .ok (place, .directory))
    (hn : Text.ofBytes? name = none) : ReadsEntry t p place name := by
  have hentry : p.entry name = .stray p name := by rw [Path.entry, hn]
  have hread {bytes : List UInt8} : t.readStray? p name = some bytes ↔
      (p.entry name).size ≤ maxPath ∧ t.lookup? place name = some (.file bytes) := by
    rw [Tree.readStray?, hp, hentry, Tree.lookup?, hn]
    dsimp only
    split
    · next bytes' he =>
      rw [he, Option.ite_none_right_eq_some, Option.some.injEq, Option.some.injEq,
        Entry.file.injEq]
    · next hno =>
      constructor
      · intro h
        cases h
      · intro h
        exact absurd h.2 (hno bytes)
  have hx : (p.entry name).extension? = some sourceExtension ↔
      sourceEnding <:+ name ∧ name ≠ sourceEnding := by
    have hdot : Location.dot ∉ Text.toBytes sourceExtension := by decide
    rw [hentry, Location.extension?, Option.bind_eq_some_iff]
    simp only [Text.ofBytes?_eq_some_iff, exists_eq_right', Text.cutLast_snd_eq_some_iff]
    constructor
    · rintro ⟨-, stem, hstem, rfl⟩
      exact ⟨⟨stem, rfl⟩, fun h => hstem
        (List.append_cancel_right (show stem ++ sourceEnding = [] ++ sourceEnding from h))⟩
    · rintro ⟨⟨stem, rfl⟩, hne⟩
      exact ⟨hdot, stem, fun h => hne (by rw [h, List.nil_append]), rfl⟩
  refine ⟨hx, ?_, fun hs bytes hb => ?_, fun hx => ?_⟩
  · have hfile : answer t (Access.isFile (p.entry name)) = (t.readStray? p name).isSome := by
      rw [hentry]
      rfl
    rw [hfile, Option.isSome_iff_exists]
    simp only [hread, exists_and_left]
  · have hbytes : ask t (Access.read (p.entry name)) =
        (t.readStray? p name).elim (.error .notFound) .ok := by
      rw [hentry]
      rfl
    rw [hbytes, hread.2 ⟨hs, hb⟩]
    rfl
  · obtain ⟨⟨stem, rfl⟩, hne⟩ := hx
    have hcut : Text.cutLast Location.dot (stem ++ sourceEnding) =
        (stem, some (Text.toBytes sourceExtension)) :=
      Text.cutLast_append (fun h => hne (by rw [h, List.nil_append])) (by decide)
    rw [hentry, StackLowering.unitName, Location.stem?, hcut, sourceStem_append, Option.getD_some]

private theorem readsEntry (ht : t.Proper) (hp : t.volume.find p = .ok (place, .directory))
    {entry : Entry} (he : t.lookup? place name = some entry) : ReadsEntry t p place name := by
  cases hn : Text.ofBytes? name with
  | some s =>
    obtain rfl := Text.toBytes_of_ofBytes? hn
    rw [Tree.lookup?_toBytes, ht.volume.get?_eq_some_iff] at he
    exact readsEntry_of_text hp (ht.volume.names s place entry he)
  | none => exact readsEntry_of_stray hp hn

/-- A source of a directory is loaded as the unit in it. -/
private theorem ReadsEntry.ask_loadUnit (h : ReadsEntry t p place name)
    (hs : (p.entry name).size ≤ maxPath) {bytes : List UInt8}
    (hb : t.lookup? place name = some (.file bytes))
    (hx : sourceEnding <:+ name ∧ name ≠ sourceEnding) :
    ask t (loadUnit (p.entry name)) = unitIn t p place name := by
  rw [StackLowering.ask_loadUnit, ask_readText_of_read (h.read hs bytes hb), unitIn, hb,
    h.unitName hx]
  dsimp only
  cases Text.ofBytes? bytes with
  | none => rfl
  | some source =>
    show (Except.map _ (Source.parse source)).mapError _ = _
    dsimp only
    cases Source.parse source <;> rfl

def sourceNamesIn (t : Tree) (p : Path) (names : List Name) : List Name :=
  names.mergeSort.filter fun name =>
    answer t (Access.isFile (p.entry name)) && (p.entry name).extension? == some sourceExtension

private theorem sourcesIn_eq (names : List Name) :
    sourcesIn t p names = (sourceNamesIn t p names).map p.entry := by
  rw [sourcesIn, List.filter_filter, List.filter_map]
  rfl

private theorem mem_sourceNamesIn (ht : t.Proper)
    (hp : t.volume.find p = .ok (place, .directory))
    (hm : ∀ name, name ∈ names ↔ ∃ entry, t.lookup? place name = some entry) :
    name ∈ sourceNamesIn t p names ↔ (∃ bytes, t.lookup? place name = some (.file bytes)) ∧
      (sourceEnding <:+ name ∧ name ≠ sourceEnding) ∧ (p.entry name).size ≤ maxPath := by
  rw [sourceNamesIn, List.mem_filter, List.mem_mergeSort, Bool.and_eq_true, beq_iff_eq, hm]
  constructor
  · rintro ⟨⟨entry, he⟩, hf, hx⟩
    have h := readsEntry ht hp he
    obtain ⟨hs, hb⟩ := h.isFile.1 hf
    exact ⟨hb, h.extension?.1 hx, hs⟩
  · rintro ⟨⟨bytes, hb⟩, hx, hs⟩
    have h := readsEntry ht hp hb
    exact ⟨⟨_, hb⟩, h.isFile.2 ⟨hs, bytes, hb⟩, h.extension?.2 hx⟩

private theorem sorted_sourceNamesIn (hn : names.Nodup) :
    (sourceNamesIn t p names).Pairwise (· < ·) := by
  have hne : names.mergeSort.Pairwise fun a b => a ≠ b :=
    (List.mergeSort_perm names _).nodup_iff.2 hn
  have hle : names.mergeSort.Pairwise fun a b => a ≤ b :=
    sorted_mergeSort (fun _ _ _ => List.le_trans) List.le_total names
  refine (hle.imp₂ (fun a b hab hne => ?_) hne).filter _
  exact List.not_le.1 fun hba => hne (List.le_antisymm hab hba)

/-- Sources that are read one after the other are those of the directory. -/
private theorem Disk.Tree.Proper.loadsSources (ht : t.Proper)
    (hp : t.volume.find p = .ok (place, .directory)) : ∃ names, LoadsSources t p place names := by
  obtain ⟨all, hall, hnodup, hmem⟩ := ht.names_eq hp
  have hiff := fun name => @mem_sourceNamesIn t p place name all ht hp hmem
  have hload : ask t (load p) = if sourceNamesIn t p all = [] then .error (.noSources p)
      else Program.mk <$> (sourceNamesIn t p all).mapM (unitIn t p place) := by
    have hd : answer t (Access.isDirectory p) = true :=
      (answer_isDirectory (v := t.volume)).2 ⟨place, hp⟩
    have hnames : ask t (Access.names p) = .ok all := hall
    have hmap : ((sourceNamesIn t p all).map p.entry).mapM (fun l => ask t (loadUnit l)) =
        (sourceNamesIn t p all).mapM (unitIn t p place) := by
      rw [List.mapM_map]
      refine mapM_congr fun name h => ?_
      obtain ⟨⟨bytes, hb⟩, hx, hs⟩ := (hiff name).1 h
      exact (readsEntry ht hp hb).ask_loadUnit hs hb hx
    rw [ask_load_of_directory hd, ask_loadDirectory, hnames]
    show (if sourcesIn t p all = [] then _ else _) = _
    simp only [sourcesIn_eq, List.map_eq_nil_iff, hmap]
  refine ⟨sourceNamesIn t p all, sorted_sourceNamesIn hnodup, hiff, fun program => ?_,
    fun e => ?_⟩
  · rw [hload]
    split
    · next h => simp [h]
    · next h =>
      simp only [map_eq_ok_iff, mapM_eq_ok_iff, ne_eq, h, not_false_eq_true, true_and]
      constructor
      · rintro ⟨units, hu, rfl⟩
        exact hu
      · exact fun hu => ⟨_, hu, rfl⟩
  · rw [hload]
    split
    · next h => simp [h, eq_comm]
    · next h => simp [h, map_eq_error_iff, mapM_eq_error_iff]

/-- Names in the order of their bytes are decided by which names they are. -/
private theorem eq_of_sorted {names' : List Name} (h : names.Pairwise (· < ·))
    (h' : names'.Pairwise (· < ·)) (hm : ∀ name, name ∈ names ↔ name ∈ names') :
    names = names' := by
  have : Std.Antisymm fun a b : Name => a < b := ⟨fun _ _ hab hba => absurd hba (List.lt_asymm hab)⟩
  have : Std.Irrefl fun a b : Name => a < b := ⟨fun _ => List.lt_irrefl _⟩
  exact h.eq_of_mem_iff h' hm

/-- Trees with the same entries in the directory load the same. -/
private theorem LoadsSources.ask_eq {names' : List Name} (h : LoadsSources t p place names)
    (h' : LoadsSources t' p place names') (he : t'.lookup? place = t.lookup? place) :
    ask t' (load p) = ask t (load p) := by
  have hu : unitIn t' p place = unitIn t p place := by
    funext name
    rw [unitIn, unitIn, he]
  obtain rfl : names' = names := eq_of_sorted h'.sorted h.sorted fun name => by
    rw [h'.mem_iff, h.mem_iff, he]
  cases hl : ask t (load p) with
  | ok program => rw [h'.ok_iff, hu, ← h.ok_iff, hl]
  | error e => rw [h'.error_iff, hu, ← h.error_iff, hl]

private theorem find_of_perm {v w : Volume} (hv : v.Proper) (hh : w.here = v.here)
    (hw : w.entries.Perm v.entries) {entry : Entry} (hp : v.find p = .ok (place, entry)) :
    w.find p = .ok (place, entry) := by
  have hg := hv.get?_of_perm hw
  have hs : SameDirectories v w := ⟨hh.symm, fun q => by rw [hg]⟩
  obtain ⟨hl, he⟩ := find_eq_ok_iff.1 hp
  exact find_eq_ok_iff.2 ⟨hs.locate_of hl, (hg place).trans he⟩

private theorem name_of_unitIn {u : SourceUnit} (h : unitIn t p place name = .ok u) :
    u.name = Text.lossy (sourceStem name) := by
  rw [unitIn] at h
  split at h
  · split at h
    · cases h
    · split at h
      · cases h
        rfl
      · cases h
  · cases h

/-- Names that are text have stems that differ as they do, since the ending is the same. -/
private theorem LoadsSources.nodup_of_text (h : LoadsSources t p place names)
    (hn : ∀ name ∈ names, (Text.ofBytes? name).isSome = true) :
    (names.map fun name => Text.lossy (sourceStem name)).Nodup := by
  have text {name : Name} (hm : name ∈ names) :
      name = Text.toBytes (Text.lossy (sourceStem name)) ++ sourceEnding := by
    obtain ⟨s, hs⟩ := Option.isSome_iff_exists.1 (hn name hm)
    obtain rfl := Text.toBytes_of_ofBytes? hs
    obtain ⟨stem, -, rfl⟩ := ending_toBytes_iff.1 ((h.mem_iff _).1 hm).2.1
    rw [String.append_assoc, Text.toBytes_append, ← sourceEnding, sourceStem_append,
      Text.lossy_toBytes]
  refine List.pairwise_map.2 (h.sorted.imp_of_mem fun {a b} ha hb hlt hs => ?_)
  rw [text ha, text hb, hs] at hlt
  exact List.lt_irrefl _ hlt

theorem unit_of_mem_sites {u : SourceUnit} {s : Site} (h : s ∈ u.sites) : s.unit = u.name := by
  obtain ⟨i, -, rfl⟩ := List.mem_mapIdx.1 h
  rfl

/-- Units keep apart if their names do. -/
private theorem keepsApart_of_nodup {program : Program}
    (hnames : (program.units.map (·.name)).Nodup) : KeepsApart program := by
  refine ⟨hnames, fun o lines hlow => ?_, fun u hm u' hm' s hs s' hs' i i' hc hc' => ?_⟩
  · obtain ⟨ha, rfl⟩ := Program.acceptable_of_lower hlow
    exact filterMap_static?_lines ha
  · have static {s : Site} {i : UInt16} (hc : s.command = .push .static i ∨
        s.command = .pop .static i) : s.static? = some (Symbol.static s.unit i).text := by
      rw [Site.static?]
      rcases hc with hc | hc <;> rw [hc]
    rw [static hc, static hc', Option.some.injEq, unit_of_mem_sites hs, unit_of_mem_sites hs']
    constructor
    · intro he
      obtain ⟨hn, hi⟩ := text_static_inj he
      exact ⟨List.inj_on_of_nodup_map hnames hm hm' hn, hi⟩
    · rintro ⟨rfl, rfl⟩
      rfl

private theorem LoadsSources.map_stems (h : LoadsSources t p place names) {program : Program}
    (hl : ask t (load p) = .ok program) :
    names.map (fun name => Text.lossy (sourceStem name)) = program.units.map (·.name) := by
  obtain ⟨-, hu⟩ := (h.ok_iff program).1 hl
  rw [← List.forall₂_eq_eq_eq, List.forall₂_map_left_iff, List.forall₂_map_right_iff]
  exact hu.imp fun name u hn => (name_of_unitIn hn).symm

/-- A tree without further entries is read as its volume. -/
private theorem readAlike_volume (hs : t.strays = []) : ReadAlike t t.volume := by
  have hread (p : Path) (name : Name) : t.readStray? p name = none := by
    rw [Tree.readStray?, hs]
    split <;> rfl
  refine ⟨fun _ => rfl, fun l => ?_, fun l => ?_, fun p => ?_, fun _ => rfl⟩
  · cases l with
    | path p => rfl
    | stray p name => exact congrArg Option.isSome (hread p name)
  · cases l with
    | path p => rfl
    | stray p name =>
      show (t.readStray? p name).elim (.error .notFound) .ok = Except.error Fault.notFound
      rw [hread]
      rfl
  · show t.names p = (t.volume.names p).map (·.map Text.toBytes)
    rw [Tree.names, names]
    cases t.volume.find p with
    | error fault => rfl
    | ok found =>
      obtain ⟨place, _ | bytes⟩ := found
      · have hnone : t.strayNames place = [] := by rw [Tree.strayNames, hs, List.filterMap_nil]
        exact congrArg Except.ok (by rw [hnone, List.append_nil])
      · rfl

/-- What a directory loads as is decided by the files in it, and not by the order in which they are
found: the sources, by the bytes of their names, or the first of them that holds none. They have
units and static variables of their own just if their stems stay apart when what is no text in them
is replaced, and so they do if their names are text. Directories and files are all that there is in
such a tree, and the system reads whatever fits it: there are no links and no permissions. -/
theorem directory_loads (ht : t.Proper) (hp : t.volume.find p = .ok (place, .directory)) :
    (∃ names, LoadsSources t p place names ∧
      (∀ program, ask t (load p) = .ok program →
        (KeepsApart program ↔ (names.map fun name => Text.lossy (sourceStem name)).Nodup)) ∧
      ((∀ name ∈ names, (Text.ofBytes? name).isSome = true) →
        (names.map fun name => Text.lossy (sourceStem name)).Nodup)) ∧
    (∀ t' : Tree, t'.volume.here = t.volume.here →
      t'.volume.entries.Perm t.volume.entries → t'.strays.Perm t.strays →
      ask t' (load p) = ask t (load p)) ∧
    (t.strays = [] → ask t (load p) = ask t.volume (load p)) := by
  obtain ⟨names, h⟩ := ht.loadsSources hp
  -- The names are sorted, so that another order of the entries has the same ones in the same order.
  refine ⟨⟨names, h, fun program hl => ?_, h.nodup_of_text⟩, fun t' hh hv hs => ?_, fun hs => ?_⟩
  · rw [h.map_stems hl]
    exact ⟨KeepsApart.names, keepsApart_of_nodup⟩
  · obtain ⟨names', h'⟩ := (ht.of_perm hv hs).loadsSources (find_of_perm ht.volume hh hv hp)
    exact h.ask_eq h' (funext (ht.lookup?_of_perm hv hs place))
  · exact (readAlike_volume hs).load p

end

/-- Sources whose names stand in another order than their stems, one of them a stray, and a file
that is none. -/
def dottedSources : Tree := ⟨⟨[], [(["A.vm"], .file (Text.toBytes "push static 10")),
  (["notes.txt"], .file []), (["A.1.vm"], .file (Text.toBytes "push static 0"))]⟩,
  [(([], 0xFF :: sourceEnding), .file (Text.toBytes "push static 1"))]⟩

private theorem dottedSources_proper : dottedSources.Proper where
  volume := {
    places := by decide
    names := fun name directory entry h => by
      simp only [dottedSources, List.mem_cons, List.not_mem_nil, or_false, Prod.mk.injEq,
        List.cons.injEq] at h
      obtain ⟨⟨rfl, -⟩, -⟩ | ⟨⟨rfl, -⟩, -⟩ | ⟨⟨rfl, -⟩, -⟩ := h
      all_goals exact ⟨⟨by decide, by decide⟩, by decide, by decide, by decide⟩ }
  places := by decide
  names directory name entry h := by
    simp only [dottedSources, List.mem_singleton, Prod.mk.injEq] at h
    obtain ⟨⟨-, rfl⟩, -⟩ := h
    decide +kernel

/-- The sources load in the order of their names, and in no other when they are found otherwise. -/
theorem dottedSources_load : ∃ program, ask dottedSources (load ⟨"."⟩) = .ok program ∧
    program.units.map (·.name) = ["A.1", "A", "\uFFFD"] ∧ KeepsApart program ∧
    ask (⟨⟨[], dottedSources.volume.entries.reverse⟩, dottedSources.strays⟩ : Tree) (load ⟨"."⟩) =
      .ok program := by
  have hp : dottedSources.volume.find ⟨"."⟩ = .ok ([], .directory) := by decide +kernel
  obtain ⟨⟨names, h, hapart, -⟩, hperm, -⟩ := directory_loads dottedSources_proper hp
  let units : List SourceUnit := [⟨"A.1", [⟨1, "push static 0", .push .static 0⟩]⟩,
    ⟨"A", [⟨1, "push static 10", .push .static 10⟩]⟩,
    ⟨"\uFFFD", [⟨1, "push static 1", .push .static 1⟩]⟩]
  have hnames : names =
      [Text.toBytes "A.1.vm", Text.toBytes "A.vm", 0xFF :: sourceEnding] := by
    refine eq_of_sorted h.sorted (by decide) fun name => ?_
    rw [h.mem_iff]
    simp only [dottedSources_proper.lookup?_eq_some_iff]
    simp only [dottedSources, List.mem_cons, List.not_mem_nil, or_false, Prod.mk.injEq,
      List.cons.injEq, and_true, true_and]
    constructor
    · rintro ⟨⟨bytes, ⟨s, rfl, ⟨rfl, -⟩ | ⟨rfl, -⟩ | ⟨rfl, -⟩⟩ | ⟨rfl, -⟩⟩, ⟨hx, -⟩, -⟩
      · exact .inr (.inl rfl)
      · exact absurd hx (by decide)
      · exact .inl rfl
      · exact .inr (.inr rfl)
    · rintro (rfl | rfl | rfl)
      · exact ⟨⟨_, .inl ⟨_, rfl, .inr (.inr ⟨rfl, rfl⟩)⟩⟩, by decide, by decide⟩
      · exact ⟨⟨_, .inl ⟨_, rfl, .inl ⟨rfl, rfl⟩⟩⟩, by decide, by decide⟩
      · exact ⟨⟨_, .inr ⟨rfl, rfl⟩⟩, by decide, by decide⟩
  have hl : ask dottedSources (load ⟨"."⟩) = .ok ⟨units⟩ := by
    refine (h.ok_iff _).2 ⟨by rw [hnames]; exact List.cons_ne_nil _ _, ?_⟩
    rw [hnames]
    exact .cons (by decide +kernel) (.cons (by decide +kernel) (.cons (by decide +kernel) .nil))
  refine ⟨⟨units⟩, hl, rfl, (hapart _ hl).2 ?_, ?_⟩
  · rw [h.map_stems hl]
    decide
  · rw [hperm ⟨⟨[], dottedSources.volume.entries.reverse⟩, dottedSources.strays⟩ rfl
      (List.reverse_perm _) (.refl _), hl]

/-- The directory where paths start, in as many steps that lead nowhere. -/
def dots : Nat → Path
  | 0 => ⟨""⟩
  | n + 1 => ⟨"./" ++ (dots n).text⟩

private theorem dots_size (n : Nat) : (dots n).text.utf8ByteSize = 2 * n := by
  induction n with
  | zero => rfl
  | succ n ih =>
    rw [dots, String.utf8ByteSize_append, ih, Nat.mul_succ, Nat.add_comm]
    rfl

private theorem dots_pieces (n : Nat) : (dots n).pieces = List.replicate n "." ++ [""] := by
  induction n with
  | zero => rfl
  | succ n ih =>
    have ht : (dots (n + 1)).text.toList = ['.'] ++ '/' :: (dots n).text.toList := by
      simp [dots]
    rw [Path.pieces] at ih
    rw [Path.pieces, ht, Text.pieces_append (by decide), List.map_cons, ih]
    rfl

private theorem nul_not_mem_dots (n : Nat) : '\x00' ∉ (dots n).text.toList := by
  induction n with
  | zero => decide
  | succ n ih => simp [dots, ih]

private theorem find_dots {v : Volume} (hd : v.get? v.here = some .directory) {n : Nat}
    (hn : 2 * (n + 1) ≤ maxPath) : v.find (dots (n + 1)) = .ok (v.here, .directory) := by
  have hs : v.start (dots (n + 1)) = .ok v.here := by
    refine start_eq_ok_iff.2 ⟨nul_not_mem_dots _, fun h => ?_, (dots_size _).trans_le hn, ?_⟩
    · have hz := congrArg String.utf8ByteSize h
      rw [dots_size] at hz
      cases hz
    · simp [dots]
  have hidle : ∀ q ∈ (dots (n + 1)).pieces, Path.isIdle q = true := by
    intro q hq
    rw [dots_pieces, List.mem_append, List.mem_singleton] at hq
    rcases hq with hq | rfl
    · rw [List.eq_of_mem_replicate hq]
      decide
    · decide
  exact find_eq_ok_iff.2 ⟨locate_eq_ok_iff.2 ⟨_, hs, foldlM_follow_of_idle hidle hd⟩, hd⟩

def singleSource : Tree := ⟨⟨[], [(["A.vm"], .file (Text.toBytes "add"))]⟩, []⟩

private theorem singleSource_proper : singleSource.Proper where
  volume := {
    places := by decide
    names := fun name directory entry h => by
      simp only [singleSource, List.mem_singleton, Prod.mk.injEq, List.cons.injEq] at h
      obtain ⟨⟨rfl, -⟩, -⟩ := h
      exact ⟨⟨by decide, by decide⟩, by decide, by decide, by decide⟩ }
  places := by decide
  names _ _ _ h := nomatch h

/-- The path of the directory is not too long, but that of the source in it is: none is found. -/
private theorem singleSource_left_out :
    ask singleSource.volume (load (dots 2047)) = .error (.noSources (dots 2047)) := by
  have hd : singleSource.volume.find (dots 2047) = .ok ([], .directory) :=
    find_dots rfl (by decide)
  obtain ⟨names, h⟩ := singleSource_proper.loadsSources hd
  rw [← (readAlike_volume (t := singleSource) rfl).load]
  refine (h.error_iff _).2 (.inl ⟨List.eq_nil_iff_forall_not_mem.2 fun name hn => ?_, rfl⟩)
  obtain ⟨⟨bytes, hb⟩, -, hs⟩ := (h.mem_iff name).1 hn
  obtain rfl : name = Text.toBytes "A.vm" := by
    rw [singleSource_proper.lookup?_eq_some_iff] at hb
    simp only [singleSource, List.mem_singleton, List.not_mem_nil, or_false, Prod.mk.injEq,
      List.cons.injEq, and_true] at hb
    obtain ⟨_, rfl, rfl, -⟩ := hb
    rfl
  obtain ⟨slash, -, ht⟩ := Path.text_join (dots 2047) "A.vm"
  have hsize : "A.vm".utf8ByteSize = 4 := by decide
  rw [Path.entry, Text.ofBytes?_toBytes, Location.size, ht, String.utf8ByteSize_append,
    String.utf8ByteSize_append, dots_size, hsize, maxPath] at hs
  omega

def strayPair : Tree := ⟨⟨[], []⟩,
  [(([], 0xFF :: sourceEnding), .file (Text.toBytes "push static 0")),
    (([], 0xFE :: sourceEnding), .file (Text.toBytes "pop static 0"))]⟩

private theorem strayPair_proper : strayPair.Proper where
  volume := ⟨by decide, fun _ _ _ h => nomatch h⟩
  places := by decide
  names directory name entry h := by
    simp only [strayPair, List.mem_cons, List.not_mem_nil, or_false, Prod.mk.injEq] at h
    obtain ⟨⟨-, rfl⟩, -⟩ | ⟨⟨-, rfl⟩, -⟩ := h <;> decide +kernel

private theorem strayPair_load : ask strayPair (load ⟨"."⟩) =
    .ok ⟨[⟨"\uFFFD", [⟨1, "pop static 0", .pop .static 0⟩]⟩,
      ⟨"\uFFFD", [⟨1, "push static 0", .push .static 0⟩]⟩]⟩ := by
  have hp : strayPair.volume.find ⟨"."⟩ = .ok ([], .directory) := by decide +kernel
  obtain ⟨names, h⟩ := strayPair_proper.loadsSources hp
  have hnames : names = [0xFE :: sourceEnding, 0xFF :: sourceEnding] := by
    refine eq_of_sorted h.sorted (by decide) fun name => ?_
    rw [h.mem_iff]
    simp only [strayPair_proper.lookup?_eq_some_iff]
    simp only [strayPair, List.mem_cons, List.not_mem_nil, or_false, and_false, exists_false,
      false_or, Prod.mk.injEq, true_and]
    constructor
    · rintro ⟨⟨bytes, ⟨rfl, -⟩ | ⟨rfl, -⟩⟩, -⟩
      · exact .inr rfl
      · exact .inl rfl
    · rintro (rfl | rfl)
      · exact ⟨⟨_, .inr ⟨rfl, rfl⟩⟩, by decide, by decide⟩
      · exact ⟨⟨_, .inl ⟨rfl, rfl⟩⟩, by decide, by decide⟩
  refine (h.ok_iff _).2 ⟨by rw [hnames]; exact List.cons_ne_nil _ _, ?_⟩
  rw [hnames]
  exact .cons (by decide +kernel) (.cons (by decide +kernel) .nil)

/-- A source is left out whose path is too long where that of its directory is not, and two sources
have one name as units and one static variable. -/
theorem sources_left_out_or_shared :
    (singleSource.Proper ∧ singleSource.volume.find (dots 2047) = .ok ([], .directory) ∧
      singleSource.volume.get? ["A.vm"] = some (.file (Text.toBytes "add")) ∧
      (Path.splitName "A.vm").2 = some sourceExtension ∧
      ask singleSource.volume (load (dots 2047)) = .error (.noSources (dots 2047))) ∧
    strayPair.Proper ∧ strayPair.volume.find ⟨"."⟩ = .ok ([], .directory) ∧
      ∃ program, ask strayPair (load ⟨"."⟩) = .ok program ∧
        program.units.map (·.name) = ["\uFFFD", "\uFFFD"] ∧ ¬KeepsApart program ∧
        program.sites.map Site.static? = [some "\uFFFD.0", some "\uFFFD.0"] := by
  refine ⟨⟨singleSource_proper, find_dots rfl (by decide), by decide, by decide,
    singleSource_left_out⟩, strayPair_proper, by decide +kernel, _, strayPair_load, rfl,
    fun h => ?_, by decide⟩
  exact absurd h.names (by decide)

end StackLowering
