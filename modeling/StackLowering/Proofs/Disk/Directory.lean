import StackLowering.Proofs.Disk.Extension
/-! Directories: the path of a name in one, and where that leads. Where each place has one entry,
the names in a directory are those of its entries, each once. -/
namespace StackLowering.Disk

namespace Path
variable {p : Path} {name : String}

/-- A name is written behind the pieces of the directory, apart from a last empty one. -/
theorem pieces_join (hp : p.text ≠ "") (name : String) :
    ∃ before, (p.join name).pieces = before ++ pieces ⟨name⟩ ∧
      (p.pieces = before ∨ p.pieces = before ++ [""]) := by
  have he : p.text.isEmpty = false := by simpa using hp
  rw [join, he, Bool.false_or]
  by_cases hl : p.text.toList.getLast? = some '/'
  · obtain ⟨front, hf⟩ := List.getLast?_eq_some_iff.1 hl
    refine ⟨(Text.pieces '/' front).map String.ofList, ?_, .inr ?_⟩
    · rw [if_pos (by simpa using hl), pieces, String.toList_append, hf, List.append_assoc,
        List.singleton_append, Text.pieces_append_cons, List.map_append]
      rfl
    · rw [pieces, hf, Text.pieces_append_cons, List.map_append]
      rfl
  · refine ⟨p.pieces, ?_, .inl rfl⟩
    have hs : (p.text ++ "/" ++ name).toList = p.text.toList ++ '/' :: name.toList := by simp
    rw [if_neg (by simpa using hl), pieces, hs, Text.pieces_append_cons, List.map_append]
    rfl

private theorem pieces_of_not_mem (hs : '/' ∉ name.toList) : pieces ⟨name⟩ = [name] := by
  rw [pieces, Text.pieces_of_not_mem hs, List.map_singleton, String.ofList_toList]

private theorem exists_pieces_join (hp : p.text ≠ "") (hs : '/' ∉ name.toList) :
    ∃ before, (p.join name).pieces = before ++ [name] ∧
      (p.pieces = before ∨ p.pieces = before ++ [""]) := by
  obtain ⟨before, hj, hb⟩ := pieces_join hp name
  rw [pieces_of_not_mem hs] at hj
  exact ⟨before, hj, hb⟩

theorem text_join (p : Path) (name : String) :
    ∃ slash, (slash = "" ∨ slash = "/") ∧ (p.join name).text = p.text ++ slash ++ name := by
  rw [join]
  split
  · exact ⟨"", .inl rfl, by rw [String.append_empty]⟩
  · exact ⟨"/", .inr rfl, rfl⟩

structure ProperName (name : String) : Prop where
  isName : IsName name
  slash : '/' ∉ name.toList
  nul : '\x00' ∉ name.toList
  size : name.utf8ByteSize ≤ Volume.maxName

end Path

namespace Volume
variable {v w : Volume} {p : Path} {place q : Place} {name : String}

/-- Pieces that lead nowhere stay in a directory. -/
theorem foldlM_follow_of_idle {pieces : List String} (h : ∀ q ∈ pieces, Path.isIdle q = true)
    (hd : v.get? place = some .directory) : pieces.foldlM v.follow place = .ok place := by
  induction pieces with
  | nil => rfl
  | cons q qs ih =>
    rw [List.forall_mem_cons] at h
    have hq : v.follow place q = .ok place := follow_eq_ok_iff.2
      ⟨hd, fun hn => absurd (hn.1.symm.trans h.1) (by decide), by rw [step, if_pos h.1]⟩
    rw [List.foldlM_cons, hq]
    exact ih h.2

/-- A file whose path has a file name is found under this name, which stands last. -/
theorem pieces_of_find_file {bytes : List UInt8} (hf : v.find p = .ok (place, .file bytes))
    (hn : p.fileName? = some name) : ∃ before directory,
      p.pieces = before ++ [name] ∧ Path.IsName name ∧ place = name :: directory := by
  obtain ⟨before, last, hp⟩ := p.exists_pieces
  obtain ⟨hl, hb⟩ := find_eq_ok_iff.1 hf
  obtain ⟨s, -, hfold⟩ := locate_eq_ok_iff.1 hl
  rw [hp, List.foldlM_append, bind_eq_ok_iff] at hfold
  obtain ⟨directory, -, hfold⟩ := hfold
  rw [List.foldlM_cons, bind_eq_ok_iff] at hfold
  obtain ⟨q, hq, hfold⟩ := hfold
  obtain ⟨hd, -, rfl⟩ := follow_eq_ok_iff.1 hq
  cases hfold
  cases hi : Path.isIdle last with
  | true =>
    rw [step, if_pos hi, hd] at hb
    cases hb
  | false =>
    have hup : last ≠ ".." := by
      rintro rfl
      rw [Path.fileName?_eq_none hp] at hn
      cases hn
    have hname : Path.IsName last := ⟨hi, hup⟩
    rw [Path.fileName?_eq hp hname] at hn
    obtain rfl := Option.some.inj hn
    exact ⟨before, directory, hp, hname, step_of_isName hname⟩

/-- The path of a name starts where that of the directory does, unless it is too long. -/
private theorem start_join {s s' : Place} (h : v.start p = .ok s) (hn : Path.ProperName name) :
    v.start (p.join name) = .ok s' ↔
      (p.join name).text.utf8ByteSize ≤ maxPath ∧ s' = s := by
  obtain ⟨hnul, hne, -, rfl⟩ := start_eq_ok_iff.1 h
  obtain ⟨slash, hslash, ht⟩ := Path.text_join p name
  have hc : '\x00' ∉ (p.join name).text.toList := by
    rw [ht]
    rcases hslash with rfl | rfl <;> simp [hnul, hn.nul]
  have hh : (p.join name).text.toList.head? = p.text.toList.head? := by
    obtain ⟨c, cs, hcs⟩ := List.exists_cons_of_ne_nil
      (show p.text.toList ≠ [] from fun h => hne (String.toList_injective h))
    rw [ht, String.toList_append, String.toList_append, hcs]
    rfl
  have he : (p.join name).text ≠ "" := fun h => by
    rw [ht] at h
    exact hne (by simpa using (String.append_eq_empty_iff.1 (String.append_eq_empty_iff.1 h).1).1)
  rw [start_eq_ok_iff, hh]
  exact ⟨fun h => h.2.2, fun h => ⟨hc, he, h⟩⟩

/-- A last empty piece leads nowhere. -/
private theorem foldlM_follow_front {s : Place} {before : List String}
    (hb : p.pieces = before ∨ p.pieces = before ++ [""])
    (h : p.pieces.foldlM v.follow s = .ok place) : before.foldlM v.follow s = .ok place := by
  rcases hb with hb | hb
  · rwa [hb] at h
  · rw [hb, List.foldlM_append, bind_eq_ok_iff] at h
    obtain ⟨d, hbd, h⟩ := h
    rw [List.foldlM_cons, bind_eq_ok_iff] at h
    obtain ⟨d', hd', h⟩ := h
    obtain ⟨-, -, rfl⟩ := follow_eq_ok_iff.1 hd'
    cases h
    exact hbd

/-- Where a directory is found, the path of a name in it leads to its place there, unless the path
is too long. -/
theorem locate_join (hp : v.find p = .ok (place, .directory)) (hn : Path.ProperName name) :
    v.locate (p.join name) = .ok q ↔
      (p.join name).text.utf8ByteSize ≤ maxPath ∧ q = name :: place := by
  obtain ⟨hl, hd⟩ := find_eq_ok_iff.1 hp
  obtain ⟨s, hs, hf⟩ := locate_eq_ok_iff.1 hl
  obtain ⟨before, hj, hb⟩ := Path.exists_pieces_join (start_eq_ok_iff.1 hs).2.1 hn.slash
  have hbefore := foldlM_follow_front hb hf
  rw [locate_eq_target hj hn.isName]
  constructor
  · rintro ⟨t, ht, rfl⟩
    obtain ⟨s', d, hs', hf', -, -, rfl⟩ := (target_eq_ok_iff hj hn.isName.ne_empty).1 ht
    obtain ⟨hsize, rfl⟩ := (start_join hs hn).1 hs'
    rw [hbefore] at hf'
    exact ⟨hsize, by rw [Target.place, Except.ok.inj hf']⟩
  · rintro ⟨hsize, rfl⟩
    exact ⟨⟨place, name, false⟩, (target_eq_ok_iff hj hn.isName.ne_empty).2
      ⟨s, place, (start_join hs hn).2 ⟨hsize, rfl⟩, hbefore, hd, hn.size, rfl⟩, rfl⟩

theorem read_join (hp : v.find p = .ok (place, .directory)) (hn : Path.ProperName name)
    (hs : (p.join name).text.utf8ByteSize ≤ maxPath) {bytes : List UInt8} :
    v.read (p.join name) = .ok bytes ↔ v.get? (name :: place) = some (.file bytes) := by
  simp [read_eq_ok_iff, locate_join hp hn, hs]

theorem fileName?_join (hp : v.find p = .ok (place, .directory)) (hn : Path.ProperName name) :
    (p.join name).fileName? = some name := by
  obtain ⟨hl, -⟩ := find_eq_ok_iff.1 hp
  obtain ⟨s, hs, -⟩ := locate_eq_ok_iff.1 hl
  obtain ⟨before, hj, -⟩ := Path.exists_pieces_join (start_eq_ok_iff.1 hs).2.1 hn.slash
  exact Path.fileName?_eq hj hn.isName

def nameIn? (directory : Place) : Place → Option String
  | [] => none
  | name :: parent => if parent = directory then some name else none

private theorem nameIn?_eq_some_iff {directory : Place} :
    nameIn? directory q = some name ↔ q = name :: directory := by
  cases q with
  | nil => simp [nameIn?]
  | cons n parent =>
    rw [nameIn?, List.cons_eq_cons]
    split
    · next h => simp [h]
    · next h => simp [h]

theorem names_eq_filterMap (hd : v.find p = .ok (place, .directory)) :
    v.names p = .ok ((v.entries.map (·.1)).filterMap (nameIn? place)) := by
  rw [names, hd, List.filterMap_map]
  refine congrArg Except.ok (congrArg (List.filterMap · v.entries) (funext ?_))
  rintro ⟨_ | ⟨name, parent⟩, entry⟩ <;> rfl

theorem sorted_mergeSort {α : Type} [LE α] [DecidableLE α]
    (htrans : ∀ a b c : α, a ≤ b → b ≤ c → a ≤ c) (htotal : ∀ a b : α, a ≤ b ∨ b ≤ a)
    (xs : List α) : xs.mergeSort.Pairwise fun a b => a ≤ b := by
  have htrans : ∀ a b c : α, decide (a ≤ b) = true → decide (b ≤ c) = true →
      decide (a ≤ c) = true := fun a b c hab hbc =>
    decide_eq_true (htrans a b c (of_decide_eq_true hab) (of_decide_eq_true hbc))
  have htotal : ∀ a b : α, (decide (a ≤ b) || decide (b ≤ a)) = true := fun a b => by
    simpa using htotal a b
  exact (List.pairwise_mergeSort htrans htotal xs).imp of_decide_eq_true

private theorem sorted_texts (names : List String) :
    names.mergeSort.Pairwise fun a b => a ≤ b :=
  sorted_mergeSort (fun _ _ _ => String.le_trans) String.le_total names

/-- Names may be picked before they are sorted. -/
theorem mergeSort_filter (pick : String → Bool) (names : List String) :
    (names.filter pick).mergeSort = names.mergeSort.filter pick :=
  List.Perm.eq_of_pairwise (fun _ _ _ _ => String.le_antisymm) (sorted_texts _)
    ((sorted_texts names).filter pick)
    ((List.mergeSort_perm _ _).trans ((List.mergeSort_perm names _).symm.filter pick))

/-- Whether no place has two entries, and all names can be written in paths. -/
structure Proper (v : Volume) : Prop where
  places : (v.entries.map (·.1)).Nodup
  names : ∀ name directory entry, (name :: directory, entry) ∈ v.entries → Path.ProperName name

private theorem lookup_eq_some_iff_mem {α : Type} [BEq α] [LawfulBEq α]
    {entries : List (α × Entry)} (h : (entries.map (·.1)).Nodup) {place : α} {entry : Entry} :
    entries.lookup place = some entry ↔ (place, entry) ∈ entries := by
  induction entries with
  | nil => simp
  | cons e es ih =>
    obtain ⟨q, e⟩ := e
    rw [List.map_cons, List.nodup_cons] at h
    rw [List.lookup_cons, List.mem_cons, Prod.mk.injEq]
    by_cases hq : place = q
    · have hn : (place, entry) ∉ es := fun hm =>
        h.1 (List.mem_map.2 ⟨_, hm, hq⟩)
      simp [hq, hq ▸ hn, eq_comm]
    · simp [beq_false_of_ne hq, hq, ih h.2]

namespace Proper

theorem get?_eq_some_iff (h : v.Proper) {directory : Place} {entry : Entry} :
    v.get? (name :: directory) = some entry ↔ (name :: directory, entry) ∈ v.entries :=
  lookup_eq_some_iff_mem h.places

private theorem of_perm (h : v.Proper) (hw : w.entries.Perm v.entries) : w.Proper where
  places := (hw.map (·.1)).nodup_iff.2 h.places
  names name directory entry hm := h.names name directory entry (hw.mem_iff.1 hm)

theorem get?_of_perm (h : v.Proper) (hw : w.entries.Perm v.entries) (place : Place) :
    w.get? place = v.get? place := by
  cases place with
  | nil => rfl
  | cons name directory =>
    refine Option.ext fun entry => ?_
    rw [(h.of_perm hw).get?_eq_some_iff, h.get?_eq_some_iff, hw.mem_iff]

/-- The names in a directory are those of its entries, and none comes twice. -/
private theorem names_eq (h : v.Proper) (hd : v.find p = .ok (place, .directory)) : ∃ names,
    v.names p = .ok names ∧ names.Nodup ∧
      ∀ name, name ∈ names ↔ ∃ entry, v.get? (name :: place) = some entry := by
  refine ⟨_, names_eq_filterMap hd, List.pairwise_filterMap.2 (h.places.imp ?_), fun name => ?_⟩
  · rintro q q' hne n hn n' hn' rfl
    exact hne ((nameIn?_eq_some_iff.1 hn).trans (nameIn?_eq_some_iff.1 hn').symm)
  · simp only [List.mem_filterMap, nameIn?_eq_some_iff, exists_eq_right, List.mem_map,
      h.get?_eq_some_iff]
    constructor
    · rintro ⟨⟨q, entry⟩, hm, rfl⟩
      exact ⟨entry, hm⟩
    · rintro ⟨entry, hm⟩
      exact ⟨_, hm, rfl⟩

end Proper
end Volume

namespace Tree
variable {t t' : Tree} {p : Path} {place : Place} {name : Name}

theorem lookup?_toBytes (t : Tree) (place : Place) (name : String) :
    t.lookup? place (Text.toBytes name) = t.volume.get? (name :: place) := by
  rw [lookup?, Text.ofBytes?_toBytes]

/-- Whether no place has two entries, and the further ones are those whose names are no text. -/
structure Proper (t : Tree) : Prop where
  volume : t.volume.Proper
  places : (t.strays.map (·.1)).Nodup
  names : ∀ directory name entry, ((directory, name), entry) ∈ t.strays →
    Text.ofBytes? name = none

namespace Proper

theorem of_perm (h : t.Proper) (hv : t'.volume.entries.Perm t.volume.entries)
    (hs : t'.strays.Perm t.strays) : t'.Proper where
  volume := h.volume.of_perm hv
  places := (hs.map (·.1)).nodup_iff.2 h.places
  names directory name entry hm := h.names directory name entry (hs.mem_iff.1 hm)

/-- Under a name that is text stands an entry of the volume, and a further one under any other. -/
theorem lookup?_eq_some_iff (h : t.Proper) {entry : Entry} : t.lookup? place name = some entry ↔
    (∃ s, Text.toBytes s = name ∧ (s :: place, entry) ∈ t.volume.entries) ∨
      ((place, name), entry) ∈ t.strays := by
  cases hn : Text.ofBytes? name with
  | some s =>
    obtain rfl := Text.toBytes_of_ofBytes? hn
    have hs : ((place, Text.toBytes s), entry) ∉ t.strays := fun hm =>
      Option.some_ne_none s (hn.symm.trans (h.names _ _ _ hm))
    rw [lookup?_toBytes, h.volume.get?_eq_some_iff]
    simp [hs, Text.toBytes_inj]
  | none =>
    have hv : ¬∃ s, Text.toBytes s = name ∧ (s :: place, entry) ∈ t.volume.entries := by
      rintro ⟨s, rfl, -⟩
      exact Option.some_ne_none s ((Text.ofBytes?_toBytes s).symm.trans hn)
    rw [lookup?, hn, Volume.lookup_eq_some_iff_mem h.places, or_iff_right hv]

theorem lookup?_of_perm (h : t.Proper) (hv : t'.volume.entries.Perm t.volume.entries)
    (hs : t'.strays.Perm t.strays) (place : Place) (name : Name) :
    t'.lookup? place name = t.lookup? place name := by
  refine Option.ext fun entry => ?_
  rw [(h.of_perm hv hs).lookup?_eq_some_iff, h.lookup?_eq_some_iff]
  simp only [hv.mem_iff, hs.mem_iff]

private theorem mem_strayNames :
    name ∈ t.strayNames place ↔ ∃ entry, ((place, name), entry) ∈ t.strays := by
  simp only [strayNames, List.mem_filterMap, Option.ite_none_right_eq_some, Option.some.injEq]
  constructor
  · rintro ⟨⟨⟨directory, name⟩, entry⟩, hm, rfl, rfl⟩
    exact ⟨entry, hm⟩
  · rintro ⟨entry, hm⟩
    exact ⟨_, hm, rfl, rfl⟩

private theorem nodup_strayNames (h : t.Proper) (place : Place) : (t.strayNames place).Nodup := by
  refine List.pairwise_filterMap.2 ((List.pairwise_map.1 h.places).imp ?_)
  rintro ⟨⟨d, n⟩, e⟩ ⟨⟨d', n'⟩, e'⟩ hne m hm m' hm' rfl
  simp only [Option.ite_none_right_eq_some, Option.some.injEq] at hm hm'
  obtain ⟨rfl, rfl⟩ := hm
  obtain ⟨rfl, rfl⟩ := hm'
  exact hne rfl

/-- The names in a directory are those of its entries, and none comes twice. -/
theorem names_eq (h : t.Proper) (hd : t.volume.find p = .ok (place, .directory)) : ∃ names,
    t.names p = .ok names ∧ names.Nodup ∧
      ∀ name, name ∈ names ↔ ∃ entry, t.lookup? place name = some entry := by
  obtain ⟨texts, htexts, hnodup, hmem⟩ := h.volume.names_eq hd
  refine ⟨texts.map Text.toBytes ++ t.strayNames place, ?_, ?_, fun name => ?_⟩
  · rw [Tree.names, htexts, hd]
    rfl
  · refine List.nodup_append.2 ⟨?_, nodup_strayNames h place, ?_⟩
    · exact List.pairwise_map.2 (hnodup.imp fun hne he => hne (Text.toBytes_inj.1 he))
    · rintro _ hm _ hs rfl
      obtain ⟨s, -, rfl⟩ := List.mem_map.1 hm
      obtain ⟨entry, hs⟩ := mem_strayNames.1 hs
      exact Option.some_ne_none s ((Text.ofBytes?_toBytes s).symm.trans (h.names _ _ _ hs))
  · simp only [List.mem_append, List.mem_map, mem_strayNames, hmem, h.volume.get?_eq_some_iff,
      h.lookup?_eq_some_iff, exists_or]
    refine or_congr_left ⟨?_, ?_⟩
    · rintro ⟨s, ⟨entry, hm⟩, rfl⟩
      exact ⟨entry, s, rfl, hm⟩
    · rintro ⟨entry, s, rfl, hm⟩
      exact ⟨s, ⟨entry, hm⟩, rfl⟩

end Proper
end Tree
end StackLowering.Disk
