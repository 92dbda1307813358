import Mathlib.Data.List.Basic
import StackLowering.Disk.Volume
import StackLowering.Result
/-! Where paths lead. A path is followed through directories alone, so that it leads to the same
place on all volumes with the same directories. -/
namespace StackLowering.Disk

namespace Path

/-- The pieces hold no slashes. -/
theorem slash_not_mem_of_mem_pieces {p : Path} {piece : String} (h : piece ∈ p.pieces) :
    '/' ∉ piece.toList := by
  obtain ⟨cs, hc, rfl⟩ := List.mem_map.1 h
  rw [String.toList_ofList]
  exact Text.not_mem_of_mem_pieces hc

theorem pieces_ne_nil (p : Path) : p.pieces ≠ [] :=
  List.map_eq_nil_iff.not.2 (Text.pieces_ne_nil _ _)

/-- Whether a piece is a name, and leads to an entry of a directory. -/
def IsName (piece : String) : Prop := isIdle piece = false ∧ piece ≠ ".."

theorem IsName.ne_empty {piece : String} (h : IsName piece) : piece ≠ "" := by
  rintro rfl
  exact absurd h.1 (by decide)

def steps (p : Path) : List String := p.pieces.filter (!isIdle ·)

private theorem pieces_of_slash {p : Path} : (∃ piece rest, p.pieces = "" :: piece :: rest) ↔
    p.text.toList.head? = some '/' := by
  rw [pieces]
  cases p.text.toList with
  | nil => simp [Text.pieces]
  | cons c cs =>
    by_cases hc : c = '/'
    · obtain ⟨q, qs, hq⟩ := List.exists_cons_of_ne_nil (Text.pieces_ne_nil '/' cs)
      simp [Text.pieces, hc, hq]
    · obtain ⟨q, qs, -, hs⟩ := Text.pieces_cons_of_ne hc cs
      simp [hs, hc]

def component (piece : String) : Component := if piece == ".." then .up else .name piece

private theorem component_injective : Function.Injective component := fun a b h => by
  unfold component at h
  split at h <;> split at h <;> simp_all

def origin (p : Path) : List Component :=
  match p.pieces with
  | "" :: _ :: _ => [.root]
  | "." :: _ => [.here]
  | _ => []

private theorem components_eq (p : Path) : p.components = p.origin ++ p.steps.map component := rfl

private theorem origin_eq_root_iff {p : Path} :
    p.origin = [.root] ↔ p.text.toList.head? = some '/' := by
  rw [← pieces_of_slash, origin]
  split
  · next piece rest h => simp [h]
  · next rest h => simp [h]
  · next h _ =>
    simp only [List.nil_eq, List.cons_ne_nil, false_iff]
    rintro ⟨piece, rest, hp⟩
    exact h piece rest hp

private theorem origin_cases (p : Path) :
    p.origin = [.root] ∨ p.origin = [.here] ∨ p.origin = [] := by
  unfold origin
  split <;> simp

private def leads : Component → Bool
  | .root | .here => true
  | .up | .name _ => false

private theorem filter_components (p : Path) : p.components.filter leads = p.origin := by
  have ho : p.origin.filter leads = p.origin := by
    rcases p.origin_cases with h | h | h <;> rw [h] <;> rfl
  have hs : (p.steps.map component).filter leads = [] := by
    refine List.filter_eq_nil_iff.2 fun c hc => ?_
    obtain ⟨piece, -, rfl⟩ := List.mem_map.1 hc
    unfold component
    split <;> simp [leads]
  rw [components_eq, List.filter_append, ho, hs, List.append_nil]

/-- Paths are the same if they start and go on alike. -/
theorem same_iff {p q : Path} : p.same q = true ↔ p.origin = q.origin ∧ p.steps = q.steps := by
  rw [same, beq_iff_eq]
  constructor
  · intro h
    have ho : p.origin = q.origin := by rw [← filter_components, h, filter_components]
    rw [components_eq, components_eq, ho] at h
    exact ⟨ho, List.map_injective_iff.2 component_injective (List.append_cancel_left h)⟩
  · rintro ⟨ho, hs⟩
    rw [components_eq, components_eq, ho, hs]

end Path

namespace Volume
variable {v w : Volume} {p : Path} {place q : Place} {piece : String}

theorem start_eq_ok_iff : v.start p = .ok place ↔
    '\x00' ∉ p.text.toList ∧ p.text ≠ "" ∧ p.text.utf8ByteSize ≤ maxPath ∧
      place = if p.text.toList.head? = some '/' then [] else v.here := by
  unfold start
  split
  · next h => simp [List.contains_iff_mem.1 h]
  · next h =>
    split
    · next he => simp [String.isEmpty_iff.1 he]
    · next he =>
      split
      · next hl => simp [Nat.not_le.2 hl]
      · next hl =>
        simp only [Except.ok.injEq]
        refine ⟨fun hp => ⟨?_, ?_, Nat.not_lt.1 hl, hp.symm⟩, fun hp => hp.2.2.2.symm⟩
        · simpa using h
        · simpa using he

private theorem requireDirectory_bind_eq_ok_iff {x : Unit → Except Fault Place} :
    v.requireDirectory place >>= x = .ok q ↔ v.get? place = some .directory ∧ x () = .ok q := by
  unfold requireDirectory
  split <;> next h => simp [h, bind, Except.bind]

private theorem child_eq_ok_iff : v.child place piece = .ok q ↔
    v.get? place = some .directory ∧ piece.utf8ByteSize ≤ maxName ∧ q = piece :: place := by
  rw [child, requireDirectory_bind_eq_ok_iff]
  refine and_congr_right fun _ => ?_
  split
  · next hl => simpa [Nat.not_le.2 hl] using fun h => by cases h
  · next hl => exact pure_eq_ok_iff.trans (iff_and_self.2 fun _ => Nat.not_lt.1 hl)

def step (place : Place) (piece : String) : Place :=
  if Path.isIdle piece then place else if piece = ".." then place.tail else piece :: place

theorem step_of_isName (h : Path.IsName piece) : step place piece = piece :: place := by
  rw [step, if_neg (by simp [h.1]), if_neg h.2]

/-- Only a name leads to a place in the directory itself. -/
theorem eq_of_step_eq_cons {name : String} (h : step place piece = name :: place) :
    piece = name := by
  unfold step at h
  split at h
  · exact absurd h.symm (List.cons_ne_self _ _)
  · split at h
    · have hl := congrArg List.length h
      rw [List.length_tail, List.length_cons] at hl
      omega
    · exact (List.cons.inj h).1

theorem follow_eq_ok_iff : v.follow place piece = .ok q ↔
    v.get? place = some .directory ∧ (Path.IsName piece → piece.utf8ByteSize ≤ maxName) ∧
      q = step place piece := by
  unfold follow step Path.IsName
  split
  · next h =>
    rw [requireDirectory_bind_eq_ok_iff, pure_eq_ok_iff]
    simp [h]
  · next h =>
    split
    · next hu =>
      rw [requireDirectory_bind_eq_ok_iff, pure_eq_ok_iff]
      simp [hu]
    · next hu => simp [child_eq_ok_iff, h, hu]

theorem locate_eq_ok_iff : v.locate p = .ok place ↔
    ∃ s, v.start p = .ok s ∧ p.pieces.foldlM v.follow s = .ok place :=
  bind_eq_ok_iff

theorem find_eq_ok_iff {entry : Entry} : v.find p = .ok (place, entry) ↔
    v.locate p = .ok place ∧ v.get? place = some entry := by
  rw [find, bind_eq_ok_iff]
  constructor
  · rintro ⟨q, hq, h⟩
    split at h
    · next e he =>
      cases h
      exact ⟨hq, he⟩
    · cases h
  · rintro ⟨hq, he⟩
    exact ⟨place, hq, by rw [he]; rfl⟩

theorem read_eq_ok_iff {bytes : List UInt8} : v.read p = .ok bytes ↔
    ∃ place, v.locate p = .ok place ∧ v.get? place = some (.file bytes) := by
  rw [read, bind_eq_ok_iff]
  constructor
  · rintro ⟨⟨place, entry⟩, hf, h⟩
    cases entry with
    | directory => cases h
    | file b =>
      cases h
      exact ⟨place, find_eq_ok_iff.1 hf⟩
  · rintro ⟨place, hf⟩
    exact ⟨_, find_eq_ok_iff.2 hf, rfl⟩

/-- What is found as a file is not found as a directory. -/
theorem not_directory_of_find {bytes : List UInt8} (hf : v.find p = .ok (place, .file bytes))
    (place' : Place) : v.find p ≠ .ok (place', .directory) := fun hd => by
  rw [hf] at hd
  cases hd

/-- No longer path leads anywhere. -/
theorem text_size_le_of_read {bytes : List UInt8} (h : v.read p = .ok bytes) :
    p.text.utf8ByteSize ≤ maxPath := by
  obtain ⟨place, hl, -⟩ := read_eq_ok_iff.1 h
  obtain ⟨s, hs, -⟩ := locate_eq_ok_iff.1 hl
  exact (start_eq_ok_iff.1 hs).2.2.1

theorem length_names_le {names : List String} (h : v.names p = .ok names) :
    names.length ≤ v.entries.length := by
  obtain ⟨⟨place, entry⟩, -, h⟩ := bind_eq_ok_iff.1 h
  cases entry with
  | file bytes => cases h
  | directory =>
    cases h
    exact List.length_filterMap_le ..

/-- The place of a path whose last piece is a name. -/
theorem target_eq_ok_iff {before : List String} {name : String} (hp : p.pieces = before ++ [name])
    (hn : name ≠ "") {t : Target} : v.target p = .ok t ↔
      ∃ s directory, v.start p = .ok s ∧ before.foldlM v.follow s = .ok directory ∧
        v.get? directory = some .directory ∧ name.utf8ByteSize ≤ maxName ∧
        t = ⟨directory, name, false⟩ := by
  have hr : p.pieces.reverse = name :: before.reverse := by rw [hp, List.reverse_concat]
  have hd : (name :: before.reverse).dropWhile (·.isEmpty) = name :: before.reverse := by
    rw [List.dropWhile_cons_of_neg]
    simpa using hn
  simp only [target, hr, hd, List.reverse_reverse, bind_eq_ok_iff, child_eq_ok_iff]
  simp [hn, pure, Except.pure, and_assoc, eq_comm]

theorem locate_eq_target {before : List String} {name : String} (hp : p.pieces = before ++ [name])
    (hn : Path.IsName name) :
    v.locate p = .ok place ↔ ∃ t, v.target p = .ok t ∧ t.place = place := by
  have hne := hn.ne_empty
  rw [locate_eq_ok_iff]
  constructor
  · rintro ⟨s, h, hf⟩
    rw [hp, List.foldlM_append, bind_eq_ok_iff] at hf
    obtain ⟨directory, hd, hf⟩ := hf
    rw [List.foldlM_cons, bind_eq_ok_iff] at hf
    obtain ⟨q, hq, he⟩ := hf
    obtain ⟨hdir, hl, rfl⟩ := follow_eq_ok_iff.1 hq
    cases he
    refine ⟨_, (target_eq_ok_iff hp hne).2 ⟨s, directory, h, hd, hdir, hl hn, rfl⟩, ?_⟩
    rw [step_of_isName hn, Target.place]
  · rintro ⟨t, ht, rfl⟩
    obtain ⟨s, directory, h, hd, hdir, hl, rfl⟩ := (target_eq_ok_iff hp hne).1 ht
    refine ⟨s, h, ?_⟩
    rw [hp, List.foldlM_append, bind_eq_ok_iff]
    refine ⟨directory, hd, ?_⟩
    rw [List.foldlM_cons, bind_eq_ok_iff]
    exact ⟨_, follow_eq_ok_iff.2 ⟨hdir, fun _ => hl, rfl⟩, by rw [step_of_isName hn]; rfl⟩

/-- Paths that differ in their last piece start at the same place. -/
private theorem head?_of_pieces {p' : Path} {before : List String} {a b : String}
    (hp : p.pieces = before ++ [a]) (hq : p'.pieces = before ++ [b])
    (h : p.text.toList.head? = some '/') : p'.text.toList.head? = some '/' := by
  rw [← Path.pieces_of_slash, hp] at h
  rw [← Path.pieces_of_slash, hq]
  obtain ⟨piece, rest, h⟩ := h
  cases before with
  | nil => cases h
  | cons c before =>
    obtain ⟨rfl, -⟩ := List.cons.inj h
    obtain ⟨d, ds, hd⟩ := List.exists_cons_of_ne_nil (List.concat_ne_nil b before)
    exact ⟨d, ds, by rw [List.cons_append, hd]⟩

/-- Paths that differ in their last piece lead to the same directory. -/
theorem target_of_sibling {p' : Path} {before : List String} {a b : String}
    (hp : p.pieces = before ++ [a]) (hq : p'.pieces = before ++ [b]) (ha : a ≠ "") (hb : b ≠ "")
    {t u : Target} (ht : v.target p = .ok t) (hu : v.target p' = .ok u) :
    u = ⟨t.directory, b, false⟩ := by
  obtain ⟨s, directory, hs, hd, -, -, rfl⟩ := (target_eq_ok_iff hp ha).1 ht
  obtain ⟨s', directory', hs', hd', -, -, rfl⟩ := (target_eq_ok_iff hq hb).1 hu
  have hh : p.text.toList.head? = some '/' ↔ p'.text.toList.head? = some '/' :=
    ⟨head?_of_pieces hp hq, head?_of_pieces hq hp⟩
  obtain ⟨-, -, -, rfl⟩ := start_eq_ok_iff.1 hs
  obtain ⟨-, -, -, rfl⟩ := start_eq_ok_iff.1 hs'
  simp only [hh] at hd
  rw [hd] at hd'
  rw [Except.ok.inj hd']

/-- The target of a path whose last piece is a name has that name. -/
theorem pieces_of_target {t : Target} (h : v.target p = .ok t) (hs : t.slashed = false) :
    ∃ before, p.pieces = before ++ [t.name] ∧ t.name ≠ "" := by
  unfold target at h
  obtain ⟨s, -, h⟩ := bind_eq_ok_iff.1 h
  dsimp only at h
  split at h
  · cases h
    cases hs
  · next name before hd =>
    obtain ⟨directory, -, h⟩ := bind_eq_ok_iff.1 h
    obtain ⟨q, -, h⟩ := bind_eq_ok_iff.1 h
    cases h
    obtain ⟨piece, back, hb⟩ :=
      List.exists_cons_of_ne_nil (List.reverse_ne_nil_iff.2 p.pieces_ne_nil)
    rw [hb] at hd hs
    have hne : piece ≠ "" := by simpa using hs
    rw [List.dropWhile_cons_of_neg (by simpa using hne)] at hd
    obtain ⟨rfl, rfl⟩ := List.cons.inj hd
    exact ⟨back.reverse, by rw [← List.reverse_cons, ← hb, List.reverse_reverse], hne⟩

private theorem foldlM_follow {pieces : List String} (h : pieces.foldlM v.follow place = .ok q) :
    q = (pieces.filter (!Path.isIdle ·)).foldl step place := by
  induction pieces generalizing place with
  | nil => exact (Except.ok.inj h).symm
  | cons piece pieces ih =>
    rw [List.foldlM_cons, bind_eq_ok_iff] at h
    obtain ⟨place', hf, h⟩ := h
    obtain ⟨-, -, rfl⟩ := follow_eq_ok_iff.1 hf
    cases hi : Path.isIdle piece with
    | true =>
      rw [List.filter_cons_of_neg (by simp [hi]), ih h, step, if_pos hi]
    | false =>
      rw [List.filter_cons_of_pos (by simp [hi]), ih h, List.foldl_cons]

/-- The place that a path spells, whether or not it can be followed there. -/
def spelled (v : Volume) (p : Path) : Place :=
  p.steps.foldl step (if p.text.toList.head? = some '/' then [] else v.here)

theorem spelled_eq (h : v.locate p = .ok place) : v.spelled p = place := by
  obtain ⟨s, hs, hf⟩ := locate_eq_ok_iff.1 h
  obtain ⟨-, -, -, rfl⟩ := start_eq_ok_iff.1 hs
  exact (foldlM_follow hf).symm

/-- Two ways of writing the same names spell the same place. -/
theorem spelled_of_same {p' : Path} (h : p.same p' = true) : v.spelled p = v.spelled p' := by
  obtain ⟨ho, hs⟩ := Path.same_iff.1 h
  rw [spelled, spelled, hs]
  simp only [← Path.origin_eq_root_iff, ho]

/-- Paths that differ in their last piece spell places beside each other. -/
theorem spelled_sibling (v : Volume) {before : List String} {a : String}
    (hp : p.pieces = before ++ [a]) :
    ∃ directory, ∀ p' b, p'.pieces = before ++ [b] → v.spelled p' = step directory b := by
  refine ⟨(before.filter (!Path.isIdle ·)).foldl step
    (if p.text.toList.head? = some '/' then [] else v.here), fun p' b hq => ?_⟩
  have hh : p'.text.toList.head? = some '/' ↔ p.text.toList.head? = some '/' :=
    ⟨head?_of_pieces hq hp, head?_of_pieces hp hq⟩
  simp only [spelled, Path.steps, hq, List.filter_append, List.foldl_append, hh]
  cases hi : Path.isIdle b with
  | true => simp [hi, step]
  | false => simp [hi]

/-- Whether volumes have the same directories, and relative paths start at the same. -/
structure SameDirectories (v w : Volume) : Prop where
  here : v.here = w.here
  get? : ∀ place, v.get? place = some .directory ↔ w.get? place = some .directory

namespace SameDirectories

theorem refl (v : Volume) : SameDirectories v v := ⟨rfl, fun _ => Iff.rfl⟩

theorem symm (h : SameDirectories v w) : SameDirectories w v :=
  ⟨h.here.symm, fun place => (h.get? place).symm⟩

theorem trans {u : Volume} (h : SameDirectories u v) (h' : SameDirectories v w) :
    SameDirectories u w :=
  ⟨h.here.trans h'.here, fun place => (h.get? place).trans (h'.get? place)⟩

private theorem start_eq (h : SameDirectories v w) (p : Path) : v.start p = w.start p := by
  rw [start, start, h.here]

private theorem foldlM_follow_of (h : SameDirectories v w) {pieces : List String}
    (hf : pieces.foldlM v.follow place = .ok q) : pieces.foldlM w.follow place = .ok q := by
  induction pieces generalizing place with
  | nil => exact hf
  | cons piece pieces ih =>
    rw [List.foldlM_cons, bind_eq_ok_iff] at hf ⊢
    obtain ⟨place', hs, hf⟩ := hf
    obtain ⟨hd, hs⟩ := follow_eq_ok_iff.1 hs
    exact ⟨place', follow_eq_ok_iff.2 ⟨(h.get? place).1 hd, hs⟩, ih hf⟩

theorem locate_of (h : SameDirectories v w) (hl : v.locate p = .ok place) :
    w.locate p = .ok place := by
  obtain ⟨s, hs, hf⟩ := locate_eq_ok_iff.1 hl
  exact locate_eq_ok_iff.2 ⟨s, h.start_eq p ▸ hs, h.foldlM_follow_of hf⟩

theorem find_directory (h : SameDirectories v w) (hd : v.find p = .ok (place, .directory)) :
    w.find p = .ok (place, .directory) := by
  obtain ⟨hl, he⟩ := find_eq_ok_iff.1 hd
  exact find_eq_ok_iff.2 ⟨h.locate_of hl, (h.get? place).1 he⟩

theorem target_of (h : SameDirectories v w) {t : Target} (ht : v.target p = .ok t) :
    w.target p = .ok t := by
  unfold target at ht ⊢
  obtain ⟨s, hs, ht⟩ := bind_eq_ok_iff.1 ht
  refine bind_eq_ok_iff.2 ⟨s, h.start_eq p ▸ hs, ?_⟩
  dsimp only at ht ⊢
  split at ht
  · exact ht
  · obtain ⟨directory, hd, ht⟩ := bind_eq_ok_iff.1 ht
    obtain ⟨q, hc, ht⟩ := bind_eq_ok_iff.1 ht
    obtain ⟨hdir, hc⟩ := child_eq_ok_iff.1 hc
    refine bind_eq_ok_iff.2 ⟨directory, h.foldlM_follow_of hd, bind_eq_ok_iff.2 ⟨q, ?_, ht⟩⟩
    exact child_eq_ok_iff.2 ⟨(h.get? directory).1 hdir, hc⟩

end SameDirectories

end Volume
end StackLowering.Disk
