import StackLowering.Proofs.Disk.Reading
import StackLowering.Proofs.Disk.Resolution
/-! What writing changes. A file is written beside its place and then moved there: either it comes
to hold all bytes, or nothing but the file beside is touched. -/
namespace StackLowering.Disk

namespace Path
variable {p : Path} {before : List String} {name suffix : String}

/-- Names of more than two characters are no dots. -/
theorem isName_of_length (h : 2 < name.length) : IsName name := by
  have hne : name ≠ "" ∧ name ≠ "." ∧ name ≠ ".." := by
    refine ⟨?_, ?_, ?_⟩ <;> rintro rfl <;> revert h <;> decide
  exact ⟨by simp [isIdle, hne], hne.2.2⟩

theorem exists_pieces (p : Path) : ∃ before name, p.pieces = before ++ [name] :=
  (List.eq_nil_or_concat' p.pieces).resolve_left p.pieces_ne_nil

theorem pieces_extend (hp : p.pieces = before ++ [name]) (hs : '/' ∉ suffix.toList) :
    (p.extend suffix).pieces = before ++ [name ++ suffix] := by
  obtain ⟨bs, last, hb, rfl, hl⟩ := List.map_eq_append_iff.1 hp
  obtain ⟨cs, rfl, rfl⟩ := List.map_eq_singleton_iff.1 hl
  rw [pieces, extend, String.toList_append, Text.pieces_append_last hb hs, List.map_append,
    List.map_singleton, String.ofList_append, String.ofList_toList]

/-- Where a file is written before it is moved to the path. -/
def draft (p : Path) : Path := p.extend ".tmp"

theorem pieces_draft (hp : p.pieces = before ++ [name]) :
    p.draft.pieces = before ++ [name ++ ".tmp"] :=
  pieces_extend hp (by decide)

theorem isName_draft (name : String) : IsName (name ++ ".tmp") :=
  isName_of_length (by rw [String.length_append]; exact Nat.lt_add_left _ (by decide))

theorem name_ne_draft (name : String) : name ≠ name ++ ".tmp" := fun h => by
  have hl := congrArg String.length h
  rw [String.length_append] at hl
  revert hl
  simp

end Path

section Steps
variable {σ : Type} [Access (StateM σ)] {s t u : σ} {p : Path} {bytes : List UInt8} {fault : Fault}

theorem enact_writeAtomic_of_unwritten
    (hw : enact s (Access.write p.draft bytes) = (.error fault, t)) :
    enact s (writeAtomic p bytes) = (.error fault, t) :=
  enact_bind_of_error hw _

theorem enact_writeAtomic_of_moved
    (hw : enact s (Access.write p.draft bytes) = (.ok (), t))
    (hm : enact t (Access.rename p.draft p) = (.ok (), u)) :
    enact s (writeAtomic p bytes) = (.ok (), u) :=
  (enact_bind_of_ok hw _).trans (enact_tryCatch_of_ok hm _)

/-- What cannot be moved is removed, and it does not matter whether that fails too. -/
theorem enact_writeAtomic_of_unmoved
    (hw : enact s (Access.write p.draft bytes) = (.ok (), t))
    (hm : enact t (Access.rename p.draft p) = (.error fault, u)) :
    enact s (writeAtomic p bytes) = (.error fault, (enact u (Access.remove p.draft)).2) := by
  refine (enact_bind_of_ok hw _).trans ((enact_tryCatch_of_error hm _).trans ?_)
  rcases hr : enact u (Access.remove p.draft) with ⟨r, w⟩
  cases r with
  | ok _ => exact enact_bind_of_ok (enact_tryCatch_of_ok hr _) _
  | error _ => exact enact_bind_of_ok (enact_tryCatch_of_error hr _) _

end Steps

namespace Volume
variable {v w : Volume} {p : Path} {bytes : List UInt8}

private theorem isNamed_iff {t : Target} : t.isNamed = true ↔ Path.IsName t.name := by
  simp [Target.isNamed, Path.IsName]

private theorem isDirectoryAt_iff {place : Place} :
    v.isDirectoryAt place = true ↔ v.get? place = some .directory := by
  simp [isDirectoryAt]

/-- Whether a target can become a file: it is named, and no directory stands there. -/
structure Free (v : Volume) (t : Target) : Prop where
  slashed : t.slashed = false
  name : Path.IsName t.name
  get? : v.get? t.place ≠ some .directory

private theorem free_iff {t : Target} : v.Free t ↔
    t.slashed = false ∧ t.isNamed = true ∧ v.isDirectoryAt t.place = false := by
  rw [← Bool.not_eq_true (v.isDirectoryAt t.place), isDirectoryAt_iff, isNamed_iff]
  exact ⟨fun h => ⟨h.slashed, h.name, h.get?⟩, fun ⟨hs, hn, hd⟩ => ⟨hs, hn, hd⟩⟩

theorem Target.place_ne_nil (t : Target) : t.place ≠ [] := List.cons_ne_nil _ _

theorem write_eq_ok_iff : v.write p bytes = .ok w ↔
    ∃ t, v.target p = .ok t ∧ v.Free t ∧ w = v.set t.place (.file bytes) := by
  rw [write, bind_eq_ok_iff]
  refine exists_congr fun t => and_congr_right fun _ => ?_
  by_cases h : (t.slashed || !t.isNamed || v.isDirectoryAt t.place) = true
  · rw [if_pos h]
    have hf : ¬v.Free t := fun hf => by
      obtain ⟨hs, hn, hd⟩ := free_iff.1 hf
      simp [hs, hn, hd] at h
    exact ⟨(nomatch ·), fun hr => absurd hr.1 hf⟩
  · rw [if_neg h]
    have hf : v.Free t := by
      simp only [Bool.or_eq_true, Bool.not_eq_true', not_or, Bool.not_eq_false,
        Bool.not_eq_true] at h
      exact free_iff.2 ⟨h.1.1, h.1.2, h.2⟩
    exact ⟨fun hr => ⟨hf, (Except.ok.inj hr).symm⟩, fun hr => congrArg Except.ok hr.2.symm⟩

private theorem rename_eq_ok_iff {old new : Path} : v.rename old new = .ok w ↔
    ∃ t g bytes, v.target old = .ok t ∧ v.target new = .ok g ∧ v.Free t ∧ v.Free g ∧
      v.get? t.place = some (.file bytes) ∧ w = (v.erase t.place).set g.place (.file bytes) := by
  rw [rename, bind_eq_ok_iff]
  constructor
  · rintro ⟨t, ht, h⟩
    obtain ⟨g, hg, h⟩ := bind_eq_ok_iff.1 h
    by_cases hn : (!t.isNamed || !g.isNamed) = true
    · rw [if_pos hn] at h
      cases h
    · rw [if_neg hn] at h
      simp only [Bool.or_eq_true, Bool.not_eq_true', not_or, Bool.not_eq_false] at hn
      cases hb : v.get? t.place with
      | none =>
        rw [hb] at h
        cases h
      | some entry =>
        rw [hb] at h
        cases entry with
        | directory => cases h
        | file bytes =>
          dsimp only at h
          split at h
          · cases h
          · next hs =>
            split at h
            · cases h
            · next hd =>
              simp only [Bool.or_eq_true, not_or, Bool.not_eq_true] at hs hd
              have hfile : v.isDirectoryAt t.place = false := by simp [isDirectoryAt, hb]
              exact ⟨t, g, bytes, ht, hg, free_iff.2 ⟨hs.1, hn.1, hfile⟩,
                free_iff.2 ⟨hs.2, hn.2, hd⟩, hb, (Except.ok.inj h).symm⟩
  · rintro ⟨t, g, bytes, ht, hg, hft, hfg, hb, rfl⟩
    obtain ⟨hts, htn, -⟩ := free_iff.1 hft
    obtain ⟨hgs, hgn, hgd⟩ := free_iff.1 hfg
    refine ⟨t, ht, bind_eq_ok_iff.2 ⟨g, hg, ?_⟩⟩
    simp [hts, htn, hgs, hgn, hgd, hb, pure, Except.pure]

private theorem remove_eq_ok_iff : v.remove p = .ok w ↔
    ∃ place bytes, v.locate p = .ok place ∧ v.get? place = some (.file bytes) ∧
      w = v.erase place := by
  rw [remove, bind_eq_ok_iff]
  constructor
  · rintro ⟨⟨place, entry⟩, hf, h⟩
    cases entry with
    | directory => cases h
    | file bytes =>
      obtain ⟨hl, hb⟩ := find_eq_ok_iff.1 hf
      exact ⟨place, bytes, hl, hb, (Except.ok.inj h).symm⟩
  · rintro ⟨place, bytes, hl, hb, rfl⟩
    exact ⟨_, find_eq_ok_iff.2 ⟨hl, hb⟩, rfl⟩

theorem enact_change (f : Volume → Except Fault Volume) :
    enact v (change f) = match f v with
      | .ok w => (.ok (), w)
      | .error fault => (.error fault, v) := by
  unfold enact change
  show (match f v with | .ok _ => _ | .error _ => _) = _
  cases f v <;> rfl

/-- How a file is written beside its place and moved there, in terms of the operations. -/
theorem enact_writeAtomic (v : Volume) (p : Path) (bytes : List UInt8) :
    enact v (writeAtomic p bytes) =
      match v.write p.draft bytes with
      | .error fault => (.error fault, v)
      | .ok written =>
        match written.rename p.draft p with
        | .ok moved => (.ok (), moved)
        | .error fault =>
          match written.remove p.draft with
          | .ok removed => (.error fault, removed)
          | .error _ => (.error fault, written) := by
  have hw : enact v (Access.write p.draft bytes) = _ := enact_change _
  have hm (w : Volume) : enact w (Access.rename p.draft p) = _ := enact_change _
  have hr (w : Volume) : enact w (Access.remove p.draft) = _ := enact_change _
  cases h : v.write p.draft bytes with
  | error fault => exact enact_writeAtomic_of_unwritten (by rw [hw, h])
  | ok written =>
    rw [h] at hw
    dsimp only at hw ⊢
    cases h' : written.rename p.draft p with
    | ok moved => exact enact_writeAtomic_of_moved hw (by rw [hm, h'])
    | error fault =>
      refine (enact_writeAtomic_of_unmoved (u := written) hw (by rw [hm, h'])).trans ?_
      rw [hr]
      cases written.remove p.draft <;> rfl

section Directories
variable {place : Place}

theorem sameDirectories_set (hp : place ≠ []) (hd : v.get? place ≠ some .directory) :
    SameDirectories v (v.set place (.file bytes)) where
  here := rfl
  get? q := by
    rw [get?_set hp]
    split
    · next h => simp [h, hd]
    · rfl

theorem sameDirectories_erase (hp : place ≠ []) (hd : v.get? place ≠ some .directory) :
    SameDirectories v (v.erase place) where
  here := rfl
  get? q := by
    rw [get?_erase hp]
    split
    · next h => simp [h, hd]
    · rfl

theorem Free.of_sameDirectories (h : SameDirectories v w) {t : Target} (hf : v.Free t) : w.Free t :=
  ⟨hf.slashed, hf.name, fun hd => hf.get? ((h.get? _).2 hd)⟩

end Directories

/-- The file beside a path can be removed once it is written. -/
theorem remove_written {t : Target} (ht : v.target p.draft = .ok t) (hf : v.Free t) :
    (v.set t.place (.file bytes)).remove p.draft =
      .ok ((v.set t.place (.file bytes)).erase t.place) := by
  obtain ⟨before, name, hp⟩ := p.exists_pieces
  have hsame : SameDirectories v (v.set t.place (.file bytes)) :=
    sameDirectories_set t.place_ne_nil hf.get?
  have hl : (v.set t.place (.file bytes)).locate p.draft = .ok t.place :=
    (locate_eq_target (Path.pieces_draft hp) (Path.isName_draft name)).2
      ⟨t, hsame.target_of ht, rfl⟩
  have hb : (v.set t.place (.file bytes)).get? t.place = some (.file bytes) := by
    rw [get?_set t.place_ne_nil, if_pos rfl]
  exact remove_eq_ok_iff.2 ⟨t.place, bytes, hl, hb, rfl⟩

/-- What becomes of a file that is written beside its place and moved there. -/
inductive Saves (v : Volume) (p : Path) (bytes : List UInt8) :
    Except Fault Unit → Volume → Prop where
  /-- It cannot be written. -/
  | unwritten {fault : Fault} (h : v.write p.draft bytes = .error fault) :
    Saves v p bytes (.error fault) v
  /-- It is written, but cannot be moved and is removed. -/
  | unmoved {fault : Fault} {t : Target} (ht : v.target p.draft = .ok t) (hf : v.Free t)
    (hg : ∀ g, v.target p = .ok g → ¬v.Free g) :
    Saves v p bytes (.error fault) ((v.set t.place (.file bytes)).erase t.place)
  | moved {t g : Target} (ht : v.target p.draft = .ok t) (hf : v.Free t)
    (hg : v.target p = .ok g) (hfg : v.Free g) :
    Saves v p bytes (.ok ())
      (((v.set t.place (.file bytes)).erase t.place).set g.place (.file bytes))

theorem saves_writeAtomic (v : Volume) (p : Path) (bytes : List UInt8) :
    Saves v p bytes (enact v (writeAtomic p bytes)).1 (enact v (writeAtomic p bytes)).2 := by
  rw [enact_writeAtomic]
  cases hw : v.write p.draft bytes with
  | error fault => exact .unwritten hw
  | ok written =>
    obtain ⟨t, ht, hf, rfl⟩ := write_eq_ok_iff.1 hw
    have hsame : SameDirectories v (v.set t.place (.file bytes)) :=
      sameDirectories_set t.place_ne_nil hf.get?
    have htw := hsame.target_of ht
    have hb : (v.set t.place (.file bytes)).get? t.place = some (.file bytes) := by
      rw [get?_set t.place_ne_nil, if_pos rfl]
    dsimp only
    cases hr : (v.set t.place (.file bytes)).rename p.draft p with
    | ok moved =>
      obtain ⟨t', g, bytes', ht', hg, -, hfg, hb', rfl⟩ := rename_eq_ok_iff.1 hr
      obtain rfl := Except.ok.inj (htw.symm.trans ht')
      obtain rfl := Entry.file.inj (Option.some.inj (hb.symm.trans hb'))
      exact .moved ht hf (hsame.symm.target_of hg) (hfg.of_sameDirectories hsame.symm)
    | error fault =>
      rw [remove_written ht hf]
      refine .unmoved ht hf fun g hg hfg => ?_
      have hm := rename_eq_ok_iff.2 ⟨t, g, bytes, htw, hsame.target_of hg,
        hf.of_sameDirectories hsame, hfg.of_sameDirectories hsame, hb, rfl⟩
      rw [hr] at hm
      cases hm

theorem saves_of_enact {r : Except Fault Unit} (h : enact v (writeAtomic p bytes) = (r, w)) :
    Saves v p bytes r w := by
  have hs := saves_writeAtomic v p bytes
  rwa [h] at hs

/-- The file beside a free place has a name of its own. -/
theorem target_draft {t g : Target} (ht : v.target p.draft = .ok t) (hg : v.target p = .ok g)
    (hf : v.Free g) : t = ⟨g.directory, g.name ++ ".tmp", false⟩ := by
  obtain ⟨before, hp, hne⟩ := pieces_of_target hg hf.slashed
  exact target_of_sibling hp (Path.pieces_draft hp) hne (Path.isName_draft g.name).ne_empty hg ht

private theorem draft_place_ne {t g : Target} (ht : v.target p.draft = .ok t)
    (hg : v.target p = .ok g) (hf : v.Free g) : g.place ≠ t.place := by
  rw [target_draft ht hg hf]
  intro h
  exact Path.name_ne_draft g.name (List.cons.inj h).1

namespace Saves
variable {r : Except Fault Unit}

theorem sameDirectories (h : Saves v p bytes r w) : SameDirectories v w := by
  have drafted {t : Target} (hf : v.Free t) :
      SameDirectories v ((v.set t.place (.file bytes)).erase t.place) := by
    refine (sameDirectories_set t.place_ne_nil hf.get?).trans
      (sameDirectories_erase t.place_ne_nil ?_)
    simp [get?_set t.place_ne_nil]
  cases h with
  | unwritten h => exact .refl v
  | unmoved ht hf hg => exact drafted hf
  | moved ht hf hg hfg =>
    exact (drafted hf).trans
      (sameDirectories_set (Target.place_ne_nil _) (hfg.of_sameDirectories (drafted hf)).get?)

/-- Where a place is neither that of the path nor that of the file beside, nothing changes. -/
theorem get?_eq (h : Saves v p bytes r w) {place : Place}
    (hd : ∀ t, v.target p.draft = .ok t → place ≠ t.place)
    (hg : ∀ g, v.target p = .ok g → place ≠ g.place) : w.get? place = v.get? place := by
  cases h with
  | unwritten h => rfl
  | unmoved ht hf hg' =>
    rw [get?_erase (Target.place_ne_nil _), if_neg (hd _ ht), get?_set (Target.place_ne_nil _),
      if_neg (hd _ ht)]
  | moved ht hf hg' hfg =>
    rw [get?_set (Target.place_ne_nil _), if_neg (hg _ hg'), get?_erase (Target.place_ne_nil _),
      if_neg (hd _ ht), get?_set (Target.place_ne_nil _), if_neg (hd _ ht)]

/-- A success leaves the bytes at the path and no file beside. -/
theorem get?_of_ok (h : Saves v p bytes (.ok ()) w) : ∃ t g, v.target p.draft = .ok t ∧ v.Free t ∧
    v.target p = .ok g ∧ v.Free g ∧ w.get? g.place = some (.file bytes) ∧
      w.get? t.place = none := by
  cases h with
  | @moved t g ht hf hg hfg =>
    refine ⟨t, g, ht, hf, hg, hfg, ?_, ?_⟩
    · rw [get?_set g.place_ne_nil, if_pos rfl]
    · rw [get?_set g.place_ne_nil, if_neg (draft_place_ne ht hg hfg).symm,
        get?_erase t.place_ne_nil, if_pos rfl]

end Saves

/-- A path that has a free place leads there. -/
theorem locate_of_free {g : Target} (hg : v.target p = .ok g) (hf : v.Free g) :
    v.locate p = .ok g.place := by
  obtain ⟨before, hp, -⟩ := pieces_of_target hg hf.slashed
  exact (locate_eq_target hp hf.name).2 ⟨g, hg, rfl⟩

theorem Saves.read_eq (h : Saves v p bytes (.ok ()) w) : w.read p = .ok bytes := by
  obtain ⟨t, g, ht, hf, hg, hfg, hb, -⟩ := h.get?_of_ok
  exact read_eq_ok_iff.2 ⟨g.place, h.sameDirectories.locate_of (locate_of_free hg hfg), hb⟩

end Volume
end StackLowering.Disk
