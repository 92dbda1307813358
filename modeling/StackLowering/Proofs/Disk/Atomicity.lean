import StackLowering.Proofs.Disk.Writing
/-! Writing a file is all or nothing: the path comes to hold all bytes, or nothing has changed but
the file beside it. That is so on a volume, and where each of the steps may also be interrupted. -/
namespace StackLowering.Disk

/-- Why a change fails that the volume itself would take: a full disk, say. -/
structure Interruption where
  fault : Fault
  /-- How many bytes of a file are written by then, if it is opened at all. -/
  progress : Option Nat

/-- A file system on which every change may be interrupted. Reading may not. -/
structure Unsteady (σ : Type) where
  system : σ
  /-- What interrupts the changes to come, in their order. Those behind the last go through. -/
  interruptions : List (Option Interruption)

namespace Unsteady
variable {σ : Type}

def undisturbed {α : Type} : StateM σ α → StateM (Unsteady σ) α :=
  within Unsteady.system fun u s => { u with system := s }

def change (whole : ExceptT Fault (StateM σ) Unit) (broken : Interruption → σ → σ) :
    ExceptT Fault (StateM (Unsteady σ)) Unit := fun u =>
  let later := u.interruptions.tail
  match u.interruptions.head?.join with
  | some i => (.error i.fault, ⟨broken i u.system, later⟩)
  | none => ((enact u.system whole).1, ⟨(enact u.system whole).2, later⟩)

private theorem keeps_undisturbed {α : Type} {x : StateM σ α} (h : Keeps x) :
    Keeps (undisturbed x) := fun u =>
  congrArg (fun s => { u with system := s }) (h u.system)

section
variable {u w : Unsteady σ} {whole : ExceptT Fault (StateM σ) Unit} {broken : Interruption → σ → σ}

private theorem change_cases (u : Unsteady σ) (whole : ExceptT Fault (StateM σ) Unit)
    (broken : Interruption → σ → σ) :
    (∃ i : Interruption, (enact u (change whole broken)).1 = .error i.fault ∧
      (enact u (change whole broken)).2.system = broken i u.system) ∨
    ((enact u (change whole broken)).1, (enact u (change whole broken)).2.system) =
      enact u.system whole := by
  have h : enact u (change whole broken) = change whole broken u := rfl
  rw [h, change]
  split
  · next i _ => exact .inl ⟨i, rfl, rfl⟩
  · exact .inr rfl

private theorem whole_of_change (h : enact u (change whole broken) = (.ok (), w)) :
    enact u.system whole = (.ok (), w.system) := by
  rcases change_cases u whole broken with ⟨i, hi, -⟩ | he
  · rw [h] at hi
    cases hi
  · rw [← he, h]

private theorem broken_of_change {fault : Fault}
    (h : enact u (change whole broken) = (.error fault, w)) :
    enact u.system whole = (.error fault, w.system) ∨ ∃ i, w.system = broken i u.system := by
  rcases change_cases u whole broken with ⟨i, -, hi⟩ | he
  · rw [h] at hi
    exact .inr ⟨i, hi⟩
  · rw [← he, h]
    exact .inl rfl

/-- A part of the system is spared if the change spares it, interrupted or not. -/
private theorem part_change {α : Type} {part : σ → α} (u : Unsteady σ)
    (hw : part (enact u.system whole).2 = part u.system)
    (hb : ∀ i, part (broken i u.system) = part u.system) :
    part (enact u (change whole broken)).2.system = part u.system := by
  rcases change_cases u whole broken with ⟨i, -, hi⟩ | he
  · rw [hi, hb]
  · rw [← he] at hw
    exact hw

end

variable [Access (StateM σ)]

/-- What an interrupted write leaves: the file as it was, or the first of the bytes in it. -/
def begun (p : Path) (bytes : List UInt8) (i : Interruption) (s : σ) : σ :=
  match i.progress with
  | none => s
  | some n => (enact s (Access.write p (bytes.take n))).2

instance : Access (StateM (Unsteady σ)) where
  isDirectory p := undisturbed (Access.isDirectory p)
  isFile l := undisturbed (Access.isFile l)
  read l := ExceptT.mk (undisturbed (Access.read l).run)
  names p := ExceptT.mk (undisturbed (Access.names p).run)
  ownName? p := undisturbed (Access.ownName? p)
  write p bytes := change (Access.write p bytes) (begun p bytes)
  rename old new := change (Access.rename old new) fun _ s => s
  remove p := change (Access.remove p) fun _ s => s

instance [LawfulAccess σ] : LawfulAccess (Unsteady σ) where
  isDirectory p := keeps_undisturbed (LawfulAccess.isDirectory p)
  isFile l := keeps_undisturbed (LawfulAccess.isFile l)
  read l := keeps_undisturbed (LawfulAccess.read l)
  names p := keeps_undisturbed (LawfulAccess.names p)
  ownName? p := keeps_undisturbed (LawfulAccess.ownName? p)

end Unsteady

namespace Volume
variable {v w u : Volume} {p : Path} {bytes : List UInt8} {place : Place}

/-- Whether nothing changes but files at places that some paths lead to. -/
structure SameBut (v w : Volume) (paths : List Path) : Prop extends SameDirectories v w where
  entry : ∀ place, (∀ p ∈ paths, v.locate p ≠ .ok place) → w.get? place = v.get? place

private theorem SameBut.refl (v : Volume) (paths : List Path) : SameBut v v paths :=
  ⟨.refl v, fun _ _ => rfl⟩

/-- The file beside a path is elsewhere, even where the path ends in a slash or in dots. -/
private theorem place_ne_of_locate_draft {place' : Place} (h : v.locate p = .ok place)
    (hd : v.locate p.draft = .ok place') : place ≠ place' := by
  obtain ⟨before, name, hp⟩ := p.exists_pieces
  obtain ⟨directory, hs⟩ := v.spelled_sibling hp
  have hplace : step directory name = place := (hs _ _ hp).symm.trans (spelled_eq h)
  have hplace' : (name ++ ".tmp") :: directory = place' := by
    rw [← step_of_isName (Path.isName_draft name), ← hs _ _ (Path.pieces_draft hp), spelled_eq hd]
  rw [← hplace, ← hplace']
  exact fun he => Path.name_ne_draft name (eq_of_step_eq_cons he)

/-- Where only the file beside a path changes, the path leads to what it did. -/
private theorem SameBut.find_eq_ok_iff (h : SameBut v w [p.draft]) {found : Place × Entry} :
    w.find p = .ok found ↔ v.find p = .ok found := by
  obtain ⟨place, entry⟩ := found
  have hd := h.toSameDirectories
  have kept (hl : v.locate p = .ok place) : w.get? place = v.get? place :=
    h.entry place fun q hq hql =>
      place_ne_of_locate_draft hl (List.mem_singleton.1 hq ▸ hql) rfl
  rw [Volume.find_eq_ok_iff, Volume.find_eq_ok_iff]
  constructor
  · rintro ⟨hl, he⟩
    exact ⟨hd.symm.locate_of hl, kept (hd.symm.locate_of hl) ▸ he⟩
  · rintro ⟨hl, he⟩
    exact ⟨hd.locate_of hl, (kept hl).trans he⟩

private theorem find_eq_notFound (hl : v.locate p = .ok place) (hn : v.get? place = none) :
    v.find p = .error .notFound := by
  rw [find, hl]
  dsimp only [bind, Except.bind]
  rw [hn]
  rfl

private theorem sameBut_of_write (h : v.write p bytes = .ok w) : SameBut v w [p] := by
  obtain ⟨t, ht, hf, rfl⟩ := write_eq_ok_iff.1 h
  refine ⟨sameDirectories_set t.place_ne_nil hf.get?, fun place hp => ?_⟩
  rw [get?_set t.place_ne_nil, if_neg]
  rintro rfl
  exact hp p (List.mem_singleton_self p) (locate_of_free ht hf)

/-- A file that is written beside a path and removed again leaves all else as it was. -/
private theorem exists_remove_of_write (h : v.write p.draft bytes = .ok w) :
    ∃ u, w.remove p.draft = .ok u ∧ u.find p.draft = .error .notFound ∧ SameBut v u [p.draft] := by
  obtain ⟨t, ht, hf, rfl⟩ := write_eq_ok_iff.1 h
  have hl := locate_of_free ht hf
  have hd : SameDirectories v ((v.set t.place (.file bytes)).erase t.place) := by
    refine (sameDirectories_set t.place_ne_nil hf.get?).trans
      (sameDirectories_erase t.place_ne_nil ?_)
    simp [get?_set t.place_ne_nil]
  refine ⟨_, remove_written ht hf, find_eq_notFound (hd.locate_of hl) ?_, hd, fun place hp => ?_⟩
  · rw [get?_erase t.place_ne_nil, if_pos rfl]
  · have hne : place ≠ t.place := by
      rintro rfl
      exact hp _ (List.mem_singleton_self _) hl
    rw [get?_erase t.place_ne_nil, if_neg hne, get?_set t.place_ne_nil, if_neg hne]

private theorem saves_of_moved (hw : v.write p.draft bytes = .ok u)
    (hm : u.rename p.draft p = .ok w) : Saves v p bytes (.ok ()) w := by
  have h := saves_writeAtomic v p bytes
  rw [enact_writeAtomic, hw] at h
  dsimp only at h
  rw [hm] at h
  exact h

private theorem Saves.find_draft (h : Saves v p bytes (.ok ()) w) :
    w.find p.draft = .error .notFound := by
  obtain ⟨t, g, ht, hf, -, -, -, hn⟩ := h.get?_of_ok
  exact find_eq_notFound (h.sameDirectories.locate_of (locate_of_free ht hf)) hn

private theorem Saves.sameBut (h : Saves v p bytes (.ok ()) w) : SameBut v w [p, p.draft] := by
  obtain ⟨t, g, ht, hf, hg, hfg, -⟩ := h.get?_of_ok
  refine ⟨h.sameDirectories, fun place hp => h.get?_eq ?_ ?_⟩
  · rintro t' ht' rfl
    obtain rfl := Except.ok.inj (ht.symm.trans ht')
    exact hp p.draft (by simp) (locate_of_free ht hf)
  · rintro g' hg' rfl
    obtain rfl := Except.ok.inj (hg.symm.trans hg')
    exact hp p (by simp) (locate_of_free hg hfg)

private theorem eq_ok_of_change {f : Volume → Except Fault Volume}
    (h : enact v (change f) = (.ok (), w)) : f v = .ok w := by
  replace h : enact v (change f) = (.ok (), w) := h
  rw [enact_change] at h
  split at h
  · next u hu =>
    cases h
    exact hu
  · cases h

private theorem eq_of_change_error {f : Volume → Except Fault Volume} {fault : Fault}
    (h : enact v (change f) = (.error fault, w)) : w = v := by
  replace h : enact v (change f) = (.error fault, w) := h
  rw [enact_change] at h
  split at h
  · cases h
  · cases h
    rfl

/-- A file can be written just if its path and the one beside are free. -/
private theorem enact_writeAtomic_eq_ok_iff : (enact v (writeAtomic p bytes)).1 = .ok () ↔
    (∃ t, v.target p.draft = .ok t ∧ v.Free t) ∧ ∃ g, v.target p = .ok g ∧ v.Free g := by
  have h := saves_writeAtomic v p bytes
  generalize (enact v (writeAtomic p bytes)).1 = r at h ⊢
  generalize (enact v (writeAtomic p bytes)).2 = w at h
  cases h with
  | unwritten hw =>
    refine ⟨(nomatch ·), fun ⟨⟨t, ht, hf⟩, _⟩ => ?_⟩
    rw [write_eq_ok_iff.2 ⟨t, ht, hf, rfl⟩] at hw
    cases hw
  | unmoved _ _ hno => exact ⟨(nomatch ·), fun ⟨_, g, hg, hf⟩ => absurd hf (hno g hg)⟩
  | moved ht hf hg hfg => exact ⟨fun _ => ⟨⟨_, ht, hf⟩, _, hg, hfg⟩, fun _ => rfl⟩

end Volume

section
variable {σ : Type} [Access (StateM σ)] {volume : σ → Volume} {s : σ} {p : Path}
  {bytes : List UInt8}

inductive Course (s : σ) (p : Path) (bytes : List UInt8) : Except Fault Unit × σ → Prop where
  | unwritten {t : σ} {fault : Fault}
    (hw : enact s (Access.write p.draft bytes) = (.error fault, t)) :
    Course s p bytes (.error fault, t)
  | unmoved {t u : σ} {fault : Fault} (hw : enact s (Access.write p.draft bytes) = (.ok (), t))
    (hm : enact t (Access.rename p.draft p) = (.error fault, u)) :
    Course s p bytes (.error fault, (enact u (Access.remove p.draft)).2)
  | moved {t u : σ} (hw : enact s (Access.write p.draft bytes) = (.ok (), t))
    (hm : enact t (Access.rename p.draft p) = (.ok (), u)) : Course s p bytes (.ok (), u)

theorem course_writeAtomic (s : σ) (p : Path) (bytes : List UInt8) :
    Course s p bytes (enact s (writeAtomic p bytes)) := by
  rcases hw : enact s (Access.write p.draft bytes) with ⟨_ | _, t⟩
  · rw [enact_writeAtomic_of_unwritten hw]
    exact .unwritten hw
  · rcases hm : enact t (Access.rename p.draft p) with ⟨_ | _, u⟩
    · rw [enact_writeAtomic_of_unmoved hw hm]
      exact .unmoved hw hm
    · rw [enact_writeAtomic_of_moved hw hm]
      exact .moved hw hm

/-- Whether changes of a state are changes of the volume in it, unless they fail for a reason of
their own. A write may have put the first of the bytes into the file by then. -/
structure Backed (volume : σ → Volume) : Prop where
  written {s t : σ} {p : Path} {bytes : List UInt8}
    (h : enact s (Access.write p bytes) = (.ok (), t)) :
    (volume s).write p bytes = .ok (volume t)
  unwritten {s t : σ} {p : Path} {bytes : List UInt8} {fault : Fault}
    (h : enact s (Access.write p bytes) = (.error fault, t)) :
    volume t = volume s ∨ ∃ part, part <+: bytes ∧ (volume s).write p part = .ok (volume t)
  moved {s t : σ} {old new : Path} (h : enact s (Access.rename old new) = (.ok (), t)) :
    (volume s).rename old new = .ok (volume t)
  unmoved {s t : σ} {old new : Path} {fault : Fault}
    (h : enact s (Access.rename old new) = (.error fault, t)) : volume t = volume s
  removed {s t : σ} {p : Path} (h : enact s (Access.remove p) = (.ok (), t)) :
    (volume s).remove p = .ok (volume t)
  unremoved {s t : σ} {p : Path} {fault : Fault}
    (h : enact s (Access.remove p) = (.error fault, t)) : volume t = volume s

/-- Whether writing a file, from a state with a volume in it, is all or nothing. -/
structure AllOrNothing (volume : σ → Volume) (s : σ) (p : Path) (bytes : List UInt8) : Prop where
  /-- After a success the path holds the bytes, and there is no file beside. -/
  saved {t : σ} (h : enact s (writeAtomic p bytes) = (.ok (), t)) :
    (volume t).read p = .ok bytes ∧ (volume t).find p.draft = .error .notFound ∧
      (volume s).SameBut (volume t) [p, p.draft]
  /-- After a failure the path leads to what it did, and nothing has changed but the file beside. -/
  failed {t : σ} {fault : Fault} (h : enact s (writeAtomic p bytes) = (.error fault, t)) :
    (∀ found, (volume t).find p = .ok found ↔ (volume s).find p = .ok found) ∧
      (volume s).SameBut (volume t) [p.draft]
  /-- It fails if the file beside cannot be written. -/
  unwritten {t : σ} {fault : Fault}
    (hw : enact s (Access.write p.draft bytes) = (.error fault, t)) :
    (enact s (writeAtomic p bytes)).1 = .error fault
  /-- It fails if that file cannot be moved, and leaves none there if it can be removed. -/
  unmoved {t u : σ} {fault : Fault} (hw : enact s (Access.write p.draft bytes) = (.ok (), t))
    (hm : enact t (Access.rename p.draft p) = (.error fault, u)) :
    (enact s (writeAtomic p bytes)).1 = .error fault ∧
      ((enact u (Access.remove p.draft)).1 = .ok () →
        (volume (enact s (writeAtomic p bytes)).2).find p.draft = .error .notFound)
  /-- It succeeds otherwise. -/
  moved {t u : σ} (hw : enact s (Access.write p.draft bytes) = (.ok (), t))
    (hm : enact t (Access.rename p.draft p) = (.ok (), u)) :
    (enact s (writeAtomic p bytes)).1 = .ok ()

namespace Backed
variable {t u : σ} {fault : Fault}

private theorem sameBut_of_unwritten (h : Backed volume)
    (hw : enact s (Access.write p.draft bytes) = (.error fault, t)) :
    (volume s).SameBut (volume t) [p.draft] := by
  rcases h.unwritten hw with he | ⟨part, -, hp⟩
  · rw [he]
    exact .refl _ _
  · exact Volume.sameBut_of_write hp

/-- The file beside is removed again, or stays with all of the bytes. -/
private theorem sameBut_of_unmoved (h : Backed volume)
    (hw : enact s (Access.write p.draft bytes) = (.ok (), t))
    (hm : enact t (Access.rename p.draft p) = (.error fault, u)) :
    ((enact u (Access.remove p.draft)).1 = .ok () →
      (volume (enact u (Access.remove p.draft)).2).find p.draft = .error .notFound) ∧
      (volume s).SameBut (volume (enact u (Access.remove p.draft)).2) [p.draft] := by
  obtain ⟨v, hv, hf, hs⟩ := Volume.exists_remove_of_write (h.written hw)
  rcases hr : enact u (Access.remove p.draft) with ⟨_ | _, w⟩
  · dsimp only
    rw [h.unremoved hr, h.unmoved hm]
    exact ⟨(nomatch ·), Volume.sameBut_of_write (h.written hw)⟩
  · have hw := h.removed hr
    rw [h.unmoved hm, hv] at hw
    obtain rfl := Except.ok.inj hw
    exact ⟨fun _ => hf, hs⟩

/-- A success is a success on the volume. -/
theorem saves (h : Backed volume) (hs : enact s (writeAtomic p bytes) = (.ok (), t)) :
    (volume s).Saves p bytes (.ok ()) (volume t) := by
  have hc := course_writeAtomic s p bytes
  rw [hs] at hc
  cases hc with
  | moved hw hm => exact Volume.saves_of_moved (h.written hw) (h.moved hm)

theorem sameBut_of_failed (h : Backed volume)
    (hf : enact s (writeAtomic p bytes) = (.error fault, t)) :
    (volume s).SameBut (volume t) [p.draft] := by
  have hc := course_writeAtomic s p bytes
  rw [hf] at hc
  cases hc with
  | unwritten hw => exact h.sameBut_of_unwritten hw
  | unmoved hw hm => exact (h.sameBut_of_unmoved hw hm).2

/-- Only what single changes do to the volume matters. -/
private theorem allOrNothing (h : Backed volume) (s : σ) (p : Path) (bytes : List UInt8) :
    AllOrNothing volume s p bytes where
  saved hs :=
    have hsaves := h.saves hs
    ⟨hsaves.read_eq, hsaves.find_draft, hsaves.sameBut⟩
  failed hf :=
    have hs := h.sameBut_of_failed hf
    ⟨fun _ => hs.find_eq_ok_iff, hs⟩
  unwritten hw := by rw [enact_writeAtomic_of_unwritten hw]
  unmoved hw hm := by
    rw [enact_writeAtomic_of_unmoved hw hm]
    exact ⟨rfl, (h.sameBut_of_unmoved hw hm).1⟩
  moved hw hm := by rw [enact_writeAtomic_of_moved hw hm]

end Backed
end

private theorem Volume.backed : Backed (id : Volume → Volume) where
  written h := Volume.eq_ok_of_change h
  unwritten h := .inl (Volume.eq_of_change_error h)
  moved h := Volume.eq_ok_of_change h
  unmoved h := Volume.eq_of_change_error h
  removed h := Volume.eq_ok_of_change h
  unremoved h := Volume.eq_of_change_error h

/-- Interruptions leave no more of a change than its system may. -/
theorem Backed.unsteady {σ : Type} [Access (StateM σ)] {volume : σ → Volume}
    (h : Backed volume) : Backed fun u : Unsteady σ => volume u.system where
  written hw := h.written (Unsteady.whole_of_change hw)
  unwritten {u w p bytes fault} hw := by
    -- The system has refused the write itself, or something has come of it.
    rcases Unsteady.broken_of_change hw with he | ⟨i, he⟩
    · exact h.unwritten he
    · rw [he, Unsteady.begun]
      split
      · exact .inl rfl
      · next n _ =>
        rcases hn : enact u.system (Access.write p (bytes.take n)) with ⟨_ | _, s⟩
        · rcases h.unwritten hn with hs | ⟨part, hp, hs⟩
          · exact .inl hs
          · exact .inr ⟨part, hp.trans (List.take_prefix n bytes), hs⟩
        · exact .inr ⟨_, List.take_prefix n bytes, h.written hn⟩
  moved hm := h.moved (Unsteady.whole_of_change hm)
  unmoved hm := (Unsteady.broken_of_change hm).elim h.unmoved fun ⟨_, he⟩ => congrArg volume he
  removed hr := h.removed (Unsteady.whole_of_change hr)
  unremoved hr := (Unsteady.broken_of_change hr).elim h.unremoved fun ⟨_, he⟩ =>
    congrArg volume he

namespace Tree
variable {t t' : Tree} {p : Path} {bytes : List UInt8}

private theorem enact_inner {ε α : Type} {x : ExceptT ε (StateM Volume) α} {r : Except ε α}
    (h : enact t (ExceptT.mk (inner x.run)) = (r, t')) :
    enact t.volume x = (r, t'.volume) ∧ t'.strays = t.strays := by
  cases h
  exact ⟨rfl, rfl⟩

theorem backed : Backed Tree.volume where
  written h := Volume.backed.written (enact_inner h).1
  unwritten h := Volume.backed.unwritten (enact_inner h).1
  moved h := Volume.backed.moved (enact_inner h).1
  unmoved h := Volume.backed.unmoved (enact_inner h).1
  removed h := Volume.backed.removed (enact_inner h).1
  unremoved h := Volume.backed.unremoved (enact_inner h).1

/-- Files with names that are text are written on the volume. -/
theorem enact_writeAtomic {r : Except Fault Unit} (h : enact t (writeAtomic p bytes) = (r, t')) :
    enact t.volume (writeAtomic p bytes) = (r, t'.volume) := by
  have hc := course_writeAtomic t p bytes
  rw [h] at hc
  cases hc with
  | unwritten hw => exact enact_writeAtomic_of_unwritten (enact_inner hw).1
  | unmoved hw hm =>
    rw [enact_writeAtomic_of_unmoved (enact_inner hw).1 (enact_inner hm).1]
    rfl
  | moved hw hm => exact enact_writeAtomic_of_moved (enact_inner hw).1 (enact_inner hm).1

end Tree

/-- Whether changes leave a part of a state as it is. -/
structure Spares {σ α : Type} [Access (StateM σ)] (part : σ → α) : Prop where
  write : ∀ s p bytes, part (enact s (Access.write p bytes)).2 = part s
  rename : ∀ s old new, part (enact s (Access.rename old new)).2 = part s
  remove : ∀ s p, part (enact s (Access.remove p)).2 = part s

namespace Spares
variable {σ α : Type} [Access (StateM σ)] {part : σ → α}

theorem writeAtomic (h : Spares part) {s t : σ} {p : Path} {bytes : List UInt8}
    {r : Except Fault Unit} (hs : enact s (Disk.writeAtomic p bytes) = (r, t)) :
    part t = part s := by
  have written {s t : σ} {r : Except Fault Unit}
      (hw : enact s (Access.write p.draft bytes) = (r, t)) : part t = part s := by
    have hp := h.write s p.draft bytes
    rwa [hw] at hp
  have moved {s t : σ} {r : Except Fault Unit} (hm : enact s (Access.rename p.draft p) = (r, t)) :
      part t = part s := by
    have hp := h.rename s p.draft p
    rwa [hm] at hp
  have hc := course_writeAtomic s p bytes
  rw [hs] at hc
  cases hc with
  | unwritten hw => exact written hw
  | unmoved hw hm => exact (h.remove _ _).trans ((moved hm).trans (written hw))
  | moved hw hm => exact (moved hm).trans (written hw)

theorem unsteady (h : Spares part) : Spares fun u : Unsteady σ => part u.system where
  write u p bytes := by
    refine Unsteady.part_change u (h.write _ p bytes) fun i => ?_
    rw [Unsteady.begun]
    split
    · rfl
    · exact h.write ..
  rename u old new := Unsteady.part_change u (h.rename _ old new) fun _ => rfl
  remove u p := Unsteady.part_change u (h.remove _ p) fun _ => rfl

theorem strays : Spares Tree.strays where
  write _ _ _ := rfl
  rename _ _ _ := rfl
  remove _ _ := rfl

end Spares

/-- On a volume the file beside a path can be removed that could not be moved. -/
private theorem Volume.remove_of_unmoved {v t u : Volume} {p : Path} {bytes : List UInt8}
    {fault : Fault} (hw : enact v (Access.write p.draft bytes) = (.ok (), t))
    (hm : enact t (Access.rename p.draft p) = (.error fault, u)) :
    (enact u (Access.remove p.draft)).1 = .ok () := by
  obtain ⟨w, hr, -⟩ := exists_remove_of_write (eq_ok_of_change hw)
  have hu : enact u (Access.remove p.draft) = _ := enact_change (·.remove p.draft)
  rw [eq_of_change_error hm, hr] at hu
  rw [eq_of_change_error hm, hu]

/-- Writing a file is all or nothing on every volume: a tree of directories and files, without links
and permissions, on which the system never fails by itself. There the file beside the path is gone
after a failure to move it. The rest does not hang on that: it holds as well where any of the steps
may be interrupted, a write after some of its bytes. Without interruption they succeed just where
the path and the one beside it are free for a file. -/
theorem writeAtomic_all_or_nothing (v : Volume) (p : Path) (bytes : List UInt8) :
    AllOrNothing id v p bytes ∧
    (∀ t u fault, enact v (Access.write p.draft bytes) = (.ok (), t) →
      enact t (Access.rename p.draft p) = (.error fault, u) →
      (enact v (writeAtomic p bytes)).2.find p.draft = .error .notFound) ∧
    (∀ interruptions, AllOrNothing Unsteady.system ⟨v, interruptions⟩ p bytes) ∧
    ((enact v (writeAtomic p bytes)).1 = .ok () ↔
      (∃ t, v.target p.draft = .ok t ∧ v.Free t) ∧ ∃ g, v.target p = .ok g ∧ v.Free g) := by
  have h := Volume.backed.allOrNothing v p bytes
  refine ⟨h, fun t u fault hw hm => (h.unmoved hw hm).2 (Volume.remove_of_unmoved hw hm),
    fun interruptions => Volume.backed.unsteady.allOrNothing ⟨v, interruptions⟩ p bytes,
    Volume.enact_writeAtomic_eq_ok_iff⟩

/-- The disk is full after one byte: the path keeps what it held, and the byte stays beside it. -/
example :
    let full : Interruption := ⟨.other "No space left on device (os error 28)", some 1⟩
    let s : Unsteady Volume := ⟨⟨[], [(["P.asm"], .file [1])]⟩, [some full]⟩
    let t := (enact s (writeAtomic ⟨"P.asm"⟩ [2, 3])).2.system
    t.get? ["P.asm"] = some (.file [1]) ∧ t.get? ["P.asm.tmp"] = some (.file [2]) := by
  decide

end StackLowering.Disk
