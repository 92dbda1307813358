import StackLowering.Proofs.Disk.Writing
/-! Writing a file again. Once it is written, the same write succeeds and changes nothing, and stays
so while other places are written. What else there is keeps its entry, and its rank among those
kept. -/
namespace StackLowering.Disk.Volume
variable {v w : Volume} {p : Path} {bytes : List UInt8} {r : Except Fault Unit} {place : Place}

/-- Whether a path holds these bytes, and may be written again, with no file beside in the way. -/
structure Settled (v : Volume) (p : Path) (bytes : List UInt8) : Prop where
  draft : ∃ t, v.target p.draft = .ok t ∧ v.Free t ∧ v.get? t.place = none
  goal : ∃ g, v.target p = .ok g ∧ v.Free g ∧ v.get? g.place = some (.file bytes)

/-- Whether volumes have the same entries at all places, and relative paths start at the same. -/
structure Same (v w : Volume) : Prop where
  here : w.here = v.here
  get? : ∀ place, w.get? place = v.get? place

namespace Same

theorem refl (v : Volume) : Same v v := ⟨rfl, fun _ => rfl⟩

theorem trans {u : Volume} (h : Same u v) (h' : Same v w) : Same u w :=
  ⟨h'.here.trans h.here, fun place => (h'.get? place).trans (h.get? place)⟩

private theorem sameDirectories (h : Same v w) : SameDirectories v w :=
  ⟨h.here.symm, fun place => by rw [h.get?]⟩

end Same

theorem Saves.settled (h : Saves v p bytes (.ok ()) w) : Settled w p bytes := by
  have hs := h.sameDirectories
  obtain ⟨t, g, ht, hf, hg, hfg, hb, hn⟩ := h.get?_of_ok
  exact ⟨⟨t, hs.target_of ht, hf.of_sameDirectories hs, hn⟩,
    ⟨g, hs.target_of hg, hfg.of_sameDirectories hs, hb⟩⟩

namespace Settled

/-- Writing what is settled succeeds and changes nothing. -/
theorem saves (h : Settled v p bytes) (hs : Saves v p bytes r w) : r = .ok () ∧ Same v w := by
  obtain ⟨t, ht, hf, hn⟩ := h.draft
  obtain ⟨g, hg, hfg, hb⟩ := h.goal
  cases hs with
  | unwritten hw =>
    rw [write_eq_ok_iff.2 ⟨t, ht, hf, rfl⟩] at hw
    cases hw
  | unmoved _ _ hno => exact absurd hfg (hno g hg)
  | @moved t' g' ht' _ hg' _ =>
    obtain rfl := Except.ok.inj (ht.symm.trans ht')
    obtain rfl := Except.ok.inj (hg.symm.trans hg')
    refine ⟨rfl, rfl, fun place => ?_⟩
    rw [get?_set g.place_ne_nil, get?_erase t.place_ne_nil, get?_set t.place_ne_nil]
    by_cases hpg : place = g.place
    · rw [if_pos hpg, hpg, hb]
    · rw [if_neg hpg]
      by_cases hpt : place = t.place
      · rw [if_pos hpt, hpt, hn]
      · rw [if_neg hpt, if_neg hpt]

theorem read_eq (h : Settled v p bytes) : v.read p = .ok bytes := by
  obtain ⟨g, hg, hfg, hb⟩ := h.goal
  exact read_eq_ok_iff.2 ⟨g.place, locate_of_free hg hfg, hb⟩

theorem of_same (h : Settled v p bytes) (hs : Same v w) : Settled w p bytes := by
  have hd := hs.sameDirectories
  obtain ⟨t, ht, hf, hn⟩ := h.draft
  obtain ⟨g, hg, hfg, hb⟩ := h.goal
  exact ⟨⟨t, hd.target_of ht, hf.of_sameDirectories hd, (hs.get? _).trans hn⟩,
    ⟨g, hd.target_of hg, hfg.of_sameDirectories hd, (hs.get? _).trans hb⟩⟩

/-- A write to other places leaves settled what is. -/
theorem of_saves {q : Path} {bytes' : List UInt8} (h : Settled v p bytes)
    (hs : Saves v q bytes' r w) (hd : ∀ t t', v.target p.draft = .ok t →
      (v.target q = .ok t' ∨ v.target q.draft = .ok t') → t.place ≠ t'.place)
    (hg : ∀ g t', v.target p = .ok g →
      (v.target q = .ok t' ∨ v.target q.draft = .ok t') → g.place ≠ t'.place) :
    Settled w p bytes := by
  have hsame := hs.sameDirectories
  obtain ⟨t, ht, hf, hn⟩ := h.draft
  obtain ⟨g, hgt, hfg, hb⟩ := h.goal
  refine ⟨⟨t, hsame.target_of ht, hf.of_sameDirectories hsame, ?_⟩,
    ⟨g, hsame.target_of hgt, hfg.of_sameDirectories hsame, ?_⟩⟩
  · rw [hs.get?_eq (fun t' h' => hd t t' ht (.inr h')) fun t' h' => hd t t' ht (.inl h'), hn]
  · rw [hs.get?_eq (fun t' h' => hg g t' hgt (.inr h')) fun t' h' => hg g t' hgt (.inl h'), hb]

end Settled

def kept (v : Volume) (keep : Place → Bool) : List (Place × Entry) := v.entries.filter (keep ·.1)

section Kept
variable {keep : Place → Bool}

private theorem kept_erase (h : keep place = false) : (v.erase place).kept keep = v.kept keep := by
  rw [kept, kept, erase, List.filter_filter]
  refine List.filter_congr fun e _ => ?_
  by_cases he : e.1 = place
  · simp [he, h]
  · simp [he]

private theorem kept_set (h : keep place = false) (entry : Entry) :
    (v.set place entry).kept keep = v.kept keep := by
  rw [kept, set, List.filter_cons_of_neg (by simp [h])]
  exact kept_erase h

theorem get?_of_kept (h : v.kept keep = w.kept keep) (hp : keep place = true) :
    v.get? place = w.get? place := by
  have lookup (entries : List (Place × Entry)) :
      (entries.filter (keep ·.1)).lookup place = entries.lookup place := by
    induction entries with
    | nil => rfl
    | cons e es ih =>
      obtain ⟨q, e⟩ := e
      by_cases hq : keep q = true
      · simp only [List.filter_cons, hq, if_true, List.lookup_cons, ih]
      · have hne : place ≠ q := fun he => hq (he ▸ hp)
        simp only [List.filter_cons, if_neg hq, ih, List.lookup_cons, beq_false_of_ne hne]
  cases place with
  | nil => rfl
  | cons name directory =>
    show v.entries.lookup _ = w.entries.lookup _
    rw [← lookup, ← lookup w.entries]
    exact congrArg _ h

theorem Saves.kept_eq (h : Saves v p bytes r w)
    (hd : ∀ t, v.target p.draft = .ok t → v.Free t → keep t.place = false)
    (hg : ∀ g, v.target p = .ok g → v.Free g → keep g.place = false) :
    w.kept keep = v.kept keep := by
  cases h with
  | unwritten h => rfl
  | unmoved ht hf hno => rw [kept_erase (hd _ ht hf), kept_set (hd _ ht hf)]
  | moved ht hf hgt hfg =>
    rw [kept_set (hg _ hgt hfg), kept_erase (hd _ ht hf), kept_set (hd _ ht hf)]

end Kept
end StackLowering.Disk.Volume
