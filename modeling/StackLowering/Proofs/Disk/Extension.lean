import StackLowering.Proofs.Disk.Writing
/-! What another extension makes of a path: beside the file of the path it names one whose own name
has the same stem. A name of two dots and an extension is the exception, and leads to the parent. -/
namespace StackLowering.Disk

namespace Path
variable {p : Path} {before : List String} {name stem extension : String}

/-- Paths of the same pieces are equal. -/
theorem eq_of_pieces {q : Path} (h : p.pieces = q.pieces) : p = q := by
  have hp := Text.intercalate_pieces '/' p.text.toList
  have hq := Text.intercalate_pieces '/' q.text.toList
  have hpieces : Text.pieces '/' p.text.toList = Text.pieces '/' q.text.toList :=
    List.map_injective_iff.2 (fun a b hab => by simpa using congrArg String.toList hab) h
  rw [hpieces, hq] at hp
  obtain ⟨p⟩ := p
  obtain ⟨q⟩ := q
  exact congrArg Path.mk (String.toList_injective hp.symm)

private theorem pieces_intercalate {names : List String} (h : ∀ s ∈ names, '/' ∉ s.toList)
    (hne : names ≠ []) : pieces ⟨"/".intercalate names⟩ = names := by
  have hs : "/".toList = ['/'] := rfl
  rw [pieces, String.toList_intercalate, hs, Text.pieces_intercalate (by simpa using h) (by simpa)]
  simp

theorem fileName?_eq (hp : p.pieces = before ++ [name]) (hn : IsName name) :
    p.fileName? = some name := by
  rw [fileName?, hp, List.filter_append, List.filter_cons_of_pos (by simp [hn.1]), List.filter_nil,
    List.getLast?_concat]
  split
  · next h => exact absurd (Option.some.inj h) hn.2
  · rfl

/-- Cutting at the last dot gives back the two sides of a dot with none behind. -/
theorem splitName_append (hs : stem ≠ "") (hx : '.' ∉ extension.toList) :
    splitName (stem ++ "." ++ extension) = (stem, some extension) := by
  have hname : (stem ++ "." ++ extension).toList = stem.toList ++ '.' :: extension.toList := by
    simp
  rw [splitName, hname, Text.cutLast_append (mt String.toList_eq_nil_iff.1 hs) hx]
  simp

/-- A name is cut in two at a dot, or is whole. -/
theorem splitName_cases (name : String) : splitName name = (name, none) ∨
    ∃ stem extension, splitName name = (stem, some extension) ∧
      name = stem ++ "." ++ extension ∧ stem ≠ "" ∧ '.' ∉ extension.toList := by
  rw [splitName]
  rcases Text.cutLast_cases '.' name.toList with h | ⟨front, back, h, hname, hf, hb⟩ <;> rw [h]
  · simp
  · right
    refine ⟨_, _, rfl, String.toList_injective ?_, by simpa using hf, by simpa using hb⟩
    rw [hname]
    simp

/-- A name that has an extension is its stem, a dot and the extension. -/
theorem eq_of_splitName (h : (splitName name).2 = some extension) :
    name = (splitName name).1 ++ "." ++ extension := by
  rcases splitName_cases name with hs | ⟨stem, old, hs, hname, -⟩
  · rw [hs] at h
    cases h
  · rw [hs] at h ⊢
    rwa [← Option.some.inj h]

theorem splitName_fst_sublist (name : String) :
    (splitName name).1.toList.Sublist name.toList := by
  rcases splitName_cases name with h | ⟨stem, extension, h, hn, -⟩
  · rw [h]
  · rw [h, hn, String.toList_append, String.toList_append, List.append_assoc]
    exact List.sublist_append_left ..

/-- The name under another extension; of two dots and an extension only the dots are left. -/
def renamed (name extension : String) : String :=
  if (splitName name).1 = "." then ".." else (splitName name).1 ++ "." ++ extension

/-- What the old extension leaves when it is cut off, and the dot that stays. -/
private theorem pieces_cut (hp : p.pieces = before ++ [stem ++ "." ++ extension]) :
    pieces ⟨String.ofList (p.text.toList.take (p.text.length - extension.length))⟩ =
      before ++ [stem ++ "."] := by
  obtain ⟨bs, last, hb, rfl, hl⟩ := List.map_eq_append_iff.1 hp
  obtain ⟨cs, rfl, hcs⟩ := List.map_eq_singleton_iff.1 hl
  have hcs : cs = (stem ++ ".").toList ++ extension.toList := by
    have ht := congrArg String.toList hcs
    rwa [String.toList_ofList, String.toList_append] at ht
  obtain ⟨front, hf, hfront⟩ := Text.append_of_pieces (hcs ▸ hb)
  have hlen : p.text.length - extension.length = front.length := by
    rw [← String.length_toList, ← String.length_toList, hf, List.length_append]
    omega
  rw [hlen, hf, List.take_left, pieces, String.toList_ofList, hfront, List.map_append,
    List.map_singleton, String.ofList_toList]

theorem fileName?_eq_none (hp : p.pieces = before ++ [".."]) : p.fileName? = none := by
  rw [fileName?, hp, List.filter_append, List.filter_cons_of_pos (by decide), List.filter_nil,
    List.getLast?_concat]
  rfl

/-- The other extension stands behind the stem, which ends at the last dot. -/
private theorem pieces_added (hp : p.pieces = before ++ [name]) (hn : IsName name)
    (he : '/' ∉ extension.toList) :
    pieces ⟨"/".intercalate ((p.pieces.reverse.dropWhile isIdle).tail.reverse ++
      [(splitName name).1 ++ "." ++ extension])⟩ =
      before ++ [(splitName name).1 ++ "." ++ extension] := by
  have hb : (p.pieces.reverse.dropWhile isIdle).tail.reverse = before := by
    rw [hp, List.reverse_concat, List.dropWhile_cons_of_neg (by simp [hn.1]), List.tail_cons,
      List.reverse_reverse]
  have hslash : ∀ s ∈ before ++ [name], '/' ∉ s.toList := fun s hs =>
    slash_not_mem_of_mem_pieces (hp ▸ hs)
  have hstem : '/' ∉ (splitName name).1.toList := fun h =>
    hslash name (List.mem_append_right _ (List.mem_singleton_self _))
      ((splitName_fst_sublist name).subset h)
  rw [hb]
  refine pieces_intercalate (fun s hm => ?_) (List.concat_ne_nil _ before)
  rcases List.mem_append.1 hm with hm | hm
  · exact hslash s (List.mem_append_left _ hm)
  · rw [List.mem_singleton.1 hm]
    simp [hstem, he]

def cut (p : Path) : Path :=
  ⟨String.ofList (p.text.toList.take (p.text.length - (p.extension?.getD "").length))⟩

theorem extension?_eq (hp : p.pieces = before ++ [name]) (hn : IsName name) :
    p.extension? = (splitName name).2 := by
  rw [extension?, fileName?_eq hp hn, Option.bind_some]

private theorem withExtension_eq_cut (h : p.cut.fileName? = none) :
    p.withExtension extension = p.cut := by
  have hs : p.cut.stem? = none := by rw [stem?, h, Option.map_none]
  rw [cut] at hs ⊢
  unfold withExtension
  dsimp only
  split
  · rfl
  · next h =>
    rw [hs] at h
    cases h

private theorem pieces_withExtension_of_cut (hp : p.cut.pieces = before ++ [name])
    (hn : IsName name) (he : '/' ∉ extension.toList) : (p.withExtension extension).pieces =
      before ++ [(splitName name).1 ++ "." ++ extension] := by
  have hs : p.cut.stem? = some (splitName name).1 := by
    rw [stem?, fileName?_eq hp hn, Option.map_some]
  have ha := pieces_added hp hn he
  rw [cut] at hs ha
  unfold withExtension
  dsimp only
  split
  · next h =>
    rw [hs] at h
    cases h
  · next stem h =>
    obtain rfl := Option.some.inj (hs.symm.trans h)
    exact ha

/-- Another extension renames what the path leads to. -/
theorem pieces_withExtension (hp : p.pieces = before ++ [name]) (hn : IsName name)
    (he : '/' ∉ extension.toList) :
    (p.withExtension extension).pieces = before ++ [renamed name extension] := by
  have hx := extension?_eq hp hn
  rcases splitName_cases name with h | ⟨stem, old, h, rfl, hs, ho⟩
  · have hc : p.cut = p := by
      obtain ⟨text⟩ := p
      have ht : (text.toList.take (text.length - "".length)) = text.toList :=
        List.take_of_length_le (Nat.le_of_eq String.length_toList)
      rw [cut, hx, h]
      exact congrArg Path.mk ((congrArg String.ofList ht).trans String.ofList_toList)
    have hdot : name ≠ "." := by
      rintro rfl
      exact absurd hn.1 (by decide)
    rw [pieces_withExtension_of_cut (hc ▸ hp) hn he, renamed, h, if_neg hdot]
  · have hc : p.cut.pieces = before ++ [stem ++ "."] := by
      rw [cut, hx, h]
      exact pieces_cut hp
    rw [renamed, h]
    by_cases hd : stem = "."
    · subst hd
      rw [if_pos rfl, withExtension_eq_cut (fileName?_eq_none hc), hc]
      rfl
    · have hname : IsName (stem ++ ".") := by
        have cancel {t : String} (h : stem ++ "." = t ++ ".") : stem = t := by
          have ht := congrArg String.toList h
          rw [String.toList_append, String.toList_append] at ht
          exact String.toList_injective (List.append_cancel_right ht)
        have hne : stem ++ "." ≠ "" := fun h => by simpa using congrArg String.toList h
        have hone : stem ++ "." ≠ "." := fun h => hs (cancel (h.trans rfl))
        exact ⟨by simp [isIdle, hne, hone], fun h => hd (cancel (h.trans rfl))⟩
      have hsplit : splitName (stem ++ ".") = (stem, some "") := by
        have hsp : splitName (stem ++ "." ++ "") = (stem, some "") := splitName_append hs (by simp)
        rwa [String.append_empty] at hsp
      rw [if_neg hd, pieces_withExtension_of_cut hc hname he, hsplit]

/-- Paths that are the same have the same extension. -/
theorem extension?_of_same {q : Path} (h : p.same q = true) : p.extension? = q.extension? := by
  rw [extension?, extension?, fileName?, fileName?, ← steps, ← steps, (same_iff.1 h).2]

private theorem stem_ne_empty (hn : IsName name) : (splitName name).1 ≠ "" := by
  rcases splitName_cases name with h | ⟨stem, old, h, -, hs, -⟩
  · rw [h]
    exact hn.ne_empty
  · rw [h]
    exact hs

/-- A name under another extension is two dots or ends with it. -/
theorem renamed_cases (hn : IsName name) (extension : String) :
    renamed name extension = ".." ∨
      ∃ stem, renamed name extension = stem ++ "." ++ extension ∧ stem ≠ "" := by
  rw [renamed]
  split
  · exact .inl rfl
  · exact .inr ⟨_, rfl, stem_ne_empty hn⟩

/-- A name is the same under its own extension alone. -/
theorem renamed_eq_self_iff (hn : IsName name) : renamed name extension = name ↔
    (splitName name).2 = some extension ∧ (splitName name).1 ≠ "." := by
  rcases splitName_cases name with h | ⟨stem, old, h, hname, -⟩
  · have hdot : name ≠ "." := by
      rintro rfl
      exact absurd hn.1 (by decide)
    rw [renamed, h, if_neg hdot]
    simp only [reduceCtorEq, false_and, iff_false]
    intro he
    have hl := congrArg String.length he
    rw [String.length_append, String.length_append] at hl
    have hd : ".".length = 1 := rfl
    omega
  · rw [renamed, h]
    by_cases hd : stem = "."
    · rw [if_pos hd]
      exact ⟨fun he => absurd he.symm hn.2, fun he => absurd hd he.2⟩
    · rw [if_neg hd, hname]
      constructor
      · intro (he : stem ++ "." ++ extension = stem ++ "." ++ old)
        have ht := congrArg String.toList he
        simp only [String.toList_append] at ht
        exact ⟨congrArg some (String.toList_injective (List.append_cancel_left ht)).symm, hd⟩
      · rintro ⟨he, -⟩
        rw [Option.some.inj he]

theorem isName_append (hs : stem ≠ "") (he : extension ≠ "") :
    IsName (stem ++ "." ++ extension) := by
  refine isName_of_length ?_
  have hsl := mt String.length_eq_zero_iff.1 hs
  have hel := mt String.length_eq_zero_iff.1 he
  have hdot : ".".length = 1 := rfl
  rw [String.length_append, String.length_append]
  omega

/-- The extension that was put in place is the path's own then, unless two dots are left. -/
theorem extension?_withExtension (hp : p.pieces = before ++ [name]) (hn : IsName name)
    (hs : '/' ∉ extension.toList) (hd : '.' ∉ extension.toList) (he : extension ≠ "") :
    (p.withExtension extension).extension? = none ∨
      (p.withExtension extension).extension? = some extension := by
  have hw := pieces_withExtension hp hn hs
  rcases renamed_cases hn extension with hr | ⟨stem, hr, hstem⟩ <;> rw [hr] at hw
  · left
    rw [extension?, fileName?_eq_none hw, Option.bind_none]
  · right
    rw [extension?_eq hw (isName_append hstem he), splitName_append hstem hd]

theorem extension?_withExtension_of_ne (hp : p.pieces = before ++ [name]) (hn : IsName name)
    (hdots : (splitName name).1 ≠ ".") (hs : '/' ∉ extension.toList)
    (hd : '.' ∉ extension.toList) (he : extension ≠ "") :
    (p.withExtension extension).extension? = some extension := by
  have hstem := stem_ne_empty hn
  have hw := pieces_withExtension hp hn hs
  have hr : renamed name extension = (splitName name).1 ++ "." ++ extension := if_neg hdots
  rw [hr] at hw
  rw [extension?_eq hw (isName_append hstem he), splitName_append hstem hd]

/-- An extension put in place of another leaves nothing of that, unless two dots are left. -/
theorem withExtension_withExtension {other : String} (hp : p.pieces = before ++ [name])
    (hn : IsName name) (hdots : (splitName name).1 ≠ ".") (hs : '/' ∉ extension.toList)
    (hd : '.' ∉ extension.toList) (he : extension ≠ "") (ho : '/' ∉ other.toList) :
    (p.withExtension extension).withExtension other = p.withExtension other := by
  have hstem := stem_ne_empty hn
  have hw := pieces_withExtension hp hn hs
  have hr : renamed name extension = (splitName name).1 ++ "." ++ extension := if_neg hdots
  rw [hr] at hw
  refine eq_of_pieces ?_
  rw [pieces_withExtension hw (isName_append hstem he) ho, pieces_withExtension hp hn ho,
    renamed, splitName_append hstem hd, renamed]

/-- A path with its own extension is itself. -/
theorem withExtension_self (hp : p.pieces = before ++ [name]) (hn : IsName name)
    (hx : (splitName name).2 = some extension) (hdots : (splitName name).1 ≠ ".")
    (hs : '/' ∉ extension.toList) : p.withExtension extension = p := by
  refine eq_of_pieces ?_
  rw [pieces_withExtension hp hn hs, (renamed_eq_self_iff hn).2 ⟨hx, hdots⟩, hp]

private theorem head?_of_pieces {c : Char} (hc : c ≠ '/') {piece : String} {rest : List String}
    (h : p.pieces = piece :: rest) :
    piece.toList.head? = some c ↔ p.text.toList.head? = some c := by
  obtain ⟨cs, css, hs, rfl, -⟩ := List.map_eq_cons_iff.1 h
  rw [String.toList_ofList]
  exact Text.head?_of_pieces hc hs

/-- A path under another extension starts as before. -/
theorem head?_withExtension {c : Char} (hc : c ≠ '/') (hp : p.pieces = before ++ [name])
    (hn : IsName name) (hdots : (splitName name).1 ≠ ".") (hs : '/' ∉ extension.toList) :
    (p.withExtension extension).text.toList.head? = some c ↔
      p.text.toList.head? = some c := by
  have hw := pieces_withExtension hp hn hs
  cases before with
  | cons piece before => rw [← head?_of_pieces hc hw, ← head?_of_pieces hc hp]
  | nil =>
    have hr : renamed name extension = (splitName name).1 ++ "." ++ extension := if_neg hdots
    rw [hr] at hw
    obtain ⟨d, ds, hd⟩ := List.exists_cons_of_ne_nil
      (mt String.toList_eq_nil_iff.1 (stem_ne_empty hn))
    have hhead : name.toList.head? = (splitName name).1.toList.head? := by
      rcases splitName_cases name with h | ⟨stem, old, h, hname, -⟩
      · rw [h]
      · rw [h] at hd ⊢
        rw [hname, String.toList_append, String.toList_append, hd]
        rfl
    rw [← head?_of_pieces hc hw, ← head?_of_pieces hc hp, hhead, String.toList_append,
      String.toList_append, hd]
    rfl

end Path

namespace Volume
variable {v : Volume} {p : Path} {before : List String} {name extension : String}

/-- Where a path under another extension takes a file, the name has that extension. -/
theorem name_of_withExtension (hp : p.pieces = before ++ [name]) (hn : Path.IsName name)
    (hs : '/' ∉ extension.toList) {g : Target}
    (hg : v.target (p.withExtension extension) = .ok g) (hf : v.Free g) :
    (Path.splitName name).1 ≠ "." ∧ g.name = (Path.splitName name).1 ++ "." ++ extension := by
  obtain ⟨front, hfront, -⟩ := pieces_of_target hg hf.slashed
  rw [Path.pieces_withExtension hp hn hs] at hfront
  obtain ⟨-, hname⟩ := List.append_inj' hfront rfl
  have hname : Path.renamed name extension = g.name := (List.cons.inj hname).1
  by_cases hd : (Path.splitName name).1 = "."
  · rw [Path.renamed, if_pos hd] at hname
    exact absurd hname.symm hf.name.2
  · rw [Path.renamed, if_neg hd] at hname
    exact ⟨hd, hname.symm⟩

end Volume
end StackLowering.Disk
