/-! Cutting a text at every occurrence of one character, or at the last one. The pieces with the
character between them are the text again, and none of them holds it. -/
namespace StackLowering.Text

/-- The stretches between separators; there is one more of them than of separators. -/
def pieces (sep : Char) : List Char → List (List Char)
  | [] => [[]]
  | c :: cs =>
    if c = sep then [] :: pieces sep cs
    else match pieces sep cs with
      | [] => [[c]]
      | p :: ps => (c :: p) :: ps

theorem pieces_ne_nil (sep : Char) (cs : List Char) : pieces sep cs ≠ [] := by
  fun_cases pieces sep cs <;> simp

theorem pieces_cons_of_ne {sep c : Char} (h : c ≠ sep) (cs : List Char) :
    ∃ p ps, pieces sep cs = p :: ps ∧ pieces sep (c :: cs) = (c :: p) :: ps := by
  obtain ⟨p, ps, hp⟩ := List.exists_cons_of_ne_nil (pieces_ne_nil sep cs)
  exact ⟨p, ps, hp, by rw [pieces, if_neg h, hp]⟩

theorem head?_of_pieces {sep c : Char} (hc : c ≠ sep) {cs p : List Char} {ps : List (List Char)}
    (h : pieces sep cs = p :: ps) : p.head? = some c ↔ cs.head? = some c := by
  cases cs with
  | nil =>
    rw [pieces] at h
    simp [← (List.cons.inj h).1]
  | cons d cs =>
    by_cases hd : d = sep
    · rw [pieces, if_pos hd] at h
      simp [← (List.cons.inj h).1, hd, Ne.symm hc]
    · obtain ⟨q, qs, _, hp⟩ := pieces_cons_of_ne hd cs
      rw [hp] at h
      simp [← (List.cons.inj h).1]

theorem intercalate_pieces (sep : Char) (cs : List Char) :
    [sep].intercalate (pieces sep cs) = cs := by
  induction cs with
  | nil => rfl
  | cons c cs ih =>
    by_cases h : c = sep
    · obtain ⟨p, ps, hp⟩ := List.exists_cons_of_ne_nil (pieces_ne_nil sep cs)
      rw [hp] at ih
      rw [pieces, if_pos h, h, hp]
      simpa [List.intercalate] using ih
    · obtain ⟨p, ps, hp, hc⟩ := pieces_cons_of_ne h cs
      rw [hp] at ih
      rw [hc]
      cases ps <;> simpa [List.intercalate] using ih

theorem pieces_of_not_mem {sep : Char} {p : List Char} (h : sep ∉ p) : pieces sep p = [p] := by
  induction p with
  | nil => rfl
  | cons c cs ih =>
    rw [List.mem_cons, not_or] at h
    rw [pieces, if_neg (Ne.symm h.1), ih h.2]

/-- A text with a separator in it has the pieces of both sides. -/
theorem pieces_append_cons (sep : Char) (cs ds : List Char) :
    pieces sep (cs ++ sep :: ds) = pieces sep cs ++ pieces sep ds := by
  induction cs with
  | nil => simp [pieces]
  | cons c cs ih =>
    by_cases hc : c = sep
    · rw [List.cons_append, pieces, if_pos hc, ih, pieces, if_pos hc, List.cons_append]
    · obtain ⟨p, ps, hp, hs⟩ := pieces_cons_of_ne hc cs
      rw [List.cons_append, pieces, if_neg hc, ih, hp, hs, List.cons_append, List.cons_append]

theorem pieces_append {sep : Char} {p : List Char} (h : sep ∉ p) (cs : List Char) :
    pieces sep (p ++ sep :: cs) = p :: pieces sep cs := by
  rw [pieces_append_cons, pieces_of_not_mem h, List.singleton_append]

/-- Pieces that hold no separator are found again between separators. -/
theorem pieces_intercalate {sep : Char} {ps : List (List Char)} (h : ∀ p ∈ ps, sep ∉ p)
    (hne : ps ≠ []) : pieces sep ([sep].intercalate ps) = ps := by
  induction ps with
  | nil => exact absurd rfl hne
  | cons p ps ih =>
    rw [List.forall_mem_cons] at h
    cases ps with
    | nil => rw [List.intercalate_singleton, pieces_of_not_mem h.1]
    | cons q qs =>
      rw [List.intercalate_cons_cons, List.append_assoc, List.singleton_append,
        pieces_append h.1, ih h.2 (List.cons_ne_nil q qs)]

/-- The first part, and each other one behind a separator. -/
theorem intercalate_cons (sep : Char) (p : List Char) (ps : List (List Char)) :
    [sep].intercalate (p :: ps) = p ++ ps.flatMap (sep :: ·) := by
  induction ps generalizing p with
  | nil => simp
  | cons q qs ih => simp [List.intercalate_cons_cons, ih]

theorem mem_intercalate {sep c : Char} {ps : List (List Char)} (h : c ∈ [sep].intercalate ps) :
    c = sep ∨ ∃ p ∈ ps, c ∈ p := by
  cases ps with
  | nil => cases h
  | cons p ps =>
    rw [intercalate_cons, List.mem_append, List.mem_flatMap] at h
    rcases h with h | ⟨q, hq, h⟩
    · exact .inr ⟨p, List.mem_cons_self .., h⟩
    · rcases List.mem_cons.1 h with rfl | h
      · exact .inl rfl
      · exact .inr ⟨q, List.mem_cons_of_mem _ hq, h⟩

/-- What holds no separator is added to the last piece. -/
theorem pieces_append_last {sep : Char} {cs ds p : List Char} {before : List (List Char)}
    (h : pieces sep cs = before ++ [p]) (hd : sep ∉ ds) :
    pieces sep (cs ++ ds) = before ++ [p ++ ds] := by
  induction cs generalizing before p with
  | nil =>
    rw [pieces] at h
    have h : [] ++ [[]] = before ++ [p] := h
    obtain ⟨rfl, hp⟩ := List.append_inj' h rfl
    obtain ⟨rfl, -⟩ := List.cons.inj hp
    exact pieces_of_not_mem hd
  | cons c cs ih =>
    by_cases hc : c = sep
    · rw [pieces, if_pos hc] at h
      rw [List.cons_append, pieces, if_pos hc]
      cases before with
      | nil => exact absurd (List.cons.inj h).2 (pieces_ne_nil sep cs)
      | cons b before =>
        obtain ⟨hb, hcs⟩ := List.cons.inj h
        rw [ih hcs, ← hb, List.cons_append]
    · obtain ⟨q, qs, hq, hs⟩ := pieces_cons_of_ne hc cs
      rw [hs] at h
      rw [List.cons_append, pieces, if_neg hc]
      cases before with
      | nil =>
        obtain ⟨rfl, rfl⟩ := List.cons.inj h
        have hq : pieces sep cs = [] ++ [q] := hq
        rw [ih hq]
        rfl
      | cons b before =>
        obtain ⟨rfl, rfl⟩ := List.cons.inj h
        have hq : pieces sep cs = (q :: before) ++ [p] := hq
        rw [ih hq]
        rfl

theorem not_mem_of_mem_pieces {sep : Char} {cs p : List Char} (h : p ∈ pieces sep cs) :
    sep ∉ p := by
  induction cs generalizing p with
  | nil =>
    rw [pieces, List.mem_singleton] at h
    simp [h]
  | cons c cs ih =>
    by_cases hc : c = sep
    · rw [pieces, if_pos hc] at h
      rcases List.mem_cons.1 h with rfl | h
      · simp
      · exact ih h
    · obtain ⟨q, qs, hq, hs⟩ := pieces_cons_of_ne hc cs
      rw [hs] at h
      rw [hq] at ih
      rcases List.mem_cons.1 h with rfl | h
      · have := ih (List.mem_cons_self ..)
        simp [this, Ne.symm hc]
      · exact ih (List.mem_cons_of_mem _ h)

/-- Cutting what holds no separator off the last piece. -/
theorem append_of_pieces {sep : Char} {cs p ds : List Char}
    {before : List (List Char)} (h : pieces sep cs = before ++ [p ++ ds]) :
    ∃ front, cs = front ++ ds ∧ pieces sep front = before ++ [p] := by
  have hmem : ∀ q ∈ before ++ [p ++ ds], sep ∉ q := fun q hq =>
    not_mem_of_mem_pieces (h ▸ hq)
  have hlast : sep ∉ p ∧ sep ∉ ds := by
    simpa using hmem (p ++ ds) (List.mem_append_right _ (List.mem_singleton_self _))
  have hfront : pieces sep ([sep].intercalate (before ++ [p])) = before ++ [p] := by
    refine pieces_intercalate (fun q hq => ?_) (List.concat_ne_nil p before)
    rcases List.mem_append.1 hq with hq | hq
    · exact hmem q (List.mem_append_left _ hq)
    · rw [List.mem_singleton.1 hq]
      exact hlast.1
  refine ⟨_, ?_, hfront⟩
  rw [← intercalate_pieces sep cs, h, ← pieces_append_last hfront hlast.2,
    intercalate_pieces]

/-- Parts that each end with a separator are cut off before it, and nothing is left behind. -/
theorem pieces_flatMap {sep : Char} {ps : List (List Char)} (h : ∀ p ∈ ps, sep ∉ p) :
    pieces sep (ps.flatMap (· ++ [sep])) = ps ++ [[]] := by
  induction ps with
  | nil => rfl
  | cons p ps ih =>
    rw [List.forall_mem_cons] at h
    rw [List.flatMap_cons, List.append_assoc, List.singleton_append, pieces_append h.1, ih h.2,
      List.cons_append]

theorem length_pieces (sep : Char) (cs : List Char) :
    (pieces sep cs).length = cs.count sep + 1 := by
  induction cs with
  | nil => rfl
  | cons c cs ih =>
    by_cases h : c = sep
    · rw [pieces, if_pos h, List.length_cons, ih, h, List.count_cons_self]
    · obtain ⟨p, ps, hp, hc⟩ := pieces_cons_of_ne h cs
      rw [hp] at ih
      rw [hc, List.count_cons_of_ne h]
      exact ih

theorem sublist_of_mem_pieces {sep : Char} {cs p : List Char} (h : p ∈ pieces sep cs) :
    p.Sublist cs := by
  induction cs generalizing p with
  | nil =>
    obtain rfl := List.mem_singleton.1 h
    exact .slnil
  | cons c cs ih =>
    by_cases hc : c = sep
    · rw [pieces, if_pos hc] at h
      rcases List.mem_cons.1 h with rfl | h
      · exact List.nil_sublist _
      · exact (ih h).cons c
    · obtain ⟨q, qs, hq, hs⟩ := pieces_cons_of_ne hc cs
      rw [hs] at h
      rw [hq] at ih
      rcases List.mem_cons.1 h with rfl | h
      · exact (ih (List.mem_cons_self ..)).cons_cons c
      · exact (ih (List.mem_cons_of_mem _ h)).cons c

/-- Where a piece is not empty, there are no more pieces than characters. -/
theorem length_pieces_le {sep : Char} {cs p : List Char} (h : p ∈ pieces sep cs) (hp : p ≠ []) :
    (pieces sep cs).length ≤ cs.length := by
  obtain ⟨c, hc⟩ := List.exists_mem_of_ne_nil p hp
  have hne : ¬∀ b ∈ cs, sep = b := fun ha =>
    not_mem_of_mem_pieces h (ha c ((sublist_of_mem_pieces h).subset hc) ▸ hc)
  have hl := List.count_le_length (a := sep) (l := cs)
  have hs := mt List.count_eq_length.1 hne
  rw [length_pieces]
  omega

section
variable {α : Type} [DecidableEq α] {sep : α}

/-- Cuts a list at the last separator, unless nothing stands before that. -/
def cutLast (sep : α) (cs : List α) : List α × Option (List α) :=
  match cs.reverse.dropWhile (· ≠ sep) with
  | _ :: c :: front => ((c :: front).reverse, some (cs.reverse.takeWhile (· ≠ sep)).reverse)
  | _ => (cs, none)

/-- Cutting at the last separator gives back the two sides of one with none behind. -/
theorem cutLast_append {front back : List α} (hf : front ≠ []) (hb : sep ∉ back) :
    cutLast sep (front ++ sep :: back) = (front, some back) := by
  have hr : (front ++ sep :: back).reverse = back.reverse ++ sep :: front.reverse := by simp
  have hsep : ∀ c ∈ back.reverse, decide (c ≠ sep) = true := by
    intro c hc
    rw [decide_eq_true_iff]
    rintro rfl
    exact hb (List.mem_reverse.1 hc)
  obtain ⟨c, cs, hc⟩ := List.exists_cons_of_ne_nil (mt List.reverse_eq_nil_iff.1 hf)
  have hd : (front ++ sep :: back).reverse.dropWhile (· ≠ sep) = sep :: front.reverse := by
    rw [hr, List.dropWhile_append_of_pos hsep, List.dropWhile_cons_of_neg (by simp)]
  have ht : (front ++ sep :: back).reverse.takeWhile (· ≠ sep) = back.reverse := by
    rw [hr, List.takeWhile_append_of_pos hsep, List.takeWhile_cons_of_neg (by simp),
      List.append_nil]
  rw [hc] at hd
  rw [cutLast, hd, ht]
  dsimp only
  rw [← hc, List.reverse_reverse, List.reverse_reverse]

/-- A list is cut in two at a separator, or is whole. -/
theorem cutLast_cases (sep : α) (cs : List α) : cutLast sep cs = (cs, none) ∨
    ∃ front back, cutLast sep cs = (front, some back) ∧ cs = front ++ sep :: back ∧
      front ≠ [] ∧ sep ∉ back := by
  rw [cutLast]
  split
  · next d c front h =>
    right
    have hd := List.head?_dropWhile_not (· ≠ sep) cs.reverse
    rw [h] at hd
    have hd : d = sep := by simpa using hd
    subst hd
    have hn := List.takeWhile_append_dropWhile (p := (· ≠ d)) (l := cs.reverse)
    rw [h] at hn
    refine ⟨_, _, rfl, ?_, by simp, fun hm => ?_⟩
    · have hr := congrArg List.reverse hn
      rw [List.reverse_reverse] at hr
      exact hr.symm.trans (by simp)
    · have ha := List.all_eq_true.1 (List.all_takeWhile (p := (· ≠ d))) _ (List.mem_reverse.1 hm)
      simp at ha
  · exact .inl rfl

/-- What stands behind the last separator is this just if it has none itself, and something stands
before both. -/
theorem cutLast_snd_eq_some_iff {cs back : List α} : (cutLast sep cs).2 = some back ↔
    sep ∉ back ∧ ∃ front, front ≠ [] ∧ cs = front ++ sep :: back := by
  constructor
  · intro h
    rcases cutLast_cases sep cs with hc | ⟨front, back', hc, rfl, hf, hb⟩ <;> rw [hc] at h
    · cases h
    · obtain rfl := Option.some.inj h
      exact ⟨hb, front, hf, rfl⟩
  · rintro ⟨hb, front, hf, rfl⟩
    rw [cutLast_append hf hb]

end

end StackLowering.Text
