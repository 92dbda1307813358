import Mathlib.Data.List.Basic
import StackLowering.Source.Cut
/-! What the cutting of a source comes to, said without an order of cuts. The text of a piece ends
where its first comment starts, and its words are all the longest runs without a blank. -/
namespace StackLowering.Source
open Text

/-- Whether a text is what stands in a piece before the first two slashes. -/
structure BeforeComment (piece text : List Char) : Prop where
  behind : ∃ rest, piece = text ++ rest ∧ (rest = [] ∨ ['/', '/'] <+: rest)
  first : ∀ front back, piece = front ++ '/' :: '/' :: back → text.length ≤ front.length

/-- Whether a word is a run without a blank that no longer such run contains, in a text that starts
at a column. -/
def IsRun (column : Nat) (text : List Char) (w : Word) : Prop :=
  ∃ front back, text = front ++ (w.text.toList ++ back) ∧ w.column = column + front.length ∧
    w.text.toList ≠ [] ∧ (∀ c ∈ w.text.toList, isBlank c = false) ∧
    (∀ c, front.getLast? = some c → isBlank c) ∧ ∀ c, back.head? = some c → isBlank c

/-- Whether words are all the runs of a text, from left to right. -/
structure Splits (text : List Char) (words : List Word) : Prop where
  mem_iff : ∀ w, w ∈ words ↔ IsRun 1 text w
  ordered : words.Pairwise (·.column < ·.column)

/-- Whether a line is what a piece of a source leaves. -/
structure CutFrom (number : Nat) (piece : List Char) (l : Line) : Prop where
  number : l.number = number
  content : ∃ text, BeforeComment piece text ∧ l.text = String.ofList (trim text) ∧
    Splits text l.words

theorem beforeComment_uncommented (piece : List Char) :
    BeforeComment piece (uncommented piece) := by
  induction piece with
  | nil => exact ⟨⟨[], rfl, .inl rfl⟩, by simp⟩
  | cons c cs ih =>
    rw [uncommented]
    split
    · next hc =>
      obtain ⟨rfl, hc⟩ := hc
      obtain ⟨cs, rfl⟩ := List.head?_eq_some_iff.1 hc
      exact ⟨⟨_, rfl, .inr ⟨cs, rfl⟩⟩, by simp⟩
    · next hc =>
      obtain ⟨⟨rest, hr, hs⟩, hf⟩ := ih
      refine ⟨⟨rest, by rw [List.cons_append, ← hr], hs⟩, fun front back hb => ?_⟩
      cases front with
      | nil =>
        obtain ⟨rfl, rfl⟩ := List.cons.inj hb
        exact absurd ⟨rfl, rfl⟩ hc
      | cons x front =>
        have hl := hf front back (List.cons.inj hb).2
        simpa using hl

namespace BeforeComment
variable {piece text text' : List Char}

private theorem length_le (h : BeforeComment piece text) (h' : BeforeComment piece text') :
    text.length ≤ text'.length := by
  obtain ⟨rest, hr, -⟩ := h.behind
  obtain ⟨rest', hr', rfl | ⟨back, rfl⟩⟩ := h'.behind
  · have hl := congrArg List.length (hr.symm.trans hr')
    simp only [List.length_append, List.length_nil] at hl
    omega
  · exact h.first text' back hr'

theorem iff_eq : BeforeComment piece text ↔ text = uncommented piece := by
  refine ⟨fun h => ?_, fun h => h ▸ beforeComment_uncommented piece⟩
  have hu := beforeComment_uncommented piece
  obtain ⟨rest, hr, -⟩ := h.behind
  obtain ⟨rest', hr', -⟩ := hu.behind
  exact (List.append_inj (hr.symm.trans hr') (Nat.le_antisymm (h.length_le hu) (hu.length_le h))).1

end BeforeComment

private theorem isBlank_head {run back : List Char} {c : Char} (hne : run ≠ [])
    (hr : ∀ c ∈ run, isBlank c = false) (hc : (run ++ back).head? = some c) :
    isBlank c = false := by
  obtain ⟨x, xs, rfl⟩ := List.exists_cons_of_ne_nil hne
  obtain rfl := Option.some.inj hc
  exact hr x (List.mem_cons_self ..)

private theorem isRun_cons_blank {column : Nat} {c : Char} {cs : List Char} {w : Word}
    (hc : isBlank c) : IsRun column (c :: cs) w ↔ IsRun (column + 1) cs w := by
  constructor
  · rintro ⟨front, back, ht, hcol, hne, hw, hf, hb⟩
    cases front with
    | nil =>
      -- the run would start with the blank
      have hn := isBlank_head (c := c) hne hw (by rw [← List.nil_append (_ ++ back), ← ht]; rfl)
      rw [hn] at hc
      cases hc
    | cons x front =>
      refine ⟨front, back, (List.cons.inj ht).2, ?_, hne, hw, fun c h => hf c ?_, hb⟩
      · rw [hcol, List.length_cons]
        omega
      · rw [List.getLast?_cons, h]
        rfl
  · rintro ⟨front, back, rfl, hcol, hne, hw, hf, hb⟩
    refine ⟨c :: front, back, rfl, ?_, hne, hw, fun x hx => ?_, hb⟩
    · rw [hcol, List.length_cons]
      omega
    · rw [List.getLast?_cons, Option.some.injEq] at hx
      cases hl : front.getLast? with
      | none => rwa [← hx, hl]
      | some y =>
        rw [hl] at hx
        exact hf x (hl.trans (congrArg some hx))

/-- In front of a blank or the end, a run is found once, and then those behind it. -/
private theorem isRun_append {column : Nat} {run rest : List Char} {w : Word} (hne : run ≠ [])
    (hr : ∀ c ∈ run, isBlank c = false) (hs : ∀ c, rest.head? = some c → isBlank c) :
    IsRun column (run ++ rest) w ↔
      w = ⟨column, String.ofList run⟩ ∨ IsRun (column + run.length) rest w := by
  constructor
  · rintro ⟨front, back, ht, hcol, hwne, hw, hf, hb⟩
    rcases List.append_eq_append_iff.1 ht with ⟨as, rfl, rfl⟩ | ⟨as, hrun, -⟩
    · refine .inr ⟨as, back, rfl, ?_, hwne, hw, fun c hc => hf c ?_, hb⟩
      · rw [hcol, List.length_append]
        omega
      · rw [List.getLast?_append, hc]
        rfl
    · -- the last character in front of the word would be a blank in the run
      have hfront : front = [] := by
        refine List.getLast?_eq_none_iff.1 (Option.eq_none_iff_forall_ne_some.2 fun c hc => ?_)
        have hn := hr c (hrun ▸ List.mem_append_left _ (List.mem_of_getLast? hc))
        rw [hf c hc] at hn
        cases hn
      subst hfront
      left
      have hword : w.text.toList = run := by
        rw [← takeWhile_run hw hb, ← List.nil_append (_ ++ back), ← ht, takeWhile_run hr hs]
      obtain ⟨c, text⟩ := w
      rw [← hword, String.ofList_toList]
      exact congrArg (Word.mk · text) hcol
  · rintro (rfl | ⟨front, back, rfl, hcol, hwne, hw, hf, hb⟩)
    · exact ⟨[], rest, by simp, by simp, by simpa using hne, by simpa using hr, by simp, hs⟩
    · refine ⟨run ++ front, back, by simp, ?_, hwne, hw, fun c hc => ?_, hb⟩
      · rw [hcol, List.length_append]
        omega
      · cases hl : front.getLast? with
        | some y =>
          rw [List.getLast?_append, hl] at hc
          exact hf c (hl.trans hc)
        | none =>
          -- the word would be joined to the run in front of it
          obtain rfl := List.getLast?_eq_none_iff.1 hl
          obtain ⟨x, xs, hx⟩ := List.exists_cons_of_ne_nil hwne
          have hn := hw x (by rw [hx]; exact List.mem_cons_self ..)
          rw [hs x (by rw [hx]; rfl)] at hn
          cases hn

/-- A text without a blank in front starts with a run. -/
theorem eq_run_append {c : Char} (hc : ¬isBlank c = true) (cs : List Char) :
    let run := c :: cs.takeWhile (!isBlank ·)
    let rest := cs.dropWhile (!isBlank ·)
    c :: cs = run ++ rest ∧ (∀ x ∈ run, isBlank x = false) ∧
      ∀ x, rest.head? = some x → isBlank x := by
  refine ⟨?_, fun x hx => ?_, fun x hx => ?_⟩
  · rw [List.cons_append, List.takeWhile_append_dropWhile]
  · rcases List.mem_cons.1 hx with rfl | hx
    · simpa using hc
    · simpa using List.all_eq_true.1 List.all_takeWhile x hx
  · have hn := List.head?_dropWhile_not (!isBlank ·) cs
    rw [hx] at hn
    simpa using hn

/-- The cutting finds just the runs. -/
private theorem mem_runs_iff {column : Nat} {text : List Char} {w : Word} :
    w ∈ runs column text ↔ IsRun column text w := by
  induction column, text using runs.induct with
  | case1 column =>
    rw [runs_nil]
    constructor
    · intro h
      cases h
    · rintro ⟨front, back, ht, -, hne, -⟩
      have hn := (List.append_eq_nil_iff.1 (List.append_eq_nil_iff.1 ht.symm).2).1
      exact absurd hn hne
  | case2 column c cs hc ih => rw [runs_cons_blank _ hc, ih, isRun_cons_blank hc]
  | case3 column c cs hc run ih =>
    obtain ⟨ht, hrun, hrest⟩ := eq_run_append hc cs
    rw [ht, isRun_append (by simp) hrun hrest, ← ih, runs_append _ hrun hrest]
    simp [run]

private theorem pairwise_runs (column : Nat) (text : List Char) :
    (runs column text).Pairwise (·.column < ·.column) := by
  induction column, text using runs.induct with
  | case1 column => simp
  | case2 column c cs hc ih => rwa [runs_cons_blank _ hc]
  | case3 column c cs hc run ih =>
    rw [runs, if_neg hc]
    refine List.pairwise_cons.2 ⟨fun w hw => ?_, ih⟩
    obtain ⟨front, back, -, hcol, -⟩ := mem_runs_iff.1 hw
    show column < w.column
    rw [hcol, List.length_cons]
    omega

theorem splits_iff {text : List Char} {words : List Word} :
    Splits text words ↔ words = runs 1 text := by
  have distinct {ws : List Word} (h : ws.Pairwise (·.column < ·.column)) : ws.Nodup :=
    h.imp fun {a b} (hlt : a.column < b.column) (he : a = b) => by
      rw [he] at hlt
      exact Nat.lt_irrefl _ hlt
  constructor
  · intro h
    refine List.Perm.eq_of_pairwise (fun a b _ _ hab hba => ?_) h.ordered (pairwise_runs 1 text) ?_
    · exact absurd hba (Nat.lt_asymm hab)
    · refine (List.perm_ext_iff_of_nodup (distinct h.ordered)
        (distinct (pairwise_runs 1 text))).2 ?_
      intro w
      rw [h.mem_iff, mem_runs_iff]
  · rintro rfl
    exact ⟨fun w => mem_runs_iff, pairwise_runs 1 text⟩

private theorem ofWords?_eq_some_iff {number : Nat} {text : List Char} {words : List Word}
    {l : Line} : Line.ofWords? number text words = some l ↔
      l.number = number ∧ l.text = String.ofList (trim text) ∧ l.words = words := by
  obtain ⟨n, t, head, operands⟩ := l
  cases words with
  | nil => simp [Line.ofWords?, Line.words]
  | cons w ws =>
    simp only [Line.ofWords?, Line.words, Option.some.injEq, Line.mk.injEq, List.cons.injEq]
    tauto

/-- A piece leaves the line that the cutting makes of it, and none if that makes none. -/
theorem cutLine?_eq_some_iff {number : Nat} {piece : List Char} {l : Line} :
    cutLine? number piece = some l ↔ CutFrom number piece l := by
  rw [cutLine?, ofWords?_eq_some_iff]
  constructor
  · rintro ⟨hn, ht, hw⟩
    exact ⟨hn, _, beforeComment_uncommented piece, ht, splits_iff.2 hw⟩
  · rintro ⟨hn, text, hu, ht, hw⟩
    obtain rfl := BeforeComment.iff_eq.1 hu
    exact ⟨hn, ht, splits_iff.1 hw⟩

end StackLowering.Source
