import StackLowering.Proofs.Assembly.Assembler
/-! Other numbers for the generated labels in lines. Lines know which labels are generated; texts
show it too, as long as no name of a source is reserved. -/
namespace StackLowering.Assembly

def Label.renumber (k : Nat) : Label → Label
  | named name => named name
  | generated kind n => generated kind (n + k)

def Line.renumber (k : Nat) : Line → Line
  | define l => define (l.renumber k)
  | pointer l => pointer (l.renumber k)
  | line => line

def generated? (name : String) : Option Label :=
  LabelKind.all.findSome? fun kind =>
    let l := Label.generated kind (Text.decimal (name.toList.drop kind.stem.toList.length))
    if l.text = name then some l else none

def renumberName (k : Nat) (name : String) : String :=
  match generated? name with
  | some l => (l.renumber k).text
  | none => name

/-- A line of text with greater numbers of generated labels, by its text alone. -/
def renumberText (k : Nat) (line : String) : String :=
  match Listing.definition? line, Listing.operand? line with
  | some name, _ => "(" ++ renumberName k name ++ ")"
  | none, some name => "@" ++ renumberName k name
  | none, none => line

theorem generated?_eq_some_iff {name : String} {l : Label} :
    generated? name = some l ↔ (∃ kind n, l = .generated kind n) ∧ l.text = name := by
  have sound : ∀ l, generated? name = some l →
      (∃ kind n, l = .generated kind n) ∧ l.text = name := by
    intro l h
    obtain ⟨kind, -, hk⟩ := List.exists_of_findSome?_eq_some h
    dsimp only at hk
    split at hk
    · next ht =>
      obtain rfl := Option.some.inj hk
      exact ⟨⟨_, _, rfl⟩, ht⟩
    · cases hk
  refine ⟨sound l, ?_⟩
  rintro ⟨⟨kind, n, rfl⟩, rfl⟩
  have hn :
      Text.decimal ((Label.generated kind n).text.toList.drop kind.stem.toList.length) = n := by
    rw [Label.text, String.toList_append, List.drop_left, Text.decimal_toString]
  have hs : (generated? (Label.generated kind n).text).isSome = true := by
    rw [generated?, List.findSome?_isSome_iff]
    exact ⟨kind, by cases kind <;> decide, by simp [hn]⟩
  obtain ⟨l, hl⟩ := Option.isSome_iff_exists.1 hs
  obtain ⟨⟨kind', n', rfl⟩, ht⟩ := sound l hl
  obtain ⟨rfl, rfl⟩ := Label.text_generated_inj ht
  exact hl

theorem generated?_eq_none {name : String} (h : ∀ kind n, (Label.generated kind n).text ≠ name) :
    generated? name = none := by
  cases hg : generated? name with
  | none => rfl
  | some l =>
    obtain ⟨⟨kind, n, rfl⟩, ht⟩ := generated?_eq_some_iff.1 hg
    exact absurd ht (h kind n)

private theorem renumberName_eq_self {name : String}
    (h : ∀ kind n, (Label.generated kind n).text ≠ name) (k : Nat) :
    renumberName k name = name := by
  rw [renumberName, generated?_eq_none h]

def Label.isGenerated : Label → Bool
  | generated .. => true
  | named _ => false

/-- If no name of a source is reserved, the text of a label shows whether it is generated. -/
theorem generated?_text {l : Label} (h : ∀ name, l = .named name → isReserved name = false) :
    generated? l.text = (some l).filter Label.isGenerated := by
  cases l with
  | named name => exact generated?_eq_none (Label.text_generated_ne (h name rfl))
  | generated kind n => exact generated?_eq_some_iff.2 ⟨⟨kind, n, rfl⟩, rfl⟩

private theorem renumberName_text {l : Label}
    (h : ∀ name, l = .named name → isReserved name = false) (k : Nat) :
    renumberName k l.text = (l.renumber k).text := by
  rw [renumberName, generated?_text h]
  cases l <;> rfl

/-- The text of a line shows what there is to renumber, unless it is a reserved name of a source:
registers, static variables and numbers are never taken for generated labels, and comments and
instructions do not look like lines that have one. -/
theorem Line.text_renumber {line : Line}
    (h : ∀ name, line = define (.named name) ∨ line = pointer (.named name) →
      isReserved name = false) (k : Nat) :
    (line.renumber k).text = renumberText k line.text := by
  have plain : ∀ name, line.definition? = none → line.operand? = some name →
      (∀ kind n, (Label.generated kind n).text ≠ name) →
      renumberText k line.text = "@" ++ name := by
    intro name hd ho hg
    rw [renumberText, definition?_text, operand?_text, hd, ho]
    exact congrArg ("@" ++ ·) (renumberName_eq_self hg k)
  have kept : line.definition? = none → line.operand? = none →
      renumberText k line.text = line.text := by
    intro hd ho
    rw [renumberText, definition?_text, operand?_text, hd, ho]
    rfl
  cases line with
  | define l =>
    rw [renumberText, definition?_text, definition?, Option.map_some]
    dsimp only
    rw [renumberName_text fun name he => h name (.inl (by rw [he]))]
    rfl
  | address s =>
    cases s with
    | register r =>
      have hr : isReserved r.text = false := by cases r <;> decide
      exact (plain r.text rfl rfl (Label.text_generated_ne hr)).symm
    | static unit i =>
      exact (plain _ rfl rfl fun kind n => text_generated_ne_static kind n unit i).symm
    | label l =>
      rw [renumberText, definition?_text, operand?_text]
      dsimp only [definition?, operand?, Option.map_none]
      rw [Symbol.text, renumberName_text fun name he => h name (.inr (by rw [he]; rfl))]
      rfl
  | literal n =>
    refine (plain _ rfl rfl fun kind m he => ?_).symm
    have hd := isDecimal_of_isSymbol (Label.isSymbol_text_generated kind m)
    rw [he, Text.isDecimal_toString] at hd
    cases hd
  | compute i => exact (kept rfl rfl).symm
  | comment t => exact (kept rfl rfl).symm

example : renumberText 3 "(LABEL_END_12)" = "(LABEL_END_15)" := by decide

end StackLowering.Assembly
