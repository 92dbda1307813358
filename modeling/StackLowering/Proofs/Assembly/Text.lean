import StackLowering.Assembly.Image
import StackLowering.Text.Decimal
import StackLowering.Text.Pieces
/-! What the text of a line tells of it. Different labels of one lowering have different texts, and
only a definition looks like one. -/
namespace StackLowering.Assembly

def Line.definition? : Line → Option Label
  | define l => some l
  | _ => none

def labels (lines : List Line) : List Label := lines.filterMap Line.definition?

theorem labels_append (first second : List Line) :
    labels (first ++ second) = labels first ++ labels second :=
  List.filterMap_append

theorem mem_labels_iff {l : Label} {lines : List Line} :
    l ∈ labels lines ↔ Line.define l ∈ lines := by
  rw [labels, List.mem_filterMap]
  constructor
  · rintro ⟨line, h, hl⟩
    cases line <;> simp_all [Line.definition?]
  · exact fun h => ⟨_, h, rfl⟩

theorem labelAddress?_eq_none_iff {name : String} {lines : List Line} :
    labelAddress? name lines = none ↔ name ∉ (labels lines).map Label.text := by
  induction lines with
  | nil => simp [labelAddress?, labels]
  | cons line lines ih =>
    rw [labelAddress?]
    cases line with
    | define l =>
      have hl : labels (.define l :: lines) = l :: labels lines := rfl
      rw [hl, List.map_cons, List.mem_cons, not_or, ← ih]
      by_cases h : name = l.text
      · simp [Line.defines, h]
      · simp [Line.defines, h, Ne.symm h]
    | _ =>
      rw [if_neg (by simp [Line.defines]), Option.map_eq_none_iff, ih]
      rfl

theorem labelAddress?_append (name : String) (first second : List Line) :
    labelAddress? name (first ++ second) =
      (labelAddress? name first).or ((labelAddress? name second).map (codeSize first + ·)) := by
  induction first with
  | nil => simp [labelAddress?, codeSize]
  | cons line first ih =>
    rw [List.cons_append, labelAddress?, labelAddress?, ih]
    split
    · rfl
    · cases labelAddress? name first <;>
        simp [codeSize, Function.comp_def, Nat.add_assoc]

private theorem toString_nat_inj {m n : Nat} (h : (toString m).toList = (toString n).toList) :
    m = n := by
  rw [← Text.decimal_toString m, h, Text.decimal_toString]

namespace Label

/-- A generated label starts with a reserved stem. -/
theorem isReserved_text_generated (kind : LabelKind) (n : Nat) :
    isReserved (generated kind n).text = true := by
  rw [isReserved, List.any_eq_true]
  refine ⟨kind, by cases kind <;> decide, ?_⟩
  simp [text]

theorem text_generated_ne {name : String} (h : isReserved name = false) (kind : LabelKind)
    (n : Nat) : (generated kind n).text ≠ name := by
  rintro rfl
  rw [isReserved_text_generated] at h
  cases h

theorem isSymbol_text_generated (kind : LabelKind) (n : Nat) :
    isSymbol (generated kind n).text = true := by
  have hs : isSymbol kind.stem = true := by cases kind <;> decide
  exact isSymbol_append hs fun c hc => isSymbolChar_of_mem_toString hc

/-- The stem and the number of a generated label can be read off its text. -/
theorem text_generated_inj {k l : LabelKind} {m n : Nat}
    (h : (generated k m).text = (generated l n).text) : k = l ∧ m = n := by
  have hs := congrArg String.toList h
  rw [text, text, String.toList_append, String.toList_append] at hs
  have hk : k = l := by cases k <;> cases l <;> simp [LabelKind.stem] at hs ⊢
  subst hk
  exact ⟨rfl, toString_nat_inj (List.append_cancel_left hs)⟩

/-- Labels differ in their texts as long as no name of a source is reserved. -/
theorem text_inj {k l : Label} (hk : ∀ name, k = named name → isReserved name = false)
    (hl : ∀ name, l = named name → isReserved name = false) (h : k.text = l.text) : k = l := by
  cases k with
  | named a =>
    cases l with
    | named b => rw [show a = b from h]
    | generated kind n => exact absurd h.symm (text_generated_ne (hk a rfl) kind n)
  | generated kind n =>
    cases l with
    | named b => exact absurd h (text_generated_ne (hl b rfl) kind n)
    | generated kind' n' =>
      obtain ⟨rfl, rfl⟩ := text_generated_inj h
      rfl

end Label

theorem dot_mem_static (unit : String) (i : UInt16) :
    '.' ∈ (Symbol.static unit i).text.toList := by
  simp [Symbol.text]

/-- A static variable is a symbol if its unit's name can be the front of one. -/
theorem isSymbol_static_iff {unit : String} {i : UInt16} :
    isSymbol (Symbol.static unit i).text = true ↔ isSymbolFront unit = true := by
  have hi : isSymbol ("." ++ toString i.toNat) = true :=
    isSymbol_append (by decide) fun c hc => isSymbolChar_of_mem_toString hc
  rw [Symbol.text, String.append_assoc]
  exact isSymbol_append_iff hi

private theorem dot_not_mem_digits (n : Nat) : '.' ∉ (toString n).toList := fun hd => by
  have hn := Text.isDecimal_toString n
  rw [Text.isDecimal_of_mem hd (by decide)] at hn
  cases hn

/-- A generated label has no dot in it, and so is no static variable whatever the unit's name. -/
theorem text_generated_ne_static (kind : LabelKind) (n : Nat) (unit : String) (i : UInt16) :
    (Label.generated kind n).text ≠ (Symbol.static unit i).text := by
  intro he
  have hd := dot_mem_static unit i
  rw [← he, Label.text, String.toList_append, List.mem_append] at hd
  rcases hd with hd | hd
  · cases kind <;> revert hd <;> decide
  · exact dot_not_mem_digits n hd

/-- The unit and the index of a static variable can be read off its name: the index stands behind
the last dot, whatever dots and digits the unit's name has. -/
theorem text_static_inj {a b : String} {i j : UInt16}
    (h : (Symbol.static a i).text = (Symbol.static b j).text) : a = b ∧ i = j := by
  have hpieces (u : String) (k : UInt16) : Text.pieces '.' (Symbol.static u k).text.toList =
      Text.pieces '.' u.toList ++ [(toString k.toNat).toList] := by
    have ht : (Symbol.static u k).text.toList = u.toList ++ '.' :: (toString k.toNat).toList := by
      simp [Symbol.text]
    rw [ht, Text.pieces_append_cons, Text.pieces_of_not_mem (dot_not_mem_digits _)]
  have hs := congrArg (fun s : String => Text.pieces '.' s.toList) h
  simp only [hpieces] at hs
  obtain ⟨hu, hi⟩ := List.append_inj' hs rfl
  refine ⟨String.toList_injective ?_, UInt16.toNat_inj.1 (toString_nat_inj (List.cons.inj hi).1)⟩
  rw [← Text.intercalate_pieces '.' a.toList, hu, Text.intercalate_pieces]

def opens (text : String) : Bool := text.toList.head? == some '('

private theorem opens_append {s : String} (t : String) (hs : s ≠ "") :
    opens (s ++ t) = opens s := by
  have hl : s.toList ≠ [] := fun h => hs (String.toList_injective h)
  obtain ⟨c, cs, hc⟩ := List.exists_cons_of_ne_nil hl
  rw [opens, opens, String.toList_append, hc]
  rfl

private theorem opens_computation (c : Computation) : opens c.text = false ∧ c.text ≠ "" := by
  cases c <;> try (rename_i x; cases x)
  all_goals exact ⟨by decide, by decide⟩

private theorem opens_dest (t : Dest) : opens t.text = false := by
  obtain ⟨_ | _, _ | _, _ | _⟩ := t
  all_goals rfl

theorem opens_instruction (i : Instruction) : opens i.text = false := by
  obtain ⟨hc, hne⟩ := opens_computation i.computation
  have assigned : ∀ t : Dest, ∀ rest : String,
      opens ((if t.text.isEmpty then i.computation.text
        else t.text ++ "=" ++ i.computation.text) ++ rest) = false := by
    intro t rest
    split
    · rw [opens_append _ hne, hc]
    · next h =>
      have ht : t.text ≠ "" := by simpa using h
      rw [String.append_assoc, String.append_assoc, opens_append _ ht, opens_dest t]
  rw [Instruction.text]
  cases i.jump with
  | none => simpa using assigned i.dest ""
  | some j => simpa only [String.append_assoc] using assigned i.dest (";" ++ j.text)

/-- A line has the text of a label's definition only if it is one. -/
theorem Line.text_eq_definition_iff {line : Line} {name : String} :
    line.text = "(" ++ name ++ ")" ↔ ∃ l, line = define l ∧ l.text = name := by
  constructor
  · intro h
    have ho : opens line.text = true := by
      rw [h, String.append_assoc, opens_append _ (by decide)]
      decide
    cases line with
    | define l =>
      refine ⟨l, rfl, ?_⟩
      have hs := congrArg String.toList h
      exact String.toList_injective (by simpa [text] using hs)
    | address s => simp [text, opens] at ho
    | literal n => simp [text, opens] at ho
    | compute i =>
      rw [text, opens_instruction] at ho
      cases ho
    | comment t => simp [text, opens] at ho
  · rintro ⟨l, rfl, rfl⟩
    rfl

/-- The definitions among the texts of lines are those of their labels. -/
theorem definition_mem_text_iff {name : String} {lines : List Line} :
    "(" ++ name ++ ")" ∈ lines.map Line.text ↔ name ∈ (labels lines).map Label.text := by
  rw [List.mem_map, List.mem_map]
  constructor
  · rintro ⟨line, hl, he⟩
    obtain ⟨l, rfl, rfl⟩ := Line.text_eq_definition_iff.1 he
    exact ⟨l, mem_labels_iff.2 hl, rfl⟩
  · rintro ⟨l, hl, rfl⟩
    exact ⟨_, mem_labels_iff.1 hl, rfl⟩

end StackLowering.Assembly
