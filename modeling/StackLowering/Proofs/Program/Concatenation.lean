import Mathlib.Data.List.Nodup
import StackLowering.Proofs.Assembly.Renumbering
import StackLowering.Proofs.Machine.References
/-! Programs one behind the other. A lowering carries two things from the first to the second: the
symbols defined so far, and how many numbers of generated labels are taken. -/
namespace StackLowering
open Assembly

instance : Append Program := ⟨fun first second => ⟨first.units ++ second.units⟩⟩

private theorem Program.sites_append (first second : Program) :
    (first ++ second).sites = first.sites ++ second.sites := List.flatMap_append

private theorem acceptable_append_iff {first second : List Site} :
    Acceptable (first ++ second) ↔ Acceptable first ∧ Acceptable second ∧
      (definitions first).Disjoint (definitions second) := by
  simp only [acceptable_iff, definitions_append, List.nodup_append', List.forall_mem_append]
  tauto

section Renumbering
variable (k number : Nat)

/-- A greater number for a command is a greater number in its lines, and nothing else. -/
private theorem Command.block_renumber (unit : String) (body : Option String) (c : Command) :
    c.block unit body (number + k) = (c.block unit body number).map (Line.renumber k) := by
  cases c with
  | push g i =>
    rw [block, block, Block.push, Segment.checkIndex]
    split
    · cases g <;> rfl
    · rfl
  | pop g i =>
    rw [block, block, Block.pop, Segment.checkIndex]
    split
    · cases g <;> rfl
    · rfl
  | operate op => cases op <;> rfl
  | function name count =>
    have hz : Block.pushZero.map (Line.renumber k) = Block.pushZero := rfl
    rw [block, block, Block.function, List.map_cons, List.map_flatten, List.map_replicate, hz]
    rfl
  | _ => rfl

private theorem output_renumber (annotate : Bool) (sites : List Site) :
    output annotate (number + k) sites =
      (output annotate number sites).map (Line.renumber k) := by
  induction sites generalizing number with
  | nil => rfl
  | cons s sites ih =>
    have hr : (if annotate then [Line.comment s.located.text] else []).map (Line.renumber k) =
        if annotate then [Line.comment s.located.text] else [] := by cases annotate <;> rfl
    rw [output, output, Site.code, Site.code, List.map_append, List.map_append, hr,
      Command.block_renumber, Nat.add_right_comm, ih]

end Renumbering

namespace Program
variable {p : Program} {o : LoweringOptions} {lines : List Line}

/-- The lines of a program can be renumbered by their texts, since no name of its source in them is
reserved. -/
private theorem text_renumber (h : p.lower o = .ok lines) (k : Nat) :
    (lines.map (Line.renumber k)).map Line.text = (lines.map Line.text).map (renumberText k) := by
  rw [List.map_map, List.map_map]
  refine List.map_congr_left fun line hl => Line.text_renumber ?_ k
  rintro name (rfl | rfl)
  · obtain ⟨t, ht, rfl⟩ := coherent h
    exact ht.isReserved_of_mem_labels (mem_labels_iff.2 hl)
  · obtain ⟨ha, rfl⟩ := acceptable_of_lower h
    exact (ha.definable_pointer hl).2

/-- A program behind another is lowered as it is alone, without the entry code. The two get in each
other's way in what they define and in nothing else: its generated labels go on from the numbers
taken before, in all lines that define or name one, and every other line stays. -/
theorem lower_append (first second : Program) (o : LoweringOptions) :
    ((∃ lines, (first ++ second).lower o = .ok lines) ↔
      (∃ front, first.lower o = .ok front) ∧
        (∃ back, second.lower { o with bootstrap := false } = .ok back) ∧
        (definitions first.sites).Disjoint (definitions second.sites)) ∧
    ∀ lines front back, (first ++ second).lower o = .ok lines → first.lower o = .ok front →
      second.lower { o with bootstrap := false } = .ok back →
        lines = front ++ back.map (Line.renumber (first.issued o)) ∧
        lines.map Line.text =
          front.map Line.text ++ (back.map Line.text).map (renumberText (first.issued o)) := by
  constructor
  · simp only [lower_eq_ok_iff, sites_append, acceptable_append_iff, exists_and_left, exists_eq,
      and_true]
  · intro lines front back h hf hb
    have hl : lines = front ++ back.map (Line.renumber (first.issued o)) := by
      obtain ⟨-, rfl⟩ := lower_eq_ok_iff.1 h
      obtain ⟨ha, rfl⟩ := lower_eq_ok_iff.1 hf
      obtain ⟨-, rfl⟩ := lower_eq_ok_iff.1 hb
      have hk := issued_of_accepted (o := o) (firstRefusal?_nil_eq_none_iff.2 ha)
      have hr := output_renumber (first.issued o) 0 o.annotate second.sites
      rw [Nat.zero_add, hk] at hr
      rw [sites_append, output_append, ← List.append_assoc, hr, hk]
      rfl
    refine ⟨hl, ?_⟩
    rw [hl, List.map_append, text_renumber hb]

end Program

/-- A function with a comparison and a label that is called as one of the comparison's. -/
def comparing (f : String) : Program :=
  ⟨[⟨"Main", [⟨1, "", .function f 0⟩, ⟨2, "", .label "LABEL_TRUE_0"⟩, ⟨3, "", .operate .eq⟩]⟩]⟩

/-- Two numbers are taken before the second comparison, one of them by the entry code. -/
theorem comparing_goes_on : ∃ lines,
    (comparing "a" ++ comparing "b").lower ⟨true, false⟩ = .ok lines ∧
      "(LABEL_TRUE_2)" ∈ lines.map Line.text ∧ "(b$LABEL_TRUE_0)" ∈ lines.map Line.text := by
  have ha : firstRefusal? [] (comparing "a").sites = none := by decide
  have hb : firstRefusal? [] (comparing "b").sites = none := by decide
  obtain ⟨hiff, hlines⟩ := Program.lower_append (comparing "a") (comparing "b") ⟨true, false⟩
  have hd : (definitions (comparing "a").sites).Disjoint (definitions (comparing "b").sites) := by
    rw [List.disjoint_iff_ne]
    decide
  obtain ⟨lines, h⟩ :=
    hiff.2 ⟨⟨_, Program.lower_of_accepted ha⟩, ⟨_, Program.lower_of_accepted hb⟩, hd⟩
  have ht := (hlines lines _ _ h (Program.lower_of_accepted ha) (Program.lower_of_accepted hb)).2
  rw [Program.issued_of_accepted ha] at ht
  refine ⟨lines, h, ?_⟩
  rw [ht]
  decide

end StackLowering
