import StackLowering.Proofs.Program.ListedAddresses
import StackLowering.Proofs.Program.OutputGrammar
/-! The labels that a listing marks. It goes by pairs of lines of text alone; that these are the
places where commands lead is because the output uses every address at once, in the block of the
command that puts it there. -/
namespace StackLowering
open Assembly

namespace Assembly
open Listing

namespace Listing

/-- Whether the line of a listing at a place, separators apart, is the definition of a name with the
arrow at it. -/
def MarksAt (listed : List String) (k : Nat) (name : String) : Prop :=
  ∃ address, (listed.filter (· ≠ separator))[k]? =
    some (Text.zeroPadded 4 address ++ " ► (" ++ name ++ ")")

private theorem operand?_eq_some_iff {line name : String} :
    operand? line = some name ↔ line = "@" ++ name := by
  constructor
  · intro h
    rw [operand?] at h
    split at h
    · next cs hl =>
      obtain rfl := Option.some.inj h
      apply String.toList_injective
      simp [hl]
    · cases h
  · rintro rfl
    exact Line.operand?_at name

private theorem contains_jumpTargets_iff {lines : List String} {name : String} :
    (jumpTargets lines).contains name = true ↔
      ∃ k next, lines[k]? = some ("@" ++ name) ∧ lines[k + 1]? = some next ∧ jumps next = true := by
  rw [jumpTargets, Std.TreeSet.contains_ofList, List.contains_iff_mem, List.mem_filterMap]
  constructor
  · rintro ⟨⟨first, second⟩, hm, ho⟩
    obtain ⟨k, hk⟩ := List.mem_iff_getElem?.1 hm
    obtain ⟨hf, hs⟩ := List.getElem?_zip_eq_some.1 hk
    rw [List.getElem?_tail] at hs
    dsimp only at ho
    split at ho
    · next hj => exact ⟨k, second, operand?_eq_some_iff.1 ho ▸ hf, hs, hj⟩
    · cases ho
  · rintro ⟨k, next, hf, hs, hj⟩
    refine ⟨("@" ++ name, next), List.mem_iff_getElem?.2 ⟨k, ?_⟩, ?_⟩
    · rw [List.getElem?_zip_eq_some, List.getElem?_tail]
      exact ⟨hf, hs⟩
    · simp only [hj, if_true]
      exact operand?_eq_some_iff.2 rfl

private theorem search_append (front back : List Char) :
    jumps.search (front ++ ';' :: 'J' :: back) = true := by
  induction front with
  | nil => rfl
  | cons c front ih =>
    rw [List.cons_append]
    unfold jumps.search
    split
    · rfl
    · next he => rwa [← (List.cons.inj he).2]
    · next he => cases he

end Listing

/-- Whether an instruction stands directly behind every line that puts an address into A. -/
def usesAddresses : List Line → Bool
  | [] => true
  | line :: lines =>
    (line.operand?.isNone || lines.head?.any fun next => next matches .compute _) &&
      usesAddresses lines

private theorem usesAddresses_append {first second : List Line} (hf : usesAddresses first = true)
    (hs : usesAddresses second = true) : usesAddresses (first ++ second) = true := by
  induction first with
  | nil => exact hs
  | cons line first ih =>
    obtain ⟨hl, hr⟩ := Bool.and_eq_true_iff.1 hf
    apply Bool.and_eq_true_iff.2
    refine ⟨?_, ih hr⟩
    cases first with
    | nil =>
      -- nothing behind an address would leave it unused
      have hn : line.operand?.isNone = true := by simpa using hl
      rw [hn, Bool.true_or]
    | cons next first => exact hl

private theorem exists_compute_of_usesAddresses {lines : List Line} (h : usesAddresses lines = true)
    {k : Nat} {line : Line} (hl : lines[k]? = some line) {name : String}
    (ho : line.operand? = some name) :
    ∃ i, lines[k + 1]? = some (.compute i) := by
  induction lines generalizing k with
  | nil => cases hl
  | cons first lines ih =>
    obtain ⟨hf, hr⟩ := Bool.and_eq_true_iff.1 h
    cases k with
    | zero =>
      obtain rfl := Option.some.inj hl
      cases lines with
      | nil => simp [ho] at hf
      | cons next lines => cases next <;> simp_all
    | succ k => exact ih hr hl

/-- A line with an instruction looks like a jump just if it is one. -/
private theorem jumps_text_compute {i : Instruction} :
    jumps (Line.compute i).text = true ↔ (Line.compute i).flows = false := by
  constructor
  · exact Line.flows_of_jumps rfl fun _ hn => by cases hn
  · intro h
    cases hj : i.jump with
    | none => simp [Line.flows, hj] at h
    | some j =>
      obtain ⟨cs, hc⟩ : ∃ cs, j.text.toList = 'J' :: cs := by cases j <;> exact ⟨_, rfl⟩
      rw [Line.text, Assembler.text_instruction, hj, jumps]
      simp only [String.toList_append, hc, List.append_assoc]
      exact search_append _ cs

/-- The names in front of jumps can be read off the texts of lines, as long as every address is used
at once: a static variable or a comment may look like a jump too. -/
private theorem contains_jumpTargets_text {lines : List Line} (h : usesAddresses lines = true)
    {name : String} :
    (jumpTargets (lines.map Line.text)).contains name = true ↔ name ∈ aims lines := by
  rw [contains_jumpTargets_iff]
  constructor
  · rintro ⟨k, next, hk, hn, hj⟩
    rw [List.getElem?_map, Option.map_eq_some_iff] at hk
    obtain ⟨line, hl, ht⟩ := hk
    have ho : line.operand? = some name := by rw [← Line.operand?_text, ht, Line.operand?_at]
    obtain ⟨i, hi⟩ := exists_compute_of_usesAddresses h hl ho
    rw [List.getElem?_map, hi] at hn
    obtain rfl := Option.some.inj hn
    exact mem_aims hl hi (jumps_text_compute.1 hj) ho
  · intro hm
    obtain ⟨k, line, next, hl, hn, hf, ho⟩ := exists_of_mem_aims hm
    rw [← Line.operand?_text, operand?_eq_some_iff] at ho
    have hj : jumps next.text = true := by
      cases next with
      | compute i => exact jumps_text_compute.2 hf
      | _ => cases hf
    refine ⟨k, next.text, ?_, ?_, hj⟩
    · rw [List.getElem?_map, hl, ← ho]
      rfl
    · rw [List.getElem?_map, hn]
      rfl

private theorem dropWhile_padded (n : Nat) {c : Char} (hc : c.isDigit = false) (cs : List Char) :
    ((Text.zeroPadded 4 n).toList ++ c :: cs).dropWhile Char.isDigit = c :: cs := by
  have hd := Text.isDecimal_zeroPadded 4 n
  rw [Text.isDecimal, Bool.and_eq_true, List.all_eq_true] at hd
  rw [List.dropWhile_append_of_pos hd.2, List.dropWhile_cons_of_neg (by simp [hc])]

/-- The arrow is shown for a definition of a label that is jumped to, and for no other line. -/
private theorem front_append_eq_arrow_iff {targets : Std.TreeSet String} {line : Line} {n : Nat}
    {name : String} :
    (∃ address, line.front targets n ++ line.text =
        Text.zeroPadded 4 address ++ " ► (" ++ name ++ ")") ↔
      line.text = "(" ++ name ++ ")" ∧ targets.contains name = true := by
  constructor
  · rintro ⟨address, h⟩
    -- behind the digits of the address comes the arrow, or at its place a blank
    have hl := congrArg (fun s : String => s.toList.dropWhile Char.isDigit) h
    simp only [String.toList_append, List.append_assoc] at hl
    rw [show " ► (".toList = [' ', '►', ' ', '('] from rfl, List.cons_append,
      dropWhile_padded address (by decide)] at hl
    cases line with
    | define l =>
      by_cases hc : targets.contains l.text = true
      · rw [Line.front, if_pos hc, String.toList_append, List.append_assoc] at hl
        have ht : (Line.define l).text.toList = '(' :: (name.toList ++ [')']) := by
          rw [show " ► ".toList = [' ', '►', ' '] from rfl, List.cons_append,
            dropWhile_padded n (by decide)] at hl
          simpa using hl
        have hd : (Line.define l).text = "(" ++ name ++ ")" :=
          String.toList_injective (by simp [ht])
        obtain ⟨l', he, rfl⟩ := Line.text_eq_definition_iff.1 hd
        cases he
        exact ⟨hd, hc⟩
      · rw [Line.front, if_neg hc, String.toList_append, List.append_assoc,
          show "   ".toList = [' ', ' ', ' '] from rfl, List.cons_append,
          dropWhile_padded n (by decide)] at hl
        simp at hl
    | comment t => simp [Line.front] at hl
    | address s | literal s | compute s =>
      rw [Line.front, String.toList_append, List.append_assoc,
        show "     ".toList = [' ', ' ', ' ', ' ', ' '] from rfl, List.cons_append,
        dropWhile_padded n (by decide)] at hl
      simp at hl
  · rintro ⟨ht, hc⟩
    obtain ⟨l, rfl, rfl⟩ := Line.text_eq_definition_iff.1 ht
    refine ⟨n, ?_⟩
    rw [Line.front, if_pos hc, Line.text]
    simp only [String.append_assoc]
    rfl

/-- A listing shows the arrow at the definitions of the names that stand in front of a jump. -/
private theorem marksAt_listing_iff {lines : List Line} {k : Nat} {name : String} :
    MarksAt (listing (lines.map Line.text)) k name ↔
      (lines.map Line.text)[k]? = some ("(" ++ name ++ ")") ∧
        (jumpTargets (lines.map Line.text)).contains name = true := by
  rw [MarksAt, listing_eq, filter_entriesFrom, List.getElem?_mapIdx, List.getElem?_map]
  cases lines[k]? with
  | none => simp
  | some line =>
    simp only [Option.map_some, Option.some.injEq]
    exact front_append_eq_arrow_iff

end Assembly

section Used
variable (o : LoweringOptions) (sites : List Site)

private theorem Command.usesAddresses_block (unit : String) (body : Option String) (number : Nat)
    (c : Command) : usesAddresses (c.block unit body number) = true := by
  cases c with
  | push g i =>
    rw [block, Block.push, Segment.checkIndex]
    split
    · cases g <;> rfl
    · rfl
  | pop g i =>
    rw [block, Block.pop, Segment.checkIndex]
    split
    · cases g <;> rfl
    · rfl
  | operate op => cases op <;> rfl
  | function name count =>
    have zeros (n : Nat) : usesAddresses (List.replicate n Block.pushZero).flatten = true := by
      induction n with
      | zero => rfl
      | succ n ih =>
        rw [List.replicate_succ, List.flatten_cons]
        exact usesAddresses_append rfl ih
    have entry : usesAddresses [.define (.named name)] = true := rfl
    exact usesAddresses_append entry (zeros count.toNat)
  | _ => rfl

private theorem usesAddresses_output (annotate : Bool) (number : Nat) :
    usesAddresses (output annotate number sites) = true := by
  induction sites generalizing number with
  | nil => rfl
  | cons s sites ih =>
    apply usesAddresses_append _ (ih _)
    apply usesAddresses_append _ (s.command.usesAddresses_block ..)
    cases annotate <;> rfl

private theorem LoweringOptions.usesAddresses_lines : usesAddresses (o.lines sites) = true := by
  apply usesAddresses_append _ (usesAddresses_output sites _ _)
  obtain ⟨_ | _, _ | _⟩ := o <;> rfl

end Used

/-- A generated label of the lines is that of the entry code, or of the command that took its
number. -/
private theorem LoweringOptions.generated_cases {o : LoweringOptions} {sites : List Site}
    {kind : LabelKind} {n : Nat} (h : .generated kind n ∈ labels (o.lines sites)) :
    (o.bootstrap = true ∧ kind = .back) ∨ ∃ (k : Nat) (s : Site), sites[k]? = some s ∧
      kind ∈ s.command.labelKinds ∧ n = o.numberAt sites k := by
  rcases mem_lines (mem_labels_iff.1 h) with ⟨text, ht⟩ | ⟨ho, hb⟩ | ⟨k, s, hk, hb⟩
  · cases ht
  · have hl : Label.generated kind n ∈ [Label.generated .back 0] := mem_labels_iff.2 hb
    cases List.mem_singleton.1 hl
    exact .inl ⟨ho, rfl⟩
  · have hl := mem_labels_iff.2 hb
    rw [blockAt, Command.labels_block, List.mem_append, List.mem_map, List.mem_map] at hl
    rcases hl with ⟨name, -, hn⟩ | ⟨kind', hm, hn⟩
    · cases hn
    · cases hn
      exact .inr ⟨k, s, hk, hm, rfl⟩

namespace Program
variable {p : Program} {o : LoweringOptions} {lines : List Line}

/-- A label that the lines define is jumped to just if it is one of a comparison, or where a command
or the entry code leads. -/
private theorem mem_aims_iff_of_defined (h : p.lower o = .ok lines) {l : Label}
    (hl : l ∈ labels lines) : l.text ∈ aims lines ↔
      (∃ n, l.text = (Label.generated .holds n).text) ∨
        (∃ n, l.text = (Label.generated .done n).text) ∨
        (∃ s ∈ p.sites, s.target? = some l.text) ∨
        (o.bootstrap = true ∧ l.text = Block.entryPoint) := by
  obtain ⟨ha, rfl⟩ := acceptable_of_lower h
  obtain ⟨t, ht, htl⟩ := coherent h
  have named : ∀ name, l = .named name → isReserved name = false := by
    rintro name rfl
    exact ht.isReserved_of_mem_labels (htl ▸ hl)
  -- A return label is defined as well, but no line in front of a jump names it.
  have generated {kind : LabelKind} {n : Nat} (hk : kind ≠ .back)
      (he : l.text = (Label.generated kind n).text) : l.text ∈ aims (o.lines p.sites) := by
    obtain rfl : l = .generated kind n := Label.text_inj named (fun _ hn => by cases hn) he
    rcases LoweringOptions.generated_cases hl with ⟨-, hb⟩ | ⟨k, s, hs, hm, rfl⟩
    · exact absurd hb hk
    · apply LoweringOptions.mem_aims_lines_iff.2
      refine .inr ⟨k, s, hs, List.mem_append_left _ ?_⟩
      exact List.mem_map_of_mem (List.mem_filter.2 ⟨hm, by simpa using hk⟩)
  constructor
  · intro hm
    rcases LoweringOptions.mem_aims_lines_iff.1 hm with ho | ⟨k, s, hs, hm⟩
    · exact .inr (.inr (.inr ho))
    · rcases List.mem_append.1 hm with hm | hm
      · obtain ⟨kind, hk, he⟩ := List.mem_map.1 hm
        have hne := (List.mem_filter.1 hk).2
        cases kind with
        | holds => exact .inl ⟨_, he.symm⟩
        | done => exact .inr (.inl ⟨_, he.symm⟩)
        | back => cases hne
      · exact .inr (.inr (.inl ⟨s, List.mem_of_getElem? hs, Option.mem_toList.1 hm⟩))
  · rintro (⟨n, he⟩ | ⟨n, he⟩ | ⟨s, hs, he⟩ | ho)
    · exact generated (by decide) he
    · exact generated (by decide) he
    · obtain ⟨k, hk⟩ := List.mem_iff_getElem?.1 hs
      apply LoweringOptions.mem_aims_lines_iff.2
      exact .inr ⟨k, s, hk, List.mem_append_right _ (Option.mem_toList.2 he)⟩
    · exact LoweringOptions.mem_aims_lines_iff.2 (.inl ho)

/-- A listing shows the arrow at the definition of a label just if the label is one of the two of a
comparison, or a jump resolves to it, or a call names it, or the program starts there. So a return
label never has it, nor a label that is only loaded and not jumped to. -/
theorem marked_iff_jumped_to (h : p.lower o = .ok lines) :
    let texts := lines.map Line.text
    (∀ k name, Listing.MarksAt (Listing.listing texts) k name ↔
      texts[k]? = some ("(" ++ name ++ ")") ∧
        ((∃ n, name = (Label.generated .holds n).text) ∨
          (∃ n, name = (Label.generated .done n).text) ∨
          (∃ s ∈ p.sites, s.target? = some name) ∨
          (o.bootstrap = true ∧ name = Block.entryPoint))) ∧
    (∀ k n, ¬Listing.MarksAt (Listing.listing texts) k (Label.generated .back n).text) ∧
    ∀ name, (∀ (k : Nat) next, texts[k]? = some ("@" ++ name) → texts[k + 1]? = some next →
        Listing.jumps next = false) →
      ∀ k, ¬Listing.MarksAt (Listing.listing texts) k name := by
  intro texts
  have hu : usesAddresses lines = true := by
    obtain ⟨-, rfl⟩ := acceptable_of_lower h
    exact o.usesAddresses_lines p.sites
  have marks (k : Nat) (name : String) : Listing.MarksAt (Listing.listing texts) k name ↔
      texts[k]? = some ("(" ++ name ++ ")") ∧
        ((∃ n, name = (Label.generated .holds n).text) ∨
          (∃ n, name = (Label.generated .done n).text) ∨
          (∃ s ∈ p.sites, s.target? = some name) ∨
          (o.bootstrap = true ∧ name = Block.entryPoint)) := by
    rw [marksAt_listing_iff, contains_jumpTargets_text hu]
    refine and_congr_right fun hk => ?_
    obtain ⟨l, hl, rfl⟩ := List.mem_map.1 (definition_mem_text_iff.1 (List.mem_of_getElem? hk))
    exact mem_aims_iff_of_defined h hl
  refine ⟨marks, fun k n hm => ?_, fun name hn k hm => ?_⟩
  · obtain ⟨-, hj⟩ := (marks k _).1 hm
    obtain ⟨ha, rfl⟩ := acceptable_of_lower h
    rcases hj with ⟨m, he⟩ | ⟨m, he⟩ | ⟨s, hs, he⟩ | ⟨-, he⟩
    · cases (Label.text_generated_inj he).1
    · cases (Label.text_generated_inj he).1
    · exact Label.text_generated_ne (ha.definable_target hs he).2 .back n rfl
    · exact Label.text_generated_ne (by decide) .back n he
  · obtain ⟨-, hc⟩ := marksAt_listing_iff.1 hm
    obtain ⟨i, next, hi, hnext, hj⟩ := Listing.contains_jumpTargets_iff.1 hc
    rw [hn i next hi hnext] at hj
    cases hj

end Program
/-- A function whose name is also that of a static variable, with a comparison and a loop in it. -/
def loopedVariable : Program :=
  ⟨[⟨"Foo", [⟨1, "function Foo.0 0", .function "Foo.0" 0⟩, ⟨2, "push static 0", .push .static 0⟩,
    ⟨3, "label L", .label "L"⟩, ⟨4, "eq ;JMP", .operate .eq⟩, ⟨5, "if-goto L", .ifGoto "L"⟩]⟩]⟩

/-- The loop and the comparison are marked, the return label and the function, which is only loaded,
are not. -/
theorem loopedVariable_marked : ∃ lines, loopedVariable.lower ⟨true, true⟩ = .ok lines ∧
    (lines.map Line.text)[56]? = some "(Foo.0)" ∧ (lines.map Line.text)[58]? = some "@Foo.0" ∧
    Listing.MarksAt (Listing.listing (lines.map Line.text)) 66 "Foo.0$L" ∧
    Listing.MarksAt (Listing.listing (lines.map Line.text)) 80 "LABEL_TRUE_1" ∧
    ¬Listing.MarksAt (Listing.listing (lines.map Line.text)) 54 "RETURN_LABEL_0" ∧
    ¬Listing.MarksAt (Listing.listing (lines.map Line.text)) 56 "Foo.0" := by
  have ha : Acceptable loopedVariable.sites := firstRefusal?_nil_eq_none_iff.1 (by decide)
  have h : loopedVariable.lower ⟨true, true⟩ = .ok _ := Program.lower_eq_ok_iff.2 ⟨ha, rfl⟩
  have plain (kind : LabelKind) (n : Nat) : "Foo.0" ≠ (Label.generated kind n).text :=
    (Label.text_generated_ne (by decide) kind n).symm
  have notTarget : ∀ s ∈ loopedVariable.sites, s.target? ≠ some "Foo.0" := by decide
  obtain ⟨hmarks, hback, -⟩ := Program.marked_iff_jumped_to h
  refine ⟨_, h, by decide, by decide, ?_, ?_, hback 54 0, ?_⟩
  · have hs : (⟨"Foo", some "Foo.0", ⟨5, "if-goto L", .ifGoto "L"⟩⟩ : Site) ∈
        loopedVariable.sites := List.mem_of_getElem? (i := 4) rfl
    exact (hmarks 66 _).2 ⟨by decide, .inr (.inr (.inl ⟨_, hs, rfl⟩))⟩
  · exact (hmarks 80 _).2 ⟨by decide, .inl ⟨1, rfl⟩⟩
  · intro hm
    rcases ((hmarks 56 _).1 hm).2 with ⟨n, he⟩ | ⟨n, he⟩ | ⟨s, hs, he⟩ | ⟨-, he⟩
    · exact plain .holds n he
    · exact plain .done n he
    · exact notTarget s hs he
    · exact absurd he (by decide)

end StackLowering
