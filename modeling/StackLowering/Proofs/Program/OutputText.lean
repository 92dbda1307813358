import StackLowering.Proofs.Machine.References
import StackLowering.Proofs.Lowering.Annotation
import StackLowering.Proofs.Source.Located
import StackLowering.Program.Binary
/-! The text of the output, cut at its newlines. It holds the lines that were put into it unless a
newline comes in with the text of a command or the name of a unit, which nothing checks. -/
namespace StackLowering
open Assembly

namespace Assembly

/-- The stretches of a text between newlines. -/
def fileLines (text : String) : List String := (Text.pieces '\n' text.toList).map String.ofList

private theorem toList_fileText (lines : List String) :
    (fileText lines).toList = (lines.map String.toList).flatMap (· ++ ['\n']) := by
  simp [fileText, String.toList_join, List.flatMap_map]

/-- Lines are found again in their text just if they hold no newline. -/
private theorem fileLines_fileText_iff {lines : List String} :
    fileLines (fileText lines) = lines ++ [""] ↔ ∀ line ∈ lines, '\n' ∉ line.toList := by
  constructor
  · intro h line hl
    have hm : line ∈ fileLines (fileText lines) := h ▸ List.mem_append_left _ hl
    obtain ⟨piece, hp, rfl⟩ := List.mem_map.1 hm
    rw [String.toList_ofList]
    exact Text.not_mem_of_mem_pieces hp
  · intro h
    have hp : ∀ p ∈ lines.map String.toList, '\n' ∉ p := List.forall_mem_map.2 h
    rw [fileLines, toList_fileText, Text.pieces_flatMap hp, List.map_append, List.map_map]
    simp

/-- Every line ends with a newline, and each newline in it ends one more. -/
private theorem length_fileLines (lines : List String) :
    (fileLines (fileText lines)).length =
      lines.length + (lines.flatMap String.toList).count '\n' + 1 := by
  rw [fileLines, List.length_map, Text.length_pieces, toList_fileText]
  congr 1
  induction lines with
  | nil => rfl
  | cons line lines ih =>
    rw [List.map_cons, List.flatMap_cons, List.count_append, List.count_append, ih,
      List.flatMap_cons, List.count_append, List.length_cons, List.count_singleton_self]
    omega

private theorem length_fileLines_iff {lines : List String} :
    (fileLines (fileText lines)).length = lines.length + 1 ↔
      ∀ line ∈ lines, '\n' ∉ line.toList := by
  have hs : (lines.flatMap String.toList).count '\n' = 0 ↔
      ∀ line ∈ lines, '\n' ∉ line.toList := by
    simp [List.count_eq_zero]
  rw [← hs, length_fileLines]
  omega

/-- What is counted as an instruction takes a word of code memory, and nothing else does. -/
private theorem isInstruction_text (line : Line) :
    Listing.isInstruction line.text = (line.size == 1) := by
  have ho : ['('].isPrefixOf line.text.toList = opens line.text := by
    rw [opens]
    cases line.text.toList with
    | nil => rfl
    | cons c cs => simp [List.isPrefixOf, Bool.beq_comm]
  rw [Listing.isInstruction, ho, line.isComment_text]
  cases line with
  | define l => simp [Line.text, opens, Line.size]
  | address s => simp [Line.text, opens, Line.size, Line.counts]
  | literal n => simp [Line.text, opens, Line.size, Line.counts]
  | compute i =>
    rw [Line.text, opens_instruction]
    rfl
  | comment t => simp [Line.counts, Line.size]

theorem instructionCount_text (lines : List Line) :
    Listing.instructionCount (lines.map Line.text) = codeSize lines := by
  induction lines with
  | nil => rfl
  | cons line lines ih =>
    rw [Listing.instructionCount] at ih ⊢
    rw [List.map_cons, List.countP_cons, ih, isInstruction_text, codeSize]
    cases line <;> simp [Line.size, Nat.add_comm]

/-- The text of a program that stands on the line as it is. -/
def Line.taken? : Line → Option String
  | define (.named name) | pointer (.named name) => some name
  | address (.static unit _) => some unit
  | comment text => some text
  | _ => none

private theorem newline_not_mem_digits (n : Nat) : '\n' ∉ Nat.toDigits 10 n := fun hn => by
  have hd := Nat.isDigit_of_mem_toDigits (by decide) (by decide) hn
  revert hd
  decide

private theorem Symbol.newline_mem_static_iff {unit : String} {i : UInt16} :
    '\n' ∈ (static unit i).text.toList ↔ '\n' ∈ unit.toList := by
  simp [text, newline_not_mem_digits]

private theorem Label.newline_not_mem_generated (kind : LabelKind) (n : Nat) :
    '\n' ∉ (generated kind n).text.toList := by
  cases kind <;> simp [text, LabelKind.stem, newline_not_mem_digits]

private theorem newline_not_mem_instruction (i : Instruction) : '\n' ∉ i.text.toList := fun hn => by
  have hb := isBlank_of_isUnbroken (Assembler.isUnbroken_instruction i) hn
  revert hb
  decide

/-- A newline on a line is one in what the line takes over. -/
private theorem Line.newline_mem_iff {line : Line} :
    '\n' ∈ line.text.toList ↔ ∃ taken, line.taken? = some taken ∧ '\n' ∈ taken.toList := by
  cases line with
  | define l =>
    cases l with
    | named name => simp [text, taken?, Label.text]
    | generated kind n =>
      have hg := Label.newline_not_mem_generated kind n
      simpa [text, taken?] using hg
  | address s =>
    cases s with
    | register r => cases r <;> simp [text, taken?, Symbol.text, Register.text]
    | static unit i => simp [text, taken?, Symbol.newline_mem_static_iff]
    | label l =>
      cases l with
      | named name => simp [text, taken?, Symbol.text, Label.text]
      | generated kind n =>
        have hg := Label.newline_not_mem_generated kind n
        simpa [text, taken?, Symbol.text] using hg
  | literal n => simp [text, taken?, newline_not_mem_digits]
  | compute i => simp [text, taken?, newline_not_mem_instruction]
  | comment t => simp [text, taken?]

def Line.comment? : Line → Option String
  | comment text => some text
  | _ => none

end Assembly

section Comments
variable {o : LoweringOptions}

/-- Commands leave their texts as comments, if that is asked for, and no others. -/
private theorem filterMap_comment?_output (annotate : Bool) (number : Nat) (sites : List Site) :
    (output annotate number sites).filterMap Line.comment? =
      if annotate then sites.map (·.located.text) else [] := by
  induction sites generalizing number with
  | nil => cases annotate <;> rfl
  | cons s sites ih =>
    have hb : (s.command.block s.unit s.body number).filterMap Line.comment? = [] := by
      refine List.filterMap_eq_nil_iff.2 fun line hl => ?_
      have hc := List.all_eq_true.1
        (Command.all_counts_block s.unit s.body number s.command) line hl
      cases line with
      | comment t => cases hc
      | _ => rfl
    rw [output, Site.code, List.filterMap_append, List.filterMap_append, hb, ih]
    cases annotate <;> rfl

end Comments

/-- Whether no newline comes into the lines of a program that is lowered: none stands in the text of
a command that is shown, nor in the name of a unit whose static variables are used. -/
structure Program.NewlineFree (p : Program) (o : LoweringOptions) : Prop where
  texts : o.annotate = true → ∀ s ∈ p.sites, '\n' ∉ s.located.text.toList
  units : ∀ s ∈ p.sites, s.static?.isSome = true → '\n' ∉ s.unit.toList

namespace Program
variable {p : Program} {o : LoweringOptions} {lines : List Line}

theorem static?_eq {s : Site} {name : String} (h : s.static? = some name) :
    ∃ i, (Symbol.static s.unit i).text = name := by
  rw [Site.static?] at h
  split at h
  · exact ⟨_, Option.some.inj h⟩
  · exact ⟨_, Option.some.inj h⟩
  · cases h

/-- Names of commands are checked, so that they bring no newline in. -/
private theorem newline_not_mem_named (h : p.lower o = .ok lines) {name : String}
    (hn : .define (.named name) ∈ lines ∨ .pointer (.named name) ∈ lines) :
    '\n' ∉ name.toList := by
  have hs : isSymbol name = true := by
    rcases hn with hn | hn
    · obtain ⟨t, ht, rfl⟩ := coherent h
      exact ht.isSymbol_of_mem_labels (mem_labels_iff.2 hn)
    · obtain ⟨ha, rfl⟩ := acceptable_of_lower h
      exact (ha.definable_pointer hn).1
  intro hm
  have hc := isSymbolChar_of_mem hs hm
  revert hc
  decide

/-- The comments of a program are the texts of its commands, and one for the entry code. -/
theorem comment_mem_lines_iff (h : p.lower o = .ok lines) {text : String} :
    .comment text ∈ lines ↔ o.annotate = true ∧
      ((o.bootstrap = true ∧ text = "bootstrap") ∨ ∃ s ∈ p.sites, s.located.text = text) := by
  obtain ⟨-, rfl⟩ := acceptable_of_lower h
  have hc : .comment text ∈ o.lines p.sites ↔
      text ∈ (o.lines p.sites).filterMap Line.comment? := by
    rw [List.mem_filterMap]
    constructor
    · exact fun hm => ⟨_, hm, rfl⟩
    · rintro ⟨line, hm, he⟩
      cases line with
      | comment t => exact Option.some.inj he ▸ hm
      | _ => cases he
  rw [hc, LoweringOptions.lines, List.filterMap_append, filterMap_comment?_output]
  obtain ⟨_ | _, _ | _⟩ := o
  · simp [LoweringOptions.preamble]
  · simp [LoweringOptions.preamble]
  · have hp : (LoweringOptions.preamble ⟨true, false⟩).filterMap Line.comment? = [] := rfl
    simp [hp]
  · have hp : (LoweringOptions.preamble ⟨true, true⟩).filterMap Line.comment? = ["bootstrap"] := rfl
    simp [hp]

/-- A unit with a newline in its name is named on a line just if a static variable of it is used. -/
private theorem newline_in_unit_iff (h : p.lower o = .ok lines) :
    (∃ unit i, .address (.static unit i) ∈ lines ∧ '\n' ∈ unit.toList) ↔
      ∃ s ∈ p.sites, s.static?.isSome = true ∧ '\n' ∈ s.unit.toList := by
  obtain ⟨ha, rfl⟩ := acceptable_of_lower h
  constructor
  · rintro ⟨unit, i, hm, hn⟩
    have hv : (Symbol.static unit i).text ∈ (o.lines p.sites).filterMap Line.static? :=
      List.mem_filterMap.2 ⟨_, hm, rfl⟩
    rw [filterMap_static?_lines ha] at hv
    obtain ⟨s, hs, hv⟩ := List.mem_filterMap.1 hv
    obtain ⟨j, hj⟩ := static?_eq hv
    refine ⟨s, hs, by rw [hv]; rfl, ?_⟩
    rw [← Symbol.newline_mem_static_iff (i := j), hj, Symbol.newline_mem_static_iff]
    exact hn
  · rintro ⟨s, hs, hv, hn⟩
    obtain ⟨name, hname⟩ := Option.isSome_iff_exists.1 hv
    obtain ⟨i, rfl⟩ := static?_eq hname
    obtain ⟨unit, j, hu, he⟩ := LoweringOptions.exists_static (o := o) ha hs hname
    refine ⟨unit, j, hu, ?_⟩
    rw [← Symbol.newline_mem_static_iff (i := j), he, Symbol.newline_mem_static_iff]
    exact hn

/-- Lines hold a newline just if one comes in from the program. -/
private theorem newline_not_mem_lines_iff (h : p.lower o = .ok lines) :
    (∀ line ∈ lines, '\n' ∉ line.text.toList) ↔ p.NewlineFree o := by
  constructor
  · intro hn
    refine ⟨fun ho s hs ht => ?_, fun s hs hv hu => ?_⟩
    · have hm := (comment_mem_lines_iff h).2 ⟨ho, .inr ⟨s, hs, rfl⟩⟩
      exact hn _ hm (Line.newline_mem_iff.2 ⟨_, rfl, ht⟩)
    · obtain ⟨unit, i, hm, hu⟩ := (newline_in_unit_iff h).2 ⟨s, hs, hv, hu⟩
      exact hn _ hm (Line.newline_mem_iff.2 ⟨_, rfl, hu⟩)
  · intro hn line hm ht
    obtain ⟨taken, htaken, ht⟩ := Line.newline_mem_iff.1 ht
    unfold Line.taken? at htaken
    split at htaken
    · obtain rfl := Option.some.inj htaken
      exact newline_not_mem_named h (.inl hm) ht
    · obtain rfl := Option.some.inj htaken
      exact newline_not_mem_named h (.inr hm) ht
    · obtain rfl := Option.some.inj htaken
      obtain ⟨s, hs, hv, hu⟩ := (newline_in_unit_iff h).1 ⟨_, _, hm, ht⟩
      exact hn.units s hs hv hu
    · obtain rfl := Option.some.inj htaken
      obtain ⟨ho, ⟨-, rfl⟩ | ⟨s, hs, rfl⟩⟩ := (comment_mem_lines_iff h).1 hm
      · revert ht
        decide
      · exact hn.texts ho s hs ht
    · cases htaken

/-- Sources bring no newline in: only the name of a unit can. -/
private theorem newlineFree_of_parsed
    (h : ∀ u ∈ p.units, '\n' ∉ u.name.toList ∧ ∃ source, Source.parse source = .ok u.commands) :
    p.NewlineFree o := by
  have place {s : Site} (hs : s ∈ p.sites) : ∃ u ∈ p.units, s.unit = u.name ∧
      s.located ∈ u.commands := by
    obtain ⟨u, hu, hs⟩ := List.mem_flatMap.1 hs
    obtain ⟨i, hi, rfl⟩ := List.mem_mapIdx.1 hs
    exact ⟨u, hu, rfl, List.getElem_mem hi⟩
  constructor
  · intro _ s hs
    obtain ⟨u, hu, -, hl⟩ := place hs
    obtain ⟨source, hp⟩ := (h u hu).2
    exact Source.newline_not_mem_located hp hl
  · intro s hs _
    obtain ⟨u, hu, hn, -⟩ := place hs
    rw [hn]
    exact (h u hu).1

/-- The text of the output, cut at its newlines, is the lines that were put into it and an empty
rest just if no newline comes in from the program. None does from sources, but one may from a
program that is decoded. -/
theorem file_lines_iff (h : p.lower o = .ok lines) :
    (fileLines (fileText (lines.map Line.text)) = lines.map Line.text ++ [""] ↔ p.NewlineFree o) ∧
    ((fileLines (fileText (lines.map Line.text))).length = lines.length + 1 ↔ p.NewlineFree o) ∧
    (p.NewlineFree o →
      (fileLines (fileText (lines.map Line.text))).dropLast.countP Listing.isInstruction =
          Listing.instructionCount (lines.map Line.text) ∧
        Listing.instructionCount (lines.map Line.text) = codeSize lines ∧
        ∀ (k : Nat) text, lines[k]? = some (.comment text) →
          (fileLines (fileText (lines.map Line.text)))[k]? = some ("// " ++ text)) ∧
    ((∀ u ∈ p.units, '\n' ∉ u.name.toList ∧ ∃ source, Source.parse source = .ok u.commands) →
      p.NewlineFree o) := by
  have hfree : (∀ line ∈ lines.map Line.text, '\n' ∉ line.toList) ↔ p.NewlineFree o := by
    rw [List.forall_mem_map]
    exact newline_not_mem_lines_iff h
  have hcut := fileLines_fileText_iff.trans hfree
  have hlength := length_fileLines_iff.trans hfree
  rw [List.length_map] at hlength
  refine ⟨hcut, hlength, fun hn => ?_, newlineFree_of_parsed⟩
  rw [hcut.2 hn]
  refine ⟨?_, instructionCount_text lines, fun k text hk => ?_⟩
  · rw [List.dropLast_concat]
    rfl
  · obtain ⟨hl, -⟩ := List.getElem?_eq_some_iff.1 hk
    rw [List.getElem?_append_left (by rwa [List.length_map]), List.getElem?_map, hk]
    rfl

end Program

/-- One command under a text of its own. -/
def shown (text : String) : Program := ⟨[⟨"Main", [⟨1, text, .push .constant 7⟩]⟩]⟩

theorem shown_keeps_lines : ∃ lines, (shown "push constant 7").lower ⟨false, true⟩ = .ok lines ∧
    (shown "push constant 7").NewlineFree ⟨false, true⟩ ∧
    fileLines (fileText (lines.map Line.text)) = lines.map Line.text ++ [""] := by
  have ha : Acceptable (shown "push constant 7").sites :=
    firstRefusal?_nil_eq_none_iff.1 (by decide)
  have h : (shown "push constant 7").lower ⟨false, true⟩ = .ok _ :=
    Program.lower_eq_ok_iff.2 ⟨ha, rfl⟩
  have hn : (shown "push constant 7").NewlineFree ⟨false, true⟩ :=
    ⟨fun _ => by decide, by decide⟩
  exact ⟨_, h, hn, (Program.file_lines_iff h).1.2 hn⟩

/-- Bytes that decode to a program whose text brings an instruction into the file: it stands there
as a line, which is not among the lines of the output, and is not counted. -/
theorem shown_brings_line : ∃ bytes lines,
    Program.ofBytes bytes = .ok (shown "push constant 7\nM=0") ∧
    (shown "push constant 7\nM=0").lower ⟨false, true⟩ = .ok lines ∧
    fileLines (fileText (lines.map Line.text)) ≠ lines.map Line.text ++ [""] ∧
    (fileLines (fileText (lines.map Line.text))).length = lines.length + 2 ∧
    "M=0" ∈ fileLines (fileText (lines.map Line.text)) ∧ "M=0" ∉ lines.map Line.text ∧
    Listing.instructionCount (lines.map Line.text) = 7 ∧
    (fileLines (fileText (lines.map Line.text))).dropLast.countP Listing.isInstruction = 8 := by
  have ha : Acceptable (shown "push constant 7\nM=0").sites :=
    firstRefusal?_nil_eq_none_iff.1 (by decide)
  have h : (shown "push constant 7\nM=0").lower ⟨false, true⟩ = .ok _ :=
    Program.lower_eq_ok_iff.2 ⟨ha, rfl⟩
  have hb : Program.ofBytes (shown "push constant 7\nM=0").toBytes =
      .ok (shown "push constant 7\nM=0") := by decide +kernel
  exact ⟨_, _, hb, h, by decide +kernel, by decide +kernel, by decide +kernel, by decide,
    by decide, by decide +kernel⟩

end StackLowering
