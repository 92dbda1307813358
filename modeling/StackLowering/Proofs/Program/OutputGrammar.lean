import StackLowering.Proofs.Machine.Linking
import StackLowering.Proofs.Program.OutputText
/-! The language of the output. Its lines of text are definitions, addresses and instructions, and
a jump goes to no other name than that of a command, of generated code or of the entry point. -/
namespace StackLowering
open Assembly

namespace Assembly

/-- What may stand in front of a computation: the registers that take the result, and the sign. -/
def assignments : List String :=
  "" :: ["A", "M", "D", "AM", "AD", "MD", "AMD"].map (· ++ "=")

def conditions : List String := "" :: Jump.all.map (";" ++ ·.text)

/-- The lines of assembly that are no comments. -/
inductive Grammatical : String → Prop where
  | definition {name : String} (h : isSymbol name = true) : Grammatical ("(" ++ name ++ ")")
  | symbol {name : String} (h : isSymbol name = true) : Grammatical ("@" ++ name)
  /-- In decimal notation, which starts with a zero for zero alone. -/
  | number (n : Nat) : Grammatical ("@" ++ toString n)
  | instruction {front computation back : String} (hf : front ∈ assignments)
    (hc : (Computation.ofText? computation).isSome = true) (hb : back ∈ conditions) :
    Grammatical (front ++ computation ++ back)

private theorem grammatical_instruction (i : Instruction) : Grammatical i.text := by
  have hf : ∃ front ∈ assignments,
      Assembler.assigned i.dest i.computation = front ++ i.computation.text := by
    rw [Assembler.assigned]
    obtain ⟨_ | _, _ | _, _ | _⟩ := i.dest
    · exact ⟨"", by decide, String.empty_append.symm⟩
    all_goals exact ⟨_, by decide, if_neg (by decide)⟩
  have hc : (Computation.ofText? i.computation.text).isSome = true := by
    rw [Computation.ofText?_text]
    rfl
  obtain ⟨front, hf, ht⟩ := hf
  rw [Assembler.text_instruction, ht]
  cases i.jump with
  | none =>
    have hg : Grammatical (front ++ i.computation.text ++ "") :=
      .instruction hf hc List.mem_cons_self
    rwa [String.append_empty] at hg
  | some j =>
    have hj : ";" ++ j.text ∈ conditions :=
      List.mem_cons_of_mem _ (List.mem_map_of_mem (by cases j <;> decide))
    have hg := Grammatical.instruction hf hc hj
    rwa [← String.append_assoc] at hg

namespace Line
variable {line next : Line}

def named? : Line → Option String
  | define l => some l.text
  | address s => some s.text
  | _ => none

private theorem grammatical_text (hc : line.counts = true)
    (hn : ∀ name ∈ line.named?, isSymbol name = true) : Grammatical line.text := by
  cases line with
  | define l => exact .definition (hn _ rfl)
  | address s => exact .symbol (hn _ rfl)
  | literal n => exact .number n.toNat
  | compute i => exact grammatical_instruction i
  | comment t => cases hc

private theorem semicolon_mem_of_search {cs : List Char} (h : Listing.jumps.search cs = true) :
    ';' ∈ cs := by
  induction cs with
  | nil => cases h
  | cons c cs ih =>
    unfold Listing.jumps.search at h
    split at h
    · next he =>
      rw [he]
      exact List.mem_cons_self
    · next he =>
      obtain ⟨rfl, rfl⟩ := List.cons.inj he
      exact List.mem_cons_of_mem _ (ih h)
    · cases h

private theorem semicolon_not_mem_of_isSymbol {name : String} (h : isSymbol name = true) :
    ';' ∉ name.toList := fun hm => by
  have hc := isSymbolChar_of_mem h hm
  revert hc
  decide

/-- A line that looks like a jump is one, if the name on it is a symbol. -/
theorem flows_of_jumps (hc : line.counts = true)
    (hn : ∀ name ∈ line.named?, isSymbol name = true) (h : Listing.jumps line.text = true) :
    line.flows = false := by
  have hs : ';' ∈ line.text.toList := semicolon_mem_of_search h
  cases line with
  | define l =>
    have hl := semicolon_not_mem_of_isSymbol (hn _ rfl)
    simp [text, hl] at hs
  | address s =>
    have hl := semicolon_not_mem_of_isSymbol (hn _ rfl)
    simp [text, hl] at hs
  | literal n =>
    have hd : isSymbolChar ';' = true := by
      rw [text, String.toList_append, List.mem_append] at hs
      exact isSymbolChar_of_mem_toString (hs.resolve_left (by decide))
    exact absurd hd (by decide)
  | compute i =>
    cases hj : i.jump with
    | none =>
      rw [text, Assembler.text_instruction, hj] at hs
      exact absurd hs (Assembler.assigned_chars _ _).2
    | some j => rw [flows, hj, Option.isNone_some]
  | comment t => cases hc

end Line

/-- The names and numbers on the lines directly in front of a jump. -/
def aims : List Line → List String
  | line :: next :: lines =>
    (if next.flows then [] else line.operand?.toList) ++ aims (next :: lines)
  | _ => []

/-- Whether lines do not begin with a jump, which what stands in front of them could aim. -/
def Enters (lines : List Line) : Prop := ∀ line ∈ lines.head?, line.flows = true

private theorem enters_nil : Enters [] := fun _ h => by cases h

private theorem Enters.append {first second : List Line} (hf : Enters first) (hs : Enters second) :
    Enters (first ++ second) := by
  intro line hl
  rw [List.head?_append] at hl
  rcases Option.or_eq_some_iff.1 hl with hl | ⟨-, hl⟩
  · exact hf line hl
  · exact hs line hl

private theorem aims_append (first : List Line) {second : List Line} (h : Enters second) :
    aims (first ++ second) = aims first ++ aims second := by
  induction first with
  | nil => rfl
  | cons line first ih =>
    cases first with
    | nil =>
      cases second with
      | nil => rfl
      | cons next second =>
        have hn : next.flows = true := h next rfl
        rw [List.singleton_append, aims, if_pos hn, List.nil_append]
        rfl
    | cons next first =>
      rw [List.cons_append, List.cons_append, aims, ← List.cons_append, ih, aims,
        List.append_assoc]

theorem mem_aims {lines : List Line} {k : Nat} {line next : Line} {name : String}
    (hl : lines[k]? = some line) (hn : lines[k + 1]? = some next) (hf : next.flows = false)
    (ho : line.operand? = some name) : name ∈ aims lines := by
  induction lines generalizing k with
  | nil => cases hl
  | cons first lines ih =>
    cases lines with
    | nil => cases hn
    | cons second lines =>
      rw [aims, List.mem_append]
      cases k with
      | zero =>
        obtain rfl := Option.some.inj hl
        obtain rfl : second = next := Option.some.inj hn
        left
        rw [hf, if_neg Bool.false_ne_true, ho]
        exact List.mem_cons_self
      | succ k => exact .inr (ih hl hn)

theorem exists_of_mem_aims {lines : List Line} {name : String} (h : name ∈ aims lines) :
    ∃ k line next, lines[k]? = some line ∧ lines[k + 1]? = some next ∧ next.flows = false ∧
      line.operand? = some name := by
  induction lines with
  | nil => cases h
  | cons first lines ih =>
    cases lines with
    | nil => cases h
    | cons second lines =>
      rw [aims, List.mem_append] at h
      rcases h with h | h
      · cases hf : second.flows with
        | true => simp [hf] at h
        | false => exact ⟨0, first, second, rfl, rfl, hf, by simpa [hf] using h⟩
      · obtain ⟨k, line, next, hl, hn, hf, ho⟩ := ih h
        exact ⟨k + 1, line, next, hl, hn, hf, ho⟩

end Assembly

/-- A jump aims at a generated label of its own block or at what its command may jump to. -/
def Command.aims (body : Option String) (number : Nat) (c : Command) : List String :=
  (c.labelKinds.filter (· ≠ .back)).map (fun kind => (Label.generated kind number).text) ++
    (c.target? body).toList

private theorem pushZeros_enters_and_aims (n : Nat) :
    Enters (List.replicate n Block.pushZero).flatten ∧
      aims (List.replicate n Block.pushZero).flatten = [] := by
  induction n with
  | zero => exact ⟨enters_nil, rfl⟩
  | succ n ih =>
    have hz : Enters Block.pushZero := fun _ h => Option.some.inj h ▸ rfl
    rw [List.replicate_succ, List.flatten_cons, aims_append _ ih.1, ih.2]
    exact ⟨hz.append ih.1, rfl⟩

private theorem Command.aims_block (unit : String) (body : Option String) (number : Nat)
    (c : Command) : Enters (c.block unit body number) ∧
      Assembly.aims (c.block unit body number) = c.aims body number := by
  have enters {line : Line} {lines : List Line} (h : line.flows = true) :
      Enters (line :: lines) := fun _ hl => Option.some.inj hl ▸ h
  cases c with
  | push g i =>
    rw [block, Block.push, Segment.checkIndex]
    split
    · cases g <;> exact ⟨enters rfl, rfl⟩
    · exact ⟨enters_nil, rfl⟩
  | pop g i =>
    rw [block, Block.pop, Segment.checkIndex]
    split
    · cases g <;> first | exact ⟨enters rfl, rfl⟩ | exact ⟨enters_nil, rfl⟩
    · exact ⟨enters_nil, rfl⟩
  | operate op => cases op <;> exact ⟨enters rfl, rfl⟩
  | function name count =>
    obtain ⟨he, ha⟩ := pushZeros_enters_and_aims count.toNat
    refine ⟨enters rfl, ?_⟩
    rw [block, Block.function, ← List.singleton_append, aims_append _ he, ha]
    rfl
  | _ => exact ⟨enters rfl, rfl⟩

namespace LoweringOptions
variable {o : LoweringOptions} {sites : List Site}

private theorem output_enters_and_aims (annotate : Bool) (number : Nat) (sites : List Site) :
    Enters (output annotate number sites) ∧ ∀ name, name ∈ aims (output annotate number sites) ↔
      ∃ (k : Nat) (s : Site), sites[k]? = some s ∧
        name ∈ s.command.aims s.body (number + issued (sites.take k)) := by
  induction sites generalizing number with
  | nil => exact ⟨enters_nil, fun name => by simp [output, aims]⟩
  | cons s sites ih =>
    obtain ⟨he, ha⟩ := ih (number + s.issues)
    obtain ⟨hb, hab⟩ := s.command.aims_block s.unit s.body number
    have hc : Enters (s.code annotate number) ∧
        aims (s.code annotate number) = s.command.aims s.body number := by
      rw [Site.code, ← hab]
      cases annotate with
      | false => exact ⟨hb, rfl⟩
      | true => exact ⟨fun _ h => Option.some.inj h ▸ rfl, aims_append _ hb⟩
    rw [output, aims_append _ he, hc.2]
    refine ⟨hc.1.append he, fun name => ?_⟩
    rw [List.mem_append, ha name]
    constructor
    · rintro (hn | ⟨k, t, hk, ht⟩)
      · exact ⟨0, s, rfl, hn⟩
      · exact ⟨k + 1, t, hk, by rwa [Nat.add_assoc] at ht⟩
    · rintro ⟨k | k, t, hk, ht⟩
      · obtain rfl := Option.some.inj hk
        exact .inl ht
      · exact .inr ⟨k, t, hk, by rwa [Nat.add_assoc]⟩

/-- What is jumped to in the lines of a program, by the command at each place. -/
theorem mem_aims_lines_iff {name : String} :
    name ∈ aims (o.lines sites) ↔ (o.bootstrap = true ∧ name = Block.entryPoint) ∨
      ∃ (k : Nat) (s : Site), sites[k]? = some s ∧
        name ∈ s.command.aims s.body (o.numberAt sites k) := by
  obtain ⟨he, ha⟩ := output_enters_and_aims o.annotate o.firstNumber sites
  have hp : name ∈ aims o.preamble ↔ o.bootstrap = true ∧ name = Block.entryPoint := by
    rw [preamble]
    cases o.bootstrap with
    | false => simp [aims]
    | true =>
      have hb : aims ((if o.annotate then [.comment "bootstrap"] else []) ++ Block.bootstrap 0) =
          [Block.entryPoint] := by cases o.annotate <;> rfl
      rw [if_pos rfl, hb, List.mem_singleton]
      exact (and_iff_right rfl).symm
  rw [lines, aims_append _ he, List.mem_append, hp, ha name]
  rfl

/-- What a jump aims at in the lines of a program. -/
private theorem mem_aims_lines {name : String} (h : name ∈ aims (o.lines sites)) :
    (∃ s ∈ sites, s.target? = some name) ∨ (∃ kind n, (Label.generated kind n).text = name) ∨
      (o.bootstrap = true ∧ name = Block.entryPoint) := by
  rcases mem_aims_lines_iff.1 h with h | ⟨k, s, hk, h⟩
  · exact .inr (.inr h)
  · rw [Command.aims, List.mem_append, List.mem_map] at h
    rcases h with ⟨kind, -, hg⟩ | h
    · exact .inr (.inl ⟨kind, _, hg⟩)
    · exact .inl ⟨s, List.mem_of_getElem? hk, Option.mem_toList.1 h⟩

end LoweringOptions

namespace Program
variable {p : Program} {o : LoweringOptions} {lines : List Line}

/-- The names on the lines of a program are symbols, those of static variables apart. -/
theorem isSymbol_named_or_static (h : p.lower o = .ok lines) {line : Line} (hl : line ∈ lines)
    {name : String} (hn : line.named? = some name) :
    isSymbol name = true ∨ ∃ unit i, line = .address (.static unit i) := by
  cases line with
  | define l =>
    obtain rfl := Option.some.inj hn
    obtain ⟨t, ht, rfl⟩ := coherent h
    exact .inl (ht.isSymbol_of_mem_labels (mem_labels_iff.2 hl))
  | address a =>
    obtain rfl := Option.some.inj hn
    obtain ⟨ha, rfl⟩ := acceptable_of_lower h
    rcases ha.symbol_cases hl with hs | ⟨unit, i, rfl⟩
    · exact .inl hs
    · exact .inr ⟨unit, i, rfl⟩
  | _ => cases hn

/-- Those of static variables are symbols just if the units of the commands that use one have names
that can be the front of a symbol. -/
theorem isSymbol_statics_iff (h : p.lower o = .ok lines) :
    (∀ unit i, .address (.static unit i) ∈ lines →
        isSymbol (Symbol.static unit i).text = true) ↔
      ∀ s ∈ p.sites, s.static?.isSome = true → isSymbolFront s.unit = true := by
  obtain ⟨ha, rfl⟩ := acceptable_of_lower h
  constructor
  · intro hs s hm hv
    obtain ⟨name, hname⟩ := Option.isSome_iff_exists.1 hv
    obtain ⟨i, rfl⟩ := static?_eq hname
    obtain ⟨unit, j, hl, he⟩ := LoweringOptions.exists_static (o := o) ha hm hname
    have hu := hs unit j hl
    rw [he] at hu
    exact isSymbol_static_iff.1 hu
  · intro hu unit i hl
    have hv : (Symbol.static unit i).text ∈ p.sites.filterMap Site.static? := by
      rw [← filterMap_static?_lines (o := o) ha]
      exact List.mem_filterMap.2 ⟨_, hl, rfl⟩
    obtain ⟨s, hs, hv⟩ := List.mem_filterMap.1 hv
    obtain ⟨j, hj⟩ := static?_eq hv
    rw [← hj]
    exact isSymbol_static_iff.2 (hu s hs (by rw [hv]; rfl))

/-- The names on the lines of a program are symbols, if those of its units are. -/
private theorem isSymbol_named (h : p.lower o = .ok lines)
    (hu : ∀ u ∈ p.units, isSymbol u.name = true) {line : Line} (hl : line ∈ lines) :
    ∀ name ∈ line.named?, isSymbol name = true := by
  intro name hn
  rcases isSymbol_named_or_static h hl hn with hs | ⟨unit, i, rfl⟩
  · exact hs
  · obtain rfl := Option.some.inj hn
    refine (isSymbol_statics_iff h).2 (fun s hs _ => ?_) unit i hl
    obtain ⟨u, hm, hs⟩ := List.mem_flatMap.1 hs
    obtain ⟨k, hk, rfl⟩ := List.mem_mapIdx.1 hs
    exact isSymbolFront_of_isSymbol (hu u hm)

/-- Lines of output that is not annotated are lines of assembly, if the names of the units are
symbols. A definition is that of a command or a generated one, and a jump goes where a command or
the entry code leads, or to a generated label. -/
theorem lines_grammatical (h : p.lower o = .ok lines) (ho : o.annotate = false)
    (hu : ∀ u ∈ p.units, isSymbol u.name = true) :
    (∀ line ∈ lines.map Line.text, Grammatical line) ∧
    (∀ name, "(" ++ name ++ ")" ∈ lines.map Line.text →
      (∃ s ∈ p.sites, s.definition? = some name) ∨
        ∃ kind n, (Label.generated kind n).text = name) ∧
    ∀ (k : Nat) (name next : String), (lines.map Line.text)[k]? = some ("@" ++ name) →
      (lines.map Line.text)[k + 1]? = some next → Listing.jumps next = true →
      (∃ s ∈ p.sites, s.target? = some name) ∨ (∃ kind n, (Label.generated kind n).text = name) ∨
        (o.bootstrap = true ∧ name = Block.entryPoint) := by
  have counts {line : Line} (hl : line ∈ lines) : line.counts = true := by
    cases line with
    | comment text =>
      have ha := ((comment_mem_lines_iff h).1 hl).1
      rw [ho] at ha
      cases ha
    | _ => rfl
  refine ⟨?_, fun name hd => ?_, fun k name next hk hn hj => ?_⟩
  · rw [List.forall_mem_map]
    exact fun line hl => Line.grammatical_text (counts hl) (isSymbol_named h hu hl)
  · obtain ⟨l, hl, rfl⟩ := List.mem_map.1 (definition_mem_text_iff.1 hd)
    cases l with
    | named n =>
      obtain ⟨-, rfl⟩ := acceptable_of_lower h
      obtain ⟨s, hs, hn⟩ := List.mem_filterMap.1 (LoweringOptions.mem_definitions_of_mem_labels hl)
      exact .inl ⟨s, hs, hn⟩
    | generated kind n => exact .inr ⟨kind, n, rfl⟩
  · rw [List.getElem?_map, Option.map_eq_some_iff] at hk hn
    obtain ⟨line, hk, ht⟩ := hk
    obtain ⟨jump, hn, rfl⟩ := hn
    have hl := List.mem_of_getElem? hn
    have hf := Line.flows_of_jumps (counts hl) (isSymbol_named h hu hl) hj
    have ha : line.operand? = some name := by
      rw [← Line.operand?_text, ht, Line.operand?_at]
    obtain ⟨-, rfl⟩ := acceptable_of_lower h
    exact LoweringOptions.mem_aims_lines (mem_aims hk hn hf ha)

end Program

def countdown : Program :=
  ⟨[⟨"Main", [⟨1, "", .function "f" 0⟩, ⟨2, "", .label "L"⟩, ⟨3, "", .push .static 0⟩,
    ⟨4, "", .ifGoto "L"⟩]⟩]⟩

theorem countdown_grammatical : ∃ lines, countdown.lower ⟨false, false⟩ = .ok lines ∧
    (∀ line ∈ lines.map Line.text, Grammatical line) ∧
    (lines.map Line.text)[12]? = some "@f$L" ∧ (lines.map Line.text)[13]? = some "D;JNE" ∧
    ∃ s ∈ countdown.sites, s.target? = some "f$L" := by
  have ha : Acceptable countdown.sites := firstRefusal?_nil_eq_none_iff.1 (by decide)
  have h : countdown.lower ⟨false, false⟩ = .ok _ := Program.lower_eq_ok_iff.2 ⟨ha, rfl⟩
  obtain ⟨hg, -, hj⟩ := Program.lines_grammatical h rfl (by decide)
  refine ⟨_, h, hg, by decide, by decide, ?_⟩
  refine (hj 12 "f$L" "D;JNE" (by decide) (by decide) (by decide)).resolve_right ?_
  rintro (⟨kind, n, he⟩ | ⟨hb, -⟩)
  · have hr := Label.isReserved_text_generated kind n
    rw [he] at hr
    exact absurd hr (by decide)
  · cases hb

end StackLowering
