import StackLowering.Proofs.Assembly.Renumbering
import StackLowering.Proofs.Lowering.History
import StackLowering.Proofs.Lowering.Labels
import StackLowering.Proofs.Machine.References
/-! The numbers of generated labels, over whatever a lowering is asked to do. A step that takes a
number defines labels with it and names them, and no other step names them: so generated code is
led into by its own command alone. -/
namespace StackLowering
open Assembly

namespace Assembly

def generatedDefinitions (texts : List String) : List Label :=
  (texts.filterMap Listing.definition?).filterMap generated?

def generatedOperands (texts : List String) : List Label :=
  (texts.filterMap Listing.operand?).filterMap generated?

private theorem generatedDefinitions_append (first second : List String) :
    generatedDefinitions (first ++ second) =
      generatedDefinitions first ++ generatedDefinitions second := by
  simp only [generatedDefinitions, List.filterMap_append]

private theorem generatedOperands_append (first second : List String) :
    generatedOperands (first ++ second) = generatedOperands first ++ generatedOperands second := by
  simp only [generatedOperands, List.filterMap_append]

namespace Line

/-- Registers, static variables and numbers are never taken for generated labels. -/
private theorem generated?_operand {line : Line}
    (h : ∀ name, line = pointer (.named name) → isReserved name = false) :
    line.operand?.bind generated? = line.target?.filter Label.isGenerated := by
  cases line with
  | address s =>
    cases s with
    | register r => exact generated?_eq_none (text_generated_ne_predefined (lookup_register r))
    | static unit i => exact generated?_eq_none fun kind n => text_generated_ne_static kind n unit i
    | label l => exact generated?_text fun name he => h name (by rw [he]; rfl)
  | literal n =>
    refine generated?_eq_none fun kind m he => ?_
    have hd := isDecimal_of_isSymbol (Label.isSymbol_text_generated kind m)
    rw [he, Text.isDecimal_toString] at hd
    cases hd
  | _ => rfl

end Line

variable {lines : List Line}

private theorem generatedDefinitions_text
    (h : ∀ name, .named name ∈ labels lines → isReserved name = false) :
    generatedDefinitions (lines.map Line.text) = (labels lines).filter Label.isGenerated := by
  rw [generatedDefinitions, List.filterMap_map, List.filterMap_filterMap, labels,
    List.filter_filterMap]
  refine List.filterMap_congr fun line hl => ?_
  rw [Function.comp_apply, Line.definition?_text]
  cases line with
  | define l =>
    refine generated?_text fun name he => h name (mem_labels_iff.2 ?_)
    rwa [← he]
  | _ => rfl

private theorem generatedOperands_text
    (h : ∀ name, .named name ∈ lines.filterMap Line.target? → isReserved name = false) :
    generatedOperands (lines.map Line.text) =
      (lines.filterMap Line.target?).filter Label.isGenerated := by
  rw [generatedOperands, List.filterMap_map, List.filterMap_filterMap, List.filter_filterMap]
  refine List.filterMap_congr fun line hl => ?_
  rw [Function.comp_apply, Line.operand?_text]
  refine Line.generated?_operand fun name he => h name (List.mem_filterMap.2 ⟨line, hl, ?_⟩)
  rw [he]
  rfl

private theorem mem_generatedDefinitions_iff {l : Label} :
    l ∈ generatedDefinitions (lines.map Line.text) ↔
      (∃ kind n, l = .generated kind n) ∧ "(" ++ l.text ++ ")" ∈ lines.map Line.text := by
  rw [generatedDefinitions, List.mem_filterMap, definition_mem_text_iff]
  constructor
  · rintro ⟨name, hm, hg⟩
    obtain ⟨hl, rfl⟩ := generated?_eq_some_iff.1 hg
    refine ⟨hl, ?_⟩
    obtain ⟨text, ht, hd⟩ := List.mem_filterMap.1 hm
    obtain ⟨line, hline, rfl⟩ := List.mem_map.1 ht
    rw [Line.definition?_text, Option.map_eq_some_iff] at hd
    obtain ⟨l', hd, he⟩ := hd
    exact List.mem_map.2 ⟨l', List.mem_filterMap.2 ⟨line, hline, hd⟩, he⟩
  · rintro ⟨hl, hm⟩
    obtain ⟨l', hl', he⟩ := List.mem_map.1 hm
    refine ⟨l.text, ?_, generated?_eq_some_iff.2 ⟨hl, rfl⟩⟩
    refine List.mem_filterMap.2 ⟨_, List.mem_map_of_mem (mem_labels_iff.1 hl'), ?_⟩
    rw [Line.definition?_text, ← he]
    rfl

private theorem count_definition_text (name : String) :
    (lines.map Line.text).count ("(" ++ name ++ ")") =
      ((labels lines).map Label.text).count name := by
  simp only [List.count, labels, List.countP_map, List.countP_filterMap]
  refine List.countP_congr fun line _ => ?_
  simp only [Function.comp_apply, beq_iff_eq, Line.text_eq_definition_iff]
  constructor
  · rintro ⟨l, rfl, rfl⟩
    simp [Line.definition?]
  · intro h
    cases line with
    | define l => exact ⟨l, rfl, by simpa [Line.definition?] using h⟩
    | _ => simp [Line.definition?] at h

end Assembly

namespace Command

def takesNumber : Command → Bool
  | operate op => op.isComparison
  | call .. => true
  | _ => false

private theorem labelKinds_cases (c : Command) :
    c.takesNumber = true ∧ (c.labelKinds = [.holds, .done] ∨ c.labelKinds = [.back]) ∨
      c.takesNumber = false ∧ c.labelKinds = [] := by
  cases c with
  | operate op =>
    rw [takesNumber, labelKinds]
    cases op.isComparison with
    | true => exact .inl ⟨rfl, .inl rfl⟩
    | false => exact .inr ⟨rfl, rfl⟩
  | call name count => exact .inl ⟨rfl, .inr rfl⟩
  | _ => exact .inr ⟨rfl, rfl⟩

/-- The block of an accepted command defines generated labels with its number alone, and names the
same. -/
private theorem generated_block {c : Command} {body : Option String} (hb : ∀ f ∈ body, Definable f)
    (ho : c.offence? body = none) (unit : String) (n : Nat) :
    let texts := (c.block unit body n).map Line.text
    generatedDefinitions texts = c.labelKinds.map (.generated · n) ∧
      generatedOperands texts = c.labelKinds.map (.generated · n) := by
  have own : (c.labelKinds.map (Label.generated · n)).filter Label.isGenerated =
      c.labelKinds.map (.generated · n) := by
    rw [List.filter_map]
    exact congrArg _ (List.filter_eq_self.2 fun kind _ => rfl)
  have others (name? : Option String) :
      (name?.toList.map Label.named).filter Label.isGenerated = [] := by cases name? <;> rfl
  constructor
  · rw [generatedDefinitions_text, labels_block, List.filter_append, own, others, List.nil_append]
    intro name hn
    simp only [labels_block, List.mem_append, List.mem_map, Option.mem_toList, Label.named.injEq,
      exists_eq_right, reduceCtorEq, and_false, exists_false, or_false] at hn
    exact (definable_of_definition? hb ho hn).2
  · rw [generatedOperands_text, filterMap_target?_block, List.filter_append, own, others,
      List.append_nil]
    intro name hn
    simp only [filterMap_target?_block, List.mem_append, List.mem_map, Option.mem_toList,
      Label.named.injEq, exists_eq_right, reduceCtorEq, and_false, exists_false, false_or] at hn
    exact (definable_of_target? hb ho hn).2

end Command

namespace Lowering

namespace Step

def isUnit : Step → Bool
  | unit _ => true
  | _ => false

def takesNumber : Step → Bool
  | bootstrap => true
  | command c => c.takesNumber
  | located l => l.command.takesNumber
  | _ => false

def labelKinds : Step → List LabelKind
  | bootstrap => [.back]
  | command c => c.labelKinds
  | located l => l.command.labelKinds
  | _ => []

private theorem labelKinds_cases (s : Step) :
    s.takesNumber = true ∧ (s.labelKinds = [.holds, .done] ∨ s.labelKinds = [.back]) ∨
      s.takesNumber = false ∧ s.labelKinds = [] := by
  cases s with
  | bootstrap => exact .inl ⟨rfl, .inr rfl⟩
  | command c => exact c.labelKinds_cases
  | located l => exact l.command.labelKinds_cases
  | _ => exact .inr ⟨rfl, rfl⟩

end Step

/-- The commands up to the first refused one. -/
def accepted (t : Lowering) : List Located → List Located
  | [] => []
  | l :: ls =>
    match t.located l with
    | (t, none) => l :: t.accepted ls
    | (_, some _) => []

/-- What of a step succeeds, and a unit command by command. -/
def singly (t : Lowering) : Step → List Step
  | .unit u => .beginUnit u.name :: ((t.beginUnit u.name).accepted u.commands).map .located
  | s => if (t.step s).2 = none then [s] else []

def singles (t : Lowering) : List Step → List Step
  | [] => []
  | s :: steps => t.singly s ++ (t.step s).1.singles steps

def Report.texts (r : Report) : List String := r.added.map Line.text

private theorem history_append (t : Lowering) (first second : List Step) :
    t.history (first ++ second) = t.history first ++ (t.run first).history second := by
  induction first generalizing t with
  | nil => rfl
  | cons s first ih => exact congrArg (t.report s :: ·) (ih _)

def Report.Done (r : Report) : Prop := r.failure = none ∧ r.step.isUnit = false

section Singles
variable {t : Lowering}

/-- Unless it is a unit, a step that fails changes nothing. -/
private theorem step_of_failure {s : Step} (hs : s.isUnit = false) (hf : (t.step s).2 ≠ none) :
    (t.step s).1 = t := by
  apply step_of_isFailedCommand
  rw [Report.isFailedCommand, Bool.and_eq_true_iff]
  refine ⟨?_, Option.isSome_iff_ne_none.2 hf⟩
  cases s with
  | command c => rfl
  | located l => rfl
  | unit u => cases hs
  | _ => exact absurd rfl hf

/-- Taken one by one, the commands of a unit all succeed, and leave what the unit leaves. -/
private theorem accepted_done (t : Lowering) (ls : List Located) :
    (∀ r ∈ t.history ((t.accepted ls).map .located), r.Done) ∧
      t.run ((t.accepted ls).map .located) = (t.commands ls).1 := by
  induction ls generalizing t with
  | nil => exact ⟨List.forall_mem_nil _, rfl⟩
  | cons l ls ih =>
    rcases hl : t.located l with ⟨u, _ | rejection⟩
    · have hs : t.step (.located l) = (u, none) := by rw [step, hl]; rfl
      obtain ⟨hdone, hrun⟩ := ih u
      rw [accepted, commands, hl, List.map_cons]
      constructor
      · rw [history, hs]
        exact List.forall_mem_cons.2 ⟨⟨congrArg Prod.snd hs, rfl⟩, hdone⟩
      · rw [← hrun, run, List.foldl_cons, hs, run]
    · rw [accepted, commands, hl]
      exact ⟨List.forall_mem_nil _, (located_of_rejected hl).1.symm⟩

private theorem singly_done (t : Lowering) (s : Step) :
    (∀ r ∈ t.history (t.singly s), r.Done) ∧ t.run (t.singly s) = (t.step s).1 := by
  have tried (hs : s.isUnit = false) (he : t.singly s = if (t.step s).2 = none then [s] else []) :
      (∀ r ∈ t.history (t.singly s), r.Done) ∧ t.run (t.singly s) = (t.step s).1 := by
    rw [he]
    split
    · next hf => exact ⟨List.forall_mem_singleton.2 ⟨hf, hs⟩, rfl⟩
    · next hf => exact ⟨List.forall_mem_nil _, (step_of_failure hs hf).symm⟩
  cases s with
  | unit u =>
    obtain ⟨hdone, hrun⟩ := accepted_done (t.beginUnit u.name) u.commands
    exact ⟨List.forall_mem_cons.2 ⟨⟨rfl, rfl⟩, hdone⟩, hrun⟩
  | _ => exact tried rfl rfl

/-- What succeeds of a session leads to where the session leads. -/
private theorem singles_done (t : Lowering) (steps : List Step) :
    (∀ r ∈ t.history (t.singles steps), r.Done) ∧ t.run (t.singles steps) = t.run steps := by
  induction steps generalizing t with
  | nil => exact ⟨List.forall_mem_nil _, rfl⟩
  | cons s steps ih =>
    obtain ⟨hs, hrun⟩ := singly_done t s
    obtain ⟨hdone, hrest⟩ := ih (t.step s).1
    rw [singles, history_append, run_append, hrun]
    exact ⟨List.forall_mem_append.2 ⟨hs, hdone⟩, hrest⟩

end Singles

/-- The report of a step that took the number, if it took one: all generated labels in its lines
have this number, and it names those that it defines. -/
structure Report.Numbered (r : Report) (n : Nat) : Prop where
  definitions : generatedDefinitions r.texts = r.step.labelKinds.map (.generated · n)
  operands : generatedOperands r.texts = r.step.labelKinds.map (.generated · n)

def Step.next (s : Step) (n : Nat) : Nat := if s.takesNumber then n + 1 else n

section Numbered
variable {t : Lowering}

private theorem added_of_step {s : Step} {scope : Scope} {block : List Line}
    (h : (t.step s).1 = t.extend scope block) : (t.report s).added = block := by
  rw [report, h, toList_lines_extend, ← Array.length_toList, List.drop_left]

private theorem generated_remark (text : String) :
    generatedDefinitions ((t.remark text).map Line.text) = [] ∧
      generatedOperands ((t.remark text).map Line.text) = [] := by
  have ht : labels (t.remark text) = [] ∧ (t.remark text).filterMap Line.target? = [] := by
    rw [remark]
    split <;> exact ⟨rfl, rfl⟩
  rw [generatedDefinitions_text, generatedOperands_text, ht.1, ht.2]
  · exact ⟨rfl, rfl⟩
  · rw [ht.2]
    exact fun name hn => by cases hn
  · rw [ht.1]
    exact fun name hn => by cases hn

/-- What a step does with its number, if it puts out the block of an accepted command behind lines
without generated labels. -/
private theorem numbered_of_block (h : t.Coherent) {c : Command} {s : Step} (front : List Line)
    (hr : c.refusal? t.scope.function t.scope.defined.contains = none)
    (hd : generatedDefinitions (front.map Line.text) = [])
    (ho : generatedOperands (front.map Line.text) = []) (hk : s.labelKinds = c.labelKinds)
    (hs : (t.step s).1 = t.extend (t.scope.behind c)
      (front ++ c.block t.scope.unit t.scope.function t.scope.issued)) :
    (t.report s).Numbered t.scope.issued ∧ (t.step s).1.scope.issued = s.next t.scope.issued := by
  rw [Command.refusal?, Option.or_eq_none_iff] at hr
  have hb := Command.generated_block h.sound hr.1 t.scope.unit t.scope.issued
  refine ⟨⟨?_, ?_⟩, ?_⟩
  · rw [Report.texts, added_of_step hs, List.map_append, generatedDefinitions_append, hd, hb.1,
      ← hk]
    rfl
  · rw [Report.texts, added_of_step hs, List.map_append, generatedOperands_append, ho, hb.2, ← hk]
    rfl
  · have hi : (t.step s).1.scope.issued =
        if c.labelKinds = [] then t.scope.issued else t.scope.issued + 1 := by rw [hs]; rfl
    rw [hi, ← hk, Step.next]
    rcases s.labelKinds_cases with ⟨ht, hl | hl⟩ | ⟨ht, hl⟩ <;> simp [ht, hl]

private theorem Coherent.numbered (h : t.Coherent) {s : Step} (hs : s.isUnit = false)
    (hf : (t.step s).2 = none) :
    (t.report s).Numbered t.scope.issued ∧ (t.step s).1.scope.issued = s.next t.scope.issued := by
  have silent (he : (t.step s).1.lines = t.lines) (hk : s.labelKinds = []) :
      (t.report s).Numbered t.scope.issued := by
    have ht : (t.report s).texts = [] := by
      rw [Report.texts, report, he, ← Array.length_toList, List.drop_length]
      rfl
    have hl : (t.report s).step.labelKinds = [] := hk
    exact ⟨by rw [ht, hl]; rfl, by rw [ht, hl]; rfl⟩
  cases s with
  | beginUnit name => exact ⟨silent rfl rfl, rfl⟩
  | withAnnotations => exact ⟨silent rfl rfl, rfl⟩
  | bootstrap =>
    obtain ⟨hd, ho⟩ := generated_remark (t := t) "bootstrap"
    refine numbered_of_block h (t.remark "bootstrap" ++ Block.setup)
      (Command.refusal?_entry t.scope.function _) ?_ ?_ rfl ?_
    · rw [List.map_append, generatedDefinitions_append, hd]
      rfl
    · rw [List.map_append, generatedOperands_append, ho]
      rfl
    · rw [List.append_assoc]
      rfl
  | command c =>
    cases hl : t.scope.lower c with
    | error refusal => simp [Lowering.step, Lowering.command, hl] at hf
    | ok behind =>
      obtain ⟨scope, block⟩ := behind
      obtain ⟨hr, rfl, rfl⟩ := (Scope.lower_eq_ok_iff h.sound).1 hl
      refine numbered_of_block h [] hr rfl rfl rfl ?_
      rw [Lowering.step, Lowering.command, hl]
      rfl
  | located l =>
    cases hl : t.scope.lower l.command with
    | error refusal => simp [Lowering.step, Lowering.located, hl] at hf
    | ok behind =>
      obtain ⟨scope, block⟩ := behind
      obtain ⟨hr, rfl, rfl⟩ := (Scope.lower_eq_ok_iff h.sound).1 hl
      obtain ⟨hd, ho⟩ := generated_remark (t := t) l.text
      refine numbered_of_block h _ hr hd ho rfl ?_
      rw [Lowering.step, Lowering.located, hl]
      rfl
  | unit u => cases hs

end Numbered

def NumberedFrom : Nat → List Report → Prop
  | _, [] => True
  | n, r :: rs => r.Numbered n ∧ NumberedFrom (r.step.next n) rs

private theorem Coherent.numberedFrom {t : Lowering} (h : t.Coherent) {steps : List Step}
    (hs : ∀ r ∈ t.history steps, r.Done) :
    NumberedFrom t.scope.issued (t.history steps) ∧
      (t.run steps).scope.issued =
        t.scope.issued + (t.history steps).countP (·.step.takesNumber) := by
  induction steps generalizing t with
  | nil => exact ⟨trivial, rfl⟩
  | cons s steps ih =>
    obtain ⟨⟨hf, hu⟩, hrest⟩ := List.forall_mem_cons.1 hs
    obtain ⟨hn, hi⟩ := h.numbered (s := s) hu hf
    obtain ⟨hfrom, hcount⟩ := ih (h.step s) hrest
    rw [hi] at hfrom hcount
    refine ⟨⟨hn, hfrom⟩, ?_⟩
    have hr : (t.run (s :: steps)).scope.issued = ((t.step s).1.run steps).scope.issued := rfl
    rw [hr, hcount, history, List.countP_cons, Step.next, report]
    dsimp only
    split <;> omega

def numbers (done : List Report) : List (List LabelKind) :=
  (done.filter (·.step.takesNumber)).map (·.step.labelKinds)

private theorem numbers_cons (r : Report) (done : List Report) :
    numbers (r :: done) =
      if r.step.takesNumber then r.step.labelKinds :: numbers done else numbers done := by
  rw [numbers, numbers, List.filter_cons]
  split <;> rfl

private theorem length_numbers (done : List Report) :
    (numbers done).length = done.countP (·.step.takesNumber) := by
  rw [numbers, List.length_map, List.countP_eq_length_filter]

private theorem mem_numbers {done : List Report} {kinds : List LabelKind}
    (h : kinds ∈ numbers done) : kinds = [.holds, .done] ∨ kinds = [.back] := by
  obtain ⟨r, hr, rfl⟩ := List.mem_map.1 h
  have ht := (List.mem_filter.1 hr).2
  rcases r.step.labelKinds_cases with ⟨-, hk⟩ | ⟨hn, -⟩
  · exact hk
  · simp [hn] at ht

private theorem NumberedFrom.definitions {n : Nat} {done : List Report} (h : NumberedFrom n done) :
    generatedDefinitions (done.flatMap Report.texts) =
      ((numbers done).zipIdx n).flatMap fun (kinds, k) => kinds.map (.generated · k) := by
  induction done generalizing n with
  | nil => rfl
  | cons r rs ih =>
    obtain ⟨hr, hrs⟩ := h
    rw [List.flatMap_cons, generatedDefinitions_append, hr.definitions, ih hrs, numbers_cons,
      Step.next]
    rcases r.step.labelKinds_cases with ⟨ht, -⟩ | ⟨ht, hk⟩
    · rw [ht]
      rfl
    · rw [ht, hk]
      rfl

private theorem NumberedFrom.exists_numbered {n : Nat} {done : List Report}
    (h : NumberedFrom n done) {r : Report} (hr : r ∈ done) : ∃ k, r.Numbered k := by
  induction done generalizing n with
  | nil => cases hr
  | cons s rs ih =>
    obtain ⟨hs, hrs⟩ := h
    rcases List.mem_cons.1 hr with rfl | hr
    · exact ⟨n, hs⟩
    · exact ih hrs hr

/-- A definition stands in the lines of one report. -/
private theorem index_unique {done : List Report} {name : String}
    (h : (done.flatMap Report.texts).Pairwise fun a b =>
      ∀ name, ¬(a = "(" ++ name ++ ")" ∧ b = "(" ++ name ++ ")"))
    {i j : Nat} {r s : Report} (hi : done[i]? = some r) (hj : done[j]? = some s)
    (hr : "(" ++ name ++ ")" ∈ r.texts) (hs : "(" ++ name ++ ")" ∈ s.texts) : i = j := by
  have apart {i j : Nat} {r s : Report} (hi : done[i]? = some r) (hj : done[j]? = some s)
      (hr : "(" ++ name ++ ")" ∈ r.texts) (hs : "(" ++ name ++ ")" ∈ s.texts) : ¬i < j := by
    intro hlt
    obtain ⟨hi', rfl⟩ := List.getElem?_eq_some_iff.1 hi
    obtain ⟨hj', rfl⟩ := List.getElem?_eq_some_iff.1 hj
    have hp := List.pairwise_iff_getElem.1 (List.pairwise_flatMap.1 h).2 i j hi' hj' hlt
    exact hp _ hr _ hs name ⟨rfl, rfl⟩
  exact Nat.le_antisymm (Nat.not_lt.1 (apart hj hi hs hr)) (Nat.not_lt.1 (apart hi hj hr hs))

/-- The generated labels that a step names are its own. -/
private theorem Report.Numbered.own {r : Report} {n : Nat} (h : r.Numbered n) {kind : LabelKind}
    {k : Nat} (ha : "@" ++ (Label.generated kind k).text ∈ r.texts) :
    "(" ++ (Label.generated kind k).text ++ ")" ∈ r.texts ∧ r.step.takesNumber = true := by
  have ho : .generated kind k ∈ generatedOperands r.texts :=
    List.mem_filterMap.2 ⟨_, List.mem_filterMap.2 ⟨_, ha, Line.operand?_at _⟩,
      generated?_eq_some_iff.2 ⟨⟨kind, k, rfl⟩, rfl⟩⟩
  rw [h.operands, ← h.definitions] at ho
  refine ⟨(mem_generatedDefinitions_iff.1 ho).2, ?_⟩
  rcases r.step.labelKinds_cases with ⟨ht, -⟩ | ⟨-, hk⟩
  · exact ht
  · rw [h.definitions, hk] at ho
    cases ho

private theorem mem_zipIdx_flatMap {groups : List (List LabelKind)} {kind : LabelKind} {k : Nat} :
    Label.generated kind k ∈ groups.zipIdx.flatMap (fun (kinds, k) => kinds.map (.generated · k)) ↔
      kind ∈ groups[k]?.getD [] := by
  rw [List.mem_flatMap]
  constructor
  · rintro ⟨⟨kinds, k'⟩, hk, hm⟩
    obtain ⟨kind', hkind, he⟩ := List.mem_map.1 hm
    cases he
    rw [List.mem_zipIdx_iff_getElem?.1 hk]
    exact hkind
  · intro hm
    cases hk : groups[k]? with
    | none => simp [hk] at hm
    | some kinds =>
      rw [hk] at hm
      exact ⟨(kinds, k), List.mem_zipIdx_iff_getElem?.2 hk, List.mem_map_of_mem hm⟩

private theorem nodup_numbers {done : List Report} (k : Nat) :
    ((numbers done)[k]?.getD []).Nodup := by
  cases hk : (numbers done)[k]? with
  | none => exact List.nodup_nil
  | some kinds =>
    rcases mem_numbers (List.mem_of_getElem? hk) with rfl | rfl
    · decide
    · decide

/-- Generated labels stay with their command, whatever is asked of a lowering and however much of it
is refused. The comparisons, calls and entry codes that succeed take a number each, in turn. Each of
them defines the two labels of a comparison or a return label with its number, once, and nothing
else names these. -/
theorem generated_labels_closed (steps : List Step) :
    let t := initial.run steps
    let done := initial.history (initial.singles steps)
    let texts := t.lines.toList.map Line.text
    let defined (kind : LabelKind) (k : Nat) : Nat :=
      texts.count ("(" ++ (Label.generated kind k).text ++ ")")
    initial.run (initial.singles steps) = t ∧ (∀ r ∈ done, r.failure = none) ∧
      texts = done.flatMap Report.texts ∧
    t.scope.issued = done.countP (·.step.takesNumber) ∧
    (∀ k < t.scope.issued,
      (defined .holds k = 1 ∧ defined .done k = 1 ∧ defined .back k = 0) ∨
        (defined .holds k = 0 ∧ defined .done k = 0 ∧ defined .back k = 1)) ∧
    (∀ k, t.scope.issued ≤ k → ∀ kind, defined kind k = 0) ∧
    generatedDefinitions texts =
      (numbers done).zipIdx.flatMap (fun (kinds, k) => kinds.map (.generated · k)) ∧
    ∀ (i : Nat) r, done[i]? = some r → ∀ kind k,
      "@" ++ (Label.generated kind k).text ∈ r.texts →
        "(" ++ (Label.generated kind k).text ++ ")" ∈ r.texts ∧ r.step.takesNumber = true ∧
          ∀ (j : Nat) s, done[j]? = some s →
            "(" ++ (Label.generated kind k).text ++ ")" ∈ s.texts → j = i := by
  intro t done texts defined
  have hc : t.Coherent := coherent_initial.run steps
  obtain ⟨hdone, hrun⟩ := singles_done initial steps
  obtain ⟨hfrom, hissued⟩ := coherent_initial.numberedFrom hdone
  have htexts : texts = done.flatMap Report.texts := by
    have hl := lines_run initial (initial.singles steps)
    rw [hrun] at hl
    change t.lines.toList.map Line.text = _
    rw [hl, List.map_append, List.map_flatMap]
    rfl
  have hcount : t.scope.issued = done.countP (·.step.takesNumber) := by
    rw [hrun] at hissued
    rw [hissued]
    exact Nat.zero_add _
  have hdefs : generatedDefinitions texts =
      (numbers done).zipIdx.flatMap (fun (kinds, k) => kinds.map (.generated · k)) := by
    rw [htexts]
    exact hfrom.definitions
  -- No definition stands twice in the lines, so that counting them asks only for membership.
  have hdefined (kind : LabelKind) (k : Nat) :
      defined kind k = ((numbers done)[k]?.getD []).count kind := by
    have hm : (Label.generated kind k).text ∈ (labels t.lines.toList).map Label.text ↔
        kind ∈ (numbers done)[k]?.getD [] := by
      rw [← definition_mem_text_iff, ← mem_zipIdx_flatMap, ← hdefs, mem_generatedDefinitions_iff]
      exact ⟨fun h => ⟨⟨kind, k, rfl⟩, h⟩, fun h => h.2⟩
    change texts.count _ = _
    rw [count_definition_text, hc.nodup_text.count, (nodup_numbers k).count]
    exact if_congr hm rfl rfl
  refine ⟨hrun, fun r hr => (hdone r hr).1, htexts, hcount, ?_, ?_, hdefs, ?_⟩
  · intro k hk
    rw [hcount, ← length_numbers] at hk
    simp only [hdefined, List.getElem?_eq_getElem hk, Option.getD_some]
    rcases mem_numbers (List.getElem_mem hk) with he | he
    · rw [he]
      exact .inl ⟨rfl, rfl, rfl⟩
    · rw [he]
      exact .inr ⟨rfl, rfl, rfl⟩
  · intro k hk kind
    rw [hcount, ← length_numbers] at hk
    rw [hdefined, List.getElem?_eq_none hk]
    rfl
  · intro i r hr kind k ha
    obtain ⟨n, hn⟩ := hfrom.exists_numbered (List.mem_of_getElem? hr)
    obtain ⟨hd, ht⟩ := hn.own ha
    refine ⟨hd, ht, fun j s hs hd' => ?_⟩
    exact index_unique (htexts ▸ hc.pairwise_text) hs hr hd' hd

/-- Units, functions and labels named like generated labels; two commands are refused for it, and
the last one is not reached. -/
def imitating : List Step :=
  [.beginUnit "LABEL_TRUE_0", .command (.label "LABEL_TRUE_0"), .command (.push .static 0),
    .located ⟨1, "eq", .operate .eq⟩,
    .unit ⟨"RETURN_LABEL_1", [⟨1, "function f 0", .function "f" 0⟩,
      ⟨2, "label LABEL_TRUE_0", .label "LABEL_TRUE_0"⟩, ⟨3, "call f 0", .call "f" 0⟩,
      ⟨4, "call LABEL_END_0 0", .call "LABEL_END_0" 0⟩, ⟨5, "lt", .operate .lt⟩]⟩]

/-- The call is led back to by its own code, and nothing else has the second number. -/
theorem imitating_closed :
    (initial.run imitating).scope.issued = 2 ∧
      "@LABEL_TRUE_0.0" ∈ (initial.run imitating).lines.toList.map Line.text ∧
      "(f$LABEL_TRUE_0)" ∈ (initial.run imitating).lines.toList.map Line.text ∧
      ((initial.run imitating).lines.toList.map Line.text).count "(LABEL_END_1)" = 0 ∧
      ∃ r, (initial.history (initial.singles imitating))[6]? = some r ∧
        r.step = .located ⟨3, "call f 0", .call "f" 0⟩ ∧ "@RETURN_LABEL_1" ∈ r.texts ∧
        "(RETURN_LABEL_1)" ∈ r.texts ∧
        ∀ (j : Nat) s, (initial.history (initial.singles imitating))[j]? = some s →
          "(RETURN_LABEL_1)" ∈ s.texts → j = 6 := by
  obtain ⟨-, -, -, hissued, hnumbers, -, -, hown⟩ := generated_labels_closed imitating
  have hi : (initial.run imitating).scope.issued = 2 := hissued.trans (by decide)
  have hr : (initial.history (initial.singles imitating))[6]? = some _ := rfl
  obtain ⟨hd, -, hunique⟩ := hown 6 _ hr .back 1 (by decide)
  refine ⟨hi, by decide, by decide, ?_, _, hr, rfl, by decide, hd, hunique⟩
  rcases hnumbers 1 (by rw [hi]; decide) with ⟨-, -, hb⟩ | ⟨-, he, -⟩
  · exact absurd hb (by decide)
  · exact he

end Lowering
end StackLowering
