import StackLowering.Proofs.Assembly.Assembler
import StackLowering.Proofs.Lowering.Acceptance
/-! Source lines as comments in the output. They change neither what is refused nor any other line,
and each stands in front of the lines of its command. -/
namespace StackLowering
open Assembly

/-- A block has no comment in it, whatever the names in it. -/
theorem Command.all_counts_block (unit : String) (body : Option String) (number : Nat)
    (c : Command) : (c.block unit body number).all Line.counts = true := by
  cases c with
  | push g i =>
    rw [block, Block.push, Segment.checkIndex]
    split
    · cases g <;> rfl
    · rfl
  | pop g i =>
    rw [block, Block.pop, Segment.checkIndex]
    split
    · cases g <;> rfl
    · rfl
  | operate op => cases op <;> rfl
  | function name count =>
    have hz : Block.pushZero.all Line.counts = true := rfl
    have hf : (List.replicate count.toNat Block.pushZero).flatten.all Line.counts = true := by
      rw [List.all_flatten, List.all_replicate]
      split
      · rfl
      · exact hz
    exact hf
  | _ => rfl

section Comments
variable (number : Nat) (sites : List Site)

private theorem filter_counts_code (s : Site) :
    (s.code true number).filter Line.counts = s.code false number := by
  have hb := Command.all_counts_block s.unit s.body number s.command
  exact List.filter_eq_self.2 (List.all_eq_true.1 hb)

private theorem countP_comment_code (s : Site) :
    (s.code true number).countP (!·.counts) = 1 := by
  have hb := List.all_eq_true.1 (Command.all_counts_block s.unit s.body number s.command)
  have hn : (s.command.block s.unit s.body number).countP (!·.counts) = 0 :=
    List.countP_eq_zero.2 fun line hl => by simp [hb line hl]
  rw [Site.code, List.countP_append, hn]
  rfl

private theorem filter_counts_output :
    (output true number sites).filter Line.counts = output false number sites := by
  induction sites generalizing number with
  | nil => rfl
  | cons s sites ih => rw [output, output, List.filter_append, filter_counts_code, ih]

private theorem countP_comment_output :
    (output true number sites).countP (!·.counts) = sites.length := by
  induction sites generalizing number with
  | nil => rfl
  | cons s sites ih =>
    rw [output, List.countP_append, countP_comment_code, ih, List.length_cons, Nat.add_comm]

end Comments

/-- The comments among the texts of lines are those of comment lines. -/
private theorem filter_isComment_text (lines : List Line) :
    (lines.map Line.text).filter (!Listing.isComment ·) =
      (lines.filter Line.counts).map Line.text := by
  rw [List.filter_map]
  congr 2
  funext line
  rw [Function.comp_apply, Line.isComment_text, Bool.not_not]

private theorem countP_isComment_text (lines : List Line) :
    (lines.map Line.text).countP Listing.isComment = lines.countP (!·.counts) := by
  rw [List.countP_map]
  congr 1
  funext line
  exact Line.isComment_text line

namespace Program
variable {p : Program} {bootstrap : Bool}

private theorem length_sites (p : Program) : p.sites.length = p.commandCount := by
  have hu : ∀ u : SourceUnit, u.sites.length = u.commands.length := fun u => List.length_mapIdx
  rw [sites, commandCount, List.length_flatMap, List.length_flatMap]
  simp only [hu]

/-- Commands at the end of the last unit come behind all others. -/
private theorem sites_concat (us : List SourceUnit) (name : String) (before ls : List Located) :
    (⟨us ++ [⟨name, before ++ ls⟩]⟩ : Program).sites =
      (⟨us ++ [⟨name, before⟩]⟩ : Program).sites ++ sitesBehind name before ls := by
  simp only [sites, List.flatMap_append, List.flatMap_singleton, SourceUnit.sites,
    sitesBehind_append, List.nil_append, List.append_assoc]

private theorem exists_sites_eq {us vs : List SourceUnit} {name : String}
    {before after : List Located} {l : Located}
    (hu : p.units = us ++ ⟨name, before ++ l :: after⟩ :: vs) : ∃ rest,
      p.sites =
        (⟨us ++ [⟨name, before⟩]⟩ : Program).sites ++ ⟨name, enclosing before, l⟩ :: rest := by
  refine ⟨sitesBehind name (before ++ [l]) after ++ vs.flatMap SourceUnit.sites, ?_⟩
  have hc := sites_concat us name before (l :: after)
  rw [sitesBehind_cons] at hc
  rw [sites, hu, List.append_cons, List.flatMap_append, ← sites, hc, List.append_assoc,
    List.cons_append]

structure Annotates (p : Program) (bootstrap : Bool) (plain annotated : List Line) : Prop where
  uncommented :
    (annotated.map Line.text).filter (!Listing.isComment ·) = plain.map Line.text
  /-- One comment for each command, and one for the entry code. -/
  count : (annotated.map Line.text).countP Listing.isComment =
    p.commandCount + if bootstrap then 1 else 0
  /-- What a command adds to the lines of those before it has the command's comment in front. -/
  placed : ∀ us name before l after vs, p.units = us ++ ⟨name, before ++ l :: after⟩ :: vs →
    ∃ front block back front' back',
      (⟨us ++ [⟨name, before⟩]⟩ : Program).lower ⟨bootstrap, false⟩ = .ok front ∧
      (⟨us ++ [⟨name, before ++ [l]⟩]⟩ : Program).lower ⟨bootstrap, false⟩ =
        .ok (front ++ block) ∧
      (⟨us ++ [⟨name, before⟩]⟩ : Program).lower ⟨bootstrap, true⟩ = .ok front' ∧
      plain = front ++ block ++ back ∧
      annotated = front' ++ .comment l.text :: block ++ back'

private theorem annotates (ha : Acceptable p.sites) :
    p.Annotates bootstrap
      (LoweringOptions.preamble ⟨bootstrap, false⟩ ++
        output false (LoweringOptions.firstNumber ⟨bootstrap, false⟩) p.sites)
      (LoweringOptions.preamble ⟨bootstrap, true⟩ ++
        output true (LoweringOptions.firstNumber ⟨bootstrap, true⟩) p.sites) := by
  refine ⟨?_, ?_, ?_⟩
  · have hp : (LoweringOptions.preamble ⟨bootstrap, true⟩).filter Line.counts =
        LoweringOptions.preamble ⟨bootstrap, false⟩ := by cases bootstrap <;> rfl
    rw [filter_isComment_text, List.filter_append, hp, filter_counts_output]
    rfl
  · have hp : (LoweringOptions.preamble ⟨bootstrap, true⟩).countP (!·.counts) =
        if bootstrap then 1 else 0 := by cases bootstrap <;> rfl
    rw [countP_isComment_text, List.countP_append, hp, countP_comment_output, length_sites,
      Nat.add_comm]
  · intro us name before l after vs hu
    let front : Program := ⟨us ++ [⟨name, before⟩]⟩
    let s : Site := ⟨name, enclosing before, l⟩
    let number := LoweringOptions.firstNumber ⟨bootstrap, false⟩ + StackLowering.issued front.sites
    have hnext : (⟨us ++ [⟨name, before ++ [l]⟩]⟩ : Program).sites = front.sites ++ [s] := by
      rw [sites_concat, sitesBehind_cons]
      rfl
    obtain ⟨rest, hs⟩ : ∃ rest, p.sites = front.sites ++ s :: rest := exists_sites_eq hu
    have hfront : Acceptable (front.sites ++ [s]) := by
      rw [hs, List.append_cons] at ha
      exact ha.left
    refine ⟨_, s.code false number, output false (number + s.issues) rest, _,
      output true (number + s.issues) rest, lower_eq_ok_iff.2 ⟨hfront.left, rfl⟩,
      lower_eq_ok_iff.2 ⟨hnext ▸ hfront, ?_⟩, lower_eq_ok_iff.2 ⟨hfront.left, rfl⟩, ?_, ?_⟩
    · rw [hnext, output_append, ← List.append_assoc, output, output, List.append_nil]
    · rw [hs, output_append, output, ← List.append_assoc, ← List.append_assoc]
    · rw [hs, output_append, output, ← List.append_assoc, ← List.append_assoc]
      rfl

/-- Source lines as comments are seen in the comments alone. A program is refused with the same
error, and accepted with the same lines otherwise; the comments are one for each command, in front
of its lines, and one for the entry code. -/
theorem annotation_transparent (p : Program) (bootstrap : Bool) :
    match p.lower ⟨bootstrap, false⟩, p.lower ⟨bootstrap, true⟩ with
    | .error plain, .error annotated => annotated = plain
    | .ok plain, .ok annotated => p.Annotates bootstrap plain annotated
    | _, _ => False := by
  cases hr : firstRefusal? [] p.sites with
  | none =>
    rw [lower_of_accepted hr, lower_of_accepted hr]
    exact annotates (firstRefusal?_nil_eq_none_iff.1 hr)
  | some pair =>
    rw [lower_of_refused hr, lower_of_refused hr]

end Program
end StackLowering
