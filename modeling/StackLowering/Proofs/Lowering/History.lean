import StackLowering.Proofs.Lowering.InPlace
/-! What the steps of a lowering come to, one after another. Steps only ever append to the output,
and a session goes on behind a failed command as if the command had never been tried. -/
namespace StackLowering
open Assembly

namespace Lowering

/-- Whether the step asks for one command, and not for a whole unit. -/
def Step.isCommand : Step → Bool
  | .command _ | .located _ => true
  | _ => false

def commandsInPlace (t : Lowering) : List Located → Lowering × Option Rejection
  | [] => (t, none)
  | l :: ls =>
    match t.locatedInPlace l with
    | (t, none) => t.commandsInPlace ls
    | (t, some rejection) => (t, some rejection)

def stepInPlace (t : Lowering) : Step → Lowering × Option Failure
  | .command c => (t.commandInPlace c).map id (·.map .refused)
  | .located l => (t.locatedInPlace l).map id (·.map .rejected)
  | .unit u => ((t.beginUnit u.name).commandsInPlace u.commands).map id (·.map .rejected)
  | s => t.step s

private theorem commandsInPlace_eq (t : Lowering) (ls : List Located) :
    t.commandsInPlace ls = t.commands ls := by
  induction ls generalizing t with
  | nil => rfl
  | cons l ls ih =>
    rw [commandsInPlace, commands, locatedInPlace_eq]
    rcases t.located l with ⟨u, _ | rejection⟩
    · exact ih u
    · rfl

private theorem stepInPlace_eq (t : Lowering) (s : Step) : t.stepInPlace s = t.step s := by
  cases s with
  | command c => rw [stepInPlace, commandInPlace_eq, step]
  | located l => rw [stepInPlace, locatedInPlace_eq, step]
  | unit u => rw [stepInPlace, commandsInPlace_eq, step, unit]
  | _ => rfl

structure Report where
  step : Step
  failure : Option Failure
  /-- The lines that the step put out. -/
  added : List Line
  deriving DecidableEq

def Report.isFailedCommand (r : Report) : Bool := r.step.isCommand && r.failure.isSome

def report (t : Lowering) (s : Step) : Report :=
  ⟨s, (t.step s).2, (t.step s).1.lines.toList.drop t.lines.size⟩

def history (t : Lowering) : List Step → List Report
  | [] => []
  | s :: steps => t.report s :: (t.step s).1.history steps

variable {t u : Lowering}

/-- A command that fails changes nothing. -/
theorem step_of_isFailedCommand {s : Step} (h : (t.report s).isFailedCommand = true) :
    (t.step s).1 = t := by
  obtain ⟨hs, hf⟩ := Bool.and_eq_true_iff.1 h
  obtain ⟨failure, hf⟩ := Option.isSome_iff_exists.1 hf
  cases s with
  | command c =>
    obtain ⟨refusal, hr, -⟩ := Option.map_eq_some_iff.1 hf
    exact (command_of_refused (Prod.ext rfl hr)).1
  | located l =>
    obtain ⟨rejection, hr, -⟩ := Option.map_eq_some_iff.1 hf
    exact (located_of_rejected (Prod.ext rfl hr)).1
  | _ => cases hs

def Extends (t u : Lowering) : Prop := t.lines.toList <+: u.lines.toList

private theorem Extends.refl (t : Lowering) : t.Extends t := List.prefix_refl _

private theorem extends_extend (t : Lowering) (scope : Scope) (block : List Line) :
    t.Extends (t.extend scope block) := ⟨block, (toList_lines_extend t scope block).symm⟩

private theorem extends_located (t : Lowering) (l : Located) : t.Extends (t.located l).1 := by
  rw [located]
  split
  · exact extends_extend t _ _
  · exact .refl t

private theorem extends_commands (t : Lowering) (ls : List Located) :
    t.Extends (t.commands ls).1 := by
  induction ls generalizing t with
  | nil => exact .refl t
  | cons l ls ih =>
    have hl := extends_located t l
    rw [commands]
    split
    · next u he => exact List.IsPrefix.trans (by rwa [he] at hl) (ih u)
    · next u rejection he => rwa [he] at hl

private theorem extends_step (t : Lowering) (s : Step) : t.Extends (t.step s).1 := by
  cases s with
  | beginUnit name => exact .refl t
  | bootstrap => exact extends_extend t _ _
  | withAnnotations => exact .refl t
  | command c =>
    rw [step, command]
    split
    · exact extends_extend t _ _
    · exact .refl t
  | located l => exact extends_located t l
  | unit u => exact extends_commands (t.beginUnit u.name) u.commands

/-- The lines behind a step are those in front of it and the step's own. -/
private theorem lines_step (t : Lowering) (s : Step) :
    (t.step s).1.lines.toList = t.lines.toList ++ (t.report s).added := by
  obtain ⟨added, ha⟩ := extends_step t s
  rw [report, ← ha, ← Array.length_toList, List.drop_left]

theorem lines_run (t : Lowering) (steps : List Step) :
    (t.run steps).lines.toList =
      t.lines.toList ++ (t.history steps).flatMap (·.added) := by
  induction steps generalizing t with
  | nil => simp [run, history]
  | cons s steps ih =>
    have hr : t.run (s :: steps) = (t.step s).1.run steps := rfl
    rw [hr, ih, lines_step, history, List.flatMap_cons, List.append_assoc]

/-- The steps of a session that did not try a command in vain. -/
def kept (t : Lowering) (steps : List Step) : List Report :=
  (t.history steps).filter (!·.isFailedCommand)

/-- A session without its failed commands ends in the same lowering, and everything else in it
comes to the same. -/
private theorem run_kept (t : Lowering) (steps : List Step) :
    t.run ((t.kept steps).map (·.step)) = t.run steps ∧
      t.history ((t.kept steps).map (·.step)) = t.kept steps := by
  induction steps generalizing t with
  | nil => exact ⟨rfl, rfl⟩
  | cons s steps ih =>
    have hr : t.run (s :: steps) = (t.step s).1.run steps := rfl
    obtain ⟨hrun, hhistory⟩ := ih (t.step s).1
    rw [kept, history]
    cases hf : (t.report s).isFailedCommand with
    | true =>
      rw [List.filter_cons_of_neg (by simp [hf]), hr]
      rw [step_of_isFailedCommand hf] at hrun hhistory ⊢
      exact ⟨hrun, hhistory⟩
    | false =>
      rw [List.filter_cons_of_pos (by simp [hf]), hr, List.map_cons, history]
      exact ⟨hrun, congrArg _ hhistory⟩

/-- A failed command leaves no trace, however much of it has been done in place when it fails. A
session therefore goes as it would without its failed commands: it ends in the same lowering, and
each other step fails or succeeds as before and puts out the same lines. -/
theorem failed_commands_leave_no_trace (steps : List Step) :
    (∀ (t : Lowering) (s : Step), t.stepInPlace s = t.step s) ∧
      (∀ s : Step, s.isCommand = true →
        ((initial.run steps).stepInPlace s).2 ≠ none →
          ((initial.run steps).stepInPlace s).1 = initial.run steps) ∧
      (initial.run steps).lines.toList = (initial.history steps).flatMap (·.added) ∧
      initial.run ((initial.kept steps).map (·.step)) = initial.run steps ∧
      initial.history ((initial.kept steps).map (·.step)) = initial.kept steps := by
  refine ⟨stepInPlace_eq, fun s hs hf => ?_, lines_run initial steps, run_kept initial steps⟩
  rw [stepInPlace_eq] at hf ⊢
  refine step_of_isFailedCommand ?_
  rw [Report.isFailedCommand, Bool.and_eq_true_iff, Option.isSome_iff_ne_none]
  exact ⟨hs, hf⟩

end Lowering
end StackLowering
