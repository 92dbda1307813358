import StackLowering.Program.Basic
/-! A check that no command takes more words from the stack than its function has put there. It
reads the commands once, in order: jumps tell the height at their label, and where no earlier
command leads, nothing is checked up to the next such label or function. Jumps backwards are not
followed. -/
namespace StackLowering

structure Underflow where
  line : Nat
  command : Command
  needed : Nat
  height : Nat
  deriving DecidableEq

namespace Underflow

def detail (u : Underflow) : String :=
  s!"stack underflow at '{u.command.text}', needed {u.needed} items, have {u.height}"

def message (u : Underflow) : String :=
  s!"stack-check error: line {u.line}: {u.detail}"

end Underflow

structure StackCheck where
  /-- How many words the function has on the stack; none where no earlier command leads here. -/
  height : Option Nat
  /-- The height at each label that the function has jumped to, from the first such jump. -/
  atLabel : List (String × Nat)

namespace StackCheck

def initial : StackCheck := ⟨some 0, []⟩

/-- Notes the height at a label, unless a jump has done so before. -/
def note (s : StackCheck) (label : String) (height : Nat) : List (String × Nat) :=
  match s.atLabel.lookup label with
  | some _ => s.atLabel
  | none => (label, height) :: s.atLabel

/-- The state behind a command that finds enough words and leaves `height` of them. -/
def leave (s : StackCheck) (c : Command) (height : Nat) : StackCheck :=
  match c with
  | .goto n => ⟨none, s.note n height⟩
  | .ifGoto n => ⟨some height, s.note n height⟩
  | .ret => ⟨none, s.atLabel⟩
  | _ => ⟨some height, s.atLabel⟩

def step (s : StackCheck) (l : Located) : Except Underflow StackCheck :=
  match l.command with
  | .function .. => .ok initial
  | .label n => .ok { s with height := s.height.or (s.atLabel.lookup n) }
  | c =>
    match s.height with
    | none => .ok s
    | some height =>
      let (pops, pushes) := c.effect
      if height < pops then .error ⟨l.line, c, pops, height⟩
      else .ok (s.leave c (height - pops + pushes))

def run (s : StackCheck) : List Located → Except Underflow StackCheck
  | [] => .ok s
  | l :: ls => do (← s.step l).run ls

theorem run_append (s : StackCheck) (first second : List Located) :
    s.run (first ++ second) = (do (← s.run first).run second) := by
  induction first generalizing s with
  | nil => rfl
  | cons l ls ih =>
    rw [List.cons_append, run, run]
    cases s.step l with
    | error u => rfl
    | ok t => exact ih t

end StackCheck

def checkStack (commands : List Located) : Except Underflow Unit := do
  let _ ← StackCheck.initial.run commands

end StackLowering
