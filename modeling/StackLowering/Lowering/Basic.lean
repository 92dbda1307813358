import StackLowering.Lowering.Scope
import StackLowering.Program.Basic
/-! Lowering programs to assembly. One lowering serves a whole run, however many units it is given,
so that labels are unique in all of its output. A refused command leaves it as it was. -/
namespace StackLowering
open Assembly

structure Rejection where
  unit : String
  line : Nat
  /-- The source line, or the command's own text where that is missing. -/
  text : String
  refusal : Refusal
  deriving DecidableEq

def Rejection.message (r : Rejection) : String :=
  s!"translate error: {r.unit}:{r.line}: {r.refusal.message}\n  | {r.text}"

structure Lowering where
  scope : Scope
  /-- Puts the source line of each command in front of its block, as a comment. -/
  annotate : Bool
  /-- The output so far. -/
  lines : Array Line

namespace Lowering

def initial : Lowering := ⟨.initial, false, #[]⟩

def beginUnit (t : Lowering) (name : String) : Lowering :=
  { t with scope := t.scope.beginUnit name }

def withAnnotations (t : Lowering) : Lowering := { t with annotate := true }

def remark (t : Lowering) (text : String) : List Line :=
  if t.annotate then [.comment text] else []

def extend (t : Lowering) (scope : Scope) (block : List Line) : Lowering :=
  { t with scope, lines := t.lines ++ block }

theorem toList_lines_extend (t : Lowering) (scope : Scope) (block : List Line) :
    (t.extend scope block).lines.toList = t.lines.toList ++ block :=
  Array.toList_appendList

def bootstrap (t : Lowering) : Lowering :=
  let (scope, block) := t.scope.bootstrap
  t.extend scope (t.remark "bootstrap" ++ block)

/-- Lowers a command without its source line, and so without annotation. -/
def command (t : Lowering) (c : Command) : Lowering × Option Refusal :=
  match t.scope.lower c with
  | .ok (scope, block) => (t.extend scope block, none)
  | .error refusal => (t, some refusal)

def reject (t : Lowering) (l : Located) (refusal : Refusal) : Rejection :=
  let text := if l.text.isEmpty then l.command.text else l.text
  ⟨t.scope.unit, l.line, text, refusal⟩

def located (t : Lowering) (l : Located) : Lowering × Option Rejection :=
  match t.scope.lower l.command with
  | .ok (scope, block) => (t.extend scope (t.remark l.text ++ block), none)
  | .error refusal => (t, some (t.reject l refusal))

/-- Lowers commands up to the first refused one, whose predecessors stay in the output. -/
def commands (t : Lowering) : List Located → Lowering × Option Rejection
  | [] => (t, none)
  | l :: ls =>
    match t.located l with
    | (t, none) => t.commands ls
    | (t, some rejection) => (t, some rejection)

def unit (t : Lowering) (u : SourceUnit) : Lowering × Option Rejection :=
  (t.beginUnit u.name).commands u.commands

def units (t : Lowering) : List SourceUnit → Lowering × Option Rejection
  | [] => (t, none)
  | u :: us =>
    match t.unit u with
    | (t, none) => t.units us
    | (t, some rejection) => (t, some rejection)

inductive Failure where
  | refused (refusal : Refusal)
  | rejected (rejection : Rejection)
  deriving DecidableEq

inductive Step where
  | beginUnit (name : String)
  | bootstrap
  | withAnnotations
  | command (c : Command)
  | located (l : Located)
  | unit (u : SourceUnit)
  deriving DecidableEq

/-- One step. After a failure the lowering goes on from where the step left it. -/
def step (t : Lowering) : Step → Lowering × Option Failure
  | .beginUnit name => (t.beginUnit name, none)
  | .bootstrap => (t.bootstrap, none)
  | .withAnnotations => (t.withAnnotations, none)
  | .command c => (t.command c).map id (·.map .refused)
  | .located l => (t.located l).map id (·.map .rejected)
  | .unit u => (t.unit u).map id (·.map .rejected)

/-- Takes steps one after another, the failing ones too. -/
def run (t : Lowering) (steps : List Step) : Lowering := steps.foldl (fun t s => (t.step s).1) t

theorem run_append (t : Lowering) (first second : List Step) :
    t.run (first ++ second) = (t.run first).run second := by
  simp [run]

/-- A refused command changes nothing. -/
theorem command_of_refused {t u : Lowering} {c : Command} {refusal : Refusal}
    (h : t.command c = (u, some refusal)) : u = t ∧ t.scope.lower c = .error refusal := by
  rw [command] at h
  split at h
  · simp at h
  · next hc =>
    obtain ⟨rfl, hr⟩ := Prod.mk.inj h
    exact ⟨rfl, Option.some.inj hr ▸ hc⟩

/-- A rejected command changes nothing. -/
theorem located_of_rejected {t u : Lowering} {l : Located} {rejection : Rejection}
    (h : t.located l = (u, some rejection)) :
    u = t ∧ ∃ refusal, t.scope.lower l.command = .error refusal ∧
      rejection = t.reject l refusal := by
  rw [located] at h
  split at h
  · simp at h
  · next hc =>
    obtain ⟨rfl, hr⟩ := Prod.mk.inj h
    exact ⟨rfl, _, hc, (Option.some.inj hr).symm⟩

end Lowering

structure LoweringOptions where
  /-- Starts with code that sets the stack up and calls the entry point. -/
  bootstrap : Bool
  annotate : Bool
  deriving DecidableEq

/-- The lines of a program, or its first refused command. -/
def Program.lower (p : Program) (o : LoweringOptions) : Except Rejection (List Line) :=
  let t := if o.annotate then Lowering.initial.withAnnotations else .initial
  let t := if o.bootstrap then t.bootstrap else t
  match t.units p.units with
  | (t, none) => .ok t.lines.toList
  | (_, some rejection) => .error rejection

end StackLowering
