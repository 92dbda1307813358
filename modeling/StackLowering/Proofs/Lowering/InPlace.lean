import StackLowering.Lowering.Basic
/-! Lowering in place. One lowering is written to, each part of it as soon as that part is known,
and a refusal keeps what has been written until then. Only the output is ever cut back, behind a
rejected command of a source. It comes to the same as lowering at once. -/
namespace StackLowering
open Assembly

/-- Work on a lowering, which stays as the work has left it also when it is refused. -/
abbrev Work (α : Type) := ExceptT Refusal (StateM Lowering) α

namespace Work

def emit (block : List Line) : Work Unit := modify fun t => { t with lines := t.lines ++ block }

def number : Work Nat := modifyGet fun t => (t.scope.issued, { t with scope := t.scope.issue })

/-- Adds a symbol to those defined, and tells whether it was there before. -/
def record (symbol : String) : Work Bool := modifyGet fun t =>
  let (known, defined) := t.scope.defined.containsThenInsert symbol
  (known, { t with scope := { t.scope with defined } })

/-- Looks at what was there only after the symbol has been added. -/
def define (symbol : String) : Work Unit := do
  if ← record symbol then throw (.duplicateLabel symbol)

def enter (function : String) : Work Unit :=
  modify fun t => { t with scope := { t.scope with function := some function } }

def resolve (name : String) : Work String := do
  let t ← get
  t.scope.resolve name

def push (s : Segment) (index : UInt16) : Work Unit := do
  s.checkIndex index
  let t ← get
  emit (Block.load t.scope.unit index s.addressing)
  emit Block.pushD

def pop (s : Segment) (index : UInt16) : Work Unit := do
  s.checkIndex index
  let t ← get
  match Block.locate? t.scope.unit index s.addressing with
  | none => throw (.notStorable s)
  | some code =>
    emit code
    emit ([.register .r13, .assign .toM .d] ++ Block.popD ++
      [.register .r13, .assign .toA (.get .m), .assign .toM .d])

/-- A comparison takes its number before any of its lines go out; no other operator takes one. -/
def operate (op : Operator) : Work Unit := do
  let number ← if op.isComparison then number else pure 0
  emit (Block.operator op number)

def command : Command → Work Unit
  | .push s i => push s i
  | .pop s i => pop s i
  | .operate op => operate op
  | .label name => do
    let symbol ← resolve name
    define symbol
    emit (Block.label symbol)
  | .goto name => do
    let symbol ← resolve name
    emit (Block.goto symbol)
  | .ifGoto name => do
    let symbol ← resolve name
    emit (Block.ifGoto symbol)
  | .function name locals => do
    let symbol ← Scope.resolveFunction name
    define symbol
    emit (Block.function symbol locals)
    enter symbol
  | .call name args => do
    let symbol ← Scope.resolveFunction name
    let number ← number
    emit (Block.call symbol args number)
  | .ret => emit Block.ret

/-- What work comes to on a lowering, and the lowering that it leaves behind. -/
def onto {α : Type} (w : Work α) (t : Lowering) : Except Refusal α × Lowering := w.run.run t

variable {α β : Type}

private theorem onto_bind (w : Work α) (f : α → Work β) (t : Lowering) :
    (w >>= f).onto t =
      match w.onto t with
      | (.ok a, u) => (f a).onto u
      | (.error refusal, u) => (.error refusal, u) := by
  simp only [onto, ExceptT.run_bind, StateT.run_bind]
  rcases w.run.run t with ⟨_ | a, u⟩ <;> rfl

theorem onto_get (t : Lowering) : (get : Work Lowering).onto t = (.ok t, t) := rfl

theorem onto_emit (block : List Line) (t : Lowering) :
    (emit block).onto t = (.ok (), t.extend t.scope block) := rfl

theorem onto_number (t : Lowering) :
    number.onto t = (.ok t.scope.issued, { t with scope := t.scope.issue }) := rfl

theorem onto_enter (function : String) (t : Lowering) :
    (enter function).onto t =
      (.ok (), { t with scope := { t.scope with function := some function } }) := rfl

theorem onto_resolve (name : String) (t : Lowering) :
    (resolve name).onto t = (t.scope.resolve name, t) := rfl

/-- A check that does not look at the lowering. -/
theorem onto_check (check : Except Refusal α) (t : Lowering) :
    (liftM check : Work α).onto t = (check, t) := rfl

private theorem onto_record (symbol : String) (t : Lowering) :
    (record symbol).onto t =
      (.ok (t.scope.defined.contains symbol),
        { t with scope := { t.scope with defined := t.scope.defined.insert symbol } }) := by
  rw [← Std.TreeSet.containsThenInsert_fst, ← Std.TreeSet.containsThenInsert_snd]
  rfl

/-- To record a symbol once more changes nothing, not even the shape of the tree. -/
private theorem insert_of_contains {defined : Std.TreeSet String} {symbol : String}
    (h : defined.contains symbol = true) : defined.insert symbol = defined := by
  obtain ⟨⟨⟨tree, balanced⟩⟩⟩ := defined
  have ht : tree.contains symbol = true := h
  simp [Std.TreeSet.insert, Std.TreeMap.insertIfNew, Std.DTreeMap.insertIfNew,
    Std.DTreeMap.Internal.Impl.insertIfNew, ht]

/-- A refused definition leaves the symbols as they were, because its own was among them. -/
private theorem onto_define (symbol : String) (t : Lowering) :
    (define symbol).onto t =
      match t.scope.define symbol with
      | .ok scope => (.ok (), { t with scope })
      | .error refusal => (.error refusal, t) := by
  rw [define, onto_bind, onto_record, Scope.define]
  cases h : t.scope.defined.contains symbol with
  | true =>
    rw [insert_of_contains h]
    rfl
  | false => rfl

/-- Lines may go out in two parts. -/
private theorem extend_extend (t : Lowering) (first second : Scope) (front back : List Line) :
    (t.extend first front).extend second back = t.extend second (front ++ back) := by
  simp only [Lowering.extend, Lowering.mk.injEq, true_and]
  apply Array.toList_inj.1
  simp only [Array.toList_appendList, List.append_assoc]

/-- Work on a command comes to what the scope says of the command at once. -/
private theorem onto_command (c : Command) (t : Lowering) :
    (command c).onto t =
      match t.scope.lower c with
      | .ok (scope, block) => (.ok (), t.extend scope block)
      | .error refusal => (.error refusal, t) := by
  cases c with
  | push s i =>
    simp only [command, push, onto_bind, onto_check, onto_get, onto_emit, extend_extend,
      Scope.lower, Block.push]
    cases s.checkIndex i <;> rfl
  | pop s i =>
    simp only [command, pop, onto_bind, onto_check, onto_get, Scope.lower, Block.pop]
    cases s.checkIndex i with
    | error refusal => rfl
    | ok _ =>
      cases hc : Block.locate? t.scope.unit i s.addressing with
      | none =>
        simp only [hc]
        rfl
      | some code =>
        simp only [hc, onto_bind, onto_emit, extend_extend, List.append_assoc]
        rfl
  | operate op =>
    -- A comparison takes its number first in both, and no other operator does.
    simp only [command, operate, Scope.lower]
    cases op <;> rfl
  | label name =>
    simp only [command, onto_bind, onto_resolve, onto_define, onto_emit, Scope.lower]
    cases t.scope.resolve name with
    | error refusal => rfl
    | ok symbol =>
      simp only [bind, Except.bind]
      cases t.scope.define symbol <;> rfl
  | goto name =>
    simp only [command, onto_bind, onto_resolve, onto_emit, Scope.lower]
    cases t.scope.resolve name <;> rfl
  | ifGoto name =>
    simp only [command, onto_bind, onto_resolve, onto_emit, Scope.lower]
    cases t.scope.resolve name <;> rfl
  | function name locals =>
    simp only [command, onto_bind, onto_check, onto_define, onto_emit, onto_enter, Scope.lower]
    cases Scope.resolveFunction name with
    | error refusal => rfl
    | ok symbol =>
      simp only [bind, Except.bind]
      cases t.scope.define symbol <;> rfl
  | call name args =>
    simp only [command, onto_bind, onto_check, onto_number, onto_emit, Scope.lower]
    cases Scope.resolveFunction name <;> rfl
  | ret => rfl

end Work

namespace Lowering

/-- Lowers a command in place, with nothing taken back when it is refused. -/
def commandInPlace (t : Lowering) (c : Command) : Lowering × Option Refusal :=
  match (Work.command c).onto t with
  | (.ok (), u) => (u, none)
  | (.error refusal, u) => (u, some refusal)

/-- Lowers a command of a source in place. The comment goes out before the command is looked at,
and the output is cut back to its former length when that is refused. -/
def locatedInPlace (t : Lowering) (l : Located) : Lowering × Option Rejection :=
  match (t.extend t.scope (t.remark l.text)).commandInPlace l.command with
  | (u, none) => (u, none)
  | (u, some refusal) =>
    let u := { u with lines := u.lines.take t.lines.size }
    (u, some (u.reject l refusal))

theorem commandInPlace_eq (t : Lowering) (c : Command) : t.commandInPlace c = t.command c := by
  rw [commandInPlace, Work.onto_command, command]
  cases t.scope.lower c <;> rfl

theorem locatedInPlace_eq (t : Lowering) (l : Located) : t.locatedInPlace l = t.located l := by
  have hs : (t.extend t.scope (t.remark l.text)).scope = t.scope := rfl
  have hcut : (t.extend t.scope (t.remark l.text)).lines.take t.lines.size = t.lines := by
    apply Array.toList_inj.1
    simp [toList_lines_extend]
  rw [locatedInPlace, commandInPlace_eq, command, located, hs]
  cases t.scope.lower l.command with
  | error refusal =>
    simp only [hcut]
    rfl
  | ok pair => simp only [Work.extend_extend]

end Lowering
end StackLowering
