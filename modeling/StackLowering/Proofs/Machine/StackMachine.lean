import StackLowering.Proofs.Lowering.Site
import StackLowering.Proofs.Machine.Memory
import StackLowering.Assembly.Image
/-! The stack machine that the commands are for, on the memory of the machine that runs their code.
It takes one command at a time; the code enters only by the addresses that calls leave on the
stack. -/
namespace StackLowering
open Assembly Machine

/-- Where a word of a segment lies, when the static variable of that index lies at `own`. Constants
lie nowhere. -/
def Segment.place? (m : Memory) (own : Word) (index : UInt16) : Segment → Option Word
  | constant => none
  | locals => some (m (address .lcl) + index.toBitVec)
  | arguments => some (m (address .arg) + index.toBitVec)
  | this => some (m (address .this) + index.toBitVec)
  | that => some (m (address .that) + index.toBitVec)
  | temp => some (5 + index.toBitVec)
  | pointer => some (3 + index.toBitVec)
  | static => some own

theorem Segment.exists_place {g : Segment} (hg : g ≠ constant) (m : Memory) (own : Word)
    (index : UInt16) : ∃ x, g.place? m own index = some x := by
  cases g with
  | constant => exact absurd rfl hg
  | _ => exact ⟨_, rfl⟩

/-- The word of a segment; a constant is its index. -/
def Segment.read (m : Memory) (own : Word) (index : UInt16) (g : Segment) : Word :=
  (g.place? m own index).elim index.toBitVec m

def Site.static? (s : Site) : Option String :=
  match s.command with
  | .push .static i | .pop .static i => some (Symbol.static s.unit i).text
  | _ => none

/-- The static variables of commands, by their first use. -/
def staticNames (sites : List Site) : List String := (sites.filterMap Site.static?).eraseDups

def LoweringOptions.codeAddress (o : LoweringOptions) (sites : List Site) (k : Nat) : Nat :=
  codeSize (o.preamble ++ output o.annotate o.firstNumber (sites.take k))

def DefinedAt (sites : List Site) (symbol : String) (k : Nat) : Prop :=
  ∃ s, sites[k]? = some s ∧ s.definition? = some symbol

namespace StackMachine

structure State where
  memory : Memory
  /-- The place of the next command among all. -/
  next : Nat

def variableAddress (sites : List Site) (s : Site) (index : UInt16) : Word :=
  .ofNat 16 (variableBase + (staticNames sites).idxOf (Symbol.static s.unit index).text)

/-- One command. A return goes on at any command whose code begins where it leads. -/
inductive Step (o : LoweringOptions) (sites : List Site) : State → State → Prop
  | push {v s g i} (hs : sites[v.next]? = some s) (hc : s.command = .push g i) :
    Step o sites v ⟨v.memory.push (g.read v.memory (variableAddress sites s i) i), v.next + 1⟩
  | pop {v s g i x} (hs : sites[v.next]? = some s) (hc : s.command = .pop g i)
    (hx : g.place? v.memory (variableAddress sites s i) i = some x) :
    Step o sites v ⟨v.memory.popTo x, v.next + 1⟩
  | operate {v s op} (hs : sites[v.next]? = some s) (hc : s.command = .operate op) :
    Step o sites v ⟨v.memory.operate op, v.next + 1⟩
  | label {v s name} (hs : sites[v.next]? = some s) (hc : s.command = .label name) :
    Step o sites v ⟨v.memory, v.next + 1⟩
  | goto {v s name k} (hs : sites[v.next]? = some s) (hc : s.command = .goto name)
    (hk : DefinedAt sites (symbolIn s.body name) k) : Step o sites v ⟨v.memory, k⟩
  | ifGoto {v s name k} (hs : sites[v.next]? = some s) (hc : s.command = .ifGoto name)
    (hw : v.memory.drop.dropped ≠ 0) (hk : DefinedAt sites (symbolIn s.body name) k) :
    Step o sites v ⟨v.memory.drop, k⟩
  | ifNotGoto {v s name} (hs : sites[v.next]? = some s) (hc : s.command = .ifGoto name)
    (hw : v.memory.drop.dropped = 0) : Step o sites v ⟨v.memory.drop, v.next + 1⟩
  | function {v s name count} (hs : sites[v.next]? = some s)
    (hc : s.command = .function name count) :
    Step o sites v ⟨v.memory.pushZeros count.toNat, v.next + 1⟩
  | call {v s name count k} (hs : sites[v.next]? = some s) (hc : s.command = .call name count)
    (hk : DefinedAt sites name k) :
    Step o sites v
      ⟨v.memory.call (.ofNat 16 (o.codeAddress sites (v.next + 1))) count.toBitVec, k⟩
  | ret {v s k} (hs : sites[v.next]? = some s) (hc : s.command = .ret) (hl : k < sites.length)
    (hk : o.codeAddress sites k = v.memory.back.toNat) : Step o sites v ⟨v.memory.leave, k⟩

/-- The words outside the registers of the stack that the command looks at, and where a return puts
the result. -/
def touched (sites : List Site) (m : Memory) (s : Site) : List Word :=
  match s.command with
  | .push g i => (g.place? m (variableAddress sites s i) i).toList
  | .pop .. | .ifGoto _ => [m.sp - 1]
  | .operate op => if op.operands = 2 then [m.sp - 1, m.sp - 2] else [m.sp - 1]
  | .ret => [m.sp - 1, m (address .arg)] ++ [1, 2, 3, 4, 5].map (m (address .lcl) - ·)
  | _ => []

/-- The next command keeps to words that generated code does not use for itself. -/
def Clear (sites : List Site) (v : State) : Prop :=
  ∀ s, sites[v.next]? = some s → ∀ x ∈ touched sites v.memory s, ¬Scratch x

/-- A number of commands one after another, all of which are clear. -/
inductive Run (o : LoweringOptions) (sites : List Site) : Nat → State → State → Prop
  | done {v} : Run o sites 0 v v
  | step {n v w u} (hv : Clear sites v) (h : Step o sites v w) (hr : Run o sites n w u) :
    Run o sites (n + 1) v u

/-- How a program starts on a memory: at its first command, or with a call of the entry point on an
empty stack. -/
inductive Start (o : LoweringOptions) (sites : List Site) (m : Memory) : State → Prop
  | plain (ho : o.bootstrap = false) : Start o sites m ⟨m, 0⟩
  | booted {k} (ho : o.bootstrap = true) (hk : DefinedAt sites Block.entryPoint k) :
    Start o sites m
      ⟨(m.store (address .sp) Block.stackBase.toBitVec).call
        (.ofNat 16 (o.codeAddress sites 0)) 0, k⟩

end StackMachine
end StackLowering
