import StackLowering.Assembly.Instruction
/-! The machine that the assembly is for: words of 16 bits that wrap, the registers A and D, a
memory of words, and code apart from it. -/
namespace StackLowering.Machine
open Assembly

abbrev Word := BitVec 16

abbrev Memory := Word → Word

def Memory.store (m : Memory) (x w : Word) : Memory := fun y => if y = x then w else m y

inductive Code where
  /-- Puts a word into A. -/
  | load (w : Word)
  | compute (i : Instruction)
  deriving DecidableEq

/-- Whether a jump is taken on a result, which counts as a signed number. -/
def taken (when : Jump) (w : Word) : Bool :=
  match when with
  | .gt => 0 < w.toInt
  | .eq => w.toInt = 0
  | .ge => 0 ≤ w.toInt
  | .lt => w.toInt < 0
  | .ne => w.toInt ≠ 0
  | .le => w.toInt ≤ 0
  | .always => true

structure State where
  a : Word
  d : Word
  memory : Memory
  /-- The address of the next word of code. -/
  next : Nat

namespace State

def operand (s : State) : Operand → Word
  | .a => s.a
  | .m => s.memory s.a

def value (s : State) : Computation → Word
  | .zero => 0
  | .one => 1
  | .minusOne => -1
  | .d => s.d
  | .notD => ~~~s.d
  | .negD => -s.d
  | .succD => s.d + 1
  | .predD => s.d - 1
  | .get x => s.operand x
  | .not x => ~~~s.operand x
  | .neg x => -s.operand x
  | .succ x => s.operand x + 1
  | .pred x => s.operand x - 1
  | .add x => s.operand x + s.d
  | .sub x => s.d - s.operand x
  | .subD x => s.operand x - s.d
  | .and x => s.operand x &&& s.d
  | .or x => s.operand x ||| s.d

/-- Carries out one word of code. Where the result is stored and where a jump leads is what A holds
before. -/
def execute (s : State) : Code → State
  | .load w => { s with a := w, next := s.next + 1 }
  | .compute i =>
    let w := s.value i.computation
    { a := if i.dest.a then w else s.a
      d := if i.dest.d then w else s.d
      memory := if i.dest.m then s.memory.store s.a w else s.memory
      next := if i.jump.any (taken · w) then s.a.toNat else s.next + 1 }

def step? (code : List Code) (s : State) : Option State := code[s.next]?.map s.execute

/-- The state after a number of steps, if the machine stays in its code so long. -/
def run? (code : List Code) : Nat → State → Option State
  | 0, s => some s
  | n + 1, s => (s.step? code).bind (run? code n)

theorem run?_add (code : List Code) (m n : Nat) (s : State) :
    s.run? code (m + n) = (s.run? code m).bind (run? code n) := by
  induction m generalizing s with
  | zero => simp [run?]
  | succ m ih =>
    rw [Nat.succ_add, run?, run?, Option.bind_assoc]
    exact congrArg _ (funext ih)

end State
end StackLowering.Machine
