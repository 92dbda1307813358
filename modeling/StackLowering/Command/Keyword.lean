/-! The words that start a command, operators apart. -/
namespace StackLowering

inductive Keyword where
  | push | pop | label | goto | ifGoto | function | call | ret
  deriving DecidableEq

namespace Keyword

def all : List Keyword := [push, pop, label, goto, ifGoto, function, call, ret]

def word : Keyword → String
  | push => "push"
  | pop => "pop"
  | label => "label"
  | goto => "goto"
  | ifGoto => "if-goto"
  | function => "function"
  | call => "call"
  | ret => "return"

def ofWord? (w : String) : Option Keyword :=
  all.find? (·.word == w)

def operands : Keyword → Nat
  | push | pop | function | call => 2
  | label | goto | ifGoto => 1
  | ret => 0

theorem ofWord?_eq_some_iff {w : String} {k : Keyword} : ofWord? w = some k ↔ w = k.word := by
  constructor
  · intro h
    have hw := List.find?_some h
    exact (eq_of_beq hw).symm
  · rintro rfl
    cases k <;> rfl

end Keyword
end StackLowering
