/-! The memory segments that `push` and `pop` address. -/
namespace StackLowering

inductive Segment where
  | constant | locals | arguments | this | that | temp | pointer | static
  deriving DecidableEq

namespace Segment

def all : List Segment :=
  [constant, locals, arguments, this, that, temp, pointer, static]

def word : Segment → String
  | constant => "constant"
  | locals => "local"
  | arguments => "argument"
  | this => "this"
  | that => "that"
  | temp => "temp"
  | pointer => "pointer"
  | static => "static"

def ofWord? (w : String) : Option Segment :=
  all.find? (·.word == w)

theorem ofWord?_eq_some_iff {w : String} {s : Segment} : ofWord? w = some s ↔ w = s.word := by
  constructor
  · intro h
    have hw := List.find?_some h
    exact (eq_of_beq hw).symm
  · rintro rfl
    cases s <;> rfl

end Segment
end StackLowering
