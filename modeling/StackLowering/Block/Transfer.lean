import StackLowering.Block.Access
/-! The code of labels, jumps and functions.

A call leaves on the stack, upwards from the first argument: the arguments, the return address and
the four saved pointers LCL, ARG, THIS, THAT. Then ARG names the first argument, LCL the word
behind the frame, and the callee's locals come next. -/
namespace StackLowering.Block
open Assembly Assembly.Line

/-- How many words a call saves: the return address and the pointers. -/
def frameSize : UInt16 := 5

def savedPointers : List Register := [.lcl, .arg, .this, .that]

def stackBase : UInt16 := 256

def entryPoint : String := "Sys.init"

def label (name : String) : List Line := [define (.named name)]

def goto (name : String) : List Line := [pointer (.named name), jump .zero .always]

def ifGoto (name : String) : List Line := popD ++ [pointer (.named name), jump .d .ne]

def pushZero : List Line :=
  [register .sp, assign .toA (.get .m), assign .toM .zero, register .sp, assign .toM (.succ .m)]

def function (name : String) (locals : UInt16) : List Line :=
  define (.named name) :: (List.replicate locals.toNat pushZero).flatten

/-- Calls a function whose arguments are on the stack; the return label has the given number. -/
def call (name : String) (args : UInt16) (number : Nat) : List Line :=
  [pointer (.generated .back number), assign .toD (.get .a)] ++ pushD ++
    savedPointers.flatMap (fun p => [register p, assign .toD (.get .m)] ++ pushD) ++
    [register .sp, assign .toD (.get .m), literal frameSize, assign .toD (.sub .a),
      literal args, assign .toD (.sub .a), register .arg, assign .toM .d] ++
    [register .sp, assign .toD (.get .m), register .lcl, assign .toM .d] ++
    [pointer (.named name), jump .zero .always, define (.generated .back number)]

/-- Returns to the caller. R13 holds the end of the frame, and R14 the return address, which is
read first: without arguments the result overwrites it. -/
def ret : List Line :=
  [register .lcl, assign .toD (.get .m), register .r13, assign .toM .d] ++
    [literal frameSize, assign .toA (.sub .a), assign .toD (.get .m), register .r14,
      assign .toM .d] ++
    popD ++ [register .arg, assign .toA (.get .m), assign .toM .d] ++
    [register .arg, assign .toD (.succ .m), register .sp, assign .toM .d] ++
    savedPointers.reverse.flatMap (fun p =>
      [register .r13, assign .toAM (.pred .m), assign .toD (.get .m), register p,
        assign .toM .d]) ++
    [register .r14, assign .toA (.get .m), jump .zero .always]

def bootstrap (number : Nat) : List Line :=
  [literal stackBase, assign .toD (.get .a), register .sp, assign .toM .d] ++
    call entryPoint 0 number

end StackLowering.Block
