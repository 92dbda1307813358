import Mathlib.Tactic.Common
import StackLowering.Assembly.Line
import StackLowering.Command.Operator
import StackLowering.Machine
/-! The stack as it lies in the memory of the machine, with its pointers in the first words. Every
operation reads the words one after the other, as they are by then. -/
namespace StackLowering.Machine
open Assembly

def address : Register → Word
  | .sp => 0
  | .lcl => 1
  | .arg => 2
  | .this => 3
  | .that => 4
  | .r13 => 13
  | .r14 => 14

/-- The words that generated code changes without the stack machine doing so. -/
def Scratch (x : Word) : Prop := x = 13 ∨ x = 14

instance (x : Word) : Decidable (Scratch x) := inferInstanceAs (Decidable (_ ∨ _))

def truth (p : Prop) [Decidable p] : Word := if p then -1 else 0

namespace Memory

def sp (m : Memory) : Word := m (address .sp)

def push (m : Memory) (w : Word) : Memory :=
  let written := m.store m.sp w
  written.store (address .sp) (written.sp + 1)

/-- Moves the pointer back; the word stays behind the stack. -/
def drop (m : Memory) : Memory := m.store (address .sp) (m.sp - 1)

/-- The word behind the stack, which `drop` leaves there. -/
def dropped (m : Memory) : Word := m m.sp

def top (m : Memory) : Word := m (m.sp - 1)

def replaceTop (m : Memory) (w : Word) : Memory := m.store (m.sp - 1) w

def popTo (m : Memory) (x : Word) : Memory := m.drop.store x m.drop.dropped

/-- What the code of a pop does: R13 keeps the address. -/
def popBy (m : Memory) (x : Word) : Memory :=
  let kept := (m.store (address .r13) x).drop
  kept.store (kept (address .r13)) kept.dropped

/-- Takes the top word away and combines it with the next one, which the result replaces. -/
def combine (m : Memory) (f : Word → Word → Word) : Memory :=
  m.drop.replaceTop (f m.drop.top m.drop.dropped)

/-- What an operator does. Comparisons go by the sign of the difference, which wraps. -/
def operate (m : Memory) : Operator → Memory
  | .add => m.combine fun x y => x + y
  | .sub => m.combine fun x y => x - y
  | .and => m.combine fun x y => x &&& y
  | .or => m.combine fun x y => x ||| y
  | .neg => m.replaceTop (-m.top)
  | .not => m.replaceTop (~~~m.top)
  | .eq => m.combine fun x y => truth ((x - y).toInt = 0)
  | .gt => m.combine fun x y => truth (0 < (x - y).toInt)
  | .lt => m.combine fun x y => truth ((x - y).toInt < 0)

def pushZeros (m : Memory) : Nat → Memory
  | 0 => m
  | n + 1 => (m.push 0).pushZeros n

def pushFrame (m : Memory) (back : Word) : Memory :=
  [Register.lcl, .arg, .this, .that].foldl (fun m r => m.push (m (address r))) (m.push back)

def call (m : Memory) (back args : Word) : Memory :=
  let framed := m.pushFrame back
  let based := framed.store (address .arg) (framed.sp - 5 - args)
  based.store (address .lcl) based.sp

def restore (m : Memory) (frame : Word) (saved : Register × Word) : Memory :=
  m.store (address saved.1) (m (frame - saved.2))

def back (m : Memory) : Word := m (m (address .lcl) - 5)

/-- Leaves a function: its result takes the place of the arguments, and the caller's pointers come
back from the frame. -/
def leave (m : Memory) : Memory :=
  let frame := m (address .lcl)
  let moved := m.drop.store (m.drop (address .arg)) m.drop.dropped
  let cut := moved.store (address .sp) (moved (address .arg) + 1)
  [(Register.that, 1), (.this, 2), (.arg, 3), (.lcl, 4)].foldl (restore · frame) cut

/-- Puts the next saved pointer back, going down the frame with R13. -/
def restoreNext (m : Memory) (r : Register) : Memory :=
  let moved := m.store (address .r13) (m (address .r13) - 1)
  moved.store (address r) (moved (moved (address .r13)))

/-- What the code of a return does: R13 keeps the end of the frame and R14 the return address. -/
def unwind (m : Memory) : Memory :=
  let framed := m.store (address .r13) (m (address .lcl))
  let kept := framed.store (address .r14) (framed (m (address .lcl) - 5))
  let moved := kept.drop.store (kept.drop (address .arg)) kept.drop.dropped
  let cut := moved.store (address .sp) (moved (address .arg) + 1)
  [Register.that, .this, .arg, .lcl].foldl restoreNext cut

variable {m v : Memory} {x y w : Word}

@[simp] theorem store_self : m.store x w x = w := if_pos rfl

theorem store_of_ne (h : y ≠ x) : m.store x w y = m y := if_neg h

theorem sp_drop (m : Memory) : m.drop.sp = m.sp - 1 := by
  rw [drop, sp]
  exact store_self

/-- R13 names the word that is stored to. -/
theorem popBy_eq (x : Word) : m.popBy x =
    (m.store (address .r13) x).drop.store x (m.store (address .r13) x).drop.dropped := by
  have hx : (m.store (address .r13) x).drop (address .r13) = x := by
    rw [drop, store_of_ne (by decide), store_self]
  rw [popBy, hx]

/-- Two memories that differ in scratch words at most. -/
def Agrees (m v : Memory) : Prop := ∀ x, ¬Scratch x → m x = v x

namespace Agrees

theorem refl (m : Memory) : m.Agrees m := fun _ _ => rfl

theorem address (h : m.Agrees v) {r : Register} (hr : ¬Scratch (address r)) :
    m (Machine.address r) = v (Machine.address r) := h _ hr

theorem sp (h : m.Agrees v) : m.sp = v.sp := h.address (by decide)

private theorem store (h : m.Agrees v) {x x' w w' : Word} (hx : x = x') (hw : w = w') :
    (m.store x w).Agrees (v.store x' w') := by
  subst hx hw
  intro y hy
  by_cases hyx : y = x
  · rw [hyx, store_self, store_self]
  · rw [store_of_ne hyx, store_of_ne hyx, h y hy]

private theorem store_scratch (h : m.Agrees v) (hx : Scratch x) (w : Word) :
    (m.store x w).Agrees v := by
  intro y hy
  have hyx : y ≠ x := by
    rintro rfl
    exact hy hx
  rw [store_of_ne hyx, h y hy]

theorem push (h : m.Agrees v) {w w' : Word} (hw : w = w') : (m.push w).Agrees (v.push w') := by
  have hs := h.store h.sp hw
  exact hs.store rfl (congrArg (· + 1) hs.sp)

theorem drop (h : m.Agrees v) : m.drop.Agrees v.drop := h.store rfl (congrArg (· - 1) h.sp)

theorem dropped (h : m.Agrees v) (hx : ¬Scratch (v.sp - 1)) :
    m.drop.dropped = v.drop.dropped := by
  rw [Memory.dropped, Memory.dropped, sp_drop, sp_drop, h.sp]
  exact h.drop _ hx

private theorem top (h : m.Agrees v) (hx : ¬Scratch (v.sp - 1)) : m.top = v.top := by
  rw [Memory.top, h.sp]
  exact h _ hx

private theorem replaceTop (h : m.Agrees v) {w w' : Word} (hw : w = w') :
    (m.replaceTop w).Agrees (v.replaceTop w') :=
  h.store (congrArg (· - 1) h.sp) hw

theorem popBy (h : m.Agrees v) (x : Word) (hy : ¬Scratch (v.sp - 1)) :
    (m.popBy x).Agrees (v.popTo x) := by
  have hk : (m.store (Machine.address .r13) x).Agrees v := h.store_scratch (.inl rfl) x
  rw [popBy_eq]
  exact hk.drop.store rfl (hk.dropped hy)

private theorem combine (h : m.Agrees v) (f : Word → Word → Word) (hy : ¬Scratch (v.sp - 1))
    (hx : ¬Scratch (v.sp - 2)) : (m.combine f).Agrees (v.combine f) := by
  have hx' : ¬Scratch (v.drop.sp - 1) := by
    rwa [sp_drop, show v.sp - 1 - 1 = v.sp - 2 by bv_omega]
  exact h.drop.replaceTop (congrArg₂ f (h.drop.top hx') (h.dropped hy))

/-- Operators look at no scratch word if their operands do not lie there. -/
theorem operate (h : m.Agrees v) (op : Operator) (hy : ¬Scratch (v.sp - 1))
    (hx : op.operands = 2 → ¬Scratch (v.sp - 2)) : (m.operate op).Agrees (v.operate op) := by
  cases op with
  | neg | not => exact h.replaceTop (congrArg _ (h.top hy))
  | _ =>
    rw [Memory.operate, Memory.operate]
    exact h.combine _ hy (hx rfl)

theorem pushZeros (h : m.Agrees v) (n : Nat) : (m.pushZeros n).Agrees (v.pushZeros n) := by
  induction n generalizing m v with
  | zero => exact h
  | succ n ih => exact ih (h.push rfl)

private theorem pushFrame (h : m.Agrees v) (back : Word) :
    (m.pushFrame back).Agrees (v.pushFrame back) := by
  have h0 := h.push (rfl : back = back)
  have h1 := h0.push (h0.address (r := .lcl) (by decide))
  have h2 := h1.push (h1.address (r := .arg) (by decide))
  have h3 := h2.push (h2.address (r := .this) (by decide))
  exact h3.push (h3.address (r := .that) (by decide))

theorem call (h : m.Agrees v) (back args : Word) :
    (m.call back args).Agrees (v.call back args) := by
  have hf := h.pushFrame back
  have hb := hf.store (rfl : Machine.address .arg = _) (congrArg (· - 5 - args) hf.sp)
  exact hb.store rfl hb.sp

/-- The words that a return keeps for itself, while the stack is as the stack machine has it. -/
private structure Unwinding (m v : Memory) (frame back : Word) : Prop where
  agrees : m.Agrees v
  frame : m (Machine.address .r13) = frame
  back : m (Machine.address .r14) = back

namespace Unwinding
variable {frame back : Word}

private theorem store (h : Unwinding m v frame back) {x x' w w' : Word} (hx : x = x')
    (hw : w = w') (hs : ¬Scratch x') : Unwinding (m.store x w) (v.store x' w') frame back := by
  subst hx hw
  have h13 : Machine.address .r13 ≠ x := fun he => hs (.inl he.symm)
  have h14 : Machine.address .r14 ≠ x := fun he => hs (.inr he.symm)
  refine ⟨h.agrees.store rfl rfl, ?_, ?_⟩
  · rw [store_of_ne h13, h.frame]
  · rw [store_of_ne h14, h.back]

private theorem move (h : Unwinding m v frame back) (frame' : Word) :
    Unwinding (m.store (Machine.address .r13) frame') v frame' back := by
  refine ⟨h.agrees.store_scratch (.inl rfl) _, store_self, ?_⟩
  rw [store_of_ne (by decide), h.back]

private theorem restoreNext {frame' k : Word} (h : Unwinding m v frame' back) {r : Register}
    (hk : frame' - 1 = frame - k) (hr : ¬Scratch (Machine.address r)) (hs : ¬Scratch (frame - k)) :
    Unwinding (m.restoreNext r) (v.restore frame (r, k)) (frame - k) back := by
  have hm := h.move (frame - k)
  rw [Memory.restoreNext, h.frame, hk]
  refine hm.store rfl ?_ hr
  rw [hm.frame]
  exact hm.agrees _ hs

end Unwinding

/-- The code of a return leaves a function as the stack machine does and keeps where to go on. -/
theorem unwind (h : m.Agrees v) (ht : ¬Scratch (v.sp - 1))
    (ha : ¬Scratch (v (Machine.address .arg)))
    (hf : ∀ k ∈ [1, 2, 3, 4, 5], ¬Scratch (v (Machine.address .lcl) - k)) :
    m.unwind.Agrees v.leave ∧ m.unwind (Machine.address .r14) = v.back := by
  have hl : m (Machine.address .lcl) = v (Machine.address .lcl) := h.address (by decide)
  have hb : (m.store (Machine.address .r13) (v (Machine.address .lcl)))
      (v (Machine.address .lcl) - 5) = v.back :=
    h.store_scratch (.inl rfl) _ _ (hf 5 (by decide))
  have hkept : Unwinding
      ((m.store (Machine.address .r13) (v (Machine.address .lcl))).store (Machine.address .r14)
        v.back) v (v (Machine.address .lcl)) v.back := by
    refine ⟨(h.store_scratch (.inl rfl) _).store_scratch (.inr rfl) _, ?_, store_self⟩
    rw [store_of_ne (by decide), store_self]
  have hdrop := hkept.store (rfl : Machine.address .sp = _)
    (congrArg (· - 1) hkept.agrees.sp) (by decide)
  have hmoved := hdrop.store (hdrop.agrees.address (r := .arg) (by decide))
    (hkept.agrees.dropped ht) ha
  have hcut := hmoved.store (rfl : Machine.address .sp = _)
    (congrArg (· + 1) (hmoved.agrees.address (r := .arg) (by decide))) (by decide)
  have h1 := hcut.restoreNext (r := .that) rfl (by decide) (hf 1 (by decide))
  have h2 := h1.restoreNext (r := .this) (k := 2) (by bv_omega) (by decide) (hf 2 (by decide))
  have h3 := h2.restoreNext (r := .arg) (k := 3) (by bv_omega) (by decide) (hf 3 (by decide))
  have h4 := h3.restoreNext (r := .lcl) (k := 4) (by bv_omega) (by decide) (hf 4 (by decide))
  rw [Memory.unwind, hl, hb]
  exact ⟨h4.agrees, h4.back⟩

end Agrees
end Memory
end StackLowering.Machine
