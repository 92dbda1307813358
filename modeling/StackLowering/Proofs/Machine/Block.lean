import StackLowering.Block.Operator
import StackLowering.Block.Transfer
import StackLowering.Proofs.Machine.Placement
import StackLowering.Proofs.Machine.StackMachine
/-! What the blocks of commands do to the memory, wherever they stand in the code. The parts without
jumps are carried out once and for all; a whole block is the way through its parts. -/
namespace StackLowering
open Assembly Machine

namespace Block
open Assembly.Line

@[simp] theorem codeSize_pushD : codeSize pushD = 5 := rfl

@[simp] theorem codeSize_popD : codeSize popD = 3 := rfl

@[simp] theorem codeSize_operands : codeSize operands = 4 := rfl

@[simp] theorem codeSize_setTop (c : Computation) : codeSize (setTop c) = 3 := rfl

theorem exists_locate (unit : String) (i : UInt16) {g : Segment} (hg : g ≠ .constant) :
    ∃ code, locate? unit i g.addressing = some code := by
  cases g with
  | constant => exact absurd rfl hg
  | _ => exact ⟨_, rfl⟩

theorem codeSize_function (name : String) (count : UInt16) :
    codeSize (function name count) = 5 * count.toNat := by
  have hz : ∀ n, codeSize (List.replicate n pushZero).flatten = 5 * n := by
    intro n
    induction n with
    | zero => rfl
    | succ n ih =>
      rw [List.replicate_succ, List.flatten_cons, codeSize_append, ih, Nat.mul_succ, Nat.add_comm]
      rfl
  rw [function, codeSize, hz, Line.size, Nat.zero_add]

def pushRegister (r : Register) : List Line := [register r, assign .toD (.get .m)] ++ pushD

/-- Lets ARG and LCL name the parts of a new frame. -/
def setPointers (args : UInt16) : List Line :=
  [register .sp, assign .toD (.get .m), literal frameSize, assign .toD (.sub .a),
    literal args, assign .toD (.sub .a), register .arg, assign .toM .d] ++
    [register .sp, assign .toD (.get .m), register .lcl, assign .toM .d]

def callFrame (args : UInt16) (number : Nat) : List Line :=
  [pointer (.generated .back number), assign .toD (.get .a)] ++ pushD ++
    savedPointers.flatMap pushRegister ++ setPointers args

private theorem codeSize_callFrame (args : UInt16) (number : Nat) :
    codeSize (callFrame args number) = 47 := by
  simp [callFrame, savedPointers, pushRegister, setPointers, codeSize, Line.size]

private theorem call_eq (name : String) (args : UInt16) (number : Nat) :
    call name args number =
      callFrame args number ++ [pointer (.named name), jump .zero .always] ++
        [define (.generated .back number)] := by
  rw [call, callFrame, setPointers, ← List.append_assoc (_ ++ _), List.append_assoc _ [_, _] [_]]
  rfl

/-- Keeps the frame's end in R13 and the return address in R14. -/
def keepFrame : List Line :=
  [register .lcl, assign .toD (.get .m), register .r13, assign .toM .d] ++
    [literal frameSize, assign .toA (.sub .a), assign .toD (.get .m), register .r14,
      assign .toM .d]

def cutStack : List Line :=
  [register .arg, assign .toD (.succ .m), register .sp, assign .toM .d]

def restoreNext (r : Register) : List Line :=
  [register .r13, assign .toAM (.pred .m), assign .toD (.get .m), register r, assign .toM .d]

def unwinding : List Line :=
  keepFrame ++ popD ++ storeAt .arg ++ cutStack ++ savedPointers.reverse.flatMap restoreNext

private theorem codeSize_unwinding : codeSize unwinding = 39 := by decide

private theorem ret_eq :
    ret = unwinding ++ [register .r14, assign .toA (.get .m)] ++ [jump .zero .always] := by
  rw [ret, unwinding, List.append_assoc _ [_, _] [_]]
  rfl

end Block

namespace Assembly
variable {value : String → Word}

theorem exec_pushD (hv : ∀ r : Register, value r.text = address r) (s : State) :
    exec value Block.pushD s = ⟨0, s.d, s.memory.push s.d, s.next + 5⟩ := by
  simp only [Block.pushD, exec_register, exec_assign, exec_nil, hv]
  rfl

theorem exec_popD (hv : ∀ r : Register, value r.text = address r) (s : State) :
    exec value Block.popD s =
      ⟨s.memory.drop.sp, s.memory.drop.dropped, s.memory.drop, s.next + 3⟩ := by
  simp only [Block.popD, exec_register, exec_assign, exec_nil, hv, Memory.dropped, Memory.sp_drop]
  rfl

theorem exec_load (hv : ∀ r : Register, value r.text = address r) (s : State)
    (unit : String) (i : UInt16) (g : Segment) :
    (exec value (Block.load unit i g.addressing) s).d =
        g.read s.memory (value (Symbol.static unit i).text) i ∧
      (exec value (Block.load unit i g.addressing) s).memory = s.memory := by
  cases g <;>
    simp only [Block.load, Segment.addressing, exec_literal, exec_register, exec_address,
      exec_assign, exec_nil, hv, Segment.read, Segment.place?] <;>
    exact ⟨rfl, rfl⟩

theorem exec_locate (hv : ∀ r : Register, value r.text = address r) (s : State)
    {unit : String} {i : UInt16} {g : Segment} {x : Word} {code : List Line}
    (hx : g.place? s.memory (value (Symbol.static unit i).text) i = some x)
    (hc : Block.locate? unit i g.addressing = some code) :
    (exec value code s).d = x ∧ (exec value code s).memory = s.memory := by
  cases g <;>
    simp only [Block.locate?, Segment.addressing, Segment.place?, Option.some.injEq,
      reduceCtorEq] at hc hx <;>
    subst hc hx <;>
    simp only [exec_literal, exec_register, exec_address, exec_assign, exec_nil, hv] <;>
    exact ⟨rfl, rfl⟩

theorem exec_operands (hv : ∀ r : Register, value r.text = address r) (s : State) :
    exec value Block.operands s =
      ⟨s.memory.drop.sp - 1, s.memory.drop.dropped, s.memory.drop, s.next + 4⟩ := by
  rw [Block.operands, exec_append, exec_popD hv]
  rfl

theorem exec_setTop (hv : ∀ r : Register, value r.text = address r) (s : State)
    (c : Computation) :
    exec value (Block.setTop c) s =
      let t : State := ⟨s.memory.sp - 1, s.d, s.memory, s.next + 2⟩
      { t with memory := s.memory.replaceTop (t.value c), next := s.next + 3 } := by
  simp only [Block.setTop, Block.unary, exec_register, exec_assign, exec_nil, hv]
  rfl

theorem exec_keep (hv : ∀ r : Register, value r.text = address r) (s : State)
    (r : Register) :
    exec value (Block.keep r) s =
      ⟨address r, s.d, s.memory.store (address r) s.d, s.next + 2⟩ := by
  simp only [Block.keep, exec_register, exec_assign, exec_nil, hv]
  rfl

private theorem exec_storeAt (hv : ∀ r : Register, value r.text = address r) (s : State)
    (r : Register) :
    exec value (Block.storeAt r) s =
      ⟨s.memory (address r), s.d, s.memory.store (s.memory (address r)) s.d, s.next + 3⟩ := by
  simp only [Block.storeAt, exec_register, exec_assign, exec_nil, hv]
  rfl

theorem exec_popTo (hv : ∀ r : Register, value r.text = address r) (s : State)
    {unit : String} {i : UInt16} {g : Segment} {x : Word} {code : List Line}
    (hx : g.place? s.memory (value (Symbol.static unit i).text) i = some x)
    (hc : Block.locate? unit i g.addressing = some code) :
    (exec value (Block.popTo code) s).memory = s.memory.popBy x := by
  obtain ⟨hd, hm⟩ := exec_locate hv s hx hc
  rw [Block.popTo, exec_append, exec_append, exec_append, exec_keep hv, exec_popD hv,
    exec_storeAt hv, hd, hm]
  rfl

theorem flows_popTo {unit : String} {i : UInt16} {g : Segment} {code : List Line}
    (hc : Block.locate? unit i g.addressing = some code) :
    (Block.popTo code).all Line.flows = true := by
  have hf : code.all Line.flows = true := by
    cases g <;> cases hc <;> rfl
  rw [Block.popTo, List.all_append, List.all_append, List.all_append, hf]
  rfl

private theorem exec_pushZeros (hv : ∀ r : Register, value r.text = address r) (s : State)
    (n : Nat) :
    (exec value (List.replicate n Block.pushZero).flatten s).memory = s.memory.pushZeros n := by
  induction n generalizing s with
  | zero => rfl
  | succ n ih =>
    have hz : (exec value Block.pushZero s).memory = s.memory.push 0 := by
      simp only [Block.pushZero, exec_register, exec_assign, exec_nil, hv]
      rfl
    rw [List.replicate_succ, List.flatten_cons, exec_append, ih, hz]
    rfl

private theorem flows_pushZeros (n : Nat) :
    (List.replicate n Block.pushZero).flatten.all Line.flows = true := by
  induction n with
  | zero => rfl
  | succ n ih => rw [List.replicate_succ, List.flatten_cons, List.all_append, ih]; rfl

private theorem exec_pushRegister (hv : ∀ r : Register, value r.text = address r) (s : State)
    (r : Register) :
    exec value (Block.pushRegister r) s =
      ⟨0, s.memory (address r), s.memory.push (s.memory (address r)), s.next + 7⟩ := by
  rw [Block.pushRegister, exec_append, exec_pushD hv]
  simp only [exec_register, exec_assign, exec_nil, hv]
  rfl

private theorem exec_pushRegisters (hv : ∀ r : Register, value r.text = address r) (s : State)
    (rs : List Register) :
    (exec value (rs.flatMap Block.pushRegister) s).memory =
      rs.foldl (fun m r => m.push (m (address r))) s.memory := by
  induction rs generalizing s with
  | nil => rfl
  | cons r rs ih => rw [List.flatMap_cons, exec_append, ih, exec_pushRegister hv, List.foldl_cons]

private theorem exec_setPointers (hv : ∀ r : Register, value r.text = address r) (s : State)
    (args : UInt16) :
    (exec value (Block.setPointers args) s).memory =
      let based := s.memory.store (address .arg) (s.memory.sp - 5 - args.toBitVec)
      based.store (address .lcl) based.sp := by
  rw [Block.setPointers, exec_append]
  simp only [exec_literal, exec_register, exec_assign, exec_nil, hv]
  rfl

private theorem exec_callFrame (hv : ∀ r : Register, value r.text = address r) (s : State)
    (args : UInt16) (number : Nat) :
    (exec value (Block.callFrame args number) s).memory =
      s.memory.call (value (Label.generated .back number).text) args.toBitVec := by
  rw [Block.callFrame, exec_append, exec_append, exec_append, exec_setPointers hv,
    exec_pushRegisters hv, exec_pushD hv, exec_pointer, exec_assign, exec_nil]
  rfl

private theorem exec_keepFrame (hv : ∀ r : Register, value r.text = address r) (s : State) :
    exec value Block.keepFrame s =
      let framed := s.memory.store (address .r13) (s.memory (address .lcl))
      let back := framed (s.memory (address .lcl) - 5)
      ⟨address .r14, back, framed.store (address .r14) back, s.next + 9⟩ := by
  rw [Block.keepFrame, exec_append]
  simp only [exec_literal, exec_register, exec_assign, exec_nil, hv]
  rfl

private theorem exec_cutStack (hv : ∀ r : Register, value r.text = address r) (s : State) :
    exec value Block.cutStack s =
      ⟨address .sp, s.memory (address .arg) + 1,
        s.memory.store (address .sp) (s.memory (address .arg) + 1), s.next + 4⟩ := by
  simp only [Block.cutStack, exec_register, exec_assign, exec_nil, hv]
  rfl

private theorem exec_restoreNext (hv : ∀ r : Register, value r.text = address r) (s : State)
    (r : Register) : (exec value (Block.restoreNext r) s).memory = s.memory.restoreNext r := by
  simp only [Block.restoreNext, exec_register, exec_assign, exec_nil, hv, Memory.restoreNext,
    Memory.store_self]
  rfl

private theorem exec_restore (hv : ∀ r : Register, value r.text = address r) (s : State)
    (rs : List Register) :
    (exec value (rs.flatMap Block.restoreNext) s).memory =
      rs.foldl Memory.restoreNext s.memory := by
  induction rs generalizing s with
  | nil => rfl
  | cons r rs ih => rw [List.flatMap_cons, exec_append, ih, exec_restoreNext hv, List.foldl_cons]

private theorem exec_unwinding (hv : ∀ r : Register, value r.text = address r) (s : State) :
    (exec value Block.unwinding s).memory = s.memory.unwind := by
  rw [Block.unwinding, exec_append, exec_restore hv, exec_append, exec_append, exec_append,
    exec_keepFrame hv, exec_popD hv, exec_storeAt hv, exec_cutStack hv]
  rfl

/-- The return label of a call stands for what follows the block. -/
theorem Placed.back {lines : List Line} {name : String} {args : UInt16} {number n : Nat}
    (h : Placed lines n (Block.call name args number)) :
    Placed lines (n + codeSize (Block.call name args number))
      [.define (.generated .back number)] := by
  rw [Block.call_eq] at h
  refine h.behind ?_
  simp [Block.call_eq, codeSize, Line.size]

/-- Where the parts of a comparison lie: it subtracts and jumps on the sign, and both branches end
behind it. -/
structure ComparisonAt (lines : List Line) (n : Nat) (when : Jump) (number : Nat) : Prop where
  subtract : Placed lines n (Block.operands ++ [.assign .toD (.subD .m)])
  branch : Placed lines (n + 5) [.pointer (.generated .holds number), .jump .d when]
  setFalse : Placed lines (n + 7) (Block.setTop .zero)
  skip : Placed lines (n + 10) [.pointer (.generated .done number), .jump .zero .always]
  holds : Placed lines (n + 12) [.define (.generated .holds number)]
  setTrue : Placed lines (n + 12) (Block.setTop .minusOne)
  done : Placed lines (n + 15) [.define (.generated .done number)]

theorem Placed.comparison {lines : List Line} {n : Nat} {when : Jump} {number : Nat}
    (h : Placed lines n (Block.compare when number)) : ComparisonAt lines n when number where
  subtract := h.left.left.left.left.left.left
  branch := h.left.left.left.left.left.behind (by simp [codeSize, Line.size])
  setFalse := h.left.left.left.left.behind (by simp [codeSize, Line.size])
  skip := h.left.left.left.behind (by simp [codeSize, Line.size])
  holds := h.left.left.behind (by simp [codeSize, Line.size])
  setTrue := h.left.behind (by simp [codeSize, Line.size])
  done := h.behind (by simp [codeSize, Line.size])

end Assembly

namespace Assembly.Linked
variable {lines : List Line} {s : State}

theorem push (hl : Linked lines) {unit : String} {i : UInt16} {g : Segment}
    (h : Placed lines s.next (Block.load unit i g.addressing ++ Block.pushD)) :
    s.LeadsTo (image lines)
      (s.next + codeSize (Block.load unit i g.addressing ++ Block.pushD))
      (s.memory.push (g.read s.memory (symbolValue lines (Symbol.static unit i).text) i)) := by
  obtain ⟨hd, hm⟩ := exec_load hl.registers s unit i g
  have hr := h.leadsTo (by cases g <;> rfl) (by cases g <;> exact Nat.succ_pos _)
  rwa [exec_append, exec_pushD hl.registers, hd, hm] at hr

theorem pop (hl : Linked lines) {unit : String} {i : UInt16} {g : Segment} {x : Word}
    {code : List Line}
    (hx : g.place? s.memory (symbolValue lines (Symbol.static unit i).text) i = some x)
    (hc : Block.locate? unit i g.addressing = some code)
    (h : Placed lines s.next (Block.popTo code)) :
    s.LeadsTo (image lines) (s.next + codeSize (Block.popTo code)) (s.memory.popBy x) := by
  have hr := h.leadsTo (flows_popTo hc) (by rw [Block.popTo, codeSize_append]; exact Nat.succ_pos _)
  rwa [exec_popTo hl.registers s hx hc] at hr

private theorem unary (hl : Linked lines) {c : Computation}
    (h : Placed lines s.next (Block.unary c)) :
    s.LeadsTo (image lines) (s.next + codeSize (Block.unary c))
      (s.memory.replaceTop
        (State.value ⟨s.memory.sp - 1, s.d, s.memory, s.next + 2⟩ c)) := by
  have hr := h.leadsTo rfl (Nat.succ_pos _)
  rwa [show exec _ (Block.unary c) s = _ from exec_setTop hl.registers s c] at hr

private theorem binary (hl : Linked lines) {c : Computation}
    (h : Placed lines s.next (Block.binary c)) :
    s.LeadsTo (image lines) (s.next + codeSize (Block.binary c))
      (s.memory.drop.replaceTop
        (State.value ⟨s.memory.drop.sp - 1, s.memory.drop.dropped, s.memory.drop, s.next + 4⟩
          c)) := by
  have hr := h.leadsTo rfl (Nat.succ_pos _)
  rwa [Block.binary, exec_append, exec_operands hl.registers] at hr

private theorem setTop (hl : Linked lines) {c : Computation} {w : Word}
    (h : Placed lines s.next (Block.setTop c)) (hc : ∀ t : State, t.value c = w) :
    s.LeadsTo (image lines) (s.next + 3) (s.memory.replaceTop w) := by
  have hu := hl.unary h
  rwa [hc] at hu

private theorem compare_subtracted (hl : Linked lines)
    (h : Placed lines s.next (Block.operands ++ [.assign .toD (.subD .m)])) :
    ∃ t : State, s.Advances (image lines) t ∧
      t.d = s.memory.drop.top - s.memory.drop.dropped ∧ t.memory = s.memory.drop ∧
      t.next = s.next + 5 := by
  have ha := h.advances rfl (Nat.succ_pos _)
  rw [exec_append, exec_operands hl.registers] at ha
  exact ⟨_, ha, rfl, rfl, rfl⟩

private theorem compare (hl : Linked lines) {when : Jump} {number : Nat}
    (h : Placed lines s.next (Block.compare when number)) :
    s.LeadsTo (image lines) (s.next + codeSize (Block.compare when number))
      (s.memory.combine fun x y => if taken when (x - y) then -1 else 0) := by
  obtain ⟨hsubtract, hbranch, hfalse, hskip, hholds, htrue, hdone⟩ := h.comparison
  have hsize : codeSize (Block.compare when number) = 15 := by
    simp [Block.compare, codeSize, Line.size]
  obtain ⟨t, hst, hd, hm, hn⟩ := hl.compare_subtracted hsubtract
  rw [← hn] at hbranch
  refine hst.trans_leadsTo ?_
  rw [Memory.combine, hsize, ← hd, ← hm]
  by_cases hw : taken when t.d = true
  · rw [if_pos hw]
    refine (hbranch.jump_taken (fun _ => hw) hl hholds).trans fun u hn' hm' => ?_
    rw [← hn'] at htrue
    have hu := hl.setTop (w := -1) htrue fun _ => rfl
    rwa [hn', hm'] at hu
  · rw [if_neg hw]
    refine (hbranch.jump_passed fun _ => Bool.eq_false_iff.2 hw).trans fun u hn' hm' => ?_
    rw [show s.next + 7 = u.next by rw [hn', hn]] at hfalse
    refine (hl.setTop (w := 0) hfalse fun _ => rfl).trans fun u' hn'' hm'' => ?_
    rw [show s.next + 10 = u'.next by rw [hn'', hn', hn]] at hskip
    have hj := hskip.jump_taken (fun _ => rfl) hl hdone
    rwa [hm'', hm'] at hj

theorem operate (hl : Linked lines) {op : Operator} {number : Nat}
    (h : Placed lines s.next (Block.operator op number)) :
    s.LeadsTo (image lines) (s.next + codeSize (Block.operator op number))
      (s.memory.operate op) := by
  cases op with
  | add | sub | and | or => exact hl.binary h
  | neg | not => exact hl.unary h
  | eq | gt | lt =>
    have hc := hl.compare h
    simp only [taken, decide_eq_true_eq] at hc
    exact hc

theorem goto (hl : Linked lines) {name : String} {n : Nat} {block : List Line}
    (h : Placed lines s.next (Block.goto name))
    (ht : Placed lines n (.define (.named name) :: block)) :
    s.LeadsTo (image lines) n s.memory :=
  h.jump_taken (fun _ => rfl) hl ht

private theorem ifGoto_popped (hl : Linked lines) {name : String}
    (h : Placed lines s.next (Block.ifGoto name)) :
    ∃ t : State, s.Advances (image lines) t ∧ t.d = s.memory.drop.dropped ∧
      t.memory = s.memory.drop ∧ t.next = s.next + 3 ∧
      Placed lines t.next [.pointer (.named name), .jump .d .ne] := by
  have hp : Placed lines s.next Block.popD := h.left
  have ha := hp.advances rfl (Nat.succ_pos _)
  rw [exec_popD hl.registers] at ha
  exact ⟨_, ha, rfl, rfl, rfl, h.right⟩

theorem ifGoto_taken (hl : Linked lines) {name : String} {n : Nat} {block : List Line}
    (h : Placed lines s.next (Block.ifGoto name))
    (ht : Placed lines n (.define (.named name) :: block)) (hw : s.memory.drop.dropped ≠ 0) :
    s.LeadsTo (image lines) n s.memory.drop := by
  obtain ⟨t, hst, hd, hm, -, hj⟩ := hl.ifGoto_popped h
  have hi : t.d.toInt ≠ 0 := fun he => hw (BitVec.toInt_inj.1 (hd ▸ he))
  rw [← hm]
  exact hst.trans_leadsTo (hj.jump_taken (fun _ => decide_eq_true hi) hl ht)

theorem ifGoto_passed (hl : Linked lines) {name : String}
    (h : Placed lines s.next (Block.ifGoto name)) (hw : s.memory.drop.dropped = 0) :
    s.LeadsTo (image lines) (s.next + codeSize (Block.ifGoto name)) s.memory.drop := by
  obtain ⟨t, hst, hd, hm, hn, hj⟩ := hl.ifGoto_popped h
  have hi : t.d.toInt = 0 := by rw [hd, hw]; rfl
  have hp := hj.jump_passed fun _ => decide_eq_false (not_not_intro hi)
  rw [hn, hm] at hp
  exact hst.trans_leadsTo hp

/-- The locals of a function. -/
theorem function (hl : Linked lines) {name : String} {count : UInt16}
    (h : Placed lines s.next (Block.function name count)) :
    ∃ t, s.Reaches (image lines) t ∧ t.next = s.next + codeSize (Block.function name count) ∧
      t.memory = s.memory.pushZeros count.toNat := by
  have hf : (Block.function name count).all Line.flows = true := by
    rw [Block.function, List.all_cons, flows_pushZeros]
    rfl
  exact ⟨_, h.reaches hf, h.next_exec hf, exec_pushZeros hl.registers s count.toNat⟩

theorem call (hl : Linked lines) {name : String} {args : UInt16} {number n : Nat}
    {block : List Line} (h : Placed lines s.next (Block.call name args number))
    (ht : Placed lines n (.define (.named name) :: block)) :
    s.LeadsTo (image lines) n
      (s.memory.call (.ofNat 16 (s.next + codeSize (Block.call name args number)))
        args.toBitVec) := by
  have hback := h.back
  rw [Block.call_eq] at h
  have hf : (Block.callFrame args number).all Line.flows = true := rfl
  have ha := h.left.left.advances hf (by simp [Block.codeSize_callFrame])
  have hj := h.left.right
  rw [← h.left.left.next_exec hf] at hj
  have hg := hj.jump_taken (fun _ => rfl) hl ht
  rw [exec_callFrame hl.registers, hback.symbolValue hl] at hg
  exact ha.trans_leadsTo hg

theorem ret (hl : Linked lines) (h : Placed lines s.next Block.ret) :
    s.LeadsTo (image lines) (s.memory.unwind (address .r14)).toNat s.memory.unwind := by
  rw [Block.ret_eq] at h
  have hf : Block.unwinding.all Line.flows = true := rfl
  obtain ⟨t, hst, hn, hm⟩ := h.left.left.leadsTo hf (by simp [Block.codeSize_unwinding])
  have hload : Placed lines t.next [.register .r14, .assign .toA (.get .m)] := hn ▸ h.left.right
  have hjump : Placed lines (t.next + 2) [.jump .zero .always] := by
    have hr := h.right
    rwa [codeSize_append, ← Nat.add_assoc, ← hn] at hr
  have hread : t.Advances (image lines)
      ⟨t.memory (address .r14), t.d, t.memory, t.next + 2⟩ := by
    have ha := hload.advances rfl Nat.two_pos
    simp only [exec_register, exec_assign, exec_nil, hl.registers] at ha
    exact ha
  rw [exec_unwinding hl.registers] at hm
  rw [← hm]
  have hj := Placed.jump (s := ⟨t.memory (address .r14), t.d, t.memory, t.next + 2⟩) hjump
  exact ⟨_, (hst.trans hread).trans hj, rfl, rfl⟩

theorem setup (hl : Linked lines) (h : Placed lines s.next Block.setup) :
    s.LeadsTo (image lines) (s.next + codeSize Block.setup)
      (s.memory.store (address .sp) Block.stackBase.toBitVec) := by
  have hm : (exec (symbolValue lines) Block.setup s).memory =
      s.memory.store (address .sp) Block.stackBase.toBitVec := by
    simp only [Block.setup, exec_literal, exec_register, exec_assign, exec_nil, hl.registers]
    rfl
  have hr := h.leadsTo rfl (Nat.succ_pos _)
  rwa [hm] at hr

end Assembly.Linked
end StackLowering
