import Mathlib.Tactic.Common
import StackLowering.Assembly.Image
import StackLowering.Proofs.Assembly.Text
import StackLowering.Proofs.Machine.Memory
/-! Blocks of lines at an address of the code. The machine goes through a block without jumps from
its first line to the one behind it, and a label stands for the address of the block behind it. -/
namespace StackLowering
open Assembly

namespace Machine.State
variable {code : List Code} {s t u : State}

def Reaches (code : List Code) (s t : State) : Prop := ∃ n, s.run? code n = some t

/-- As `Reaches`, but not without a step. -/
def Advances (code : List Code) (s t : State) : Prop := ∃ n, s.run? code (n + 1) = some t

/-- A machine that takes some steps has taken fewer before. -/
theorem exists_run?_of_le {m n : Nat} (h : s.run? code n = some t) (hm : m ≤ n) :
    ∃ u, s.run? code m = some u := by
  obtain ⟨k, rfl⟩ := Nat.exists_eq_add_of_le hm
  rw [run?_add] at h
  obtain ⟨u, hu, -⟩ := Option.bind_eq_some_iff.1 h
  exact ⟨u, hu⟩

def LeadsTo (code : List Code) (s : State) (n : Nat) (m : Memory) : Prop :=
  ∃ t, s.Advances code t ∧ t.next = n ∧ t.memory = m

theorem Reaches.refl (code : List Code) (s : State) : s.Reaches code s := ⟨0, rfl⟩

theorem Reaches.trans (hs : s.Reaches code t) (ht : t.Reaches code u) : s.Reaches code u := by
  obtain ⟨m, hm⟩ := hs
  obtain ⟨n, hn⟩ := ht
  exact ⟨m + n, by rw [run?_add, hm, Option.bind_some, hn]⟩

theorem Advances.reaches (h : s.Advances code t) : s.Reaches code t := by
  obtain ⟨n, hn⟩ := h
  exact ⟨n + 1, hn⟩

private theorem Reaches.trans_advances (hs : s.Reaches code t) (ht : t.Advances code u) :
    s.Advances code u := by
  obtain ⟨m, hm⟩ := hs
  obtain ⟨n, hn⟩ := ht
  refine ⟨m + n, ?_⟩
  rw [Nat.add_assoc, run?_add, hm, Option.bind_some, hn]

theorem Advances.trans (hs : s.Advances code t) (ht : t.Advances code u) : s.Advances code u :=
  hs.reaches.trans_advances ht

/-- A way that goes on from wherever the first part ends. -/
theorem LeadsTo.trans {n n' : Nat} {m m' : Memory} (hs : s.LeadsTo code n m)
    (ht : ∀ t : State, t.next = n → t.memory = m → t.LeadsTo code n' m') :
    s.LeadsTo code n' m' := by
  obtain ⟨t, hst, hn, hm⟩ := hs
  obtain ⟨u, htu, hn', hm'⟩ := ht t hn hm
  exact ⟨u, hst.trans htu, hn', hm'⟩

theorem Advances.trans_leadsTo (hs : s.Advances code t) {n : Nat} {m : Memory}
    (ht : t.LeadsTo code n m) : s.LeadsTo code n m := by
  obtain ⟨u, hu, hn, hm⟩ := ht
  exact ⟨u, hs.trans hu, hn, hm⟩

end Machine.State

namespace Assembly
open Machine

def Line.flows : Line → Bool
  | compute i => i.jump.isNone
  | _ => true

/-- The state behind a block without jumps. -/
def exec (value : String → Word) (block : List Line) (s : State) : State :=
  (block.filterMap (Line.code? value)).foldl State.execute s

theorem exec_nil (value : String → Word) (s : State) : exec value [] s = s := rfl

theorem exec_address (value : String → Word) (symbol : Symbol) (block : List Line) (s : State) :
    exec value (.address symbol :: block) s =
      exec value block ⟨value symbol.text, s.d, s.memory, s.next + 1⟩ := rfl

theorem exec_literal (value : String → Word) (n : UInt16) (block : List Line) (s : State) :
    exec value (.literal n :: block) s =
      exec value block ⟨n.toBitVec, s.d, s.memory, s.next + 1⟩ := rfl

theorem exec_register (value : String → Word) (r : Register) (block : List Line) (s : State) :
    exec value (.register r :: block) s =
      exec value block ⟨value r.text, s.d, s.memory, s.next + 1⟩ := rfl

theorem exec_pointer (value : String → Word) (l : Label) (block : List Line) (s : State) :
    exec value (.pointer l :: block) s =
      exec value block ⟨value l.text, s.d, s.memory, s.next + 1⟩ := rfl

theorem exec_assign (value : String → Word) (dest : Dest) (c : Computation) (block : List Line)
    (s : State) :
    exec value (.assign dest c :: block) s =
      exec value block (s.execute (.compute ⟨dest, c, none⟩)) := rfl

theorem exec_append (value : String → Word) (first second : List Line) (s : State) :
    exec value (first ++ second) s = exec value second (exec value first s) := by
  rw [exec, List.filterMap_append, List.foldl_append]
  rfl

/-- The block stands in the lines, and its code begins at the address. -/
def Placed (lines : List Line) (n : Nat) (block : List Line) : Prop :=
  ∃ front back, lines = front ++ block ++ back ∧ n = codeSize front

namespace Placed
variable {lines first second block : List Line} {line : Line} {l : Label} {n : Nat}

theorem left (h : Placed lines n (first ++ second)) : Placed lines n first := by
  obtain ⟨front, back, rfl, hn⟩ := h
  exact ⟨front, second ++ back, by simp only [List.append_assoc], hn⟩

theorem right (h : Placed lines n (first ++ second)) :
    Placed lines (n + codeSize first) second := by
  obtain ⟨front, back, rfl, rfl⟩ := h
  exact ⟨front ++ first, back, by simp only [List.append_assoc], (codeSize_append _ _).symm⟩

/-- The place of the second part, when the size of the first is known. -/
theorem behind (h : Placed lines n (first ++ second)) {k : Nat} (hk : codeSize first = k) :
    Placed lines (n + k) second := hk ▸ h.right

theorem le_codeSize (h : Placed lines n block) : n + codeSize block ≤ codeSize lines := by
  obtain ⟨front, back, rfl, rfl⟩ := h
  rw [codeSize_append, codeSize_append]
  exact Nat.le_add_right _ _

theorem getElem?_image (h : Placed lines n (line :: block)) {c : Code}
    (hc : line.code? (symbolValue lines) = some c) : (image lines)[n]? = some c := by
  obtain ⟨front, back, hl, rfl⟩ := h
  have hs : lines.filterMap (Line.code? (symbolValue lines)) =
      front.filterMap (Line.code? (symbolValue lines)) ++
        c :: (block ++ back).filterMap (Line.code? (symbolValue lines)) := by
    have hm := congrArg (List.filterMap (Line.code? (symbolValue lines))) hl
    rw [hm, List.append_assoc, List.filterMap_append, List.cons_append,
      List.filterMap_cons_some hc]
  have hf := length_filterMap_code? (symbolValue lines) front
  rw [image, hs, List.getElem?_append_right (Nat.le_of_eq hf), hf, Nat.sub_self]
  rfl

private theorem step? {s : State} (h : Placed lines s.next (line :: block)) {c : Code}
    (hc : line.code? (symbolValue lines) = some c) :
    s.step? (image lines) = some (s.execute c) := by
  rw [State.step?, h.getElem?_image hc]
  rfl

/-- A block without jumps takes as many steps as it has words of code. -/
private theorem run? {s : State} (h : Placed lines s.next block) (hb : block.all Line.flows) :
    s.run? (image lines) (codeSize block) = some (exec (symbolValue lines) block s) ∧
      (exec (symbolValue lines) block s).next = s.next + codeSize block := by
  induction block generalizing s with
  | nil => exact ⟨rfl, rfl⟩
  | cons line block ih =>
    rw [List.all_cons, Bool.and_eq_true] at hb
    have hr : Placed lines (s.next + line.size) block := by
      have hl : Placed lines (s.next + codeSize [line]) block :=
        Placed.right (show Placed lines s.next ([line] ++ block) from h)
      rwa [codeSize, codeSize, Nat.add_zero] at hl
    -- The step for a line with code, which needs the line only to show that it goes on behind it.
    have executed : ∀ c, line.code? (symbolValue lines) = some c → line.size = 1 →
        (s.execute c).next = s.next + 1 →
        s.run? (image lines) (codeSize (line :: block)) =
            some (exec (symbolValue lines) (line :: block) s) ∧
          (exec (symbolValue lines) (line :: block) s).next =
            s.next + codeSize (line :: block) := by
      intro c hc hs hn
      rw [hs] at hr
      obtain ⟨h1, h2⟩ := ih (s := s.execute c) (by rwa [hn]) hb.2
      have he : exec (symbolValue lines) (line :: block) s =
          exec (symbolValue lines) block (s.execute c) := by
        rw [exec, List.filterMap_cons_some hc, List.foldl_cons]
        rfl
      rw [he, codeSize, hs, Nat.add_comm 1]
      refine ⟨?_, ?_⟩
      · rw [State.run?, h.step? hc, Option.bind_some, h1]
      · rw [h2, hn, Nat.add_assoc, Nat.add_comm 1]
    cases line with
    | define l | comment t =>
      rw [codeSize, Line.size, Nat.zero_add]
      exact ih hr hb.2
    | address a => exact executed _ rfl rfl rfl
    | literal a => exact executed _ rfl rfl rfl
    | compute i =>
      have hj : i.jump = none := Option.isNone_iff_eq_none.1 hb.1
      refine executed _ rfl rfl ?_
      rw [State.execute, hj]
      rfl

theorem reaches {s : State} (h : Placed lines s.next block) (hb : block.all Line.flows) :
    s.Reaches (image lines) (exec (symbolValue lines) block s) :=
  ⟨_, (h.run? hb).1⟩

theorem next_exec {s : State} (h : Placed lines s.next block) (hb : block.all Line.flows) :
    (exec (symbolValue lines) block s).next = s.next + codeSize block := (h.run? hb).2

theorem advances {s : State} (h : Placed lines s.next block) (hb : block.all Line.flows)
    (hs : 0 < codeSize block) : s.Advances (image lines) (exec (symbolValue lines) block s) := by
  obtain ⟨n, hn⟩ := Nat.exists_eq_succ_of_ne_zero (Nat.ne_of_gt hs)
  have hr := (h.run? hb).1
  rw [hn] at hr
  exact ⟨n, hr⟩

theorem leadsTo {s : State} (h : Placed lines s.next block) (hb : block.all Line.flows)
    (hs : 0 < codeSize block) :
    s.LeadsTo (image lines) (s.next + codeSize block) (exec (symbolValue lines) block s).memory :=
  ⟨_, h.advances hb hs, h.next_exec hb, rfl⟩

/-- A jump changes nothing but the place in the code. -/
theorem jump {s : State} {c : Computation} {when : Jump}
    (h : Placed lines s.next [.jump c when]) :
    s.Advances (image lines)
      { s with next := if taken when (s.value c) then s.a.toNat else s.next + 1 } := by
  refine ⟨0, ?_⟩
  rw [State.run?, h.step? rfl]
  rfl

/-- A jump to a label, on a result that A has no part in. -/
private theorem jumpTo {s : State} {c : Computation} {when : Jump}
    (h : Placed lines s.next [.pointer l, .jump c when]) {b : Bool}
    (hb : ∀ a, taken when ({ s with a }.value c) = b) :
    s.LeadsTo (image lines) (if b then (symbolValue lines l.text).toNat else s.next + 2)
      s.memory := by
  have h0 : Placed lines s.next ([.pointer l] ++ [.jump c when]) := h
  have h1 : Placed lines s.next [.pointer l] := h0.left
  have h2 : s.Advances (image lines)
      { s with a := symbolValue lines l.text, next := s.next + 1 } := h1.advances rfl Nat.one_pos
  have h3 : Placed lines (s.next + 1) [.jump c when] := h0.right
  have h4 := Placed.jump (s := { s with a := symbolValue lines l.text, next := s.next + 1 }) h3
  have hv : taken when
      (State.value { s with a := symbolValue lines l.text, next := s.next + 1 } c) = b := by
    rw [← hb (symbolValue lines l.text)]
    cases c <;> rfl
  rw [hv] at h4
  exact ⟨_, h2.trans h4, rfl, rfl⟩

end Placed

/-- A label that is defined once stands for the address of what follows it. -/
theorem Placed.labelAddress? {lines block : List Line} {l : Label} {n : Nat}
    (h : Placed lines n (.define l :: block)) (hl : ((labels lines).map Label.text).Nodup) :
    labelAddress? l.text lines = some n := by
  obtain ⟨front, back, rfl, rfl⟩ := h
  have hf : Assembly.labelAddress? l.text front = none := by
    rw [labelAddress?_eq_none_iff]
    intro hm
    rw [labels_append, labels_append, List.append_assoc, List.map_append] at hl
    refine (List.nodup_append.1 hl).2.2 _ hm l.text ?_ rfl
    simp [labels, Line.definition?]
  rw [List.append_assoc, labelAddress?_append, hf, Option.none_or, List.cons_append,
    Assembly.labelAddress?, if_pos (by simp [Line.defines])]
  rfl

/-- What blocks ask of the lines around them: that the assembler can tell their labels apart and
that the registers have their addresses. -/
structure Linked (lines : List Line) : Prop where
  distinct : ((labels lines).map Label.text).Nodup
  fits : codeSize lines ≤ 0x8000
  registers : ∀ r : Register, symbolValue lines r.text = address r

theorem Placed.symbolValue {lines block : List Line} {l : Label} {n : Nat}
    (h : Placed lines n (.define l :: block)) (hl : Linked lines) :
    Assembly.symbolValue lines l.text = .ofNat 16 n := by
  rw [Assembly.symbolValue, h.labelAddress? hl.distinct]

theorem Placed.toNat_symbolValue {lines block : List Line} {l : Label} {n : Nat}
    (h : Placed lines n (.define l :: block)) (hl : Linked lines) :
    (Assembly.symbolValue lines l.text).toNat = n := by
  have hn := h.le_codeSize
  have hf := hl.fits
  rw [h.symbolValue hl, BitVec.toNat_ofNat]
  omega

theorem Placed.jump_taken {lines block : List Line} {l : Label} {n : Nat} {s : State}
    {c : Computation} {when : Jump} (h : Placed lines s.next [.pointer l, .jump c when])
    (hc : ∀ a, taken when ({ s with a }.value c) = true) (hl : Linked lines)
    (ht : Placed lines n (.define l :: block)) : s.LeadsTo (image lines) n s.memory := by
  have hj := h.jumpTo hc
  rwa [if_pos rfl, ht.toNat_symbolValue hl] at hj

theorem Placed.jump_passed {lines : List Line} {l : Label} {s : State} {c : Computation}
    {when : Jump} (h : Placed lines s.next [.pointer l, .jump c when])
    (hc : ∀ a, taken when ({ s with a }.value c) = false) :
    s.LeadsTo (image lines) (s.next + 2) s.memory := h.jumpTo hc

end Assembly
end StackLowering
