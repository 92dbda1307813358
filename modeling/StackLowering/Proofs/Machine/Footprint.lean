import StackLowering.Proofs.Machine.Block
import StackLowering.Proofs.Machine.Frame
/-! Which words of the memory the code of a command uses, and where the stack pointer is
meanwhile. -/
namespace StackLowering
open Assembly Machine

def Assembly.Computation.operand? : Computation → Option Operand
  | .get x | .not x | .neg x | .succ x | .pred x | .add x | .sub x | .subD x | .and x | .or x =>
    some x
  | _ => none

namespace Machine.State

def used? (s : State) : Code → Option Word
  | .load _ => none
  | .compute i => if i.computation.operand? = some .m ∨ i.dest.m = true then some s.a else none

/-- The machine goes from one state to another, and `P` holds in front of each word of code. -/
inductive Through (code : List Code) (P : State → Code → Prop) : State → State → Prop
  | refl (s : State) : Through code P s s
  | step {s t : State} {c : Code} (hc : code[s.next]? = some c) (hp : P s c)
    (ht : Through code P (s.execute c) t) : Through code P s t

namespace Through
variable {code : List Code} {P : State → Code → Prop} {s t u : State}

private theorem trans (hs : s.Through code P t) (ht : t.Through code P u) : s.Through code P u := by
  induction hs with
  | refl => exact ht
  | step hc hp _ ih => exact .step hc hp (ih ht)

theorem reaches (h : s.Through code P t) : s.Reaches code t := by
  induction h with
  | refl s => exact .refl code s
  | @step s t c hc _ _ ih =>
    obtain ⟨n, hn⟩ := ih
    refine ⟨n + 1, ?_⟩
    rw [run?, step?, hc, Option.map_some, Option.bind_some, hn]

end Through
end Machine.State

namespace Assembly

/-- Whether `P` holds in front of each word of code of a block that is carried out line by line. -/
def Throughout (value : String → Word) (P : State → Code → Prop) : List Line → State → Prop
  | [], _ => True
  | line :: block, s =>
    match line.code? value with
    | none => Throughout value P block s
    | some c => P s c ∧ Throughout value P block (s.execute c)

section Blocks
variable {value : String → Word} {P : State → Code → Prop} {s : State} {lines block : List Line}

private theorem throughout_append {first second : List Line} :
    Throughout value P (first ++ second) s ↔
      Throughout value P first s ∧ Throughout value P second (exec value first s) := by
  induction first generalizing s with
  | nil => exact (and_iff_right trivial).symm
  | cons line first ih =>
    rw [List.cons_append, Throughout, Throughout, exec]
    cases hc : line.code? value with
    | none =>
      rw [List.filterMap_cons_none hc]
      exact ih
    | some c =>
      rw [List.filterMap_cons_some hc, and_assoc]
      exact and_congr_right fun _ => ih

/-- Only the last line of a block may jump. -/
private theorem Placed.through (h : Placed lines s.next block) (hb : block.dropLast.all Line.flows)
    (hp : Throughout (Assembly.symbolValue lines) P block s) :
    s.Through (image lines) P (exec (Assembly.symbolValue lines) block s) := by
  induction block generalizing s with
  | nil => exact .refl s
  | cons line block ih =>
    have hr : Placed lines (s.next + line.size) block := by
      have hl : Placed lines s.next ([line] ++ block) := h
      exact hl.behind (Nat.add_zero _)
    have hb' : (block = [] ∨ line.flows = true) ∧ block.dropLast.all Line.flows = true := by
      cases block with
      | nil => exact ⟨.inl rfl, rfl⟩
      | cons next block =>
        rw [List.dropLast_cons_cons, List.all_cons, Bool.and_eq_true] at hb
        exact ⟨.inr hb.1, hb.2⟩
    have executed : ∀ c, line.code? (Assembly.symbolValue lines) = some c → line.size = 1 →
        (line.flows = true → (s.execute c).next = s.next + 1) →
        s.Through (image lines) P (exec (Assembly.symbolValue lines) (line :: block) s) := by
      intro c hc hs hn
      rw [Throughout, hc] at hp
      rw [exec, List.filterMap_cons_some hc, List.foldl_cons]
      refine .step (h.getElem?_image hc) hp.1 ?_
      rcases hb'.1 with rfl | hf
      · exact .refl _
      · rw [hs, ← hn hf] at hr
        exact ih hr hb'.2 hp.2
    cases line with
    | define l | comment t => exact ih hr hb'.2 hp
    | address a => exact executed _ rfl rfl fun _ => rfl
    | literal a => exact executed _ rfl rfl fun _ => rfl
    | compute i =>
      refine executed _ rfl rfl fun hf => ?_
      have hj : i.jump = none := Option.isNone_iff_eq_none.1 hf
      rw [State.execute, hj]
      rfl

private theorem throughout_nil : Throughout value P [] s ↔ True := .rfl

private theorem throughout_literal (n : UInt16) :
    Throughout value P (.literal n :: block) s ↔
      P s (.load n.toBitVec) ∧ Throughout value P block ⟨n.toBitVec, s.d, s.memory, s.next + 1⟩ :=
  .rfl

private theorem throughout_register (r : Register) :
    Throughout value P (.register r :: block) s ↔
      P s (.load (value r.text)) ∧
        Throughout value P block ⟨value r.text, s.d, s.memory, s.next + 1⟩ := .rfl

private theorem throughout_assign (dest : Dest) (c : Computation) :
    Throughout value P (.assign dest c :: block) s ↔
      P s (.compute ⟨dest, c, none⟩) ∧
        Throughout value P block (s.execute (.compute ⟨dest, c, none⟩)) := .rfl

end Blocks

/-- What the code of a command may do: the stack pointer is not below an address, and neither is a
word of the memory that is used, registers and one other word apart. -/
structure Within (low : Nat) (own : Option Word) (s : State) (c : Code) : Prop where
  sp : low ≤ s.memory.sp.toNat
  used : ∀ x ∈ s.used? c, (∃ r, x = address r) ∨ x ∈ own ∨ low ≤ x.toNat

section Parts
variable {value : String → Word} {low : Nat} {own : Option Word} {s : State} {c : Code}

private theorem Within.idle (hs : low ≤ s.memory.sp.toNat) (hc : s.used? c = none) :
    Within low own s c :=
  ⟨hs, fun x hx => by rw [hc] at hx; cases hx⟩

private theorem Within.use (hs : low ≤ s.memory.sp.toNat)
    (ha : (∃ r, s.a = address r) ∨ s.a ∈ own ∨ low ≤ s.a.toNat) : Within low own s c := by
  refine ⟨hs, fun x hx => ?_⟩
  have hxa : x = s.a := by
    cases c with
    | load w => cases hx
    | compute i =>
      rw [State.used?] at hx
      split at hx
      · exact (Option.some.inj hx).symm
      · cases hx
  rwa [hxa]

private theorem Within.useRegister (hs : low ≤ s.memory.sp.toNat) {r : Register}
    (ha : s.a = address r) : Within low own s c := .use hs (.inl ⟨r, ha⟩)

private theorem Within.useAbove (hs : low ≤ s.memory.sp.toNat) (ha : low ≤ s.a.toNat) :
    Within low own s c := .use hs (.inr (.inr ha))

private theorem Within.useOwn (hs : low ≤ s.memory.sp.toNat) (ha : s.a ∈ own) :
    Within low own s c :=
  .use hs (.inr (.inl ha))

private theorem le_sub {k : Word} {n : Nat} {w : Word} (h : n + k.toNat ≤ w.toNat) :
    n ≤ (w - k).toNat := by
  rw [BitVec.toNat_sub_of_le (BitVec.le_def.2 (by omega))]
  omega

private theorem toNat_pred {w : Word} (h : 1 ≤ w.toNat) : (w - 1).toNat + 1 = w.toNat := by
  have h1 : (1 : Word) ≤ w := BitVec.le_def.2 h
  rw [BitVec.toNat_sub_of_le h1]
  exact Nat.sub_add_cancel h

private theorem le_sp_drop {m : Memory} (h : low + 1 ≤ m.sp.toNat) : low ≤ m.drop.sp.toNat := by
  rw [Memory.sp_drop]
  exact le_sub h

private theorem within_pushD (hv : ∀ r : Register, value r.text = address r) (hlow : 16 ≤ low)
    (hs : low ≤ s.memory.sp.toNat) : Throughout value (Within low own) Block.pushD s := by
  have hw : low ≤ (s.memory.store s.memory.sp s.d).sp.toNat := by
    rwa [Memory.sp_store_of_ne (Memory.sp_ne (Nat.le_trans hlow hs) .sp)]
  simp only [Block.pushD, throughout_register, throughout_assign, throughout_nil, and_true, hv]
  exact ⟨.idle hs rfl, .useRegister hs (r := .sp) rfl, .useAbove hs hs, .idle hw rfl,
    .useRegister hw (r := .sp) rfl⟩

private theorem within_popD (hv : ∀ r : Register, value r.text = address r)
    (hs : low + 1 ≤ s.memory.sp.toNat) : Throughout value (Within low own) Block.popD s := by
  have hw : low ≤ s.memory.drop.sp.toNat := le_sp_drop hs
  have ha : low ≤ (s.memory.sp - 1).toNat := le_sub hs
  simp only [Block.popD, throughout_register, throughout_assign, throughout_nil, and_true, hv]
  exact ⟨.idle (Nat.le_of_succ_le hs) rfl,
    .useRegister (Nat.le_of_succ_le hs) (r := .sp) rfl, .useAbove hw ha⟩

private theorem within_load_indirect (hv : ∀ r : Register, value r.text = address r)
    (hs : low ≤ s.memory.sp.toNat) (unit : String) (i : UInt16) (base : Register) :
    Throughout value (Within low (some (s.memory (address base) + i.toBitVec)))
      (Block.load unit i (.indirect base)) s := by
  simp only [Block.load, throughout_literal, throughout_register, throughout_assign,
    throughout_nil, and_true, hv]
  exact ⟨.idle hs rfl, .idle hs rfl, .idle hs rfl, .useRegister hs (r := base) rfl, .useOwn hs rfl⟩

private theorem within_load (hv : ∀ r : Register, value r.text = address r)
    (hs : low ≤ s.memory.sp.toNat) (unit : String) (i : UInt16) (g : Segment) :
    Throughout value (Within low (g.place? s.memory (value (Symbol.static unit i).text) i))
      (Block.load unit i g.addressing) s := by
  cases g with
  | constant => exact ⟨.idle hs rfl, .idle hs rfl, trivial⟩
  | temp | pointer =>
    exact ⟨.idle hs rfl, .idle hs rfl, .idle hs rfl, .idle hs rfl, .useOwn hs rfl, trivial⟩
  | static => exact ⟨.idle hs rfl, .useOwn hs rfl, trivial⟩
  | locals | arguments | this | that => exact within_load_indirect hv hs unit i _

private theorem within_locate_indirect (hv : ∀ r : Register, value r.text = address r)
    (hs : low ≤ s.memory.sp.toNat) (i : UInt16) (base : Register) :
    Throughout value (Within low own)
      [.literal i, .assign .toD (.get .a), .register base, .assign .toD (.add .m)] s := by
  simp only [throughout_literal, throughout_register, throughout_assign, throughout_nil, and_true,
    hv]
  exact ⟨.idle hs rfl, .idle hs rfl, .idle hs rfl, .useRegister hs (r := base) rfl⟩

private theorem within_locate (hv : ∀ r : Register, value r.text = address r)
    (hs : low ≤ s.memory.sp.toNat) {unit : String} {i : UInt16} {g : Segment} {code : List Line}
    (hc : Block.locate? unit i g.addressing = some code) :
    Throughout value (Within low own) code s := by
  cases g with
  | constant => cases hc
  | temp | pointer =>
    obtain rfl := Option.some.inj hc
    exact ⟨.idle hs rfl, .idle hs rfl, .idle hs rfl, .idle hs rfl, trivial⟩
  | static =>
    obtain rfl := Option.some.inj hc
    exact ⟨.idle hs rfl, .idle hs rfl, trivial⟩
  | locals | arguments | this | that =>
    obtain rfl := Option.some.inj hc
    exact within_locate_indirect hv hs i _

private theorem within_keep (hv : ∀ r : Register, value r.text = address r)
    (hs : low ≤ s.memory.sp.toNat) (r : Register) :
    Throughout value (Within low own) (Block.keep r) s := by
  simp only [Block.keep, throughout_register, throughout_assign, throughout_nil, and_true, hv]
  exact ⟨.idle hs rfl, .useRegister hs (r := r) rfl⟩

private theorem within_storeAt (hv : ∀ r : Register, value r.text = address r)
    (hs : low ≤ s.memory.sp.toNat) {r : Register} (hr : s.memory (address r) ∈ own) :
    Throughout value (Within low own) (Block.storeAt r) s := by
  simp only [Block.storeAt, throughout_register, throughout_assign, throughout_nil, and_true, hv]
  exact ⟨.idle hs rfl, .useRegister hs (r := r) rfl, .useOwn hs hr⟩

private theorem within_setTop (hv : ∀ r : Register, value r.text = address r)
    (hs : low + 1 ≤ s.memory.sp.toNat) (c : Computation) :
    Throughout value (Within low own) (Block.setTop c) s := by
  have hw : low ≤ s.memory.sp.toNat := Nat.le_of_succ_le hs
  have ha : low ≤ (s.memory.sp - 1).toNat := le_sub hs
  simp only [Block.setTop, Block.unary, throughout_register, throughout_assign, throughout_nil,
    and_true, hv]
  exact ⟨.idle hw rfl, .useRegister hw (r := .sp) rfl, .useAbove hw ha⟩

/-- Both operands are on the stack, and the last line may use the lower one. -/
private theorem within_operands (hv : ∀ r : Register, value r.text = address r)
    (hs : low + 2 ≤ s.memory.sp.toNat) (dest : Dest) (c : Computation) :
    Throughout value (Within low own) (Block.operands ++ [.assign dest c]) s := by
  have hw : low + 1 ≤ s.memory.drop.sp.toNat := le_sp_drop hs
  have ha : low ≤ (s.memory.drop.sp - 1).toNat := le_sub hw
  rw [throughout_append, Block.operands, throughout_append, exec_append, exec_popD hv]
  simp only [throughout_assign, throughout_nil, and_true]
  exact ⟨⟨within_popD hv (Nat.le_of_succ_le hs), .idle (Nat.le_of_succ_le hw) rfl⟩,
    .useAbove (Nat.le_of_succ_le hw) ha⟩

end Parts

private theorem all_dropLast {block : List Line} (h : block.all Line.flows = true) :
    block.dropLast.all Line.flows = true :=
  List.all_eq_true.2 fun line hl =>
    List.all_eq_true.1 h line ((List.dropLast_sublist block).mem hl)

namespace Linked
variable {lines : List Line} {low : Nat} {own : Option Word} {s : State}

theorem through_push (hl : Linked lines) (hlow : 16 ≤ low) (hs : low ≤ s.memory.sp.toNat)
    (hw : s.memory.sp.toNat + 1 < 0x10000) {unit : String} {i : UInt16} {g : Segment}
    (h : Placed lines s.next (Block.load unit i g.addressing ++ Block.pushD)) :
    ∃ t, s.Through (image lines)
        (Within low (g.place? s.memory (symbolValue lines (Symbol.static unit i).text) i)) t ∧
      t.next = s.next + codeSize (Block.load unit i g.addressing ++ Block.pushD) ∧
      t.memory.sp.toNat = s.memory.sp.toNat + 1 := by
  obtain ⟨-, hm⟩ := exec_load hl.registers s unit i g
  have hf : (Block.load unit i g.addressing ++ Block.pushD).all Line.flows = true := by
    cases g <;> rfl
  refine ⟨_, h.through (by cases g <;> rfl) ?_, h.next_exec hf, ?_⟩
  · rw [throughout_append]
    refine ⟨within_load hl.registers hs unit i g, within_pushD hl.registers hlow ?_⟩
    rwa [hm]
  · rw [exec_append, exec_pushD hl.registers, hm]
    exact Memory.toNat_sp_push (Nat.le_trans hlow hs) hw _

theorem through_pop (hl : Linked lines) (hs : low + 1 ≤ s.memory.sp.toNat) {unit : String}
    {i : UInt16} {g : Segment} {x : Word} {code : List Line}
    (hx : g.place? s.memory (symbolValue lines (Symbol.static unit i).text) i = some x)
    (hc : Block.locate? unit i g.addressing = some code) (hsp : x ≠ address .sp)
    (h : Placed lines s.next (Block.popTo code)) :
    ∃ t, s.Through (image lines) (Within low (some x)) t ∧
      t.next = s.next + codeSize (Block.popTo code) ∧
      t.memory.sp.toNat + 1 = s.memory.sp.toNat := by
  obtain ⟨hd, hm⟩ := exec_locate hl.registers s hx hc
  have hkeep : (exec (symbolValue lines) (code ++ Block.keep .r13) s).memory =
      s.memory.store (address .r13) x := by
    rw [exec_append, exec_keep hl.registers, hd, hm]
  have hpop : (exec (symbolValue lines) (code ++ Block.keep .r13 ++ Block.popD) s).memory =
      (s.memory.store (address .r13) x).drop := by
    rw [exec_append, exec_popD hl.registers, hkeep]
  have hkept : low + 1 ≤ (s.memory.store (address .r13) x).sp.toNat := by
    rwa [Memory.sp_store_of_ne (by decide)]
  have hw : low ≤ s.memory.sp.toNat := Nat.le_of_succ_le hs
  have hflows := flows_popTo hc
  refine ⟨_, h.through (all_dropLast hflows) ?_, h.next_exec hflows, ?_⟩
  · rw [Block.popTo, throughout_append, throughout_append, throughout_append]
    refine ⟨⟨⟨within_locate hl.registers hw hc, within_keep hl.registers ?_ _⟩,
      within_popD hl.registers ?_⟩, within_storeAt hl.registers ?_ ?_⟩
    · rwa [hm]
    · rwa [hkeep]
    · rw [hpop]
      exact le_sp_drop hkept
    · rw [hpop, Memory.drop_of_ne (by decide), Memory.store_self]
      rfl
  · rw [exec_popTo hl.registers s hx hc, Memory.sp_popBy hsp]
    exact toNat_pred (by omega)

private theorem through_setTop (hl : Linked lines) (hlow : 16 ≤ low)
    (hs : low + 1 ≤ s.memory.sp.toNat) {c : Computation}
    (h : Placed lines s.next (Block.setTop c)) :
    ∃ t, s.Through (image lines) (Within low none) t ∧ t.next = s.next + 3 ∧
      t.memory.sp = s.memory.sp := by
  refine ⟨_, h.through rfl (within_setTop hl.registers hs c), h.next_exec rfl, ?_⟩
  rw [exec_setTop hl.registers]
  exact Memory.sp_replaceTop (by omega) _

private theorem through_binary (hl : Linked lines) (hlow : 16 ≤ low)
    (hs : low + 2 ≤ s.memory.sp.toNat) {c : Computation}
    (h : Placed lines s.next (Block.binary c)) :
    ∃ t, s.Through (image lines) (Within low none) t ∧ t.next = s.next + 5 ∧
      t.memory.sp = s.memory.sp - 1 := by
  have hw : low + 1 ≤ s.memory.drop.sp.toNat := le_sp_drop hs
  refine ⟨_, h.through rfl (within_operands hl.registers hs .toM c), h.next_exec rfl, ?_⟩
  rw [Block.binary, exec_append, exec_operands hl.registers]
  exact (Memory.sp_replaceTop (by omega) _).trans (Memory.sp_drop _)

/-- A jump on a result in which neither A nor the memory has a part. -/
private theorem through_jump {l : Label} {c : Computation} {when : Jump} {jumps : Bool}
    (hs : low ≤ s.memory.sp.toNat) (h : Placed lines s.next [.pointer l, .jump c when])
    (hc : c.operand? = none) (hj : taken when (s.value c) = jumps) :
    ∃ t, s.Through (image lines) (Within low none) t ∧ t.memory = s.memory ∧
      t.next = if jumps then (symbolValue lines l.text).toNat else s.next + 2 := by
  have hu : State.used? ⟨symbolValue lines l.text, s.d, s.memory, s.next + 1⟩
      (.compute ⟨.none, c, some when⟩) = none := by
    rw [State.used?, hc]
    rfl
  refine ⟨_, h.through rfl ⟨.idle hs rfl, .idle hs hu, trivial⟩, rfl, ?_⟩
  have hv : State.value ⟨symbolValue lines l.text, s.d, s.memory, s.next + 1⟩ c = s.value c := by
    cases c <;> first | rfl | cases hc
  rw [← hj, ← hv]
  rfl

private theorem through_compare (hl : Linked lines) (hlow : 16 ≤ low)
    (hs : low + 2 ≤ s.memory.sp.toNat) {when : Jump} {number : Nat}
    (h : Placed lines s.next (Block.compare when number)) :
    ∃ t, s.Through (image lines) (Within low none) t ∧ t.next = s.next + 15 ∧
      t.memory.sp = s.memory.sp - 1 := by
  obtain ⟨hsubtract, hbranch, hfalse, hskip, hholds, htrue, hdone⟩ := h.comparison
  have hw : low + 1 ≤ s.memory.drop.sp.toNat := le_sp_drop hs
  have hsub := hsubtract.through (P := Within low none) rfl
    (within_operands hl.registers hs .toD (.subD .m))
  obtain ⟨u, hu, hun, hum⟩ : ∃ u, s.Through (image lines) (Within low none) u ∧
      u.next = s.next + 5 ∧ u.memory = s.memory.drop := by
    refine ⟨_, hsub, hsubtract.next_exec rfl, ?_⟩
    rw [exec_append, exec_operands hl.registers]
    rfl
  have hwu : low + 1 ≤ u.memory.sp.toNat := by rwa [hum]
  rw [← hun] at hbranch
  obtain ⟨v, hv, hvm, hvn⟩ := through_jump (Nat.le_of_succ_le hwu) hbranch rfl rfl
  have hwv : low + 1 ≤ v.memory.sp.toNat := by rwa [hvm]
  cases hj : taken when (u.value .d) with
  | true =>
    rw [hj, if_pos rfl, hholds.toNat_symbolValue hl] at hvn
    rw [← hvn] at htrue
    obtain ⟨t, ht, htn, hts⟩ := through_setTop hl hlow hwv htrue
    refine ⟨t, hu.trans (hv.trans ht), by rw [htn, hvn], ?_⟩
    rw [hts, hvm, hum, Memory.sp_drop]
  | false =>
    rw [hj, if_neg Bool.false_ne_true, hun] at hvn
    rw [← hvn] at hfalse
    obtain ⟨w, hw, hwn, hws⟩ := through_setTop hl hlow hwv hfalse
    rw [show s.next + 10 = w.next by rw [hwn, hvn]] at hskip
    have hww : low ≤ w.memory.sp.toNat := by
      rw [hws]
      exact Nat.le_of_succ_le hwv
    have hj : taken .always (w.value .zero) = true := rfl
    obtain ⟨t, ht, htm, htn⟩ := through_jump hww hskip rfl hj
    rw [if_pos rfl, hdone.toNat_symbolValue hl] at htn
    refine ⟨t, hu.trans (hv.trans (hw.trans ht)), htn, ?_⟩
    rw [htm, hws, hvm, hum, Memory.sp_drop]

/-- An operator finds its operands on the stack and leaves one word for them. -/
theorem through_operate (hl : Linked lines) (hlow : 16 ≤ low) {op : Operator} {number : Nat}
    (hs : low + op.operands ≤ s.memory.sp.toNat)
    (h : Placed lines s.next (Block.operator op number)) :
    ∃ t, s.Through (image lines) (Within low none) t ∧
      t.next = s.next + codeSize (Block.operator op number) ∧
      t.memory.sp.toNat + op.operands = s.memory.sp.toNat + 1 := by
  have drops {w : Word} (hs : low + 2 ≤ s.memory.sp.toNat) (hw : w = s.memory.sp - 1) :
      w.toNat + 2 = s.memory.sp.toNat + 1 := by
    rw [hw, ← toNat_pred (w := s.memory.sp) (by omega)]
  cases op with
  | add | sub | and | or =>
    obtain ⟨t, ht, hn, hsp⟩ := through_binary hl hlow hs h
    exact ⟨t, ht, hn, drops hs hsp⟩
  | neg | not =>
    obtain ⟨t, ht, hn, hsp⟩ := through_setTop hl hlow hs h
    exact ⟨t, ht, hn, by rw [hsp]; rfl⟩
  | eq | gt | lt =>
    obtain ⟨t, ht, hn, hsp⟩ := through_compare hl hlow hs h
    refine ⟨t, ht, hn.trans ?_, drops hs hsp⟩
    simp [Block.operator, Block.compare, codeSize, Line.size]

end Linked

end Assembly
end StackLowering
