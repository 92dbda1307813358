import StackLowering.Proofs.Machine.Block
import StackLowering.Proofs.Machine.Frame
import StackLowering.Proofs.Machine.Linking
/-! Comparisons of signed words. Their code goes by the sign of a difference that wraps, so that it
gives the right answer just if the difference does not overflow. -/
namespace StackLowering
open Assembly Machine

namespace Operator

def Compares : Operator → Word → Word → Prop
  | eq, x, y => x = y
  | gt, x, y => y.toInt < x.toInt
  | lt, x, y => x.toInt < y.toInt
  | _, _, _ => False

instance (op : Operator) (x y : Word) : Decidable (op.Compares x y) :=
  match op with
  | eq => inferInstanceAs (Decidable (x = y))
  | gt => inferInstanceAs (Decidable (y.toInt < x.toInt))
  | lt => inferInstanceAs (Decidable (x.toInt < y.toInt))
  | add | sub | and | or | neg | not => .isFalse id

variable {op : Operator}

/-- A difference that overflows has the sign of the other order. -/
private theorem compares_sub_iff (ho : op.isComparison = true) (x y : Word) :
    (op.Compares (x - y) 0 ↔ op.Compares x y) ↔ op = .eq ∨ x.ssubOverflow y = false := by
  have hx := BitVec.toInt_lt (x := x)
  have hy := BitVec.toInt_lt (x := y)
  have hx' := BitVec.le_toInt (x := x)
  have hy' := BitVec.le_toInt (x := y)
  have hd : (x - y).toInt = (x.toInt - y.toInt).bmod (2 ^ 16) := BitVec.toInt_sub
  have h0 : (0 : Word).toInt = 0 := rfl
  cases op with
  | eq =>
    have he : x - y = 0 ↔ x = y := by bv_omega
    exact ⟨fun _ => .inl rfl, fun _ => he⟩
  | gt | lt =>
    simp only [Compares, hd, h0, Int.bmod_def, BitVec.ssubOverflow, reduceCtorEq, false_or,
      Bool.or_eq_false_iff, decide_eq_false_iff_not]
    omega
  | _ => cases ho

/-- A comparison asks how the difference lies to zero. -/
private theorem operate_comparison (ho : op.isComparison = true) (m : Memory) :
    m.operate op = m.combine fun x y => truth (op.Compares (x - y) 0) := by
  cases op with
  | eq =>
    have he : ∀ x y : Word, (x - y).toInt = 0 ↔ x - y = 0 := fun x y => BitVec.toInt_inj (y := 0)
    simp only [Memory.operate, Compares, he]
    rfl
  | gt | lt => rfl
  | _ => cases ho

end Operator

private theorem Machine.truth_eq_truth_iff {p q : Prop} [Decidable p] [Decidable q] :
    truth p = truth q ↔ (p ↔ q) := by
  by_cases hp : p <;> by_cases hq : q <;> simp [truth, hp, hq]

private theorem Machine.truth_cases (p : Prop) [Decidable p] : truth p = -1 ∨ truth p = 0 := by
  by_cases hp : p <;> simp [truth, hp]

section
variable {p : Program} {o : LoweringOptions} {lines : List Line}

/-- The code of a comparison takes both operands and leaves a truth value in the place of the lower
one, and changes no other word. The value is right just if the difference does not overflow, or only
equality is asked for. -/
theorem Program.comparison_right_iff (h : p.lower o = .ok lines)
    (hu : ∀ name ∈ definitions p.sites, predefined.lookup name = none)
    (hsize : codeSize lines ≤ 0x8000) {k : Nat} {site : Site} {op : Operator}
    (hs : p.sites[k]? = some site) (hc : site.command = .operate op)
    (ho : op.isComparison = true) {s : Machine.State} (hn : s.next = o.codeAddress p.sites k)
    (hlow : 18 ≤ s.memory.sp.toNat) :
    let x := s.memory (s.memory.sp - 2)
    let y := s.memory (s.memory.sp - 1)
    ∃ t, s.Advances (image lines) t ∧ t.next = o.codeAddress p.sites (k + 1) ∧
      t.memory.sp = s.memory.sp - 1 ∧
      (∀ z, z ≠ address .sp → z ≠ s.memory.sp - 2 → t.memory z = s.memory z) ∧
      (t.memory.top = -1 ∨ t.memory.top = 0) ∧
      (t.memory.top = truth (op.Compares x y) ↔ op = .eq ∨ x.ssubOverflow y = false) := by
  intro x y
  have hl := Program.linked h hu hsize
  obtain ⟨-, rfl⟩ := Program.acceptable_of_lower h
  have hb : o.blockAt p.sites k site = Block.operator op (o.numberAt p.sites k) := by
    rw [LoweringOptions.blockAt, hc, Command.block]
  obtain ⟨hp, hend⟩ := LoweringOptions.placed_block hs hb hn
  obtain ⟨t, hst, htn, htm⟩ := hl.operate hp
  rw [Operator.operate_comparison ho] at htm
  have htop : t.memory.top = truth (op.Compares (x - y) 0) := by
    rw [htm, Memory.top_combine hlow]
  refine ⟨t, hst, htn.trans hend, ?_, fun z hz hzx => ?_, ?_, ?_⟩
  · rw [htm, Memory.sp_combine hlow]
  · rw [htm, Memory.combine_of_ne hlow _ hz hzx]
  · rw [htop]
    exact truth_cases _
  · rw [htop, truth_eq_truth_iff]
    exact Operator.compares_sub_iff ho x y

end

def greater : Program := ⟨[⟨"Main", [⟨1, "gt", .operate .gt⟩]⟩]⟩

def onStack (x y : Word) : Machine.State :=
  ⟨0, 0, ((Memory.store (fun _ => 0) (address .sp) 258).store 256 x).store 257 y, 0⟩

private theorem greater_lower : greater.lower ⟨false, false⟩ =
    .ok ((⟨false, false⟩ : LoweringOptions).lines greater.sites) :=
  Program.lower_of_accepted (by decide)

/-- Seven is greater than minus three. -/
theorem greater_right :
    ∃ t, (onStack 7 (-3)).Advances
        (image ((⟨false, false⟩ : LoweringOptions).lines greater.sites)) t ∧
      t.next = 15 ∧ t.memory.sp = 257 ∧ t.memory 257 = -3 ∧ t.memory.top = -1 := by
  obtain ⟨t, hst, hnext, hsp, hrest, -, hright⟩ :=
    Program.comparison_right_iff greater_lower (by decide) (by decide) (k := 0) rfl rfl rfl
      (s := onStack 7 (-3)) rfl (by decide)
  exact ⟨t, hst, hnext, hsp, hrest 257 (by decide) (by decide), hright.2 (.inr (by decide))⟩

/-- The greatest word is not found greater than minus one: the machine stops behind the code with
the answer for false. -/
theorem greater_wrong :
    ∃ lines t, greater.lower ⟨false, false⟩ = .ok lines ∧
      (∀ name ∈ definitions greater.sites, predefined.lookup name = none) ∧
      codeSize lines ≤ 0x8000 ∧ Operator.Compares .gt 0x7FFF (-1) ∧
      (onStack 0x7FFF (-1)).run? (image lines) 12 = some t ∧ t.next = codeSize lines ∧
      t.step? (image lines) = none ∧ t.memory.sp = 257 ∧ t.memory.top = 0 := by
  have hrun : ((onStack 0x7FFF (-1)).run?
      (image ((⟨false, false⟩ : LoweringOptions).lines greater.sites)) 12).map
        (fun t => (t.next, t.memory.sp, t.memory.top)) = some (15, 257, 0) := by
    decide +kernel
  obtain ⟨t, ht, he⟩ := Option.map_eq_some_iff.1 hrun
  obtain ⟨hnext, hsp, htop⟩ : t.next = 15 ∧ t.memory.sp = 257 ∧ t.memory.top = 0 := by
    simpa using he
  refine ⟨_, t, greater_lower, by decide, by decide, by decide, ht, hnext, ?_, hsp, htop⟩
  rw [State.step?, hnext]
  rfl

end StackLowering
