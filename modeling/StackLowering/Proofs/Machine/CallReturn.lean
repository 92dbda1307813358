import Mathlib.Tactic.IntervalCases
import StackLowering.Proofs.Machine.Block
import StackLowering.Proofs.Machine.Frame
import StackLowering.Proofs.Machine.Linking
/-! A call and the return from it, whatever the callee does in between. Only the frame has to be as
the call left it when the return begins. -/
namespace StackLowering
open Assembly Machine

namespace Machine.Memory
variable {m t u : Memory} {back args : Word}

/-- The frame of a call is as it was at the entry of the callee, whose stack is not empty. -/
structure KeepsFrame (frame : Word) (t u : Memory) : Prop where
  lcl : u (address .lcl) = t (address .lcl)
  arg : u (address .arg) = t (address .arg)
  saved : ∀ i < 5, u (frame + .ofNat 16 i) = t (frame + .ofNat 16 i)
  nonempty : (u (address .lcl)).toNat < u.sp.toNat
  high : u.sp.toNat ≤ 0x7FFF

/-- The memory behind the return from a call: the caller's pointers are back, and the result has
taken the place of the arguments. -/
structure Returned (m u w : Memory) (args : Word) : Prop where
  sp : w.sp = m.sp - args + 1
  result : w (m.sp - args) = u.top
  pointers : ∀ r ∈ [Register.lcl, .arg, .this, .that], w (address r) = m (address r)
  /-- All words but the registers in use and the result are as the callee left them. -/
  rest : ∀ x, (∀ r, x ≠ address r) → x ≠ m.sp - args → w x = u x

private theorem not_scratch_of_le {x : Word} (h : 16 ≤ x.toNat) : ¬Scratch x := by
  rintro (rfl | rfl) <;> exact absurd h (by decide)

private theorem returnable_of_keepsFrame (hr : m.Room 5) (ha : 16 + args.toNat ≤ m.sp.toNat)
    (hc : Called m t back args) (hk : KeepsFrame m.sp t u) : u.Returnable := by
  have hh := hr.high
  have hlcl : u (address .lcl) = m.sp + 5 := hk.lcl.trans hc.lcl
  have harg : u (address .arg) = m.sp - args := hk.arg.trans hc.arg
  have hne := hk.nonempty
  rw [hlcl] at hne
  have hsum : (m.sp + 5).toNat = m.sp.toNat + 5 := by bv_omega
  have hdiff : (m.sp - args).toNat = m.sp.toNat - args.toNat := by bv_omega
  have hwalk : ∀ k ∈ [1, 2, 3, 4, 5],
      (u (address .lcl) - k).toNat = m.sp.toNat + (5 - k.toNat) ∧ k.toNat ≤ 5 := by
    intro k hk
    rw [hlcl]
    simp only [List.mem_cons, List.not_mem_nil, or_false] at hk
    rcases hk with rfl | rfl | rfl | rfl | rfl <;> constructor <;> bv_omega
  refine ⟨by omega, by rw [harg]; omega, ?_, ?_⟩
  · intro k hk
    obtain ⟨hw, -⟩ := hwalk k hk
    omega
  · intro k hk he
    obtain ⟨hw, -⟩ := hwalk k (List.mem_append_left [5] hk)
    rw [he, harg, hdiff] at hw
    simp only [List.mem_cons, List.not_mem_nil, or_false] at hk
    rcases hk with rfl | rfl | rfl | rfl <;> bv_omega

private theorem back_of_keepsFrame (hc : Called m t back args) (hk : KeepsFrame m.sp t u) :
    u.back = back := by
  have h0 := hk.saved 0 (by decide)
  rw [show BitVec.ofNat 16 0 = 0#16 from rfl, BitVec.add_zero, hc.back] at h0
  rw [Memory.back, hk.lcl, hc.lcl, show m.sp + 5 - 5 = m.sp by bv_omega, h0]

/-- The code of a return undoes a call, whatever has become of THIS and THAT. -/
private theorem returned_unwind (hr : m.Room 5) (ha : 16 + args.toNat ≤ m.sp.toNat)
    (hc : Called m t back args) (hk : KeepsFrame m.sp t u) :
    Returned m u u.unwind args ∧ u.unwind (address .r14) = back := by
  have hu := returnable_of_keepsFrame hr ha hc hk
  have hl := left_leave hu
  have hlcl : u (address .lcl) = m.sp + 5 := hk.lcl.trans hc.lcl
  have harg : u (address .arg) = m.sp - args := hk.arg.trans hc.arg
  have htop := hu.top
  obtain ⟨hag, h14⟩ := (Agrees.refl u).unwind (not_scratch_of_le (by bv_omega))
    (not_scratch_of_le hu.result) fun k hk => not_scratch_of_le (hu.frame k hk)
  refine ⟨⟨?_, ?_, ?_, ?_⟩, h14.trans (back_of_keepsFrame hc hk)⟩
  · rw [hag.sp, hl.sp, harg]
  · rw [← harg, hag _ (not_scratch_of_le hu.result), hl.result]
  · have h4 := hk.saved 4 (by decide)
    have h3 := hk.saved 3 (by decide)
    have h2 := hk.saved 2 (by decide)
    have h1 := hk.saved 1 (by decide)
    intro r hr
    simp only [List.mem_cons, List.not_mem_nil, or_false] at hr
    rcases hr with rfl | rfl | rfl | rfl
    · rw [hag _ (by decide), hl.lcl, hlcl, show m.sp + 5 - 4 = m.sp + 1 by bv_omega]
      exact h1.trans hc.savedLcl
    · rw [hag _ (by decide), hl.arg, hlcl, show m.sp + 5 - 3 = m.sp + 2 by bv_omega]
      exact h2.trans hc.savedArg
    · rw [hag _ (by decide), hl.this, hlcl, show m.sp + 5 - 2 = m.sp + 3 by bv_omega]
      exact h3.trans hc.savedThis
    · rw [hag _ (by decide), hl.that, hlcl, show m.sp + 5 - 1 = m.sp + 4 by bv_omega]
      exact h4.trans hc.savedThat
  · intro x hx hne
    have hs : ¬Scratch x := fun hs => hs.elim (hx .r13) (hx .r14)
    rw [hag x hs]
    refine hl.rest x ?_ (by rwa [harg])
    intro hm
    obtain ⟨r, -, rfl⟩ := List.mem_map.1 hm
    exact hx r rfl

end Machine.Memory

/-- A call in an accepted program comes to the function with a frame on the stack. From wherever a
return of the program then begins with that frame, it comes to the return label of that very call,
with the caller's pointers as they were and the result in place of the arguments. -/
theorem Program.call_then_return {p : Program} {o : LoweringOptions} {lines : List Line}
    (h : p.lower o = .ok lines) (hsize : codeSize lines ≤ 0x8000)
    (hu : ∀ name ∈ definitions p.sites, predefined.lookup name = none) {k : Nat} {site : Site}
    {f : String} {n : UInt16} (hk : p.sites[k]? = some site) (hc : site.command = .call f n)
    (hf : f ∈ definitions p.sites) {s : State} (hs : s.next = o.codeAddress p.sites k)
    (hlow : 16 + n.toNat ≤ s.memory.sp.toNat) (hhigh : s.memory.sp.toNat + 5 ≤ 0x7FFF) :
    ∃ t, s.Reaches (image lines) t ∧ labelAddress? f lines = some t.next ∧
      Memory.Called s.memory t.memory (.ofNat 16 (o.codeAddress p.sites (k + 1))) n.toBitVec ∧
      ∀ u r j, t.Reaches (image lines) u → p.sites[j]? = some r → r.command = .ret →
        u.next = o.codeAddress p.sites j → Memory.KeepsFrame s.memory.sp t.memory u.memory →
        ∃ w, u.Reaches (image lines) w ∧
          labelAddress? (Label.generated .back (o.numberAt p.sites k)).text lines =
            some w.next ∧
          w.next = o.codeAddress p.sites (k + 1) ∧
          Memory.Returned s.memory u.memory w.memory n.toBitVec := by
  have hl := Program.linked h hu hsize
  obtain ⟨-, rfl⟩ := Program.acceptable_of_lower h
  have hb : o.blockAt p.sites k site = Block.call f n (o.numberAt p.sites k) := by
    rw [LoweringOptions.blockAt, hc, Command.block]
  have hp := LoweringOptions.placed_blockAt (o := o) hk
  have hnext := LoweringOptions.codeAddress_succ (o := o) hk
  rw [hb] at hp hnext
  obtain ⟨i, hi⟩ := definedAt_of_mem hf
  obtain ⟨block, ht⟩ := hi.placed (o := o)
  rw [← hs] at hp hnext
  obtain ⟨t, hst, htn, htm⟩ := hl.call hp ht
  have hroom : s.memory.Room 5 := ⟨by omega, hhigh⟩
  have hcalled := Memory.called_call hroom (.ofNat 16 (o.codeAddress p.sites (k + 1))) n.toBitVec
  rw [← hnext] at htm
  rw [← htm] at hcalled
  refine ⟨t, hst.reaches, ?_, hcalled, ?_⟩
  · rw [htn]
    exact ht.labelAddress? hl.distinct
  -- The return reads the frame of this call, wherever in the program it stands.
  intro u r j _ hj hret hun hkeep
  have hrb : o.blockAt p.sites j r = Block.ret := by
    rw [LoweringOptions.blockAt, hret, Command.block]
  have hrp := LoweringOptions.placed_blockAt (o := o) hj
  rw [hrb, ← hun] at hrp
  obtain ⟨w, huw, hwn, hwm⟩ := hl.ret hrp
  obtain ⟨hreturned, hback⟩ := Memory.returned_unwind hroom hlow hcalled hkeep
  have hbehind := hp.back
  have hfits := hbehind.le_codeSize
  rw [← hnext] at hbehind hfits
  have hw : w.next = o.codeAddress p.sites (k + 1) := by
    rw [hwn, hback, BitVec.toNat_ofNat]
    omega
  refine ⟨w, huw.reaches, ?_, hw, hwm ▸ hreturned⟩
  rw [hw]
  exact hbehind.labelAddress? hl.distinct

def callSeven : Program :=
  ⟨[⟨"Main", [⟨1, "call F 0", .call "F" 0⟩, ⟨2, "function F 0", .function "F" 0⟩,
    ⟨3, "push constant 7", .push .constant 7⟩, ⟨4, "return", .ret⟩]⟩]⟩

def callingSeven : State := ⟨0, 0, Memory.store (fun _ => 0) (address .sp) 256, 0⟩

theorem callSeven_returns :
    ∃ w, callingSeven.Reaches
        (image ((⟨false, false⟩ : LoweringOptions).lines callSeven.sites)) w ∧
      w.memory.sp = 257 ∧ w.memory 256 = 7 := by
  have ha : Acceptable callSeven.sites := firstRefusal?_nil_eq_none_iff.1 (by decide)
  have h : callSeven.lower ⟨false, false⟩ = .ok (LoweringOptions.lines _ callSeven.sites) :=
    Program.lower_eq_ok_iff.2 ⟨ha, rfl⟩
  obtain ⟨t, hst, hentry, hcalled, hreturn⟩ := Program.call_then_return h (by decide) (by decide)
    (k := 0) rfl rfl (by decide) (s := callingSeven) rfl (by decide) (by decide)
  have hl := Program.linked h (by decide) (by decide)
  have hn : t.next = LoweringOptions.codeAddress ⟨false, false⟩ callSeven.sites 2 :=
    Option.some.inj (hentry.symm.trans (by decide))
  have hp : Placed (LoweringOptions.lines ⟨false, false⟩ callSeven.sites) t.next
      (Block.load "Main" 7 Segment.constant.addressing ++ Block.pushD) := by
    have hs : callSeven.sites[2]? =
        some ⟨"Main", some "F", ⟨3, "push constant 7", .push .constant 7⟩⟩ := rfl
    rw [hn]
    exact LoweringOptions.placed_blockAt hs
  obtain ⟨u, htu, hun, hum⟩ := hl.push hp
  have hsp : t.memory.sp = 261 := hcalled.sp
  have hroom : 16 ≤ t.memory.sp.toNat := by rw [hsp]; decide
  have htop : u.memory.top = 7 := by
    rw [hum, Memory.top, Memory.sp_push hroom, BitVec.add_sub_cancel, Memory.push_top hroom]
    rfl
  have hkeep : Memory.KeepsFrame callingSeven.memory.sp t.memory u.memory := by
    rw [hum]
    refine ⟨Memory.push_address hroom _ (by decide), Memory.push_address hroom _ (by decide), ?_,
      ?_, ?_⟩
    · intro i hi
      refine Memory.push_of_ne ?_ ?_
      · interval_cases i <;> decide
      · rw [hsp]
        interval_cases i <;> decide
    · rw [Memory.push_address hroom _ (by decide), hcalled.lcl, Memory.sp_push hroom, hsp]
      decide
    · rw [Memory.sp_push hroom, hsp]
      decide
  obtain ⟨w, huw, -, -, hw⟩ := hreturn u _ 3 htu.reaches rfl rfl
    (by rw [hun, hn]; decide) hkeep
  exact ⟨w, (hst.trans htu.reaches).trans huw, hw.sp, hw.result.trans htop⟩

end StackLowering
