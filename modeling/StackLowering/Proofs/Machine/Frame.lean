import StackLowering.Proofs.Machine.Memory
/-! The frame that a call leaves on the stack, and what a return makes of it. The stack is supposed
to lie behind the registers, so that no word of it is one of them. -/
namespace StackLowering.Machine.Memory
open Assembly

/-- The stack begins behind the registers, and some words fit on it. -/
structure Room (m : Memory) (n : Nat) : Prop where
  low : 16 ≤ m.sp.toNat
  high : m.sp.toNat + n ≤ 0x7FFF

def pushAll (m : Memory) (ws : List Word) : Memory := ws.foldl push m

variable {m : Memory} {ws : List Word} {w x : Word} {n : Nat}

private theorem pushAll_cons (m : Memory) (w : Word) (ws : List Word) :
    m.pushAll (w :: ws) = (m.push w).pushAll ws := rfl

private theorem toNat_address_lt (r : Register) : (address r).toNat < 16 := by cases r <;> decide

theorem sp_ne (h : 16 ≤ m.sp.toNat) (r : Register) : m.sp ≠ address r := by
  intro he
  have hr := toNat_address_lt r
  rw [he] at h
  omega

theorem sp_push (h : 16 ≤ m.sp.toNat) (w : Word) : (m.push w).sp = m.sp + 1 := by
  have hs : (m.store m.sp w).sp = m.sp := store_of_ne (sp_ne h .sp).symm
  rw [push, hs]
  exact store_self

theorem toNat_sp_push (h : 16 ≤ m.sp.toNat) (hw : m.sp.toNat + 1 < 0x10000) (w : Word) :
    (m.push w).sp.toNat = m.sp.toNat + 1 := by
  rw [sp_push h, BitVec.toNat_add]
  exact Nat.mod_eq_of_lt hw

theorem toNat_sp_pushZeros (h : 16 ≤ m.sp.toNat) (hn : m.sp.toNat + n < 0x10000) :
    (m.pushZeros n).sp.toNat = m.sp.toNat + n := by
  induction n generalizing m with
  | zero => rfl
  | succ n ih =>
    have hs := toNat_sp_push h (by omega) 0
    rw [pushZeros, ih (by omega) (by omega), hs, Nat.add_assoc, Nat.add_comm 1]

theorem push_top (h : 16 ≤ m.sp.toNat) (w : Word) : m.push w m.sp = w := by
  rw [push, store_of_ne (sp_ne h .sp), store_self]

theorem push_of_ne (hs : x ≠ address .sp) (hx : x ≠ m.sp) : m.push w x = m x := by
  rw [push, store_of_ne hs, store_of_ne hx]

theorem push_address (h : 16 ≤ m.sp.toNat) (w : Word) {r : Register} (hr : r ≠ .sp) :
    m.push w (address r) = m (address r) := by
  refine push_of_ne ?_ (sp_ne h r).symm
  cases r <;> first | exact absurd rfl hr | decide

theorem sp_store_of_ne (hx : x ≠ address .sp) : (m.store x w).sp = m.sp := store_of_ne hx.symm

theorem sp_popBy (hx : x ≠ address .sp) : (m.popBy x).sp = m.sp - 1 := by
  rw [popBy_eq, sp_store_of_ne hx, sp_drop, sp_store_of_ne (by decide)]

theorem drop_of_ne (hx : x ≠ address .sp) : m.drop x = m x := store_of_ne hx

private theorem sp_sub_ne {k : Word} (h : 16 + k.toNat ≤ m.sp.toNat) (r : Register) :
    m.sp - k ≠ address r := by
  intro he
  have hr := toNat_address_lt r
  rw [← he, BitVec.toNat_sub_of_le (BitVec.le_def.2 (by omega))] at hr
  omega

theorem sp_replaceTop (h : 17 ≤ m.sp.toNat) (w : Word) : (m.replaceTop w).sp = m.sp :=
  store_of_ne (sp_sub_ne (k := 1) h .sp).symm

/-- The result takes the place of the lower operand. -/
private theorem combine_eq (h : 18 ≤ m.sp.toNat) (f : Word → Word → Word) :
    m.combine f = m.drop.store (m.sp - 2) (f (m (m.sp - 2)) (m (m.sp - 1))) := by
  have hy : m.drop (m.sp - 1) = m (m.sp - 1) :=
    drop_of_ne (sp_sub_ne (k := 1) (Nat.le_of_succ_le h) .sp)
  have hx : m.drop (m.sp - 2) = m (m.sp - 2) := drop_of_ne (sp_sub_ne (k := 2) h .sp)
  have hs : m.sp - 1 - 1 = m.sp - 2 := by bv_omega
  rw [combine, replaceTop, top, dropped, sp_drop, hs, hx, hy]

theorem sp_combine (h : 18 ≤ m.sp.toNat) (f : Word → Word → Word) :
    (m.combine f).sp = m.sp - 1 := by
  rw [combine_eq h, sp, store_of_ne (sp_sub_ne (k := 2) h .sp).symm]
  exact sp_drop m

theorem top_combine (h : 18 ≤ m.sp.toNat) (f : Word → Word → Word) :
    (m.combine f).top = f (m (m.sp - 2)) (m (m.sp - 1)) := by
  have hs : m.sp - 1 - 1 = m.sp - 2 := by bv_omega
  rw [top, sp_combine h, hs, combine_eq h, store_self]

theorem combine_of_ne (h : 18 ≤ m.sp.toNat) (f : Word → Word → Word) (hs : x ≠ address .sp)
    (hx : x ≠ m.sp - 2) : m.combine f x = m x := by
  rw [combine_eq h, store_of_ne hx, drop_of_ne hs]

private theorem Room.push (h : m.Room (n + 1)) (w : Word) :
    (m.push w).Room n ∧ (m.push w).sp.toNat = m.sp.toNat + 1 := by
  have hl := h.low
  have hh := h.high
  have hs : (m.push w).sp.toNat = m.sp.toNat + 1 := toNat_sp_push hl (by omega) w
  exact ⟨⟨by omega, by omega⟩, hs⟩

/-- Words pushed one after the other lie one behind the other, and the rest stays. -/
private theorem toNat_sp_pushAll (h : m.Room ws.length) :
    (m.pushAll ws).sp.toNat = m.sp.toNat + ws.length := by
  induction ws generalizing m with
  | nil => rfl
  | cons w ws ih =>
    obtain ⟨hr, hs⟩ := Room.push h w
    have hp := ih hr
    rw [pushAll_cons, hp, hs, List.length_cons, Nat.add_assoc, Nat.add_comm 1]

private theorem pushAll_of_outside (h : m.Room ws.length) (hs : x ≠ address .sp)
    (hx : x.toNat < m.sp.toNat ∨ m.sp.toNat + ws.length ≤ x.toNat) : m.pushAll ws x = m x := by
  induction ws generalizing m with
  | nil => rfl
  | cons w ws ih =>
    obtain ⟨hr, hp⟩ := Room.push h w
    rw [List.length_cons] at hx
    have hne : x ≠ m.sp := by
      rintro rfl
      omega
    rw [pushAll_cons, ih hr (by omega), push_of_ne hs hne]

private theorem pushAll_getElem (h : m.Room ws.length) {i : Nat} (hi : i < ws.length)
    (hx : x.toNat = m.sp.toNat + i) : m.pushAll ws x = ws[i] := by
  induction ws generalizing m i with
  | nil => cases hi
  | cons w ws ih =>
    obtain ⟨hr, hp⟩ := Room.push h w
    have hl := h.low
    have hs : x ≠ address .sp := by
      rintro rfl
      have := toNat_address_lt .sp
      omega
    cases i with
    | zero =>
      have hxs : x = m.sp := BitVec.eq_of_toNat_eq hx
      have ho : (m.push w).pushAll ws x = m.push w x :=
        pushAll_of_outside hr hs (.inl (by omega))
      rw [pushAll_cons, ho, hxs, push_top hl]
      rfl
    | succ i => exact ih hr (Nat.lt_of_succ_lt_succ hi) (by omega)

/-- Pushing registers one after the other pushes what they held before. -/
private theorem foldl_push_registers (rs : List Register) (hr : ∀ r ∈ rs, r ≠ .sp)
    (h : m.Room rs.length) :
    rs.foldl (fun m r => m.push (m (address r))) m = m.pushAll (rs.map (m ∘ address)) := by
  induction rs generalizing m with
  | nil => rfl
  | cons r rs ih =>
    have hm : rs.map (m.push (m (address r)) ∘ address) = rs.map (m ∘ address) :=
      List.map_congr_left fun q hq => push_address h.low _ (hr q (List.mem_cons_of_mem r hq))
    have hi := ih (fun q hq => hr q (List.mem_cons_of_mem r hq)) (Room.push h (m (address r))).1
    rw [hm] at hi
    exact hi

/-- The memory behind a call: the frame is on the stack, and the pointers name its parts. -/
structure Called (m t : Memory) (back args : Word) : Prop where
  sp : t.sp = m.sp + 5
  lcl : t (address .lcl) = m.sp + 5
  arg : t (address .arg) = m.sp - args
  back : t m.sp = back
  savedLcl : t (m.sp + 1) = m (address .lcl)
  savedArg : t (m.sp + 2) = m (address .arg)
  savedThis : t (m.sp + 3) = m (address .this)
  savedThat : t (m.sp + 4) = m (address .that)
  /-- All words but the three pointers and the frame are as before. -/
  rest : ∀ x, x ≠ address .sp → x ≠ address .lcl → x ≠ address .arg →
    (x.toNat < m.sp.toNat ∨ m.sp.toNat + 5 ≤ x.toNat) → t x = m x

private theorem pushFrame_eq (h : m.Room 5) (back : Word) :
    m.pushFrame back = m.pushAll [back, m (address .lcl), m (address .arg), m (address .this),
      m (address .that)] := by
  have hp := foldl_push_registers [.lcl, .arg, .this, .that] (by decide) (Room.push h back).1
  have hm : [Register.lcl, .arg, .this, .that].map (m.push back ∘ address) =
      [Register.lcl, .arg, .this, .that].map (m ∘ address) :=
    List.map_congr_left fun q hq => push_address h.low _ (by rintro rfl; revert hq; decide)
  rw [pushFrame, hp, hm, pushAll_cons]
  simp only [List.map_cons, List.map_nil, Function.comp_apply]

theorem called_call (h : m.Room 5) (back args : Word) : Called m (m.call back args) back args := by
  have hl := h.low
  have hh := h.high
  have hroom : m.Room [back, m (address .lcl), m (address .arg), m (address .this),
      m (address .that)].length := h
  have hsp : (m.pushFrame back).sp = m.sp + 5 := by
    have hs := toNat_sp_pushAll hroom
    rw [← pushFrame_eq h] at hs
    refine BitVec.eq_of_toNat_eq (hs.trans ?_)
    rw [List.length_cons, List.length_cons, List.length_cons, List.length_cons,
      List.length_singleton]
    bv_omega
  have hrest : ∀ x, x ≠ address .lcl → x ≠ address .arg →
      m.call back args x = m.pushFrame back x := by
    intro x h1 h2
    rw [call, store_of_ne h1, store_of_ne h2]
  have hbased : ((m.pushFrame back).store (address .arg) ((m.pushFrame back).sp - 5 - args)).sp =
      m.sp + 5 := by
    rw [← hsp]
    exact store_of_ne (by decide)
  have frame : ∀ i (hi : i < 5), m.call back args (m.sp + .ofNat 16 i) =
      [back, m (address .lcl), m (address .arg), m (address .this), m (address .that)][i] := by
    intro i hi
    have hx : (m.sp + .ofNat 16 i).toNat = m.sp.toNat + i := by
      rw [BitVec.toNat_add, BitVec.toNat_ofNat]
      omega
    have hne : ∀ r, m.sp + .ofNat 16 i ≠ address r := by
      intro r hr
      have := toNat_address_lt r
      rw [← hr, hx] at this
      omega
    rw [hrest _ (hne .lcl) (hne .arg), pushFrame_eq h]
    exact pushAll_getElem hroom hi hx
  refine ⟨?_, ?_, ?_, ?_, frame 1 (by decide), frame 2 (by decide), frame 3 (by decide),
    frame 4 (by decide), ?_⟩
  · exact (hrest _ (by decide) (by decide)).trans hsp
  · rw [call, store_self, hbased]
  · rw [call, store_of_ne (by decide), store_self, hsp]
    bv_omega
  · have h0 := frame 0 (by decide)
    rwa [show BitVec.ofNat 16 0 = 0#16 from rfl, BitVec.add_zero] at h0
  · intro x h0 h1 h2 hx
    rw [hrest x h1 h2, pushFrame_eq h]
    exact pushAll_of_outside hroom h0 hx

/-- The words that a return puts back, when none of them is read where another is put. -/
private theorem foldl_restore_of_not_mem {frame : Word} (saved : List (Register × Word))
    (hx : ∀ p ∈ saved, x ≠ address p.1) : saved.foldl (restore · frame) m x = m x := by
  induction saved generalizing m with
  | nil => rfl
  | cons p saved ih =>
    rw [List.foldl_cons, ih fun q hq => hx q (List.mem_cons_of_mem p hq), restore,
      store_of_ne (hx p List.mem_cons_self)]

private theorem foldl_restore {frame k : Word} {r : Register} (front back : List (Register × Word))
    (hf : ∀ p ∈ front, frame - k ≠ address p.1) (hb : ∀ p ∈ back, address r ≠ address p.1) :
    (front ++ (r, k) :: back).foldl (restore · frame) m (address r) = m (frame - k) := by
  rw [List.foldl_append, List.foldl_cons, foldl_restore_of_not_mem back hb, restore, store_self,
    foldl_restore_of_not_mem front hf]

/-- A frame that a return can be made from: its words and the place of the result lie behind the
registers, and the result goes to none of the saved pointers. -/
structure Returnable (m : Memory) : Prop where
  top : 17 ≤ m.sp.toNat
  result : 16 ≤ (m (address .arg)).toNat
  frame : ∀ k ∈ [1, 2, 3, 4, 5], 16 ≤ (m (address .lcl) - k).toNat
  apart : ∀ k ∈ [1, 2, 3, 4], m (address .lcl) - k ≠ m (address .arg)

structure Left (m t : Memory) : Prop where
  sp : t.sp = m (address .arg) + 1
  result : t (m (address .arg)) = m.top
  lcl : t (address .lcl) = m (m (address .lcl) - 4)
  arg : t (address .arg) = m (m (address .lcl) - 3)
  this : t (address .this) = m (m (address .lcl) - 2)
  that : t (address .that) = m (m (address .lcl) - 1)
  rest : ∀ x, x ∉ [Register.sp, .lcl, .arg, .this, .that].map address → x ≠ m (address .arg) →
    t x = m x

private theorem Returnable.ne_frame (h : m.Returnable) {k : Word} (hk : k ∈ [1, 2, 3, 4, 5])
    (r : Register) : m (address .lcl) - k ≠ address r := by
  intro hr
  have hf := h.frame k hk
  have := toNat_address_lt r
  rw [hr] at hf
  omega

private theorem Returnable.ne_result (h : m.Returnable) (r : Register) :
    m (address .arg) ≠ address r := by
  intro hr
  have ha := h.result
  have := toNat_address_lt r
  rw [hr] at ha
  omega

/-- The memory when the result is in place and the saved pointers are still in the frame. -/
private theorem leave_eq (h : m.Returnable) : ∃ c : Memory,
    m.leave = [(Register.that, 1), (.this, 2), (.arg, 3), (.lcl, 4)].foldl
      (restore · (m (address .lcl))) c ∧
    c.sp = m (address .arg) + 1 ∧ c (m (address .arg)) = m.top ∧
    ∀ x, x ≠ address .sp → x ≠ m (address .arg) → c x = m x := by
  have ht := h.top
  have hdrop : ∀ x, x ≠ address .sp → m.drop x = m x := fun x hx => store_of_ne hx
  have harg : m.drop (address .arg) = m (address .arg) := hdrop _ (by decide)
  have htop : m.drop.dropped = m.top := by
    rw [dropped, sp_drop, top]
    refine hdrop _ ?_
    rw [address]
    bv_omega
  have hmoved : m.drop.store (m (address .arg)) m.top (address .arg) = m (address .arg) := by
    rw [store_of_ne (h.ne_result .arg).symm, harg]
  refine ⟨(m.drop.store (m (address .arg)) m.top).store (address .sp) (m (address .arg) + 1),
    ?_, ?_, ?_, ?_⟩
  · rw [leave, harg, htop, hmoved]
  · rw [sp, store_self]
  · rw [store_of_ne (h.ne_result .sp), store_self]
  · intro x hs hx
    rw [store_of_ne hs, store_of_ne hx, hdrop x hs]

theorem left_leave (h : m.Returnable) : Left m m.leave := by
  obtain ⟨c, hc, hsp, hresult, hrest⟩ := leave_eq h
  have saved : ∀ (r : Register) (k : Word) (front back : List (Register × Word)),
      [(Register.that, 1), (.this, 2), (.arg, 3), (.lcl, 4)] = front ++ (r, k) :: back →
      k ∈ [1, 2, 3, 4] → (∀ p ∈ back, address r ≠ address p.1) →
        m.leave (address r) = m (m (address .lcl) - k) := by
    intro r k front back hs hk hb
    have hk5 : k ∈ [1, 2, 3, 4, 5] := List.mem_append_left [5] hk
    rw [hc, hs, foldl_restore front back (fun p _ => h.ne_frame hk5 p.1) hb]
    exact hrest _ (h.ne_frame hk5 .sp) (h.apart k hk)
  refine ⟨?_, ?_, ?_, ?_, ?_, ?_, ?_⟩
  · rw [hc, sp, foldl_restore_of_not_mem _ (by decide)]
    exact hsp
  · rw [hc, foldl_restore_of_not_mem _ fun p _ => h.ne_result p.1]
    exact hresult
  · exact saved .lcl 4 [(.that, 1), (.this, 2), (.arg, 3)] [] rfl (by decide) (by decide)
  · exact saved .arg 3 [(.that, 1), (.this, 2)] [(.lcl, 4)] rfl (by decide) (by decide)
  · exact saved .this 2 [(.that, 1)] [(.arg, 3), (.lcl, 4)] rfl (by decide) (by decide)
  · exact saved .that 1 [] [(.this, 2), (.arg, 3), (.lcl, 4)] rfl (by decide) (by decide)
  · intro x hx hne
    simp only [List.map_cons, List.map_nil, List.mem_cons, List.not_mem_nil, or_false, not_or] at hx
    obtain ⟨h0, h1, h2, h3, h4⟩ := hx
    rw [hc, foldl_restore_of_not_mem, hrest x h0 hne]
    simp [h1, h2, h3, h4]

end StackLowering.Machine.Memory
