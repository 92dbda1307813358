import StackLowering.Proofs.StackCheck.Flow
import StackLowering.Proofs.StackCheck.Signed
/-! What the check of the stack reports. Each height that it knows is one with which control can
come to the place, so each underflow that it finds can happen. -/
namespace StackLowering
namespace StackCheck
variable {ls : List Located} {e i : Nat} {s t : StackCheck} {l : Located}

/-- The heights known in front of a place, each with a path from the entry of the function there.
A noted height belongs to a jump that control comes to. -/
structure Traced (ls : List Located) (e i : Nat) (s : StackCheck) : Prop where
  entry : IsEntry ls e
  le : e ≤ i
  same : ∀ j, e ≤ j → j < i → begun ls j = begun ls e
  height : ∀ h, s.height = some h → FlowsTo ls e ⟨i, h⟩
  noted : ∀ n h, s.atLabel.lookup n = some h → ∃ j l k, e ≤ j ∧ j < i ∧ ls[j]? = some l ∧
    l.command.jump? = some n ∧ FlowsTo ls e ⟨j, k⟩ ∧ l.command.effect.1 ≤ k ∧ h = l.command.leaves k

private theorem traced_initial (ls : List Located) : Traced ls 0 0 initial where
  entry := .inl rfl
  le := Nat.le_refl 0
  same j _ hj := absurd hj (Nat.not_lt_zero j)
  height h hh := by
    obtain rfl := Option.some.inj hh
    exact .refl
  noted n h hn := by cases hn

namespace Traced

/-- A command that begins no function stands in the function that is entered. -/
private theorem begun_eq (ht : Traced ls e i s) (hl : ls[i]? = some l)
    (he : l.command.entered?.isSome = false) : begun ls i = begun ls e := by
  rcases Nat.eq_or_lt_of_le ht.le with rfl | hlt
  · rfl
  · obtain ⟨i, rfl⟩ : ∃ k, i = k + 1 := ⟨i - 1, by omega⟩
    rw [begun_succ hl, he, ht.same i (by omega) (by omega)]
    rfl

/-- Control can come to a command with the height with which the check takes it. -/
private theorem path (ht : Traced ls e i s) (hl : ls[i]? = some l)
    (he : l.command.entered?.isSome = false) {h : Nat} (hf : s.found? l.command = some h) :
    FlowsTo ls e ⟨i, h⟩ := by
  cases hc : l.command with
  | function n k =>
    rw [hc] at he
    cases he
  | label n =>
    rw [hc] at hf
    rcases Option.or_eq_some_iff.1 hf with hh | ⟨-, hn⟩
    · exact ht.height h hh
    · -- Control comes from the jump that the height was noted at.
      obtain ⟨j, m, k, hej, hji, hm, hjump, hpath, hk, rfl⟩ := ht.noted n h hn
      refine hpath.jump hm hk hjump (labelAt?_eq_some_iff.2 ⟨l, hl, hc⟩) ?_ rfl
      rw [ht.same j hej hji, ht.begun_eq hl he]
  | _ =>
    rw [hc] at hf
    exact ht.height h hf

/-- A function is entered anew. -/
private theorem function (hl : ls[i]? = some l) (he : l.command.entered?.isSome = true) :
    Traced ls i (i + 1) initial where
  entry := .inr ⟨l, hl, he⟩
  le := i.le_succ
  same j hij hji := by rw [show j = i by omega]
  height h hh := by
    obtain rfl := Option.some.inj hh
    obtain ⟨heffect, hpass, -⟩ := Command.effect_of_entered? he
    exact FlowsTo.next .refl hl (by simp [heffect]) hpass (by simp [Command.leaves, heffect])
  noted n h hn := by cases hn

private theorem succ (ht : Traced ls e i s) (hl : ls[i]? = some l) (hs : s.step l = .ok t) :
    ∃ e', Traced ls e' (i + 1) t := by
  have hle : e ≤ i + 1 := Nat.le_succ_of_le ht.le
  have same (he : l.command.entered?.isSome = false) :
      ∀ j, e ≤ j → j < i + 1 → begun ls j = begun ls e := by
    intro j hej hji
    rcases Nat.lt_or_eq_of_le (Nat.le_of_lt_succ hji) with hlt | rfl
    · exact ht.same j hej hlt
    · exact ht.begun_eq hl he
  have noted : ∀ n h, s.atLabel.lookup n = some h → ∃ j l k, e ≤ j ∧ j < i + 1 ∧
      ls[j]? = some l ∧ l.command.jump? = some n ∧ FlowsTo ls e ⟨j, k⟩ ∧ l.command.effect.1 ≤ k ∧
      h = l.command.leaves k := by
    intro n h hn
    obtain ⟨j, m, k, hej, hji, hm⟩ := ht.noted n h hn
    exact ⟨j, m, k, hej, by omega, hm⟩
  rcases step_cases hs with ⟨he, rfl⟩ | ⟨he, hf, hn, rfl⟩ | ⟨he, h, hf, hh, rfl⟩
  · -- The check forgets all heights at a function, and the trace starts anew there.
    exact ⟨i, function hl he⟩
  · refine ⟨e, ht.entry, hle, same he, fun h hh => ?_, noted⟩
    rw [hn] at hh
    cases hh
  · have hpath := ht.path hl he hf
    refine ⟨e, ht.entry, hle, same he, fun k hk => ?_, fun n k hk => ?_⟩
    · rw [height_leave] at hk
      split at hk
      · next hp =>
        obtain rfl := Option.some.inj hk
        exact hpath.next hl hh hp rfl
      · cases hk
    · rw [lookup_leave] at hk
      rcases Option.or_eq_some_iff.1 hk with hk | ⟨-, hk⟩
      · exact noted n k hk
      · split at hk
        · next hj =>
          obtain rfl := Option.some.inj hk
          exact ⟨i, l, h, ht.le, i.lt_succ_self, hl, hj, hpath, hh, rfl⟩
        · cases hk

end Traced

private theorem At.traced (h : At ls i s) (hi : i ≤ ls.length) : ∃ e, Traced ls e i s := by
  induction i generalizing s with
  | zero =>
    obtain rfl := (at_zero ls).unique h
    exact ⟨0, traced_initial ls⟩
  | succ i ih =>
    have hl : ls[i]? = some ls[i] := List.getElem?_eq_getElem hi
    obtain ⟨r, hr, hs⟩ := h.pred hl
    obtain ⟨e, ht⟩ := ih hr (by omega)
    exact ht.succ hl hs

end StackCheck

/-- No underflow is reported that cannot happen, and none because of the width of the heights. The
command that is reported is one that control comes to from the entry of its function, through
commands that find enough words, and with just the height that is reported. -/
theorem underflow_has_path {ls : List Located} (h : ls.length < 2147483648) :
    checkStackSigned ls = (checkStack ls).mapError SignedCheck.Stop.ofUnderflow ∧
      checkStackSigned ls ≠ .error .overflow ∧
      ∀ u, checkStack ls = .error u → ∃ i l e, ls[i]? = some l ∧ u.line = l.line ∧
        u.command = l.command ∧ u.needed = l.command.effect.1 ∧ u.height < u.needed ∧
        IsEntry ls e ∧ begun ls e = begun ls i ∧ FlowsTo ls e ⟨i, u.height⟩ := by
  refine ⟨checkStackSigned_eq h, ?_, fun u hu => ?_⟩
  · rw [checkStackSigned_eq h]
    intro ho
    cases hc : checkStack ls with
    | ok u =>
      rw [hc] at ho
      cases ho
    | error u =>
      rw [hc] at ho
      cases Except.error.inj ho
  · obtain ⟨i, l, s, hl, hs, hstep⟩ := StackCheck.exists_at_of_underflow hu
    obtain ⟨he, height, hf, hlt, rfl⟩ := StackCheck.step_eq_error hstep
    obtain ⟨e, ht⟩ := hs.traced (Nat.le_of_lt (List.getElem?_eq_some_iff.1 hl).1)
    exact ⟨i, l, e, hl, rfl, rfl, rfl, hlt, ht.entry, (ht.begun_eq hl he).symm, ht.path hl he hf⟩

def jumpToAdd : List Located :=
  [⟨1, "", .push .constant 7⟩, ⟨2, "", .function "f" 0⟩, ⟨3, "", .push .constant 1⟩,
    ⟨4, "", .goto "A"⟩, ⟨5, "", .label "B"⟩, ⟨6, "", .label "A"⟩, ⟨7, "", .operate .add⟩]

theorem jumpToAdd_has_path : jumpToAdd.length < 2147483648 ∧
    checkStack jumpToAdd = .error ⟨7, .operate .add, 2, 1⟩ ∧
    ∃ i l e, jumpToAdd[i]? = some l ∧ 7 = l.line ∧ Command.operate .add = l.command ∧
      2 = l.command.effect.1 ∧ 1 < 2 ∧ IsEntry jumpToAdd e ∧
      begun jumpToAdd e = begun jumpToAdd i ∧ FlowsTo jumpToAdd e ⟨i, 1⟩ := by
  have h : jumpToAdd.length < 2147483648 := by decide
  have hu : checkStack jumpToAdd = .error ⟨7, .operate .add, 2, 1⟩ := rfl
  exact ⟨h, hu, (underflow_has_path h).2.2 _ hu⟩

end StackLowering
