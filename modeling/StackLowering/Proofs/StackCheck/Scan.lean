import StackLowering.Proofs.Lowering.Command
import StackLowering.StackCheck
/-! What the check of the stack knows in front of each command of a list, and how one command
changes it. -/
namespace StackLowering

namespace Command

def jump? : Command → Option String
  | goto n | ifGoto n => some n
  | _ => none

def label? : Command → Option String
  | label n => some n
  | _ => none

/-- Whether the command in the next place may run next. A call comes back there, and a conditional
jump may go on there. -/
def passes : Command → Bool
  | goto _ | ret => false
  | _ => true

def leaves (c : Command) (height : Nat) : Nat := height - c.effect.1 + c.effect.2

theorem leaves_le (c : Command) (height : Nat) : c.leaves height ≤ height + 1 := by
  have h : c.effect.2 ≤ 1 := by cases c <;> simp [effect]
  rw [leaves]
  omega

theorem leaves_mono (c : Command) {h k : Nat} (hle : h ≤ k) : c.leaves h ≤ c.leaves k := by
  rw [leaves, leaves]
  omega

/-- A function leaves the stack as it is, and what comes next in the list runs next. -/
theorem effect_of_entered? {c : Command} (h : c.entered?.isSome = true) :
    c.effect = (0, 0) ∧ c.passes = true ∧ c.jump? = none := by
  cases c with
  | function n k => exact ⟨rfl, rfl, rfl⟩
  | _ => cases h

end Command

namespace StackCheck
variable {s t : StackCheck} {l : Located} {c : Command} {ls : List Located} {i : Nat}

/-- The height with which the check takes a command, if it knows one. -/
def found? (s : StackCheck) : Command → Option Nat
  | .function .. => some 0
  | .label n => s.height.or (s.atLabel.lookup n)
  | _ => s.height

/-- What one command does to the check: a function starts it again, a command at an unknown height
is skipped, and any other has to find enough words. -/
private theorem step_eq (s : StackCheck) (l : Located) :
    s.step l =
      if l.command.entered?.isSome then .ok initial
      else
        match s.found? l.command with
        | none => .ok s
        | some h =>
          if h < l.command.effect.1 then
            .error ⟨l.line, l.command, l.command.effect.1, h⟩
          else .ok (s.leave l.command (l.command.leaves h)) := by
  rw [step]
  cases hc : l.command with
  | function n k => rfl
  | label n =>
    obtain ⟨_ | h, notes⟩ := s
    · simp only [found?, Command.entered?, Option.isSome_none, Bool.false_eq_true, if_false,
        Option.none_or]
      cases notes.lookup n <;> rfl
    · rfl
  | _ =>
    simp only [found?, Command.entered?, Option.isSome_none, Bool.false_eq_true, if_false]
    cases s.height <;> rfl

private theorem height_of_found?_eq_none (he : c.entered?.isSome = false) (hf : s.found? c = none) :
    s.height = none := by
  cases c with
  | label n => exact (Option.or_eq_none_iff.1 hf).1
  | function n k => cases he
  | _ => exact hf

/-- All that a command can do to the check, underflows apart: it starts the check again, it is
skipped, or it passes. -/
theorem step_cases (h : s.step l = .ok t) :
    (l.command.entered?.isSome = true ∧ t = initial) ∨
      (l.command.entered?.isSome = false ∧ s.found? l.command = none ∧ s.height = none ∧ t = s) ∨
      l.command.entered?.isSome = false ∧ ∃ height, s.found? l.command = some height ∧
        l.command.effect.1 ≤ height ∧ t = s.leave l.command (l.command.leaves height) := by
  rw [step_eq] at h
  cases he : l.command.entered?.isSome with
  | true =>
    rw [he, if_pos rfl] at h
    exact .inl ⟨rfl, (Except.ok.inj h).symm⟩
  | false =>
    rw [he, if_neg Bool.false_ne_true] at h
    cases hf : s.found? l.command with
    | none =>
      rw [hf] at h
      exact .inr (.inl ⟨rfl, rfl, height_of_found?_eq_none he hf, (Except.ok.inj h).symm⟩)
    | some height =>
      rw [hf] at h
      dsimp only at h
      split at h
      · cases h
      · next hle => exact .inr (.inr ⟨rfl, height, rfl, by omega, (Except.ok.inj h).symm⟩)

/-- An underflow is that of a command which the check takes with too few words. -/
theorem step_eq_error {u : Underflow} (h : s.step l = .error u) :
    l.command.entered?.isSome = false ∧ ∃ height, s.found? l.command = some height ∧
      height < l.command.effect.1 ∧ u = ⟨l.line, l.command, l.command.effect.1, height⟩ := by
  rw [step_eq] at h
  cases he : l.command.entered?.isSome with
  | true =>
    rw [he, if_pos rfl] at h
    cases h
  | false =>
    rw [he, if_neg Bool.false_ne_true] at h
    cases hf : s.found? l.command with
    | none =>
      rw [hf] at h
      cases h
    | some height =>
      rw [hf] at h
      dsimp only at h
      split at h
      · next hlt => exact ⟨rfl, height, rfl, hlt, (Except.error.inj h).symm⟩
      · cases h

theorem height_leave (s : StackCheck) (c : Command) (h : Nat) :
    (s.leave c h).height = if c.passes then some h else none := by
  cases c <;> rfl

/-- A jump notes its height unless its label has one. -/
theorem lookup_leave (s : StackCheck) (c : Command) (h : Nat) (n : String) :
    (s.leave c h).atLabel.lookup n =
      (s.atLabel.lookup n).or (if c.jump? = some n then some h else none) := by
  have hnote (m : String) : (s.note m h).lookup n =
      (s.atLabel.lookup n).or (if some m = some n then some h else none) := by
    rw [note]
    cases hm : s.atLabel.lookup m with
    | some k =>
      by_cases hmn : m = n
      · rw [hmn] at hm
        simp [hm]
      · simp [hmn]
    | none =>
      by_cases hmn : m = n
      · rw [hmn] at hm
        simp [hmn, hm]
      · have hb : (n == m) = false := by simpa using Ne.symm hmn
        simp [hmn, List.lookup_cons, hb]
  cases c with
  | goto m => exact hnote m
  | ifGoto m => exact hnote m
  | _ => simp [leave, Command.jump?]

/-- The check has come to the command at place `i` without an underflow, and knows `s` there. -/
def At (ls : List Located) (i : Nat) (s : StackCheck) : Prop := initial.run (ls.take i) = .ok s

theorem at_zero (ls : List Located) : At ls 0 initial := rfl

private theorem run_take_succ (hl : ls[i]? = some l) :
    initial.run (ls.take (i + 1)) = (do (← initial.run (ls.take i)).step l) := by
  rw [List.take_add_one, hl, Option.toList_some, run_append]
  refine congrArg _ (funext fun s => ?_)
  rw [run]
  cases s.step l <;> rfl

theorem At.pred (h : At ls (i + 1) t) (hl : ls[i]? = some l) :
    ∃ s, At ls i s ∧ s.step l = .ok t := by
  rw [At, run_take_succ hl] at h
  cases hr : initial.run (ls.take i) with
  | error u =>
    rw [hr] at h
    cases h
  | ok s =>
    rw [hr] at h
    exact ⟨s, hr, h⟩

theorem At.unique (h : At ls i s) (h' : At ls i t) : s = t := Except.ok.inj (h.symm.trans h')

/-- A check without an underflow comes to every place. -/
theorem exists_at (h : checkStack ls = .ok ()) (i : Nat) : ∃ s, At ls i s := by
  rw [checkStack, ← List.take_append_drop i ls, run_append] at h
  cases hr : initial.run (ls.take i) with
  | error u =>
    rw [hr] at h
    cases h
  | ok s => exact ⟨s, hr⟩

private theorem exists_of_run_eq_error {u : Underflow} (h : s.run ls = .error u) :
    ∃ i l t, ls[i]? = some l ∧ s.run (ls.take i) = .ok t ∧ t.step l = .error u := by
  induction ls generalizing s with
  | nil => cases h
  | cons l ls ih =>
    rw [run] at h
    cases hs : s.step l with
    | error v =>
      rw [hs] at h
      exact ⟨0, l, s, rfl, rfl, hs.trans h⟩
    | ok t =>
      rw [hs] at h
      obtain ⟨i, m, r, hm, hr, hu⟩ := ih h
      refine ⟨i + 1, m, r, hm, ?_, hu⟩
      rw [List.take_succ_cons, run, hs]
      exact hr

/-- An underflow is found at a command that the check has come to. -/
theorem exists_at_of_underflow {u : Underflow} (h : checkStack ls = .error u) :
    ∃ i l s, ls[i]? = some l ∧ At ls i s ∧ s.step l = .error u := by
  rw [checkStack] at h
  cases hr : initial.run ls with
  | error v =>
    rw [hr] at h
    obtain rfl := Except.error.inj h
    exact exists_of_run_eq_error hr
  | ok s =>
    rw [hr] at h
    cases h

end StackCheck
end StackLowering
