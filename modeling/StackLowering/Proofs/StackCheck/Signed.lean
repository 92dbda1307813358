import StackLowering.Proofs.StackCheck.Scan
/-! The check of the stack when it counts in 32 bits with a sign, and stops at a number that they do
not hold. No list that can be numbered in 31 bits comes to such a number. -/
namespace StackLowering

structure SignedCheck where
  height : Option Int
  atLabel : List (String × Int)

namespace SignedCheck

inductive Stop where
  /-- A number does not fit. -/
  | overflow
  | underflow (line : Nat) (command : Command) (needed height : Int)
  deriving DecidableEq

/-- The result of a computation in 32 bits with a sign, if they hold it. -/
def fit (x : Int) : Except Stop Int :=
  if -2147483648 ≤ x ∧ x ≤ 2147483647 then .ok x else .error .overflow

def initial : SignedCheck := ⟨some 0, []⟩

def note (s : SignedCheck) (label : String) (height : Int) : List (String × Int) :=
  match s.atLabel.lookup label with
  | some _ => s.atLabel
  | none => (label, height) :: s.atLabel

def leave (s : SignedCheck) (c : Command) (height : Int) : SignedCheck :=
  match c with
  | .goto n => ⟨none, s.note n height⟩
  | .ifGoto n => ⟨some height, s.note n height⟩
  | .ret => ⟨none, s.atLabel⟩
  | _ => ⟨some height, s.atLabel⟩

def take (s : SignedCheck) (line : Nat) (c : Command) (height : Int) : Except Stop SignedCheck := do
  let (pops, pushes) := c.effect
  if height < pops then throw (.underflow line c pops height)
  let rest ← fit (height - pops)
  let height ← fit (rest + pushes)
  return s.leave c height

def step (s : SignedCheck) (l : Located) : Except Stop SignedCheck :=
  match l.command with
  | .function .. => .ok initial
  | .label n => .ok { s with height := s.height.or (s.atLabel.lookup n) }
  | c =>
    match s.height with
    | none => .ok s
    | some height => s.take l.line c height

def run (s : SignedCheck) : List Located → Except Stop SignedCheck
  | [] => .ok s
  | l :: ls => do (← s.step l).run ls

def ofExact (s : StackCheck) : SignedCheck :=
  ⟨s.height.map Nat.cast, s.atLabel.map fun (n, h) => (n, Nat.cast h)⟩

def Stop.ofUnderflow (u : Underflow) : Stop := .underflow u.line u.command u.needed u.height

end SignedCheck

/-- Checks the commands of one unit in 32 bits. -/
def checkStackSigned (ls : List Located) : Except SignedCheck.Stop Unit := do
  let _ ← SignedCheck.initial.run ls

namespace StackCheck

structure Within (s : StackCheck) (bound : Nat) : Prop where
  height : ∀ h, s.height = some h → h ≤ bound
  noted : ∀ n h, s.atLabel.lookup n = some h → h ≤ bound

private theorem within_initial (bound : Nat) : initial.Within bound where
  height h hh := by
    obtain rfl := Option.some.inj hh
    exact Nat.zero_le bound
  noted n h hn := by cases hn

variable {s t : StackCheck} {l : Located} {bound : Nat}

private theorem Within.found (hw : s.Within bound) {c : Command} {h : Nat}
    (hf : s.found? c = some h) : h ≤ bound := by
  cases c with
  | function n k =>
    obtain rfl := Option.some.inj hf
    exact Nat.zero_le bound
  | label n =>
    rcases Option.or_eq_some_iff.1 hf with hh | ⟨-, hn⟩
    · exact hw.height h hh
    · exact hw.noted n h hn
  | _ => exact hw.height h hf

/-- No command leaves more than one word more. -/
private theorem Within.step (hw : s.Within bound) (hs : s.step l = .ok t) :
    t.Within (bound + 1) := by
  rcases step_cases hs with ⟨-, rfl⟩ | ⟨-, -, -, rfl⟩ | ⟨-, h, hf, -, rfl⟩
  · exact within_initial _
  · exact ⟨fun h hh => Nat.le_succ_of_le (hw.height h hh),
      fun n h hn => Nat.le_succ_of_le (hw.noted n h hn)⟩
  · have hle : l.command.leaves h ≤ bound + 1 :=
      Nat.le_trans (l.command.leaves_le h) (Nat.succ_le_succ (hw.found hf))
    refine ⟨fun k hk => ?_, fun n k hk => ?_⟩
    · rw [height_leave] at hk
      split at hk
      · rwa [← Option.some.inj hk]
      · cases hk
    · rw [lookup_leave] at hk
      rcases Option.or_eq_some_iff.1 hk with hk | ⟨-, hk⟩
      · exact Nat.le_succ_of_le (hw.noted n k hk)
      · split at hk
        · rwa [← Option.some.inj hk]
        · cases hk

end StackCheck

namespace SignedCheck
variable {s : StackCheck} {l : Located} {bound : Nat}

private theorem lookup_ofExact (s : StackCheck) (n : String) :
    (ofExact s).atLabel.lookup n = (s.atLabel.lookup n).map Nat.cast := by
  rw [ofExact]
  induction s.atLabel with
  | nil => rfl
  | cons p ps ih =>
    rw [List.map_cons, List.lookup_cons, List.lookup_cons]
    cases n == p.1 with
    | true => rfl
    | false => exact ih

private theorem note_ofExact (s : StackCheck) (n : String) (h : Nat) :
    (ofExact s).note n h = (s.note n h).map fun (n, h) => (n, Nat.cast h) := by
  rw [note, lookup_ofExact, StackCheck.note]
  cases s.atLabel.lookup n <;> rfl

private theorem leave_ofExact (s : StackCheck) (c : Command) (h : Nat) :
    (ofExact s).leave c h = ofExact (s.leave c h) := by
  cases c with
  | goto n =>
    rw [leave, note_ofExact]
    rfl
  | ifGoto n =>
    rw [leave, note_ofExact]
    rfl
  | _ => rfl

private theorem fit_of_lt {n : Nat} (h : n < 2147483648) : fit n = .ok (n : Int) := by
  rw [fit, if_pos (by omega)]

/-- A command is taken as without a bound, if there is room for one word more. -/
private theorem take_ofExact {h : Nat} (hh : h + 1 < 2147483648) (line : Nat) (c : Command) :
    (ofExact s).take line c h =
      if h < c.effect.1 then .error (.ofUnderflow ⟨line, c, c.effect.1, h⟩)
      else .ok (ofExact (s.leave c (c.leaves h))) := by
  rw [take]
  dsimp only
  by_cases hlt : h < c.effect.1
  · rw [if_pos hlt, if_pos (by omega)]
    rfl
  · have hrest : (h : Int) - c.effect.1 = (h - c.effect.1 : Nat) := by omega
    have hleaves : ((h - c.effect.1 : Nat) : Int) + c.effect.2 = c.leaves h := by
      rw [Command.leaves, Int.natCast_add]
    have hle := c.leaves_le h
    rw [if_neg hlt, if_neg (by omega), hrest, fit_of_lt (by omega)]
    simp only [bind, Except.bind, hleaves]
    rw [fit_of_lt (by omega), ← leave_ofExact]
    rfl

/-- In 32 bits a command comes to the same as without a bound. -/
private theorem step_ofExact (hw : s.Within bound) (hb : bound + 1 < 2147483648) (l : Located) :
    (ofExact s).step l = ((s.step l).map ofExact).mapError Stop.ofUnderflow := by
  rw [step, StackCheck.step]
  cases hc : l.command with
  | function n k => rfl
  | label n =>
    simp only [lookup_ofExact]
    change Except.ok _ = Except.ok _
    rw [ofExact, ofExact]
    simp only [← Option.map_or]
  | _ =>
    simp only
    cases hh : s.height with
    | none =>
      have ht : (ofExact s).height = none := by rw [ofExact, hh]; rfl
      rw [ht]
      rfl
    | some h =>
      have hle := hw.height h hh
      have ht : (ofExact s).height = some (h : Int) := by rw [ofExact, hh]; rfl
      rw [ht]
      simp only [take_ofExact (s := s) (show h + 1 < 2147483648 by omega)]
      split <;> rfl

/-- Behind fewer commands than 31 bits number, the two checks know the same heights. -/
private theorem run_ofExact {ls : List Located} (hw : s.Within bound)
    (hb : bound + ls.length < 2147483648) :
    (ofExact s).run ls = ((s.run ls).map ofExact).mapError Stop.ofUnderflow := by
  induction ls generalizing s bound with
  | nil => rfl
  | cons l ls ih =>
    rw [List.length_cons] at hb
    rw [run, StackCheck.run, step_ofExact hw (by omega)]
    cases hs : s.step l with
    | error u => rfl
    | ok t => exact ih (hw.step hs) (by omega)

end SignedCheck

/-- Fewer commands than 31 bits number are checked in 32 bits as without a bound, so that no height
ever overflows. -/
theorem checkStackSigned_eq {ls : List Located} (h : ls.length < 2147483648) :
    checkStackSigned ls = (checkStack ls).mapError SignedCheck.Stop.ofUnderflow := by
  have hr : SignedCheck.initial.run ls = _ :=
    SignedCheck.run_ofExact (StackCheck.within_initial 0) (show 0 + ls.length < 2147483648 by omega)
  rw [checkStackSigned, checkStack, hr]
  cases StackCheck.initial.run ls <;> rfl

end StackLowering
