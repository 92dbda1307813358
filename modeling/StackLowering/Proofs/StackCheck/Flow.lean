import Mathlib.Logic.Relation
import StackLowering.Proofs.StackCheck.Scan
/-! How control passes through the commands of a list, and the words that it finds on the stack. -/
namespace StackLowering

def jumpAt? (ls : List Located) (i : Nat) : Option String := ls[i]?.bind (·.command.jump?)

def labelAt? (ls : List Located) (i : Nat) : Option String := ls[i]?.bind (·.command.label?)

/-- How many functions have begun up to a place. Two places are in the same function when that
is the same number. -/
def begun (ls : List Located) (i : Nat) : Nat :=
  (ls.take (i + 1)).countP (·.command.entered?.isSome)

def IsEntry (ls : List Located) (i : Nat) : Prop :=
  i = 0 ∨ ∃ l, ls[i]? = some l ∧ l.command.entered?.isSome

/-- A place that control comes to, and the words on the stack of the function there. -/
structure Point where
  place : Nat
  height : Nat
  deriving DecidableEq

/-- Control leaves a command that finds enough words. It goes on in the next place or at a label of
the same function. -/
inductive Flow (ls : List Located) : Point → Point → Prop
  | next {i h : Nat} {l : Located} : ls[i]? = some l → l.command.effect.1 ≤ h →
      l.command.passes = true → Flow ls ⟨i, h⟩ ⟨i + 1, l.command.leaves h⟩
  | jump {i j h : Nat} {l : Located} {n : String} : ls[i]? = some l → l.command.effect.1 ≤ h →
      l.command.jump? = some n → labelAt? ls j = some n → begun ls i = begun ls j →
      Flow ls ⟨i, h⟩ ⟨j, l.command.leaves h⟩

/-- Control flows from an entry with nothing on the stack to a point, through commands each of
which finds enough words. -/
def FlowsTo (ls : List Located) (entry : Nat) (p : Point) : Prop :=
  Relation.ReflTransGen (Flow ls) ⟨entry, 0⟩ p

variable {ls : List Located} {e i j h k : Nat} {l : Located} {n : String}

theorem FlowsTo.next (hp : FlowsTo ls e ⟨i, h⟩) (hl : ls[i]? = some l)
    (hh : l.command.effect.1 ≤ h) (hpass : l.command.passes = true)
    (hk : l.command.leaves h = k) : FlowsTo ls e ⟨i + 1, k⟩ :=
  hk ▸ hp.tail (.next hl hh hpass)

theorem FlowsTo.jump (hp : FlowsTo ls e ⟨i, h⟩) (hl : ls[i]? = some l)
    (hh : l.command.effect.1 ≤ h) (hjump : l.command.jump? = some n)
    (hlabel : labelAt? ls j = some n) (hb : begun ls i = begun ls j)
    (hk : l.command.leaves h = k) : FlowsTo ls e ⟨j, k⟩ :=
  hk ▸ hp.tail (.jump hl hh hjump hlabel hb)

theorem begun_succ (hl : ls[i + 1]? = some l) :
    begun ls (i + 1) = begun ls i + if l.command.entered?.isSome then 1 else 0 := by
  rw [begun, List.take_add_one, hl, List.countP_append, Option.toList_some, List.countP_singleton]
  rfl

theorem begun_le_begun (ls : List Located) (h : i ≤ j) : begun ls i ≤ begun ls j :=
  (List.take_sublist_take_left (by omega)).countP_le

/-- Within one function no other one begins. -/
theorem entered?_of_begun_eq (h : begun ls i = begun ls j) (hik : i < k) (hkj : k ≤ j)
    (hl : ls[k]? = some l) : l.command.entered?.isSome = false := by
  obtain ⟨k, rfl⟩ : ∃ m, k = m + 1 := ⟨k - 1, by omega⟩
  have hle : begun ls i ≤ begun ls k := begun_le_begun ls (by omega)
  have hge : begun ls (k + 1) ≤ begun ls j := begun_le_begun ls hkj
  rw [begun_succ hl] at hge
  cases he : l.command.entered?.isSome with
  | false => rfl
  | true =>
    rw [he, if_pos rfl] at hge
    omega

theorem labelAt?_eq_some_iff : labelAt? ls i = some n ↔
    ∃ l, ls[i]? = some l ∧ l.command = .label n := by
  rw [labelAt?, Option.bind_eq_some_iff]
  refine exists_congr fun l => and_congr_right fun _ => ?_
  cases l.command <;> simp [Command.label?]

end StackLowering
