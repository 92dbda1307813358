import Mathlib.Data.List.Forall2
import StackLowering.Source.Cut
import StackLowering.Source.Grammar
/-! Which sources are read, and which fault is reported of one that is not: that of the first line
that writes no command, and in the line the first of the head, the count and the operands. -/
namespace StackLowering.Source

inductive Operand where
  | segment | name | number
  deriving DecidableEq

namespace Operand

/-- Whether a word will do. Digits may be as many as they like, if only their value is in range. -/
def Accepts : Operand → String → Prop
  | segment, w => ∃ s : Segment, w = s.word
  | name, w => isSymbol w
  | number, w => Text.isDecimal w.toList ∧ Text.decimal w.toList ≤ 65535

def fault : Operand → String → Fault
  | segment => .unknownSegment
  | name => .invalidName
  | number => .malformedNumber

end Operand

def shape : Keyword → List Operand
  | .push | .pop => [.segment, .number]
  | .label | .goto | .ifGoto => [.name]
  | .function | .call => [.name, .number]
  | .ret => []

def Starts (w : String) (operands : List Operand) : Prop :=
  (∃ k : Keyword, w = k.word ∧ operands = shape k) ∨ ∃ op : Operator, w = op.word ∧ operands = []

/-- Whether this is the fault of the first word, from the left, that will not do. -/
def FirstRefused : List (Operand × Word) → Nat × Fault → Prop
  | [], _ => False
  | (o, w) :: rest, e =>
    (¬o.Accepts w.text ∧ e = (w.column, o.fault w.text)) ∨
      (o.Accepts w.text ∧ FirstRefused rest e)

/-- Whether words are refused for this fault: no command has such a head; or it has not as many
operands; or it has, but one of them will not do. -/
inductive Rejects (head : Word) (operands : List Word) : Nat × Fault → Prop where
  | head (h : ∀ asked, ¬Starts head.text asked) :
    Rejects head operands (head.column, .unknownCommand head.text)
  | count {asked : List Operand} (h : Starts head.text asked)
      (hn : operands.length ≠ asked.length) :
    Rejects head operands
      (head.column, .operandCount head.text asked.length operands.length)
  | operand {asked : List Operand} {e : Nat × Fault} (h : Starts head.text asked)
      (hn : operands.length = asked.length) (hf : FirstRefused (asked.zip operands) e) :
    Rejects head operands e

private theorem accepts_number_iff {w : String} :
    Operand.number.Accepts w ↔ ∃ n, WritesNumber w n := by
  constructor
  · rintro ⟨hd, hv⟩
    exact ⟨.ofNat (Text.decimal w.toList), hd, by simp; omega⟩
  · rintro ⟨n, hd, hv⟩
    have := n.toNat_lt
    exact ⟨hd, by omega⟩

/-- Whether what is made of a word is a value if the word will do, and else the fault at it. -/
structure Operand.Reads {α : Type} (o : Operand) (w : Word) (r : Except (Nat × Fault) α) :
    Prop where
  ok : o.Accepts w.text → ∃ a, r = .ok a
  error : ¬o.Accepts w.text → r = .error (w.column, o.fault w.text)

namespace Word
variable (w : Word)

private theorem reads_segment : Operand.segment.Reads w w.segment where
  ok := fun ⟨s, hs⟩ => ⟨s, segment_eq_ok_iff.2 hs⟩
  error h := by
    rw [segment]
    split
    · next s hs => exact absurd ⟨s, Token.ofWord_eq_segment_iff.1 hs⟩ h
    · rfl

private theorem reads_name : Operand.name.Reads w w.name where
  ok h := ⟨w.text, name_eq_ok_iff.2 ⟨rfl, h⟩⟩
  error h := if_neg h

private theorem reads_number : Operand.number.Reads w w.number where
  ok h := by
    obtain ⟨n, hn⟩ := accepts_number_iff.1 h
    exact ⟨n, number_eq_ok_iff.2 hn⟩
  error h := by
    cases hr : w.number with
    | ok n => exact absurd (accepts_number_iff.2 ⟨n, number_eq_ok_iff.1 hr⟩) h
    | error e =>
      rw [number] at hr
      split at hr
      · split at hr
        · cases hr
        · exact hr.symm
      · exact hr.symm

end Word

section
variable {α β : Type} {o : Operand} {w : Word} {rest : List (Operand × Word)} {e : Nat × Fault}

private theorem Operand.Reads.bind_eq_error_iff {r : Except (Nat × Fault) α}
    {f : α → Except (Nat × Fault) β} (h : o.Reads w r)
    (hf : ∀ a, f a = .error e ↔ FirstRefused rest e) :
    r >>= f = .error e ↔ FirstRefused ((o, w) :: rest) e := by
  rw [FirstRefused]
  by_cases ha : o.Accepts w.text
  · obtain ⟨a, rfl⟩ := h.ok ha
    have hfa : Except.ok a >>= f = .error e ↔ FirstRefused rest e := hf a
    simp [ha, hfa]
  · rw [h.error ha]
    simp [ha, eq_comm, bind, Except.bind]

private theorem pure_eq_error_iff (b : β) :
    (pure b : Except (Nat × Fault) β) = .error e ↔ FirstRefused [] e := by
  simp [FirstRefused, pure, Except.pure]

end

def Token.shape? : Token → Option (List Operand)
  | .keyword k => some (shape k)
  | .operator _ => some []
  | _ => none

private theorem starts_iff {w : Word} {asked : List Operand} :
    Starts w.text asked ↔ w.token.shape? = some asked := by
  simp only [Starts, ← Token.ofWord_eq_keyword_iff, ← Token.ofWord_eq_operator_iff, Word.token]
  cases Token.ofWord w.text <;> simp [Token.shape?, eq_comm]

theorem operands?_eq (t : Token) : t.operands? = t.shape?.map List.length := by
  cases t with
  | keyword k => cases k <;> rfl
  | _ => rfl

section
variable {head : Word} {operands : List Word} {e : Nat × Fault}

theorem statement_of_none (h : head.token.shape? = none) :
    statement head operands = .error (head.column, .unknownCommand head.text) := by
  unfold statement
  cases ht : head.token with
  | keyword k | operator op =>
    rw [ht] at h
    cases h
  | _ => rfl

theorem statement_of_count {asked : List Operand} (h : head.token.shape? = some asked)
    (hn : operands.length ≠ asked.length) :
    statement head operands =
      .error (head.column, .operandCount head.text asked.length operands.length) := by
  have ho : head.token.operands? = some asked.length := by rw [operands?_eq, h, Option.map_some]
  unfold statement
  split
  case h_10 => simp only [ho]; rfl
  all_goals
    next ht =>
      rw [ht] at h
      obtain rfl := Option.some.inj h
      exact absurd rfl hn

private theorem statement_of_shape {asked : List Operand} (h : head.token.shape? = some asked)
    (hn : operands.length = asked.length) :
    statement head operands = .error e ↔ FirstRefused (asked.zip operands) e := by
  cases ht : head.token with
  | keyword k =>
    rw [ht] at h
    obtain rfl := Option.some.inj h
    unfold statement
    rw [ht]
    cases k with
    | push | pop =>
      obtain ⟨s, i, rfl⟩ := List.length_eq_two.1 hn
      exact s.reads_segment.bind_eq_error_iff fun _ =>
        i.reads_number.bind_eq_error_iff fun _ => pure_eq_error_iff _
    | label | goto | ifGoto =>
      obtain ⟨n, rfl⟩ := List.length_eq_one_iff.1 hn
      exact n.reads_name.bind_eq_error_iff fun _ => pure_eq_error_iff _
    | function | call =>
      obtain ⟨n, i, rfl⟩ := List.length_eq_two.1 hn
      exact n.reads_name.bind_eq_error_iff fun _ =>
        i.reads_number.bind_eq_error_iff fun _ => pure_eq_error_iff _
    | ret =>
      obtain rfl := List.length_eq_zero_iff.1 hn
      exact pure_eq_error_iff _
  | operator op =>
    rw [ht] at h
    obtain rfl := Option.some.inj h
    obtain rfl := List.length_eq_zero_iff.1 hn
    unfold statement
    rw [ht]
    exact pure_eq_error_iff _
  | _ =>
    rw [ht] at h
    cases h

/-- A head word and operands are refused for just the fault that comes first. -/
private theorem statement_eq_error_iff :
    statement head operands = .error e ↔ Rejects head operands e := by
  constructor
  · intro h
    cases hs : head.token.shape? with
    | none =>
      rw [statement_of_none hs] at h
      obtain rfl := Except.error.inj h
      refine .head fun asked ha => ?_
      rw [starts_iff.1 ha] at hs
      cases hs
    | some asked =>
      by_cases hn : operands.length = asked.length
      · exact .operand (starts_iff.2 hs) hn ((statement_of_shape hs hn).1 h)
      · rw [statement_of_count hs hn] at h
        obtain rfl := Except.error.inj h
        exact .count (starts_iff.2 hs) hn
  · intro h
    cases h with
    | head h =>
      refine statement_of_none (Option.eq_none_iff_forall_ne_some.2 fun asked hs => ?_)
      exact h asked (starts_iff.2 hs)
    | count h hn => exact statement_of_count (starts_iff.1 h) hn
    | operand h hn hf => exact (statement_of_shape (starts_iff.1 h) hn).2 hf

end

structure Line.Gives (l : Line) (d : Located) : Prop where
  line : d.line = l.number
  text : d.text = l.text
  command : Writes (l.words.map Word.text) d.command

structure Line.Refuses (l : Line) (e : Error) : Prop where
  line : e.line = l.number
  text : e.text = l.text
  fault : Rejects l.head l.operands (e.column, e.fault)

section
variable {l : Line}

private theorem located_eq_ok_iff {d : Located} : l.located = .ok d ↔ l.Gives d := by
  constructor
  · intro h
    cases hs : statement l.head l.operands with
    | ok c =>
      rw [Line.located, hs] at h
      obtain rfl := Except.ok.inj h
      exact ⟨rfl, rfl, statement_eq_ok_iff.1 hs⟩
    | error e =>
      rw [Line.located, hs] at h
      cases h
  · obtain ⟨line, text, c⟩ := d
    rintro ⟨rfl, rfl, hc⟩
    rw [Line.located, statement_eq_ok_iff.2 hc]

private theorem located_eq_error_iff {e : Error} : l.located = .error e ↔ l.Refuses e := by
  constructor
  · intro h
    cases hs : statement l.head l.operands with
    | ok c =>
      rw [Line.located, hs] at h
      cases h
    | error f =>
      rw [Line.located, hs] at h
      obtain rfl := Except.error.inj h
      exact ⟨rfl, rfl, statement_eq_error_iff.1 hs⟩
  · obtain ⟨line, column, text, fault⟩ := e
    rintro ⟨rfl, rfl, hf⟩
    rw [Line.located, statement_eq_error_iff.2 hf]

end

theorem parse_eq_ok_iff {source : String} {ls : List Located} :
    parse source = .ok ls ↔ List.Forall₂ Line.Gives (cutLines source) ls := by
  rw [parse, lines_eq_cutLines, mapM_eq_ok_iff]
  simp only [located_eq_ok_iff]

theorem parse_eq_error_iff {source : String} {e : Error} :
    parse source = .error e ↔ ∃ front l back, cutLines source = front ++ l :: back ∧
      (∀ k ∈ front, ∃ d, k.Gives d) ∧ l.Refuses e := by
  rw [parse, lines_eq_cutLines, mapM_eq_error_iff]
  simp only [located_eq_ok_iff, located_eq_error_iff]

end StackLowering.Source
