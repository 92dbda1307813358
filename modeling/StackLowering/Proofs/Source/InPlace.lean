import StackLowering.Proofs.Source.Cursor
import StackLowering.Proofs.Source.Refusals
/-! Reading a source in place. The words of a line are taken by their numbers once their count has
been checked, and a number without a word would be no answer at all. It comes to the same as reading
the lines of the scan, so that there is always an answer. -/
namespace StackLowering.Source

namespace FoundLine

def indexed? (command : Segment → UInt16 → Command) (operands : List FoundWord) :
    Option (Except (Nat × Fault) Command) := do
  let s ← operands[0]?
  let i ← operands[1]?
  return do return command (← s.segment) (← i.number)

def named? (command : String → Command) (operands : List FoundWord) :
    Option (Except (Nat × Fault) Command) := do
  let n ← operands[0]?
  return do return command (← n.name)

def counted? (command : String → UInt16 → Command) (operands : List FoundWord) :
    Option (Except (Nat × Fault) Command) := do
  let n ← operands[0]?
  let k ← operands[1]?
  return do return command (← n.name) (← k.number)

def operated? (head : FoundWord) (operands : List FoundWord) :
    Option (Except (Nat × Fault) Command) :=
  match head.token with
  | .keyword .push => indexed? .push operands
  | .keyword .pop => indexed? .pop operands
  | .keyword .label => named? .label operands
  | .keyword .goto => named? .goto operands
  | .keyword .ifGoto => named? .ifGoto operands
  | .keyword .function => counted? .function operands
  | .keyword .call => counted? .call operands
  | .keyword .ret => some (.ok .ret)
  | .operator op => some (.ok (.operate op))
  | _ => some (head.refuse .unknownCommand)

/-- The command of a line or its fault; `none` if it has no word where one is taken. -/
def command? (l : FoundLine) : Option (Except (Nat × Fault) Command) := do
  let head ← l.words[0]?
  match head.token.operands? with
  | none => return head.refuse .unknownCommand
  | some expected =>
    let found := l.words.length - 1
    if found = expected then operated? head (l.words.drop 1)
    else return head.refuse (.operandCount · expected found)

def located? (l : FoundLine) : Option (Except Error Located) := do
  match ← l.command? with
  | .ok command => return .ok ⟨l.number, l.text, command⟩
  | .error (column, fault) => return .error ⟨l.number, column, l.text, fault⟩

def locatedAll? : List FoundLine → Option (Except Error (List Located))
  | [] => some (.ok [])
  | l :: ls => do
    match ← l.located? with
    | .error e => return .error e
    | .ok d => return (d :: ·) <$> (← locatedAll? ls)

end FoundLine

def parseInPlace (source : String) : Option (Except Error (List Located)) :=
  FoundLine.locatedAll? (findLines source)

private theorem operated?_found {head : Word} {operands : List Word} {asked : List Operand}
    (h : head.token.shape? = some asked) (hn : operands.length = asked.length) (number : Nat) :
    FoundLine.operated? (head.found number) (operands.map (·.found number)) =
      some (statement head operands) := by
  unfold statement FoundLine.operated?
  rw [show (head.found number).token = head.token from rfl]
  cases ht : head.token with
  | keyword k =>
    rw [ht] at h
    obtain rfl := Option.some.inj h
    cases k with
    | push | pop | function | call =>
      obtain ⟨w, v, rfl⟩ := List.length_eq_two.1 hn
      rfl
    | label | goto | ifGoto =>
      obtain ⟨w, rfl⟩ := List.length_eq_one_iff.1 hn
      rfl
    | ret =>
      obtain rfl := List.length_eq_zero_iff.1 hn
      rfl
  | operator op =>
    rw [ht] at h
    obtain rfl := Option.some.inj h
    obtain rfl := List.length_eq_zero_iff.1 hn
    rfl
  | _ =>
    rw [ht] at h
    cases h

/-- No word is taken that is not there. -/
private theorem command?_found (l : Line) :
    l.found.command? = some (statement l.head l.operands) := by
  have hc : l.found.command? =
      match l.head.token.operands? with
      | none => some (.error (l.head.column, .unknownCommand l.head.text))
      | some expected =>
        if (l.operands.map (·.found l.number)).length = expected then
          FoundLine.operated? (l.head.found l.number) (l.operands.map (·.found l.number))
        else some (.error (l.head.column, .operandCount l.head.text expected
          (l.operands.map (·.found l.number)).length)) := rfl
  rw [hc, operands?_eq, List.length_map]
  cases hs : l.head.token.shape? with
  | none => rw [statement_of_none hs]; rfl
  | some asked =>
    by_cases hn : l.operands.length = asked.length
    · rw [← operated?_found hs hn l.number]
      exact if_pos hn
    · rw [statement_of_count hs hn]
      exact if_neg hn

private theorem located?_found (l : Line) : l.found.located? = some l.located := by
  rw [FoundLine.located?, command?_found, Line.located]
  cases statement l.head l.operands <;> rfl

private theorem locatedAll?_found (ls : List Line) :
    FoundLine.locatedAll? (ls.map Line.found) = some (ls.mapM Line.located) := by
  induction ls with
  | nil => rfl
  | cons l ls ih =>
    rw [List.map_cons, FoundLine.locatedAll?, located?_found, ih, List.mapM_cons]
    cases l.located with
    | error e => rfl
    | ok d => cases ls.mapM Line.located <;> rfl

private theorem parseInPlace_eq (source : String) : parseInPlace source = some (parse source) := by
  rw [parseInPlace, parse, findLines_eq, lines_eq_cutLines, locatedAll?_found]

/-- Whether a line gives anything is a matter of its words alone. -/
private theorem exists_gives_iff {l : Line} :
    (∃ d, l.Gives d) ↔ ∃ c, Writes (l.words.map Word.text) c :=
  ⟨fun ⟨d, hd⟩ => ⟨d.command, hd.command⟩, fun ⟨c, hc⟩ => ⟨⟨l.number, l.text, c⟩, rfl, rfl, hc⟩⟩

private theorem exists_forall₂_iff {α β : Type} {R : α → β → Prop} {xs : List α} :
    (∃ ys, List.Forall₂ R xs ys) ↔ ∀ x ∈ xs, ∃ y, R x y := by
  induction xs with
  | nil => simp
  | cons x xs ih =>
    rw [List.forall_mem_cons, ← ih]
    constructor
    · rintro ⟨ys, h⟩
      obtain ⟨y, ys, hy, hys, rfl⟩ := List.forall₂_cons_left_iff.1 h
      exact ⟨⟨y, hy⟩, ys, hys⟩
    · rintro ⟨⟨y, hy⟩, ys, hys⟩
      exact ⟨y :: ys, .cons hy hys⟩

/-- A source is read if and only if each line with words in it writes a command, and it then gives
the commands with their lines and texts. Otherwise the error is that of the first line that writes
none, with the first fault of its words. There is always an answer; reading in place finds it. -/
theorem parse_follows_grammar (source : String) :
    ((∃ ls, parse source = .ok ls) ↔
        ∀ l ∈ cutLines source, ∃ c, Writes (l.words.map Word.text) c) ∧
      (∀ ls, parse source = .ok ls ↔ List.Forall₂ Line.Gives (cutLines source) ls) ∧
      (∀ e, parse source = .error e ↔ ∃ front l back, cutLines source = front ++ l :: back ∧
        (∀ k ∈ front, ∃ c, Writes (k.words.map Word.text) c) ∧ l.Refuses e) ∧
      parseInPlace source = some (parse source) := by
  refine ⟨?_, fun ls => parse_eq_ok_iff, fun e => ?_, parseInPlace_eq source⟩
  · simp only [parse_eq_ok_iff, exists_forall₂_iff, exists_gives_iff]
  · rw [parse_eq_error_iff]
    simp only [exists_gives_iff]

end StackLowering.Source
