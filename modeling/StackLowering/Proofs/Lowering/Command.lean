import StackLowering.Lowering.Scope
/-! What becomes of one command, said without the scope it is lowered in: why it is refused, what
it defines, and its block. -/
namespace StackLowering
open Assembly

/-- The symbol that a label's name stands for in the body of a function, or outside all. -/
def symbolIn (body : Option String) (name : String) : String :=
  match body with
  | some f => f ++ "$" ++ name
  | none => name

namespace Command

/-- What is wrong with a command whatever else the program defines. A function's name in front of
a label's keeps the label's symbol from being reserved. -/
def offence? (body : Option String) : Command → Option Refusal
  | push s i => if i ≤ s.maxIndex then none else some (.indexOutOfRange s i)
  | pop s i =>
    if i ≤ s.maxIndex then if s = .constant then some (.notStorable s) else none
    else some (.indexOutOfRange s i)
  | operate _ | ret => none
  | label n | goto n | ifGoto n =>
    if isSymbol n then
      if body = none ∧ isReserved n then some (.reservedLabel n) else none
    else some (.invalidName n)
  | .function n _ | call n _ =>
    if isSymbol n then if isReserved n then some (.reservedLabel n) else none
    else some (.invalidName n)

def definition? (body : Option String) : Command → Option String
  | label n => some (symbolIn body n)
  | .function n _ => some n
  | _ => none

def target? (body : Option String) : Command → Option String
  | goto n | ifGoto n => some (symbolIn body n)
  | call n _ => some n
  | _ => none

def entered? : Command → Option String
  | .function n _ => some n
  | _ => none

/-- The generated labels that the command defines; one number serves them all. -/
def labelKinds : Command → List LabelKind
  | operate op => if op.isComparison then [.holds, .done] else []
  | call .. => [.back]
  | _ => []

/-- Why the command is refused where some symbols are defined already. -/
def refusal? (body : Option String) (defined : String → Bool) (c : Command) : Option Refusal :=
  (c.offence? body).or <| (c.definition? body).bind fun symbol =>
    if defined symbol then some (.duplicateLabel symbol) else none

/-- The lines of the command, the comment apart, when it is not refused. -/
def block (unit : String) (body : Option String) (number : Nat) : Command → List Line
  | push s i => (Block.push unit s i).toOption.getD []
  | pop s i => (Block.pop unit s i).toOption.getD []
  | operate op => Block.operator op number
  | label n => Block.label (symbolIn body n)
  | goto n => Block.goto (symbolIn body n)
  | ifGoto n => Block.ifGoto (symbolIn body n)
  | .function n k => Block.function n k
  | call n k => Block.call n k number
  | ret => Block.ret

end Command

private theorem not_mem_stem (kind : LabelKind) : '$' ∉ kind.stem.toList := by
  cases kind <;> decide

private theorem isPrefix_of_append_cons {α : Type} {l front back : List α} {a : α}
    (h : l <+: front ++ a :: back) (ha : a ∉ l) : l <+: front := by
  rcases Nat.le_total l.length front.length with hl | hl
  · exact List.prefix_of_prefix_length_le h (List.prefix_append _ _) hl
  · have hf : front <+: l := List.prefix_of_prefix_length_le (List.prefix_append _ _) h hl
    obtain ⟨rest, rfl⟩ := hf
    cases rest with
    | nil => simp
    | cons b rest =>
      have hb := (List.prefix_append_right_inj front).1 h
      rw [List.cons_prefix_cons] at hb
      exact absurd (by simp [hb.1]) ha

def Definable (symbol : String) : Prop := isSymbol symbol = true ∧ isReserved symbol = false

/-- A label inside a function never takes a reserved symbol. -/
private theorem isReserved_symbolIn {f : String} (name : String) (hf : isReserved f = false) :
    isReserved (symbolIn (some f) name) = false := by
  rw [isReserved, List.any_eq_false] at hf ⊢
  intro kind hk h
  apply hf kind hk
  rw [List.isPrefixOf_iff_prefix] at h ⊢
  have hs : kind.stem.toList <+: f.toList ++ '$' :: name.toList := by simpa [symbolIn] using h
  exact isPrefix_of_append_cons hs (not_mem_stem kind)

private theorem isSymbol_symbolIn {f name : String} (hf : isSymbol f = true)
    (hn : isSymbol name = true) : isSymbol (symbolIn (some f) name) = true := by
  rw [symbolIn, String.append_assoc]
  refine isSymbol_append hf fun c hc => ?_
  rw [String.toList_append, List.mem_append] at hc
  rcases hc with hc | hc
  · obtain rfl : c = '$' := List.mem_singleton.1 hc
    decide
  · exact isSymbolChar_of_mem hn hc

def Block.setup : List Line :=
  [.literal stackBase, .assign .toD (.get .a), .register .sp, .assign .toM .d]

def Block.keep (r : Register) : List Line := [.register r, .assign .toM .d]

def Block.storeAt (r : Register) : List Line :=
  [.register r, .assign .toA (.get .m), .assign .toM .d]

def Block.popTo (locate : List Line) : List Line := locate ++ keep .r13 ++ popD ++ storeAt .r13

theorem Block.bootstrap_eq (number : Nat) :
    bootstrap number = setup ++ call entryPoint 0 number := rfl

namespace Command

theorem refusal?_entry (body : Option String) (defined : String → Bool) :
    (call Block.entryPoint 0).refusal? body defined = none := rfl

/-- What an accepted command defines is definable, if the function around it is. -/
theorem definable_of_definition? {body : Option String} {c : Command} {symbol : String}
    (hb : ∀ f ∈ body, Definable f) (ho : c.offence? body = none)
    (hd : c.definition? body = some symbol) : Definable symbol := by
  cases c with
  | label n =>
    obtain rfl : symbolIn body n = symbol := Option.some.inj hd
    rw [offence?] at ho
    split at ho
    · next hn =>
      cases body with
      | none => exact ⟨hn, by simpa [symbolIn] using ho⟩
      | some f =>
        obtain ⟨hf, hr⟩ := hb f rfl
        exact ⟨isSymbol_symbolIn hf hn, isReserved_symbolIn n hr⟩
    · cases ho
  | function n k =>
    obtain rfl : n = symbol := Option.some.inj hd
    rw [offence?] at ho
    split at ho
    · next hn => exact ⟨hn, by simpa using ho⟩
    · cases ho
  | _ => cases hd

/-- Nor does an accepted command jump to a symbol that no command could define. -/
theorem definable_of_target? {body : Option String} {c : Command} {symbol : String}
    (hb : ∀ f ∈ body, Definable f) (ho : c.offence? body = none)
    (ht : c.target? body = some symbol) : Definable symbol := by
  -- A jump is refused as a label of that name would be, and a call as the function would be.
  cases c with
  | goto n => exact definable_of_definition? (c := .label n) hb ho ht
  | ifGoto n => exact definable_of_definition? (c := .label n) hb ho ht
  | call n k => exact definable_of_definition? (c := .function n k) hb ho ht
  | _ => cases ht

/-- A function that starts defines its own name. -/
theorem definition?_of_entered? {body : Option String} {c : Command} {f : String}
    (h : c.entered? = some f) : c.definition? body = some f := by
  cases c <;> simp_all [entered?, definition?]

end Command

namespace Scope

def Sound (s : Scope) : Prop := ∀ f ∈ s.function, Definable f

def behind (s : Scope) (c : Command) : Scope where
  unit := s.unit
  function := c.entered?.or s.function
  defined :=
    match c.definition? s.function with
    | some symbol => s.defined.insert symbol
    | none => s.defined
  issued := if c.labelKinds = [] then s.issued else s.issued + 1

theorem mem_behind_defined {s : Scope} {c : Command} {symbol : String} :
    symbol ∈ (s.behind c).defined ↔
      c.definition? s.function = some symbol ∨ symbol ∈ s.defined := by
  rw [behind]
  split
  · next h => rw [Std.TreeSet.mem_insert, h, Std.LawfulEqCmp.compare_eq_iff_eq, Option.some_inj]
  · next h => simp [h]

/-- An accepted command leaves the scope sound: it enters no function but one it defines. -/
theorem Sound.behind {s : Scope} (hs : s.Sound) {c : Command}
    (ho : c.offence? s.function = none) : (s.behind c).Sound := by
  intro f hf
  rcases Option.or_eq_some_iff.1 hf with he | ⟨-, hf⟩
  · exact Command.definable_of_definition? hs ho (Command.definition?_of_entered? he)
  · exact hs f hf

private theorem symbol_eq (s : Scope) (name : String) :
    s.symbol name = symbolIn s.function name := rfl

private theorem resolve_eq {s : Scope} (hs : s.Sound) (name : String) :
    s.resolve name =
      if isSymbol name then
        if s.function = none ∧ isReserved name then .error (.reservedLabel name)
        else .ok (symbolIn s.function name)
      else .error (.invalidName name) := by
  rw [resolve, symbol_eq, checkReserved]
  cases hf : s.function with
  | none => by_cases hr : isReserved name <;> simp [symbolIn, hr]
  | some f => simp [isReserved_symbolIn name (hs f hf).2]

/-- Lowering one command: refused for what is wrong with it, or else its block. -/
theorem lower_eq {s : Scope} (hs : s.Sound) (c : Command) :
    s.lower c =
      match c.refusal? s.function s.defined.contains with
      | some refusal => .error refusal
      | none => .ok (s.behind c, c.block s.unit s.function s.issued) := by
  cases c with
  | push g i =>
    rw [lower, Command.refusal?, Command.offence?, Command.block, Block.push, Segment.checkIndex]
    by_cases hi : i ≤ g.maxIndex
    · rw [if_pos hi, if_pos hi]; rfl
    · rw [if_neg hi, if_neg hi]; rfl
  | pop g i =>
    rw [lower, Command.refusal?, Command.offence?, Command.block, Block.pop, Segment.checkIndex]
    by_cases hi : i ≤ g.maxIndex
    · rw [if_pos hi, if_pos hi]
      cases g <;> rfl
    · rw [if_neg hi, if_neg hi]; rfl
  | operate op =>
    rw [lower, behind, Command.labelKinds]
    cases op.isComparison <;> rfl
  | label n =>
    rw [lower, resolve_eq hs, Command.refusal?, Command.offence?]
    split
    · split
      · rfl
      · simp only [bind, Except.bind, define, Command.definition?, Option.bind_some, Option.none_or]
        cases s.defined.contains (symbolIn s.function n) <;> rfl
    · rfl
  | goto n =>
    rw [lower, resolve_eq hs, Command.refusal?, Command.offence?]
    split
    · split <;> rfl
    · rfl
  | ifGoto n =>
    rw [lower, resolve_eq hs, Command.refusal?, Command.offence?]
    split
    · split <;> rfl
    · rfl
  | function n k =>
    rw [lower, resolveFunction, checkReserved, Command.refusal?, Command.offence?]
    split
    · split
      · rfl
      · simp only [bind, Except.bind, define, Command.definition?, Option.bind_some, Option.none_or]
        cases s.defined.contains n <;> rfl
    · rfl
  | call n k =>
    rw [lower, resolveFunction, checkReserved, Command.refusal?, Command.offence?]
    split
    · split <;> rfl
    · rfl
  | ret => rfl

/-- An accepted command, read off its lowering. -/
theorem lower_eq_ok_iff {s t : Scope} (hs : s.Sound) {c : Command} {block : List Line} :
    s.lower c = .ok (t, block) ↔
      c.refusal? s.function s.defined.contains = none ∧ t = s.behind c ∧
        block = c.block s.unit s.function s.issued := by
  rw [lower_eq hs]
  split
  · next h => simp [h]
  · next h => simp [h, eq_comm]

end Scope
end StackLowering
