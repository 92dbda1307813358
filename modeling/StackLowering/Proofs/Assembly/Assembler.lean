import Mathlib.Data.List.Basic
import StackLowering.Assembly.Assembler
import StackLowering.Proofs.Assembly.Text
/-! The assembler takes the texts of lines for what the lines are. Where it knows a symbol by its
text, `image` knows it from the lines, so that both give the same code. -/
namespace StackLowering.Assembly
open Machine

def isUnbroken (text : String) : Bool := text.toList.all fun c => !Text.isBlank c

private theorem isUnbroken_append (s t : String) :
    isUnbroken (s ++ t) = (isUnbroken s && isUnbroken t) := by
  rw [isUnbroken, String.toList_append, List.all_append]
  rfl

theorem isBlank_of_isUnbroken {text : String} (h : isUnbroken text = true) {c : Char}
    (hc : c ∈ text.toList) : Text.isBlank c = false := by
  have hb := List.all_eq_true.1 h c hc
  rwa [Bool.not_eq_true'] at hb

/-- The digits of a number are no white space. -/
private theorem isBlank_of_mem_toString {c : Char} {n : Nat} (h : c ∈ (toString n).toList) :
    Text.isBlank c = false :=
  isBlank_of_isSymbolChar (isSymbolChar_of_mem_toString h)

theorem Computation.ofText?_text (c : Computation) : ofText? c.text = some c := by
  cases c <;> try (rename_i x; cases x)
  all_goals decide

private theorem Jump.ofText?_text (j : Jump) : ofText? j.text = some j := by cases j <;> decide

private theorem computation_chars (c : Computation) :
    isUnbroken c.text = true ∧ '=' ∉ c.text.toList ∧ ';' ∉ c.text.toList := by
  cases c <;> try (rename_i x; cases x)
  all_goals exact ⟨by decide, by decide, by decide⟩

namespace Assembler

private theorem splitOnce_of_not_mem {sep : Char} {cs : List Char} (h : sep ∉ cs) :
    splitOnce sep cs = (cs, none) := by
  induction cs with
  | nil => rfl
  | cons c cs ih =>
    rw [List.mem_cons, not_or] at h
    rw [splitOnce, if_neg (Ne.symm h.1), ih h.2]

private theorem splitOnce_append {sep : Char} {front : List Char} (h : sep ∉ front)
    (back : List Char) : splitOnce sep (front ++ sep :: back) = (front, some back) := by
  induction front with
  | nil => rw [List.nil_append, splitOnce, if_pos rfl]
  | cons c front ih =>
    rw [List.mem_cons, not_or] at h
    rw [List.cons_append, splitOnce, if_neg (Ne.symm h.1), ih h.2]

def assigned (t : Dest) (c : Computation) : String :=
  if t.text.isEmpty then c.text else t.text ++ "=" ++ c.text

private theorem dest_chars (t : Dest) :
    isUnbroken t.text = true ∧ '=' ∉ t.text.toList ∧ ';' ∉ t.text.toList := by
  obtain ⟨_ | _, _ | _, _ | _⟩ := t
  all_goals exact ⟨by decide, by decide, by decide⟩

private theorem jump_chars (j : Jump) : isUnbroken j.text = true ∧ j.text.toList ≠ [] := by
  cases j <;> exact ⟨by decide, by decide⟩

theorem assigned_chars (t : Dest) (c : Computation) :
    isUnbroken (assigned t c) = true ∧ ';' ∉ (assigned t c).toList := by
  obtain ⟨hc, -, hc'⟩ := computation_chars c
  obtain ⟨ht, -, ht'⟩ := dest_chars t
  rw [assigned]
  split
  · exact ⟨hc, hc'⟩
  · refine ⟨by rw [isUnbroken_append, isUnbroken_append, ht, hc]; rfl, ?_⟩
    rw [String.toList_append, String.toList_append, List.mem_append, List.mem_append, not_or,
      not_or]
    exact ⟨⟨ht', by decide⟩, hc'⟩

/-- The registers that take a result are the letters in front of the equals sign. -/
private theorem dest_contains (t : Dest) :
    (⟨t.text.toList.contains 'A', t.text.toList.contains 'M', t.text.toList.contains 'D'⟩ : Dest) =
      t := by
  obtain ⟨_ | _, _ | _, _ | _⟩ := t
  all_goals decide

private theorem assignment?_assigned (t : Dest) (c : Computation) :
    assignment? (assigned t c).toList = some (t, c) := by
  rw [assignment?, assigned]
  by_cases ht : t.text.isEmpty = true
  · have hn : t = .none := by
      obtain ⟨_ | _, _ | _, _ | _⟩ := t <;> first | rfl | exact absurd ht (by decide)
    rw [if_pos ht, splitOnce_of_not_mem (computation_chars c).2.1]
    simp only [String.ofList_toList, Computation.ofText?_text, Option.map_some, hn]
  · have hs : (t.text ++ "=" ++ c.text).toList = t.text.toList ++ '=' :: c.text.toList := by simp
    rw [if_neg ht, hs, splitOnce_append (dest_chars t).2.1]
    simp only [String.ofList_toList, Computation.ofText?_text, Option.map_some, dest_contains]

theorem text_instruction (i : Instruction) :
    i.text = match i.jump with
      | none => assigned i.dest i.computation
      | some j => assigned i.dest i.computation ++ ";" ++ j.text := rfl

theorem isUnbroken_instruction (i : Instruction) : isUnbroken i.text = true := by
  have ha := (assigned_chars i.dest i.computation).1
  rw [text_instruction]
  cases i.jump with
  | none => exact ha
  | some j =>
    dsimp only
    rw [isUnbroken_append, isUnbroken_append, ha, (jump_chars j).1]
    rfl

/-- Instructions are read back from their texts. -/
private theorem instruction?_text (i : Instruction) : instruction? i.text = some i := by
  obtain ⟨t, c, jump⟩ := i
  have hs := (assigned_chars t c).2
  rw [instruction?, text_instruction]
  cases jump with
  | none =>
    simp only [splitOnce_of_not_mem hs, assignment?_assigned]
    rfl
  | some j =>
    have ht : (assigned t c ++ ";" ++ j.text).toList =
        (assigned t c).toList ++ ';' :: j.text.toList := by simp
    simp only [ht, splitOnce_append hs, assignment?_assigned, Option.getD_some, jump?,
      if_neg (jump_chars j).2, String.ofList_toList, Jump.ofText?_text]
    rfl

/-- An instruction looks like no other kind of line. -/
private theorem head_instruction (i : Instruction) :
    ∃ c cs, i.text.toList = c :: cs ∧ c ≠ '/' ∧ c ≠ '(' ∧ c ≠ '@' := by
  have computation : ∀ c : Computation, ∃ d ds, c.text.toList = d :: ds ∧
      d ≠ '/' ∧ d ≠ '(' ∧ d ≠ '@' := by
    intro c
    cases c <;> try (rename_i x; cases x)
    all_goals exact ⟨_, _, rfl, by decide, by decide, by decide⟩
  have dest : ∀ t : Dest, t.text.isEmpty ≠ true → ∃ d ds, t.text.toList = d :: ds ∧
      d ≠ '/' ∧ d ≠ '(' ∧ d ≠ '@' := by
    intro t ht
    obtain ⟨_ | _, _ | _, _ | _⟩ := t
    all_goals first
      | exact absurd rfl ht
      | exact ⟨_, _, rfl, by decide, by decide, by decide⟩
  have front : ∃ d ds, (assigned i.dest i.computation).toList = d :: ds ∧
      d ≠ '/' ∧ d ≠ '(' ∧ d ≠ '@' := by
    rw [assigned]
    split
    · exact computation i.computation
    · next ht =>
      obtain ⟨d, ds, hd, hne⟩ := dest i.dest ht
      rw [String.append_assoc, String.toList_append, hd]
      exact ⟨d, _, rfl, hne⟩
  obtain ⟨d, ds, hd, hne⟩ := front
  rw [text_instruction]
  cases i.jump with
  | none => exact ⟨d, ds, hd, hne⟩
  | some j =>
    dsimp only
    rw [String.append_assoc, String.toList_append, hd]
    exact ⟨d, _, rfl, hne⟩

end Assembler

namespace Line
open Assembler

def counts : Line → Bool
  | comment _ => false
  | _ => true

/-- The assembler can read the line back: a symbol is not taken for a number and ends in no blank,
and a number has at most 15 bits. -/
def Readable : Line → Prop
  | address s =>
    number? s.text = none ∧ ∀ c, s.text.toList.getLast? = some c → Text.isBlank c = false
  | literal n => n ≤ 0x7FFF
  | _ => True

/-- The assembler cuts nothing off the line, because the symbol on it ends in no blank. -/
def Whole : Line → Prop
  | address s => ∀ c, s.text.toList.getLast? = some c → Text.isBlank c = false
  | _ => True

variable {line : Line}

theorem Readable.whole (h : line.Readable) : line.Whole := by
  cases line with
  | address s => exact h.2
  | _ => trivial

private theorem trim_text (hw : line.Whole) (hc : line.counts = true) :
    Text.trim line.text.toList = line.text.toList := by
  cases line with
  | define l =>
    have ht : (define l).text.toList = ('(' :: l.text.toList) ++ [')'] := by simp [text]
    rw [ht]
    refine Text.trim_eq_self ?_ ?_
    · intro c h
      obtain rfl : '(' = c := by simpa using h
      decide
    · intro c h
      rw [List.getLast?_concat] at h
      obtain rfl := Option.some.inj h
      decide
  | address s =>
    have ht : (address s).text.toList = '@' :: s.text.toList := by simp [text]
    rw [ht]
    refine Text.trim_eq_self ?_ ?_
    · intro c h
      obtain rfl : '@' = c := by simpa using h
      decide
    · intro c h
      rw [List.getLast?_cons] at h
      obtain rfl := Option.some.inj h
      cases hs : s.text.toList.getLast? with
      | none => decide
      | some d => exact hw d hs
  | literal n =>
    have ht : (literal n).text.toList = '@' :: (toString n.toNat).toList := by simp [text]
    have hu : ∀ c ∈ (literal n).text.toList, Text.isBlank c = false := by
      intro c h
      rw [ht, List.mem_cons] at h
      rcases h with rfl | h
      · decide
      · exact isBlank_of_mem_toString h
    exact Text.trim_eq_self (fun c h => hu c (List.mem_of_head? h))
      fun c h => hu c (List.mem_of_getLast? h)
  | compute i =>
    have hu := isUnbroken_instruction i
    exact Text.trim_eq_self (fun c h => isBlank_of_isUnbroken hu (List.mem_of_head? h))
      fun c h => isBlank_of_isUnbroken hu (List.mem_of_getLast? h)
  | comment t => cases hc

theorem operand?_at (text : String) : Listing.operand? ("@" ++ text) = some text := by
  rw [Listing.operand?, String.toList_append]
  exact congrArg some String.ofList_toList

def operand? : Line → Option String
  | address s => some s.text
  | literal n => some (toString n.toNat)
  | _ => none

/-- How a line starts tells what kind of line it is. -/
private theorem head_text (line : Line) :
    ∃ c cs, line.text.toList = c :: cs ∧ (c = '/' ↔ line.counts = false) ∧
      (c = '(' ↔ ∃ l, line = define l) ∧ (c = '@' ↔ line.operand?.isSome = true) := by
  cases line with
  | define l =>
    exact ⟨'(', _, by rw [text, String.append_assoc, String.toList_append]; rfl,
      by simp [counts], by simp, by simp [operand?]⟩
  | address s =>
    exact ⟨'@', _, by rw [text, String.toList_append]; rfl,
      by simp [counts], by simp, by simp [operand?]⟩
  | literal n =>
    exact ⟨'@', _, by rw [text, String.toList_append]; rfl,
      by simp [counts], by simp, by simp [operand?]⟩
  | compute i =>
    obtain ⟨c, cs, h, h1, h2, h3⟩ := head_instruction i
    exact ⟨c, cs, h, by simp [counts, h1], by simp [h2], by simp [operand?, h3]⟩
  | comment t =>
    exact ⟨'/', _, by rw [text, String.toList_append]; rfl,
      by simp [counts], by simp, by simp [operand?]⟩

/-- Only a comment starts with two slashes. -/
theorem isComment_text (line : Line) : Listing.isComment line.text = !line.counts := by
  cases hc : line.counts with
  | true =>
    obtain ⟨c, cs, ht, h1, -⟩ := head_text line
    have hne : c ≠ '/' := fun he => by simp [h1.1 he] at hc
    rw [Listing.isComment, ht]
    simp [List.isPrefixOf, Ne.symm hne]
  | false =>
    cases line with
    | comment t =>
      rw [Listing.isComment, text, String.toList_append]
      rfl
    | _ => cases hc

private theorem isComment_trim (t : String) :
    Listing.isComment (String.ofList (Text.trim (comment t).text.toList)) = true := by
  have ht : (comment t).text.toList = ['/', '/'] ++ ' ' :: t.toList := by simp [text]
  have hp : ['/', '/'] <+: Text.trim (['/', '/'] ++ ' ' :: t.toList) := by
    refine Text.prefix_trim ?_ ?_ (by decide) _
    · rintro c ⟨⟩
      decide
    · rintro c ⟨⟩
      decide
  rw [ht, Listing.isComment, String.toList_ofList, List.isPrefixOf_iff_prefix]
  exact hp

theorem definition?_text (line : Line) :
    Listing.definition? line.text = line.definition?.map Label.text := by
  by_cases hd : ∃ l, line = define l
  · obtain ⟨l, rfl⟩ := hd
    have hl : (define l).text.toList = '(' :: (l.text.toList ++ [')']) := by simp [text]
    rw [Listing.definition?, hl]
    simp [definition?]
  · obtain ⟨c, cs, ht, -, hc, -⟩ := head_text line
    have hn : line.definition? = none := by
      cases line with
      | define l => exact absurd ⟨l, rfl⟩ hd
      | _ => rfl
    rw [Listing.definition?, ht, hn]
    split
    · next he => exact absurd (hc.1 (List.cons.inj he).1) hd
    · rfl

theorem operand?_text (line : Line) : Listing.operand? line.text = line.operand? := by
  cases ho : line.operand? with
  | some name =>
    have ht : line.text = "@" ++ name := by
      cases line <;> simp_all [operand?, text]
    rw [ht, operand?_at]
  | none =>
    obtain ⟨c, cs, ht, -, -, hc⟩ := head_text line
    rw [Listing.operand?, ht]
    split
    · next he =>
      have hs := hc.1 (List.cons.inj he).1
      rw [ho] at hs
      cases hs
    · rfl

end Line

namespace Assembler
variable {lines : List Line}

/-- The assembler drops the comments, and nothing else. -/
private theorem significant_text (hw : ∀ line ∈ lines, line.Whole) :
    significant (lines.map Line.text) = (lines.filter Line.counts).map Line.text := by
  induction lines with
  | nil => rfl
  | cons line lines ih =>
    have hi := ih fun l hl => hw l (List.mem_cons_of_mem line hl)
    rw [significant, List.map_map] at hi ⊢
    rw [List.map_cons, List.filter_cons, hi, List.filter_cons, Function.comp_apply]
    cases hc : line.counts with
    | true =>
      obtain ⟨c, cs, ht, -⟩ := Line.head_text line
      have hne : line.text.isEmpty = false := by
        rw [← Bool.not_eq_true, String.isEmpty_iff]
        rintro he
        rw [he] at ht
        cases ht
      rw [Line.trim_text (hw line List.mem_cons_self) hc, String.ofList_toList, hne,
        Line.isComment_text, hc]
      rfl
    | false =>
      cases line with
      | comment t =>
        rw [Line.isComment_trim, Bool.not_true, Bool.and_false]
        rfl
      | _ => cases hc

private theorem labels?_skip {line : Line} (hl : line.definition? = none) (n : Nat)
    (rest : List String) : labels? n (line.text :: rest) = labels? (n + 1) rest := by
  rw [labels?, Line.definition?_text, hl]
  rfl

/-- The first pass finds the labels at their addresses. -/
private theorem labels?_text (hd : ((labels lines).map Label.text).Nodup) (n : Nat) :
    ∃ found, labels? n ((lines.filter Line.counts).map Line.text) = some found ∧
      ∀ name, found.lookup name = (labelAddress? name lines).map (n + ·) := by
  induction lines generalizing n with
  | nil => exact ⟨[], rfl, fun _ => rfl⟩
  | cons line lines ih =>
    -- All lines with code are passed over alike, one address each.
    have coded : line.counts = true → line.definition? = none → line.size = 1 →
        (∀ name, line.defines name = false) →
        ∃ found, labels? n (((line :: lines).filter Line.counts).map Line.text) = some found ∧
          ∀ name, found.lookup name = (labelAddress? name (line :: lines)).map (n + ·) := by
      intro hc hl hs hf
      have hd' : ((labels lines).map Label.text).Nodup := by
        rwa [labels, List.filterMap_cons_none hl] at hd
      obtain ⟨found, h1, h2⟩ := ih hd' (n + 1)
      refine ⟨found, ?_, fun name => ?_⟩
      · rw [List.filter_cons_of_pos hc, List.map_cons, labels?_skip hl, h1]
      · rw [h2, labelAddress?, hf, hs, if_neg Bool.false_ne_true, Option.map_map]
        congr 1
        funext k
        exact Nat.add_assoc n 1 k
    cases line with
    | define l =>
      have hl : labels (.define l :: lines) = l :: labels lines := rfl
      rw [hl, List.map_cons, List.nodup_cons] at hd
      obtain ⟨found, h1, h2⟩ := ih hd.2 n
      have hn : found.lookup l.text = none := by
        rw [h2, labelAddress?_eq_none_iff.2 hd.1]
        rfl
      refine ⟨(l.text, n) :: found, ?_, fun name => ?_⟩
      · rw [List.filter_cons_of_pos rfl, List.map_cons, labels?, Line.definition?_text]
        simp [Line.definition?, h1, hn]
      · rw [List.lookup_cons, h2, labelAddress?, Line.defines]
        by_cases he : name = l.text
        · simp [he]
        · rw [beq_false_of_ne he]
          simp [Ne.symm he, Line.size]
    | comment t =>
      obtain ⟨found, h1, h2⟩ := ih hd n
      refine ⟨found, h1, fun name => ?_⟩
      have hf : Line.defines name (.comment t) = false := rfl
      rw [h2, labelAddress?, hf, Line.size, if_neg Bool.false_ne_true, Option.map_map]
      congr 1
      funext k
      exact congrArg (n + ·) (Nat.zero_add k).symm
    | address a => exact coded rfl rfl rfl fun _ => rfl
    | literal a => exact coded rfl rfl rfl fun _ => rfl
    | compute i => exact coded rfl rfl rfl fun _ => rfl

/-- The first pass over the texts of lines, comments among them, finds what the lines define. -/
theorem labels?_significant (hd : ((labels lines).map Label.text).Nodup)
    (hw : ∀ line ∈ lines, line.Whole) :
    ∃ found, labels? 0 (significant (lines.map Line.text)) = some found ∧
      ∀ name, found.lookup name = labelAddress? name lines := by
  obtain ⟨found, hf, hl⟩ := labels?_text hd 0
  refine ⟨found, by rw [significant_text hw, hf], fun name => ?_⟩
  rw [hl]
  cases labelAddress? name lines <;> simp

private def used (all part : List Line) : List String :=
  ((part.filterMap Line.symbol?).filter fun name =>
    (labelAddress? name all).isNone && (predefined.lookup name).isNone).eraseDups

private theorem used_append {all part : List Line} {line : Line}
    (h : ∀ name, line.symbol? = some name →
      labelAddress? name all ≠ none ∨ predefined.lookup name ≠ none) :
    used all (part ++ [line]) = used all part := by
  rw [used, used, List.filterMap_append, List.filter_append]
  cases hs : line.symbol? with
  | none => simp [hs]
  | some name =>
    have hf : ((labelAddress? name all).isNone && (predefined.lookup name).isNone) = false := by
      rw [Bool.and_eq_false_iff, Option.isNone_eq_false_iff, Option.isNone_eq_false_iff,
        Option.isSome_iff_ne_none, Option.isSome_iff_ne_none]
      exact h name hs
    simp only [List.filterMap_cons_some hs, List.filterMap_nil, List.filter_cons, hf]
    simp

private theorem used_concat_variable {all part : List Line} {s : Symbol}
    (hl : labelAddress? s.text all = none) (hp : predefined.lookup s.text = none) :
    used all (part ++ [.address s]) = allocate (used all part) s.text := by
  have hs : (List.filterMap Line.symbol? [.address s]).filter (fun name =>
      (labelAddress? name all).isNone && (predefined.lookup name).isNone) = [s.text] := by
    simp [Line.symbol?, hl, hp]
  rw [used, List.filterMap_append, List.filter_append, hs, List.eraseDups_append, allocate, used]
  by_cases hm : s.text ∈ (part.filterMap Line.symbol?).filter fun name =>
      (labelAddress? name all).isNone && (predefined.lookup name).isNone
  · rw [if_pos (List.mem_eraseDups.2 hm)]
    simp only [List.removeAll, List.filter_cons, List.elem_eq_mem, decide_eq_true hm]
    exact List.append_nil _
  · rw [if_neg fun h => hm (List.mem_eraseDups.1 h)]
    simp only [List.removeAll, List.filter_cons, List.elem_eq_mem, decide_eq_false hm]
    rfl

/-- The variables of a part come first among those of all lines. -/
private theorem idxOf_used {all part rest : List Line} (ha : all = part ++ rest) {name : String}
    (hn : name ∈ used all part) : (variableNames all).idxOf name = (used all part).idxOf name := by
  have hu : variableNames all = used all (part ++ rest) := by rw [← ha]; rfl
  rw [hu, used, List.filterMap_append, List.filter_append, List.eraseDups_append]
  exact List.idxOf_append_of_mem hn

private theorem mem_allocate (known : List String) (name : String) :
    name ∈ allocate known name := by
  rw [allocate]
  split
  · assumption
  · exact List.mem_append_right _ (List.mem_singleton_self _)

/-- The second pass knows a variable by the number of those used before it. -/
private theorem operand?_text {all part rest : List Line} {labels : List (String × Nat)}
    {s : Symbol} (hl : ∀ name, labels.lookup name = labelAddress? name all)
    (ha : all = part ++ .address s :: rest) (hr : (Line.address s).Readable) :
    operand? labels (used all part) s.text =
      some (symbolValue all s.text, used all (part ++ [.address s])) := by
  have named : ∀ name, (Line.address s).symbol? = some name → name = s.text :=
    fun name h => (Option.some.inj h).symm
  rw [operand?, hr.1, hl, symbolValue]
  dsimp only
  cases hn : labelAddress? s.text all with
  | some n =>
    rw [used_append fun name h => .inl (by rw [named name h, hn]; exact Option.some_ne_none n)]
  | none =>
    cases hp : predefined.lookup s.text with
    | some w =>
      rw [used_append fun name h => .inr (by rw [named name h, hp]; exact Option.some_ne_none w)]
    | none =>
      have hc : used all (part ++ [.address s]) = _ := used_concat_variable hn hp
      have hall : all = (part ++ [.address s]) ++ rest := by simp [ha]
      have hm := mem_allocate (used all part) s.text
      rw [← hc] at hm
      rw [idxOf_used hall hm, ← hc]

/-- Only a definition begins with a parenthesis. -/
private theorem isPrefixOf_text {line : Line} (hl : line.definition? = none) :
    ['('].isPrefixOf line.text.toList = false := by
  obtain ⟨c, ds, ht, -, hd, -⟩ := Line.head_text line
  have hne : c ≠ '(' := by
    intro he
    obtain ⟨l, rfl⟩ := hd.1 he
    cases hl
  rw [ht]
  simp [List.isPrefixOf, Ne.symm hne]

private theorem number?_of_head {text : String} (h : text.toList.head? ≠ some '+') :
    number? text =
      if Text.isDecimal text.toList ∧ Text.decimal text.toList < 0x10000 then
        some (Text.decimal text.toList)
      else none := by
  rw [number?]
  split
  · next cs hc =>
    rw [hc] at h
    exact absurd rfl h
  · rfl

private theorem number?_toString {n : Nat} (hn : n < 0x10000) : number? (toString n) = some n := by
  have hd := Text.isDecimal_toString n
  have hh : (toString n).toList.head? ≠ some '+' := by
    intro h
    rw [Text.isDecimal, Bool.and_eq_true, List.all_eq_true] at hd
    exact absurd (hd.2 '+' (List.mem_of_head? h)) (by decide)
  rw [number?_of_head hh, Text.decimal_toString, if_pos ⟨hd, hn⟩]

/-- A symbol is no number. -/
theorem number?_of_isSymbol {text : String} (h : isSymbol text = true) : number? text = none := by
  have hh : text.toList.head? ≠ some '+' := by
    intro he
    have hc := isSymbolChar_of_mem h (List.mem_of_head? he)
    revert hc
    decide
  rw [number?_of_head hh, isDecimal_of_isSymbol h]
  exact if_neg fun hn => Bool.false_ne_true hn.1

/-- Nor is a text with a dot in it. -/
theorem number?_of_dot {text : String} (h : '.' ∈ text.toList) : number? text = none := by
  have dotted : ∀ cs : List Char, '.' ∈ cs → Text.isDecimal cs = false :=
    fun cs hc => Text.isDecimal_of_mem hc (by decide)
  rw [number?]
  split
  · next cs hc =>
    rw [hc, List.mem_cons] at h
    have hd := dotted cs (h.resolve_left (by decide))
    rw [hd]
    exact if_neg fun hn => Bool.false_ne_true hn.1
  · rw [dotted _ h]
    exact if_neg fun hn => Bool.false_ne_true hn.1

private theorem codes?_at {labels : List (String × Nat)} {known known' : List String}
    {name : String} {w : Word} (h : operand? labels known name = some (w, known'))
    (texts : List String) :
    codes? labels known (("@" ++ name) :: texts) =
      (codes? labels known' texts).map (.load w :: ·) := by
  have hp : ['('].isPrefixOf ("@" ++ name).toList = false := by
    rw [String.toList_append]
    rfl
  rw [codes?, hp, if_neg Bool.false_ne_true, Line.operand?_at]
  dsimp only
  rw [h, Option.bind_eq_bind, Option.bind_some]
  cases codes? labels known' texts <;> rfl

private theorem codes?_instruction {labels : List (String × Nat)} {known : List String}
    (i : Instruction) (texts : List String) :
    codes? labels known (i.text :: texts) =
      (codes? labels known texts).map (.compute i :: ·) := by
  have hp : ['('].isPrefixOf i.text.toList = false :=
    (isPrefixOf_text rfl : ['('].isPrefixOf (Line.compute i).text.toList = false)
  have ho : Listing.operand? i.text = none := Line.operand?_text (.compute i)
  rw [codes?, hp, if_neg Bool.false_ne_true, ho]
  dsimp only
  rw [instruction?_text]
  cases codes? labels known texts <;> rfl

/-- The second pass gives every line the code that it stands for. -/
private theorem codes?_text {all part rest : List Line} {labels : List (String × Nat)}
    (hl : ∀ name, labels.lookup name = labelAddress? name all) (ha : all = part ++ rest)
    (hr : ∀ line ∈ rest, line.Readable) :
    codes? labels (used all part) ((rest.filter Line.counts).map Line.text) =
      some (rest.filterMap (Line.code? (symbolValue all))) := by
  -- On the rest, with the part that has been passed: the variables known are those of that part.
  induction rest generalizing part with
  | nil => rfl
  | cons line rest ih =>
    have hall : all = (part ++ [line]) ++ rest := by simp [ha]
    have hi := ih hall fun l h => hr l (List.mem_cons_of_mem _ h)
    have hline := hr line List.mem_cons_self
    cases line with
    | define l =>
      rw [used_append fun name h => by cases h] at hi
      have hp : ['('].isPrefixOf (Line.define l).text.toList = true := by simp [Line.text]
      rw [List.filter_cons_of_pos rfl, List.map_cons, codes?, if_pos hp, hi]
      rfl
    | comment t =>
      rw [used_append fun name h => by cases h] at hi
      exact hi
    | address s =>
      have ho := operand?_text hl ha hline
      rw [List.filter_cons_of_pos rfl, List.map_cons, Line.text, codes?_at ho, hi]
      rfl
    | literal n =>
      have hn : BitVec.ofNat 16 n.toNat = n.toBitVec := BitVec.eq_of_toNat_eq (by simp)
      have ho : operand? labels (used all part) (toString n.toNat) =
          some (n.toBitVec, used all part) := by
        rw [operand?, number?_toString n.toNat_lt, ← hn]
        exact if_pos hline
      rw [used_append fun name h => by cases h] at hi
      rw [List.filter_cons_of_pos rfl, List.map_cons, Line.text, codes?_at ho, hi]
      rfl
    | compute i =>
      rw [used_append fun name h => by cases h] at hi
      rw [List.filter_cons_of_pos rfl, List.map_cons, Line.text, codes?_instruction, hi]
      rfl

end Assembler

namespace Line
open Assembler

theorem readable_of_isSymbol {s : Symbol} (h : isSymbol s.text = true) : (address s).Readable :=
  ⟨number?_of_isSymbol h,
    fun _ hc => isBlank_of_isSymbolChar (isSymbolChar_of_mem h (List.mem_of_getLast? hc))⟩

theorem readable_static (unit : String) (i : UInt16) : (address (.static unit i)).Readable := by
  refine ⟨number?_of_dot (by simp [Symbol.text]), fun c hc => ?_⟩
  have ht : (Symbol.static unit i).text.toList =
      (unit ++ ".").toList ++ (toString i.toNat).toList := by simp [Symbol.text]
  rw [ht, List.getLast?_append_of_ne_nil _ (Text.toList_toString_ne_nil _)] at hc
  exact isBlank_of_mem_toString (List.mem_of_getLast? hc)

end Line

/-- The assembler takes the texts of lines that it can read for the lines themselves, if they
define no label twice. -/
theorem assemble?_text {lines : List Line} (hd : ((labels lines).map Label.text).Nodup)
    (hr : ∀ line ∈ lines, line.Readable) :
    assemble? (lines.map Line.text) = some (image lines) := by
  have hw : ∀ line ∈ lines, line.Whole := fun line h => (hr line h).whole
  obtain ⟨found, hf, hl⟩ := Assembler.labels?_significant hd hw
  have hall : lines = [] ++ lines := rfl
  have hc := Assembler.codes?_text hl hall hr
  rw [assemble?, hf, Assembler.significant_text hw]
  exact hc

end StackLowering.Assembly
