import StackLowering.Proofs.Source.Refusals
/-! Commands that are printed one per line are read back. The words of a command hold no blank and
no slash, so that lines and words come apart where the newlines and the spaces were put. -/
namespace StackLowering.Source
open Text

/-- Whether a word stays one word in a line: it has neither a blank nor a comment in it. -/
structure Plain (w : List Char) : Prop where
  ne_nil : w ≠ []
  blank : ∀ c ∈ w, isBlank c = false
  slash : '/' ∉ w

private theorem plain_of_all {w : List Char} (hne : w ≠ [])
    (h : w.all fun c => !isBlank c && c != '/') : Plain w where
  ne_nil := hne
  blank c hc := by simpa using (Bool.and_eq_true_iff.1 (List.all_eq_true.1 h c hc)).1
  slash hc := by cases List.all_eq_true.1 h _ hc

private theorem plain_of_isSymbolChar {w : List Char} (hne : w ≠ []) (h : ∀ c ∈ w, isSymbolChar c) :
    Plain w where
  ne_nil := hne
  blank c hc := isBlank_of_isSymbolChar (h c hc)
  slash hc := absurd (h _ hc) (by decide)

private theorem plain_of_isSymbol {name : String} (h : isSymbol name) : Plain name.toList :=
  plain_of_isSymbolChar (ne_nil_of_isSymbol h) fun _ => isSymbolChar_of_mem h

private theorem plain_toString (n : Nat) : Plain (toString n).toList :=
  plain_of_isSymbolChar (toList_toString_ne_nil n) fun _ => isSymbolChar_of_mem_toString

private theorem plain_keyword (k : Keyword) : Plain k.word.toList := by
  cases k <;> exact plain_of_all (List.cons_ne_nil _ _) rfl

private theorem plain_operator (op : Operator) : Plain op.word.toList := by
  cases op <;> exact plain_of_all (List.cons_ne_nil _ _) rfl

private theorem plain_segment (s : Segment) : Plain s.word.toList := by
  cases s <;> exact plain_of_all (List.cons_ne_nil _ _) rfl

def NamedBySymbol (c : Command) : Prop := ∀ n, c.name? = some n → isSymbol n

private theorem plain_of_mem_words {c : Command} (h : NamedBySymbol c) {w : String}
    (hw : w ∈ c.words) : Plain w.toList := by
  cases c <;> simp only [Command.words, List.mem_cons, List.not_mem_nil, or_false] at hw
  case push s i | pop s i =>
    rcases hw with rfl | rfl | rfl
    · exact plain_keyword _
    · exact plain_segment s
    · exact plain_toString _
  case operate op => exact hw ▸ plain_operator op
  case label n | goto n | ifGoto n =>
    rcases hw with rfl | rfl
    · exact plain_keyword _
    · exact plain_of_isSymbol (h w rfl)
  case function n k | call n k =>
    rcases hw with rfl | rfl | rfl
    · exact plain_keyword _
    · exact plain_of_isSymbol (h w rfl)
    · exact plain_toString _
  case ret => exact hw ▸ plain_keyword .ret

section
variable {w : List Char} {ws : List (List Char)}

private theorem map_text_runs (hw : Plain w) (h : ∀ v ∈ ws, Plain v) (column : Nat) :
    (runs column (w ++ ws.flatMap (' ' :: ·))).map Word.text = (w :: ws).map String.ofList := by
  induction ws generalizing w column with
  | nil =>
    rw [runs_append column hw.blank (by simp)]
    simp [hw.ne_nil]
  | cons v vs ih =>
    obtain ⟨hv, hvs⟩ := List.forall_mem_cons.1 h
    rw [runs_append column hw.blank (by simp [isBlank])]
    simp [hw.ne_nil, runs_cons_blank, isBlank, ih hv hvs]

private theorem isBlank_getLast? (hw : ∀ c, w.getLast? = some c → isBlank c = false)
    (h : ∀ v ∈ ws, Plain v) {c : Char} (hc : (w ++ ws.flatMap (' ' :: ·)).getLast? = some c) :
    isBlank c = false := by
  induction ws generalizing w with
  | nil => exact hw c (by simpa using hc)
  | cons v vs ih =>
    obtain ⟨hv, hvs⟩ := List.forall_mem_cons.1 h
    refine ih (w := (w ++ [' ']) ++ v) (fun d hd => ?_) hvs (by simpa using hc)
    rw [List.getLast?_append_of_ne_nil _ hv.ne_nil] at hd
    exact hv.blank d (List.mem_of_getLast? hd)

/-- The runs of plain words with spaces between them are the words. -/
private theorem map_text_runs_intercalate (h : ∀ v ∈ ws, Plain v) (column : Nat) :
    (runs column ([' '].intercalate ws)).map Word.text = ws.map String.ofList := by
  cases ws with
  | nil => rw [List.intercalate_nil, runs_nil, List.map_nil, List.map_nil]
  | cons v vs =>
    obtain ⟨hv, hvs⟩ := List.forall_mem_cons.1 h
    rw [intercalate_cons, map_text_runs hv hvs]

private theorem trim_intercalate (h : ∀ v ∈ ws, Plain v) :
    trim ([' '].intercalate ws) = [' '].intercalate ws := by
  cases ws with
  | nil => rfl
  | cons v vs =>
    obtain ⟨hv, hvs⟩ := List.forall_mem_cons.1 h
    rw [intercalate_cons]
    refine trim_eq_self (fun c hc => ?_) fun c => isBlank_getLast?
      (fun d hd => hv.blank d (List.mem_of_getLast? hd)) hvs
    rw [List.head?_append_of_ne_nil _ hv.ne_nil] at hc
    exact hv.blank c (List.mem_of_head? hc)

end

section
variable {c : Command}

private theorem toList_text (c : Command) :
    c.text.toList = [' '].intercalate (c.words.map String.toList) := String.toList_intercalate

/-- The characters of a printed command are the spaces and those of its words. -/
private theorem mem_text (h : NamedBySymbol c) {x : Char} (hx : x ∈ c.text.toList) :
    x = ' ' ∨ ∃ w, Plain w ∧ x ∈ w := by
  rw [toList_text] at hx
  rcases mem_intercalate hx with rfl | ⟨w, hw, hx⟩
  · exact .inl rfl
  · obtain ⟨v, hv, rfl⟩ := List.mem_map.1 hw
    exact .inr ⟨v.toList, plain_of_mem_words h hv, hx⟩

private theorem newline_not_mem_text (h : NamedBySymbol c) : '\n' ∉ c.text.toList := by
  intro hx
  rcases mem_text h hx with hn | ⟨w, hw, hx⟩
  · cases hn
  · cases hw.blank _ hx

private theorem slash_not_mem_text (h : NamedBySymbol c) : '/' ∉ c.text.toList := by
  intro hx
  rcases mem_text h hx with hn | ⟨w, hw, hx⟩
  · cases hn
  · exact hw.slash hx

/-- A printed command is one line, with nothing to trim, and it gives the command. -/
private theorem cutLine?_text (h : NamedBySymbol c) (number : Nat) :
    ∃ l, cutLine? number c.text.toList = some l ∧ l.Gives ⟨number, c.text, c⟩ := by
  have hp : ∀ v ∈ c.words.map String.toList, Plain v := by
    intro v hv
    obtain ⟨w, hw, rfl⟩ := List.mem_map.1 hv
    exact plain_of_mem_words h hw
  have ht : trim c.text.toList = c.text.toList := by rw [toList_text, trim_intercalate hp]
  have hr : (runs 1 c.text.toList).map Word.text = c.words := by
    rw [toList_text, map_text_runs_intercalate hp]
    simp
  rw [cutLine?, uncommented_of_not_mem (slash_not_mem_text h)]
  cases hl : runs 1 c.text.toList with
  | nil =>
    -- no command is without a word
    rw [hl] at hr
    cases c <;> cases hr
  | cons head operands =>
    refine ⟨_, rfl, rfl, ?_, ?_⟩
    · rw [ht, String.ofList_toList]
    · rw [hl] at hr
      exact hr ▸ writes_words h

end

def printed (commands : List Command) : String := "\n".intercalate (commands.map Command.text)

/-- Commands with the lines and the texts that printing gives them, from a line on. -/
def placed (number : Nat) (commands : List Command) : List Located :=
  (commands.zipIdx number).map fun (c, number) => ⟨number, c.text, c⟩

private theorem map_command_placed (number : Nat) (commands : List Command) :
    (placed number commands).map Located.command = commands := by
  rw [placed, List.map_map]
  exact List.zipIdx_map_fst number commands

section
variable {commands : List Command}

private theorem forall₂_gives_placed (h : ∀ c ∈ commands, NamedBySymbol c) (number : Nat) :
    List.Forall₂ Line.Gives
      (((commands.map fun c => c.text.toList).zipIdx number).filterMap fun (piece, number) =>
        cutLine? number piece)
      (placed number commands) := by
  induction commands generalizing number with
  | nil => exact .nil
  | cons c cs ih =>
    obtain ⟨hc, hcs⟩ := List.forall_mem_cons.1 h
    obtain ⟨l, hl, hg⟩ := cutLine?_text hc number
    rw [List.map_cons, filterMap_cutLine?_cons, hl]
    exact .cons hg (ih hcs (number + 1))

private theorem parse_printed_eq (h : ∀ c ∈ commands, NamedBySymbol c) :
    parse (printed commands) = .ok (placed 1 commands) := by
  rw [parse_eq_ok_iff]
  cases commands with
  | nil => simp [printed, placed, cutLines, pieces, cutLine?, Line.ofWords?]
  | cons c cs =>
    have hp : pieces '\n' (printed (c :: cs)).toList =
        (c :: cs).map fun c => c.text.toList := by
      rw [printed, String.toList_intercalate, List.map_map]
      refine pieces_intercalate (fun p hp => ?_) (List.cons_ne_nil _ _)
      obtain ⟨d, hd, rfl⟩ := List.mem_map.1 hp
      exact newline_not_mem_text (h d hd)
    rw [cutLines, hp]
    exact forall₂_gives_placed h 1

end

/-- What words write is named by a symbol if it has a name. -/
private theorem named_of_writes {words : List String} {c : Command} (h : Writes words c) :
    NamedBySymbol c := by
  intro n hn
  cases h with
  | label hs | goto hs | ifGoto hs | function hs | call hs => exact Option.some.inj hn ▸ hs
  | push | pop | operate | ret => cases hn

private theorem named_of_gives {ls : List Line} {ds : List Located}
    (h : List.Forall₂ Line.Gives ls ds) : ∀ c ∈ ds.map Located.command, NamedBySymbol c := by
  induction h with
  | nil => simp
  | cons hg _ ih => exact List.forall_mem_cons.2 ⟨named_of_writes hg.command, ih⟩

/-- Commands with symbols for names are read back as they are printed, one a line, with the lines
counted from one and the printed text of each. The commands of any source that is read are printed
and read again as the same commands. -/
theorem printing_undoes_parsing :
    (∀ commands : List Command, (∀ c ∈ commands, NamedBySymbol c) →
        parse (printed commands) = .ok (placed 1 commands)) ∧
      ∀ source ls, parse source = .ok ls →
        ∃ again, parse (printed (ls.map Located.command)) = .ok again ∧
          again.map Located.command = ls.map Located.command := by
  refine ⟨fun commands h => parse_printed_eq h, fun source ls h => ?_⟩
  exact ⟨_, parse_printed_eq (named_of_gives (parse_eq_ok_iff.1 h)), map_command_placed 1 _⟩

/-- A keyword and marks in names, the largest number, and a source with more blanks and zeros than
printing leaves in it. -/
theorem goto_goto_reads_back :
    parse (printed [.label "goto", .call "Main.f$x:1" 65535, .goto "goto"]) =
        .ok (placed 1 [.label "goto", .call "Main.f$x:1" 65535, .goto "goto"]) ∧
      parse "\n\tgoto  goto// back\r\npush constant 007" =
        .ok [⟨2, "goto  goto", .goto "goto"⟩, ⟨3, "push constant 007", .push .constant 7⟩] ∧
      ∃ again, parse (printed [.goto "goto", .push .constant 7]) = .ok again ∧
        again.map Located.command = [.goto "goto", .push .constant 7] := by
  have hread : parse "\n\tgoto  goto// back\r\npush constant 007" =
      .ok [⟨2, "goto  goto", .goto "goto"⟩, ⟨3, "push constant 007", .push .constant 7⟩] := by
    rfl
  have hagain := printing_undoes_parsing.2 _ _ hread
  simp only [List.map_cons, List.map_nil] at hagain
  refine ⟨printing_undoes_parsing.1 _ ?_, hread, hagain⟩
  intro c hc n hn
  simp only [List.mem_cons, List.not_mem_nil, or_false] at hc
  rcases hc with rfl | rfl | rfl
  all_goals
    obtain rfl := Option.some.inj hn
    decide

end StackLowering.Source
