import StackLowering.Result
import StackLowering.Source.Statement
/-! Which words write which command, said without the classes of words. Reading a line accepts
exactly such words and finds the command that they write. -/
namespace StackLowering.Source

/-- Whether a word writes a number, which may have leading zeros. -/
def WritesNumber (word : String) (n : UInt16) : Prop :=
  Text.isDecimal word.toList ∧ Text.decimal word.toList = n.toNat

inductive Writes : List String → Command → Prop where
  | push {w : String} {i : UInt16} (s : Segment) (hi : WritesNumber w i) :
    Writes ["push", s.word, w] (.push s i)
  | pop {w : String} {i : UInt16} (s : Segment) (hi : WritesNumber w i) :
    Writes ["pop", s.word, w] (.pop s i)
  | operate (op : Operator) : Writes [op.word] (.operate op)
  | label {n : String} (hn : isSymbol n) : Writes ["label", n] (.label n)
  | goto {n : String} (hn : isSymbol n) : Writes ["goto", n] (.goto n)
  | ifGoto {n : String} (hn : isSymbol n) : Writes ["if-goto", n] (.ifGoto n)
  | function {n w : String} {k : UInt16} (hn : isSymbol n) (hk : WritesNumber w k) :
    Writes ["function", n, w] (.function n k)
  | call {n w : String} {k : UInt16} (hn : isSymbol n) (hk : WritesNumber w k) :
    Writes ["call", n, w] (.call n k)
  | ret : Writes ["return"] .ret

private theorem writesNumber_toString (n : UInt16) : WritesNumber (toString n.toNat) n :=
  ⟨Text.isDecimal_toString _, Text.decimal_toString _⟩

/-- The words of a command write it if its name is a symbol. -/
theorem writes_words {c : Command} (h : ∀ n, c.name? = some n → isSymbol n) :
    Writes c.words c := by
  cases c with
  | push s i => exact .push s (writesNumber_toString i)
  | pop s i => exact .pop s (writesNumber_toString i)
  | operate op => exact .operate op
  | label n => exact .label (h n rfl)
  | goto n => exact .goto (h n rfl)
  | ifGoto n => exact .ifGoto (h n rfl)
  | function n k => exact .function (h n rfl) (writesNumber_toString k)
  | call n k => exact .call (h n rfl) (writesNumber_toString k)
  | ret => exact .ret

namespace Token

theorem ofWord_eq_keyword_iff {w : String} {k : Keyword} : ofWord w = .keyword k ↔ w = k.word := by
  constructor
  · rw [← Keyword.ofWord?_eq_some_iff, ofWord]
    intro h
    split at h
    · next hk => rw [hk, Token.keyword.inj h]
    · simp at h
    · simp at h
    · dsimp only at h
      split at h <;> simp at h
  · rintro rfl
    cases k <;> rfl

theorem ofWord_eq_operator_iff {w : String} {op : Operator} :
    ofWord w = .operator op ↔ w = op.word := by
  constructor
  · rw [← Operator.ofWord?_eq_some_iff, ofWord]
    intro h
    split at h
    · simp at h
    · next ho => rw [ho, Token.operator.inj h]
    · simp at h
    · dsimp only at h
      split at h <;> simp at h
  · rintro rfl
    cases op <;> rfl

theorem ofWord_eq_segment_iff {w : String} {s : Segment} : ofWord w = .segment s ↔ w = s.word := by
  constructor
  · rw [← Segment.ofWord?_eq_some_iff, ofWord]
    intro h
    split at h
    · simp at h
    · simp at h
    · next hs => rw [hs, Token.segment.inj h]
    · dsimp only at h
      split at h <;> simp at h
  · rintro rfl
    cases s <;> rfl

/-- No word of the language is a number. -/
private theorem ofWord?_of_isDecimal {w : String} (h : Text.isDecimal w.toList) :
    Keyword.ofWord? w = none ∧ Operator.ofWord? w = none ∧ Segment.ofWord? w = none := by
  refine ⟨?_, ?_, ?_⟩
  · refine Option.eq_none_iff_forall_ne_some.2 fun k hk => ?_
    rw [Keyword.ofWord?_eq_some_iff.1 hk] at h
    revert h
    cases k <;> decide
  · refine Option.eq_none_iff_forall_ne_some.2 fun op ho => ?_
    rw [Operator.ofWord?_eq_some_iff.1 ho] at h
    revert h
    cases op <;> decide
  · refine Option.eq_none_iff_forall_ne_some.2 fun s hs => ?_
    rw [Segment.ofWord?_eq_some_iff.1 hs] at h
    revert h
    cases s <;> decide

private theorem ofWord_eq_integer_iff {w : String} {n : Nat} :
    ofWord w = .integer n ↔
      Text.isDecimal w.toList ∧ Text.decimal w.toList = n ∧ n < integerLimit := by
  constructor
  · rw [ofWord]
    intro h
    split at h
    · simp at h
    · simp at h
    · simp at h
    · dsimp only at h
      split at h
      · next hd =>
        rw [← Token.integer.inj h]
        exact ⟨hd.1, rfl, hd.2⟩
      · simp at h
  · rintro ⟨hd, rfl, hl⟩
    obtain ⟨hk, ho, hs⟩ := ofWord?_of_isDecimal hd
    rw [ofWord, hk, ho, hs]
    exact if_pos ⟨hd, hl⟩

end Token

namespace Word

theorem segment_eq_ok_iff {w : Word} {s : Segment} : w.segment = .ok s ↔ w.text = s.word := by
  rw [← Token.ofWord_eq_segment_iff, segment, token]
  split
  · next h => simp [h]
  · next h =>
    refine ⟨fun hr => by simp [refuse] at hr, fun hs => absurd hs (h s)⟩

theorem name_eq_ok_iff {w : Word} {n : String} : w.name = .ok n ↔ w.text = n ∧ isSymbol n := by
  rw [name]
  split
  · next h =>
    rw [Except.ok.injEq]
    exact ⟨fun hn => ⟨hn, hn ▸ h⟩, And.left⟩
  · next h =>
    refine ⟨fun hr => by simp [refuse] at hr, ?_⟩
    rintro ⟨rfl, hn⟩
    exact absurd hn h

theorem number_eq_ok_iff {w : Word} {n : UInt16} : w.number = .ok n ↔ WritesNumber w.text n := by
  have hl : n.toNat < Token.integerLimit := Nat.lt_trans n.toNat_lt (by decide)
  constructor
  · rw [number, token]
    intro h
    split at h
    · next m hm =>
      obtain ⟨hd, hv, _⟩ := Token.ofWord_eq_integer_iff.1 hm
      split at h
      · rw [← Except.ok.inj h]
        exact ⟨hd, hv⟩
      · simp [refuse] at h
    · simp [refuse] at h
  · rintro ⟨hd, hv⟩
    have ht := Token.ofWord_eq_integer_iff.2 ⟨hd, hv, hl⟩
    rw [number, token, ht]
    simp [n.toNat_lt]

end Word

private theorem indexed_eq_ok_iff {command : Segment → UInt16 → Command} {w v : Word}
    {c : Command} :
    (do return command (← w.segment) (← v.number) : Except (Nat × Fault) Command) = .ok c ↔
      ∃ s i, w.text = s.word ∧ WritesNumber v.text i ∧ c = command s i := by
  simp [bind_eq_ok_iff, Word.segment_eq_ok_iff, Word.number_eq_ok_iff, pure, Except.pure,
    @eq_comm Command c]

private theorem named_eq_ok_iff {command : String → Command} {w : Word} {c : Command} :
    (do return command (← w.name) : Except (Nat × Fault) Command) = .ok c ↔
      isSymbol w.text ∧ c = command w.text := by
  simp [bind_eq_ok_iff, Word.name_eq_ok_iff, and_assoc, pure, Except.pure,
    @eq_comm Command c]

private theorem counted_eq_ok_iff {command : String → UInt16 → Command} {w v : Word}
    {c : Command} :
    (do return command (← w.name) (← v.number) : Except (Nat × Fault) Command) = .ok c ↔
      ∃ k, isSymbol w.text ∧ WritesNumber v.text k ∧ c = command w.text k := by
  simp [bind_eq_ok_iff, Word.name_eq_ok_iff, Word.number_eq_ok_iff, and_assoc, pure,
    Except.pure, @eq_comm Command c]

private theorem writes_of_statement {head : Word} {operands : List Word} {c : Command}
    (h : statement head operands = .ok c) : Writes (head.text :: operands.map Word.text) c := by
  have text {k : Keyword} (ht : head.token = .keyword k) : head.text = k.word :=
    Token.ofWord_eq_keyword_iff.1 ht
  unfold statement at h
  split at h
  · next ht =>
    obtain ⟨s, i, hs, hi, rfl⟩ := indexed_eq_ok_iff.1 h
    rw [text ht, List.map_cons, hs]
    exact .push s hi
  · next ht =>
    obtain ⟨s, i, hs, hi, rfl⟩ := indexed_eq_ok_iff.1 h
    rw [text ht, List.map_cons, hs]
    exact .pop s hi
  · next ht =>
    obtain ⟨hn, rfl⟩ := named_eq_ok_iff.1 h
    rw [text ht]
    exact .label hn
  · next ht =>
    obtain ⟨hn, rfl⟩ := named_eq_ok_iff.1 h
    rw [text ht]
    exact .goto hn
  · next ht =>
    obtain ⟨hn, rfl⟩ := named_eq_ok_iff.1 h
    rw [text ht]
    exact .ifGoto hn
  · next ht =>
    obtain ⟨k, hn, hk, rfl⟩ := counted_eq_ok_iff.1 h
    rw [text ht]
    exact .function hn hk
  · next ht =>
    obtain ⟨k, hn, hk, rfl⟩ := counted_eq_ok_iff.1 h
    rw [text ht]
    exact .call hn hk
  · next ht =>
    cases h
    rw [text ht]
    exact .ret
  · next op ht =>
    cases h
    rw [Token.ofWord_eq_operator_iff.1 ht]
    exact .operate op
  · split at h <;> cases h

private theorem statement_of_writes {head : Word} {operands : List Word} {c : Command}
    (h : Writes (head.text :: operands.map Word.text) c) : statement head operands = .ok c := by
  generalize hw : head.text :: operands.map Word.text = words at h
  have token {w : String} {k : Keyword} (ht : head.text = w) (hk : Keyword.ofWord? w = some k) :
      head.token = .keyword k :=
    Token.ofWord_eq_keyword_iff.2 (ht.trans (Keyword.ofWord?_eq_some_iff.1 hk))
  cases h with
  | push s hi | pop s hi =>
    obtain ⟨ht, ho⟩ := List.cons.inj hw
    obtain ⟨w, ws, rfl, hs, hv⟩ := List.map_eq_cons_iff.1 ho
    obtain ⟨v, vs, rfl, rfl, he⟩ := List.map_eq_cons_iff.1 hv
    obtain rfl := List.map_eq_nil_iff.1 he
    unfold statement
    rw [token ht rfl]
    exact indexed_eq_ok_iff.2 ⟨_, _, hs, hi, rfl⟩
  | label hn | goto hn | ifGoto hn =>
    obtain ⟨ht, ho⟩ := List.cons.inj hw
    obtain ⟨w, ws, rfl, rfl, he⟩ := List.map_eq_cons_iff.1 ho
    obtain rfl := List.map_eq_nil_iff.1 he
    unfold statement
    rw [token ht rfl]
    exact named_eq_ok_iff.2 ⟨hn, rfl⟩
  | function hn hk | call hn hk =>
    obtain ⟨ht, ho⟩ := List.cons.inj hw
    obtain ⟨w, ws, rfl, rfl, hv⟩ := List.map_eq_cons_iff.1 ho
    obtain ⟨v, vs, rfl, rfl, he⟩ := List.map_eq_cons_iff.1 hv
    obtain rfl := List.map_eq_nil_iff.1 he
    unfold statement
    rw [token ht rfl]
    exact counted_eq_ok_iff.2 ⟨_, hn, hk, rfl⟩
  | ret =>
    obtain ⟨ht, he⟩ := List.cons.inj hw
    obtain rfl := List.map_eq_nil_iff.1 he
    unfold statement
    rw [token ht rfl]
    rfl
  | operate op =>
    obtain ⟨ht, he⟩ := List.cons.inj hw
    obtain rfl := List.map_eq_nil_iff.1 he
    have ho : head.token = .operator op := Token.ofWord_eq_operator_iff.2 ht
    unfold statement
    rw [ho]
    rfl

/-- A head word and operands make a command if and only if they write it. -/
theorem statement_eq_ok_iff {head : Word} {operands : List Word} {c : Command} :
    statement head operands = .ok c ↔ Writes (head.text :: operands.map Word.text) c :=
  ⟨writes_of_statement, statement_of_writes⟩

end StackLowering.Source
