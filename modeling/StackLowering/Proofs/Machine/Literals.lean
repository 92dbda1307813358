import StackLowering.Proofs.Machine.Linking
/-! Numbers on address lines, which have room for 15 bits. Indices are checked against that and
argument counts are not, so that the count of a call is the one thing that does not have to fit. -/
namespace StackLowering
open Assembly Machine

section Literals
variable {p : Program} {o : LoweringOptions} {lines : List Line}

/-- Digits on an address line are those of a literal. -/
private theorem exists_literal (ha : Acceptable p.sites) {digits : String}
    (h : "@" ++ digits ∈ (o.lines p.sites).map Line.text)
    (hd : Text.isDecimal digits.toList = true) :
    ∃ n : UInt16, Line.literal n ∈ o.lines p.sites ∧ digits = toString n.toNat := by
  obtain ⟨line, hl, ht⟩ := List.mem_map.1 h
  have hn : line.operand? = some digits := by rw [← Line.operand?_text, ht, Line.operand?_at]
  cases line with
  | address a =>
    obtain rfl : a.text = digits := Option.some.inj hn
    rw [ha.isDecimal_address hl] at hd
    cases hd
  | literal n => exact ⟨n, hl, (Option.some.inj hn).symm⟩
  | _ => cases hn

/-- The argument count of a call stands on an address line. -/
private theorem count_mem_lines {s : Site} (hs : s ∈ p.sites) {name : String} {count : UInt16}
    (hc : s.command = .call name count) : Line.literal count ∈ o.lines p.sites := by
  obtain ⟨k, hk⟩ := List.mem_iff_getElem?.1 hs
  refine LoweringOptions.mem_lines_of_mem_blockAt hk ?_
  rw [LoweringOptions.blockAt, hc, Command.block, Block.call]
  simp

/-- A number on an address line of an accepted program has 15 bits, unless it is the argument count
of a call. So all of them have just if all these counts do. -/
theorem Program.literals_fit_iff (h : p.lower o = .ok lines) :
    (∀ digits, "@" ++ digits ∈ lines.map Line.text → Text.isDecimal digits.toList = true →
      Text.decimal digits.toList ≤ 0x7FFF ∨
        ∃ s ∈ p.sites, ∃ name count, s.command = .call name count ∧
          digits = toString count.toNat) ∧
      ((∀ digits, "@" ++ digits ∈ lines.map Line.text → Text.isDecimal digits.toList = true →
          Text.decimal digits.toList ≤ 0x7FFF) ↔
        ∀ s ∈ p.sites, ∀ name count, s.command = .call name count → count ≤ 0x7FFF) := by
  obtain ⟨ha, rfl⟩ := Program.acceptable_of_lower h
  have fits : ∀ n : UInt16, Text.decimal (toString n.toNat).toList ≤ 0x7FFF ↔ n ≤ 0x7FFF := by
    intro n
    rw [Text.decimal_toString, UInt16.le_iff_toNat_le]
    rfl
  have each : ∀ digits, "@" ++ digits ∈ (o.lines p.sites).map Line.text →
      Text.isDecimal digits.toList = true → Text.decimal digits.toList ≤ 0x7FFF ∨
        ∃ s ∈ p.sites, ∃ name count, s.command = .call name count ∧
          digits = toString count.toNat := by
    intro digits hm hd
    obtain ⟨n, hn, rfl⟩ := exists_literal ha hm hd
    rcases LoweringOptions.le_of_literal ha hn with hle | ⟨s, hs, name, hc⟩
    · exact .inl ((fits n).2 hle)
    · exact .inr ⟨s, hs, name, n, hc, rfl⟩
  refine ⟨each, fun hall s hs name count hc => ?_, fun hall digits hm hd => ?_⟩
  · have hm := List.mem_map_of_mem (f := Line.text) (count_mem_lines (o := o) hs hc)
    exact (fits count).1 (hall _ hm (Text.isDecimal_toString _))
  · rcases each digits hm hd with hle | ⟨s, hs, name, count, hc, rfl⟩
    · exact hle
    · exact (fits count).2 (hall s hs name count hc)

end Literals

def calling (count : UInt16) : Program :=
  ⟨[⟨"Main", [⟨1, "", .push .constant 0x7FFF⟩, ⟨2, "", .call "f" count⟩,
    ⟨3, "function f 0", .function "f" 0⟩, ⟨4, "return", .ret⟩]⟩]⟩

theorem calling_fits : ∃ lines, (calling 0x7FFF).lower ⟨true, false⟩ = .ok lines ∧
    ∀ digits, "@" ++ digits ∈ lines.map Line.text → Text.isDecimal digits.toList = true →
      Text.decimal digits.toList ≤ 0x7FFF := by
  have ha : Acceptable (calling 0x7FFF).sites := firstRefusal?_nil_eq_none_iff.1 (by decide)
  have h : (calling 0x7FFF).lower ⟨true, false⟩ = .ok _ := Program.lower_eq_ok_iff.2 ⟨ha, rfl⟩
  refine ⟨_, h, (Program.literals_fit_iff h).2.2 ?_⟩
  intro s hs name count hc
  have hm : s.command ∈ [Command.push .constant 0x7FFF, .call "f" 0x7FFF, .function "f" 0, .ret] :=
    List.mem_map_of_mem hs
  rw [hc] at hm
  simp only [List.mem_cons, reduceCtorEq, Command.call.injEq, List.not_mem_nil, or_false,
    false_or] at hm
  rw [hm.2]
  exact UInt16.le_refl _

/-- One argument more is accepted too, and makes a line that the assembler refuses. -/
theorem calling_overflows : ∃ lines, (calling 0x8000).lower ⟨false, false⟩ = .ok lines ∧
    "@32768" ∈ lines.map Line.text ∧ Text.isDecimal "32768".toList = true ∧
      0x7FFF < Text.decimal "32768".toList ∧ assemble? (lines.map Line.text) = none := by
  have ha : Acceptable (calling 0x8000).sites := firstRefusal?_nil_eq_none_iff.1 (by decide)
  have h : (calling 0x8000).lower ⟨false, false⟩ = .ok _ := Program.lower_eq_ok_iff.2 ⟨ha, rfl⟩
  exact ⟨_, h, by decide, by decide, by decide, by decide⟩

end StackLowering
