import Mathlib.Data.List.Basic
import StackLowering.Proofs.Assembly.Assembler
import StackLowering.Proofs.Machine.References
/-! What the symbols in the lines of an accepted program stand for, and that the assembler takes
the lines. -/
namespace StackLowering
open Assembly Machine

/-- What the assembler needs to take the symbols of accepted commands as they are meant. -/
structure Linkable (o : LoweringOptions) (sites : List Site) : Prop where
  /-- No symbol of the program has an address from the start. -/
  unshadowed : ∀ name ∈ definitions sites, predefined.lookup name = none
  /-- No symbol of the program is a static variable. -/
  apart : ∀ name ∈ definitions sites, name ∉ staticNames sites
  counts : ∀ s ∈ sites, ∀ name count, s.command = .call name count → count ≤ 0x7FFF
  targets : ∀ s ∈ sites, ∀ name, s.target? = some name → name ∈ definitions sites
  entry : o.bootstrap = true → Block.entryPoint ∈ definitions sites

section Linking
variable {p : Program} {o : LoweringOptions} {lines : List Line}

theorem Program.nodup_labels (h : p.lower o = .ok lines) :
    ((labels lines).map Label.text).Nodup := by
  obtain ⟨t, ht, rfl⟩ := Program.coherent h
  exact ht.nodup_text

/-- The machine can go through the blocks of an accepted program that is short enough. -/
theorem Program.linked (h : p.lower o = .ok lines)
    (hu : ∀ name ∈ definitions p.sites, predefined.lookup name = none)
    (hs : codeSize lines ≤ 0x8000) : Linked lines := by
  refine ⟨Program.nodup_labels h, hs, fun r => ?_⟩
  obtain ⟨-, rfl⟩ := Program.acceptable_of_lower h
  have hn : labelAddress? r.text (o.lines p.sites) = none := by
    rw [labelAddress?_eq_none_iff,
      LoweringOptions.text_mem_labels_iff (text_generated_ne_predefined (lookup_register r))]
    intro hd
    have hr := hu r.text hd
    rw [lookup_register] at hr
    cases hr
  rw [symbolValue, hn, lookup_register]

/-- Every label that the lines name is one that they define. -/
private theorem text_mem_labels {sites : List Site} (hp : Linkable o sites) {l : Label}
    (h : Line.pointer l ∈ o.lines sites) : l.text ∈ (labels (o.lines sites)).map Label.text := by
  rcases o.pointer_cases h with ⟨-, hl⟩ | ⟨ho, rfl⟩ | ⟨s, hs, name, ht, rfl⟩
  · exact List.mem_map_of_mem hl
  · exact List.mem_map_of_mem (o.mem_labels_of_mem_definitions (hp.entry ho))
  · exact List.mem_map_of_mem (o.mem_labels_of_mem_definitions (hp.targets s hs name ht))

private theorem static_not_mem_labels {sites : List Site} (ha : Acceptable sites)
    (hp : Linkable o sites) {unit : String} {i : UInt16}
    (h : Line.address (.static unit i) ∈ o.lines sites) :
    (Symbol.static unit i).text ∉ (labels (o.lines sites)).map Label.text := by
  have hn : (Symbol.static unit i).text ∈ staticNames sites := by
    rw [staticNames, List.mem_eraseDups, ← filterMap_static?_lines ha]
    exact List.mem_filterMap.2 ⟨_, h, rfl⟩
  rw [LoweringOptions.text_mem_labels_iff fun kind n => text_generated_ne_static kind n unit i]
  exact fun hd => hp.apart _ hd hn

/-- The variables of the assembler are the static variables, in the order of the commands. -/
private theorem variableNames_lines {sites : List Site} (ha : Acceptable sites)
    (hp : Linkable o sites) : variableNames (o.lines sites) = staticNames sites := by
  have own : ∀ line ∈ o.lines sites, line.symbol?.filter (fun name =>
      (labelAddress? name (o.lines sites)).isNone && (predefined.lookup name).isNone) =
        line.static? := by
    intro line hl
    cases line with
    | address a =>
      cases a with
      | register r =>
        exact Option.filter_some_neg (by rw [Symbol.text, lookup_register, Bool.and_comm]; simp)
      | static unit i =>
        have hn := labelAddress?_eq_none_iff.2 (static_not_mem_labels ha hp hl)
        exact Option.filter_some_pos (by rw [hn, lookup_static]; rfl)
      | label l =>
        have hn : labelAddress? l.text (o.lines sites) ≠ none :=
          fun he => labelAddress?_eq_none_iff.1 he (text_mem_labels hp hl)
        exact Option.filter_some_neg (by
          rw [Symbol.text, Option.isNone_eq_false_iff.2 (Option.isSome_iff_ne_none.2 hn)]; simp)
    | _ => rfl
  rw [variableNames, List.filter_filterMap, List.filterMap_congr own, staticNames,
    filterMap_static?_lines ha]

/-- A static variable has the address that the stack machine gives it. -/
theorem symbolValue_static {sites : List Site} (ha : Acceptable sites) (hp : Linkable o sites)
    {s : Site} (hs : s ∈ sites) {i : UInt16}
    (hv : s.static? = some (Symbol.static s.unit i).text) :
    symbolValue (o.lines sites) (Symbol.static s.unit i).text =
      StackMachine.variableAddress sites s i := by
  obtain ⟨unit, j, hm, he⟩ := o.exists_static ha hs hv
  have hl := labelAddress?_eq_none_iff.2 (static_not_mem_labels ha hp hm)
  rw [he] at hl
  rw [symbolValue, hl, lookup_static, variableNames_lines ha hp]
  rfl

/-- What an accepted program names is a static variable or has the form of a symbol. -/
theorem Acceptable.symbol_cases (ha : Acceptable p.sites) {a : Symbol}
    (h : Line.address a ∈ o.lines p.sites) :
    isSymbol a.text = true ∨ ∃ unit i, a = .static unit i := by
  cases a with
  | register r => exact .inl (by cases r <;> decide)
  | static unit i => exact .inr ⟨unit, i, rfl⟩
  | label l =>
    cases l with
    | named name => exact .inl (ha.definable_pointer h).1
    | generated kind n => exact .inl (Label.isSymbol_text_generated kind n)

theorem Acceptable.readable_address (ha : Acceptable p.sites) {a : Symbol}
    (h : Line.address a ∈ o.lines p.sites) : (Line.address a).Readable := by
  rcases ha.symbol_cases h with hs | ⟨unit, i, rfl⟩
  · exact Line.readable_of_isSymbol hs
  · exact Line.readable_static unit i

/-- So the assembler takes no name for a number. -/
theorem Acceptable.isDecimal_address (ha : Acceptable p.sites) {a : Symbol}
    (h : Line.address a ∈ o.lines p.sites) : Text.isDecimal a.text.toList = false := by
  rcases ha.symbol_cases h with hs | ⟨unit, i, rfl⟩
  · exact isDecimal_of_isSymbol hs
  · exact Text.isDecimal_of_mem (dot_mem_static unit i) (by decide)

/-- The assembler can read all lines of an accepted program. -/
theorem Program.readable (h : p.lower o = .ok lines) (hp : Linkable o p.sites) :
    ∀ line ∈ lines, line.Readable := by
  obtain ⟨ha, rfl⟩ := Program.acceptable_of_lower h
  intro line hl
  cases line with
  | address a => exact ha.readable_address hl
  | literal n =>
    rcases LoweringOptions.le_of_literal ha hl with hn | ⟨s, hs, name, hc⟩
    · exact hn
    · exact hp.counts s hs name n hc
  | _ => trivial

end Linking
end StackLowering
