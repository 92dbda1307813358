import StackLowering.Proofs.Machine.Linking
/-! Names that the assembler would know without the program: registers and other predefined names,
and static variables. A label of the program comes before them, so that the name leads into the code
instead. Nothing keeps a source from such a label; which do it is said here of the commands. -/
namespace StackLowering
open Assembly Machine

/-- A function has the name, or a label has it that stands before any function of its unit. -/
def Program.Takes (p : Program) (name : String) : Prop :=
  ∃ s ∈ p.sites, (∃ count, s.command = .function name count) ∨
    (s.body = none ∧ s.command = .label name)

section Capture
variable {p : Program} {o : LoweringOptions} {lines : List Line} {name : String}

/-- The definitions in the output are those of the commands, as far as they are not generated. -/
private theorem Program.definition_mem_text (h : p.lower o = .ok lines)
    (hg : ∀ kind n, (Label.generated kind n).text ≠ name) :
    "(" ++ name ++ ")" ∈ lines.map Line.text ↔ name ∈ definitions p.sites := by
  obtain ⟨-, rfl⟩ := Program.acceptable_of_lower h
  rw [definition_mem_text_iff, LoweringOptions.text_mem_labels_iff hg]

/-- The first pass over the output finds the address of each label in it. -/
theorem Program.first_pass (h : p.lower o = .ok lines) :
    ∃ found, Assembler.labels? 0 (Assembler.significant (lines.map Line.text)) = some found ∧
      ∀ name, found.lookup name = labelAddress? name lines := by
  have hd := Program.nodup_labels h
  obtain ⟨ha, rfl⟩ := Program.acceptable_of_lower h
  have hw : ∀ line ∈ o.lines p.sites, line.Whole := by
    intro line hl
    cases line with
    | address a => exact (ha.readable_address hl).whole
    | _ => trivial
  exact Assembler.labels?_significant hd hw

/-- The first pass over the output finds what the commands define where their code begins, and
generated labels besides. -/
private theorem Program.found_labels (h : p.lower o = .ok lines) :
    ∃ found, Assembler.labels? 0 (Assembler.significant (lines.map Line.text)) = some found ∧
      (∀ name k, DefinedAt p.sites name k →
        found.lookup name = some (o.codeAddress p.sites k)) ∧
      ∀ name, (∀ kind n, (Label.generated kind n).text ≠ name) → name ∉ definitions p.sites →
        found.lookup name = none := by
  have hd := Program.nodup_labels h
  obtain ⟨found, hf, hl⟩ := Program.first_pass h
  obtain ⟨-, rfl⟩ := Program.acceptable_of_lower h
  refine ⟨found, hf, fun name k hk => ?_, fun name hg hn => ?_⟩
  · obtain ⟨block, hp⟩ := hk.placed (o := o)
    rw [hl]
    exact hp.labelAddress? hd
  · rw [hl, labelAddress?_eq_none_iff, LoweringOptions.text_mem_labels_iff hg]
    exact hn

/-- A name without a dollar sign is defined outside all functions, or as one of them. -/
private theorem Program.mem_definitions_iff_takes (hn : '$' ∉ name.toList) :
    name ∈ definitions p.sites ↔ p.Takes name := by
  constructor
  · intro hd
    obtain ⟨s, hs, hd⟩ := List.mem_filterMap.1 hd
    refine ⟨s, hs, ?_⟩
    rw [Site.definition?] at hd
    cases hc : s.command with
    | label n =>
      rw [hc] at hd
      cases hb : s.body with
      | none =>
        rw [hb] at hd
        obtain rfl : n = name := Option.some.inj hd
        exact .inr ⟨rfl, rfl⟩
      | some f =>
        rw [hb] at hd
        obtain rfl : f ++ "$" ++ n = name := Option.some.inj hd
        exact absurd (by simp) hn
    | function n count =>
      rw [hc] at hd
      obtain rfl : n = name := Option.some.inj hd
      exact .inl ⟨count, rfl⟩
    | _ =>
      rw [hc] at hd
      cases hd
  · rintro ⟨s, hs, ⟨count, hc⟩ | ⟨hb, hc⟩⟩
    · exact List.mem_filterMap.2 ⟨s, hs, by rw [Site.definition?, hc]; rfl⟩
    · exact List.mem_filterMap.2 ⟨s, hs, by rw [Site.definition?, hc, hb]; rfl⟩

/-- A predefined name is a label of the output just if a function has the name or a label before any
function. If none has it, the assembler takes the name for the predefined address, which is how
generated code means the registers; otherwise for the address of the code that the name has got. -/
theorem Program.predefined_captured_iff (h : p.lower o = .ok lines) :
    ∃ found, Assembler.labels? 0 (Assembler.significant (lines.map Line.text)) = some found ∧
      (∀ name w, predefined.lookup name = some w →
        ("(" ++ name ++ ")" ∈ lines.map Line.text ↔ p.Takes name) ∧
        ∀ known,
          (¬p.Takes name → Assembler.operand? found known name = some (w, known)) ∧
          ∀ k, DefinedAt p.sites name k → Assembler.operand? found known name =
            some (.ofNat 16 (o.codeAddress p.sites k), known)) ∧
      ∀ (r : Register) (known : List String), ¬p.Takes r.text →
        Assembler.operand? found known r.text = some (address r, known) := by
  obtain ⟨found, hf, hdefined, hother⟩ := Program.found_labels h
  have meant : ∀ name w, predefined.lookup name = some w → ¬p.Takes name → ∀ known,
      Assembler.operand? found known name = some (w, known) := by
    intro name w hw ht known
    obtain ⟨-, -, hn, hs⟩ := predefined_plain hw
    rw [← Program.mem_definitions_iff_takes hn] at ht
    rw [Assembler.operand?, Assembler.number?_of_isSymbol hs,
      hother name (text_generated_ne_predefined hw) ht, hw]
  refine ⟨found, hf, fun name w hw => ⟨?_, fun known => ⟨fun ht => meant name w hw ht known, ?_⟩⟩,
    fun r known ht => meant r.text (address r) (lookup_register r) ht known⟩
  · rw [Program.definition_mem_text h (text_generated_ne_predefined hw),
      Program.mem_definitions_iff_takes (predefined_plain hw).2.2.1]
  · intro k hk
    rw [Assembler.operand?, Assembler.number?_of_isSymbol (predefined_plain hw).2.2.2,
      hdefined name k hk]

/-- A label that is called as a register is, but stands in a function. -/
def scopedStack : Program :=
  ⟨[⟨"Main", [⟨1, "function f 0", .function "f" 0⟩, ⟨2, "label SP", .label "SP"⟩,
    ⟨3, "goto SP", .goto "SP"⟩]⟩]⟩

/-- The register keeps its address. -/
theorem scopedStack_keeps_register : ∃ lines found,
    scopedStack.lower ⟨false, false⟩ = .ok lines ∧
      Assembler.labels? 0 (Assembler.significant (lines.map Line.text)) = some found ∧
      Assembler.operand? found [] "SP" = some (0, []) := by
  have ha : Acceptable scopedStack.sites := firstRefusal?_nil_eq_none_iff.1 (by decide)
  have h : scopedStack.lower ⟨false, false⟩ = .ok _ := Program.lower_eq_ok_iff.2 ⟨ha, rfl⟩
  obtain ⟨found, hf, hnames, hregisters⟩ := Program.predefined_captured_iff h
  have hfree : ¬scopedStack.Takes "SP" := by
    rw [← (hnames "SP" 0 (by decide)).1]
    decide
  exact ⟨_, found, h, hf, hregisters .sp [] hfree⟩

/-- A label outside all functions that is called as a register is. -/
def bareStack : Program :=
  ⟨[⟨"Main", [⟨1, "push constant 7", .push .constant 7⟩, ⟨2, "label SP", .label "SP"⟩]⟩]⟩

/-- The code of the push means the register, but the name leads to the code behind the label. -/
theorem bareStack_captures : ∃ lines found,
    bareStack.lower ⟨false, false⟩ = .ok lines ∧
      predefined.lookup "SP" = some 0 ∧ "(SP)" ∈ lines.map Line.text ∧
      Line.register .sp ∈ lines ∧ (Line.register .sp).text = "@SP" ∧
      Assembler.labels? 0 (Assembler.significant (lines.map Line.text)) = some found ∧
      Assembler.operand? found [] "SP" = some (7, []) := by
  have ha : Acceptable bareStack.sites := firstRefusal?_nil_eq_none_iff.1 (by decide)
  have h : bareStack.lower ⟨false, false⟩ = .ok _ := Program.lower_eq_ok_iff.2 ⟨ha, rfl⟩
  exact ⟨_, [("SP", 7)], h, by decide, by decide, by decide, by decide, by decide, by decide⟩

/-- A label whose symbol reads as a static variable has a name that ends in a dot and the index
itself: the mark between a function and a label cannot stand in that end. -/
private theorem Command.name_of_static_definition {c : Command} {body : Option String}
    {unit : String} {i : UInt16} (h : c.definition? body = some (unit ++ "." ++ toString i.toNat)) :
    ∃ front, c.name? = some (front ++ "." ++ toString i.toNat) := by
  cases c with
  | label n =>
    cases body with
    | none =>
      obtain rfl : n = unit ++ "." ++ toString i.toNat := Option.some.inj h
      exact ⟨unit, rfl⟩
    | some f =>
      have hs : f.toList ++ '$' :: n.toList = unit.toList ++ '.' :: (toString i.toNat).toList := by
        have ht := congrArg String.toList (Option.some.inj h)
        simpa [symbolIn] using ht
      rcases List.append_eq_append_iff.1 hs with ⟨t, -, ht⟩ | ⟨t, -, ht⟩
      · cases t with
        | nil => exact absurd (List.cons.inj ht).1 (by decide)
        | cons x t =>
          refine ⟨String.ofList t, congrArg some (String.toList_inj.1 ?_)⟩
          simpa using (List.cons.inj ht).2
      · have hm : '$' ∈ '.' :: (toString i.toNat).toList := by
          rw [ht]
          exact List.mem_append_right t List.mem_cons_self
        rcases List.mem_cons.1 hm with hm | hm
        · exact absurd hm (by decide)
        · have hd := Text.isDecimal_toString i.toNat
          rw [Text.isDecimal_of_mem hm (by decide)] at hd
          cases hd
  | function n count =>
    obtain rfl : n = unit ++ "." ++ toString i.toNat := Option.some.inj h
    exact ⟨unit, rfl⟩
  | _ => cases h

/-- The name of a static variable, which the code of a push or a pop loads, is a label of the output
just if a command of some unit defines that symbol; the command's own name then ends as the static
variable's does. If none does, the assembler takes the name for a variable; otherwise for the
address of that command's code. -/
theorem Program.static_captured_iff (h : p.lower o = .ok lines) :
    ∃ found, Assembler.labels? 0 (Assembler.significant (lines.map Line.text)) = some found ∧
      ∀ s ∈ p.sites, ∀ i, s.command = .push .static i ∨ s.command = .pop .static i →
        ∀ name, name = s.unit ++ "." ++ toString i.toNat →
          "@" ++ name ∈ lines.map Line.text ∧
          ("(" ++ name ++ ")" ∈ lines.map Line.text ↔
            ∃ d ∈ p.sites, d.definition? = some name) ∧
          (∀ d ∈ p.sites, d.definition? = some name →
            ∃ front, d.command.name? = some (front ++ "." ++ toString i.toNat)) ∧
          ∀ known,
            ((∀ d ∈ p.sites, d.definition? ≠ some name) → Assembler.operand? found known name =
              some (.ofNat 16 (variableBase + (Assembler.allocate known name).idxOf name),
                Assembler.allocate known name)) ∧
            ∀ k, DefinedAt p.sites name k → Assembler.operand? found known name =
              some (.ofNat 16 (o.codeAddress p.sites k), known) := by
  obtain ⟨found, hf, hdefined, hother⟩ := Program.found_labels h
  refine ⟨found, hf, fun s hs i hc name hn => ?_⟩
  have ht : (Symbol.static s.unit i).text = name := hn.symm
  -- The dot keeps the name from being a generated label, and from being read as a number.
  have hg : ∀ kind n, (Label.generated kind n).text ≠ name :=
    fun kind n he => text_generated_ne_static kind n s.unit i (he.trans hn)
  have hnumber : Assembler.number? name = none :=
    Assembler.number?_of_dot (ht ▸ dot_mem_static s.unit i)
  have hmem : name ∈ definitions p.sites ↔ ∃ d ∈ p.sites, d.definition? = some name :=
    List.mem_filterMap
  refine ⟨?_, ?_, ?_, fun known => ⟨fun hd => ?_, fun k hk => ?_⟩⟩
  · obtain ⟨ha, rfl⟩ := Program.acceptable_of_lower h
    have hv : s.static? = some name := by
      rw [Site.static?, ← ht]
      rcases hc with hc | hc <;> rw [hc]
    obtain ⟨unit, j, hl, he⟩ := o.exists_static ha hs hv
    rw [← he]
    exact List.mem_map_of_mem hl
  · rw [Program.definition_mem_text h hg, hmem]
  · intro d _ hd
    rw [hn] at hd
    exact Command.name_of_static_definition hd
  · have hnone : name ∉ definitions p.sites := by
      rw [hmem]
      rintro ⟨d, hp, he⟩
      exact hd d hp he
    rw [Assembler.operand?, hnumber, hother name hg hnone, ← ht, lookup_static]
  · rw [Assembler.operand?, hnumber, hdefined name k hk]

end Capture

/-- A function that is called as a static variable of another unit is. -/
def functionZero (unit : String) : Program :=
  ⟨[⟨unit, [⟨1, "push static 0", .push .static 0⟩]⟩,
    ⟨"Bar", [⟨1, "function Foo.0 0", .function "Foo.0" 0⟩]⟩]⟩

/-- The static variable of a unit with another name is a variable. -/
theorem functionZero_keeps_variable : ∃ lines found,
    (functionZero "Main").lower ⟨false, false⟩ = .ok lines ∧
      Assembler.labels? 0 (Assembler.significant (lines.map Line.text)) = some found ∧
      Assembler.operand? found [] "Main.0" = some (16, ["Main.0"]) := by
  have ha : Acceptable (functionZero "Main").sites := firstRefusal?_nil_eq_none_iff.1 (by decide)
  have h : (functionZero "Main").lower ⟨false, false⟩ = .ok _ :=
    Program.lower_eq_ok_iff.2 ⟨ha, rfl⟩
  obtain ⟨found, hf, hstatic⟩ := Program.static_captured_iff h
  obtain ⟨-, -, -, hknown⟩ := hstatic _ List.mem_cons_self 0 (.inl rfl) "Main.0" (by decide)
  exact ⟨_, found, h, hf, (hknown []).1 (by decide)⟩

/-- The static variable of `Foo` is taken for the function. -/
theorem functionZero_captures : ∃ lines found,
    (functionZero "Foo").lower ⟨false, false⟩ = .ok lines ∧
      "@Foo.0" ∈ lines.map Line.text ∧ "(Foo.0)" ∈ lines.map Line.text ∧
      Assembler.labels? 0 (Assembler.significant (lines.map Line.text)) = some found ∧
      Assembler.operand? found [] "Foo.0" = some (7, []) := by
  have ha : Acceptable (functionZero "Foo").sites := firstRefusal?_nil_eq_none_iff.1 (by decide)
  have h : (functionZero "Foo").lower ⟨false, false⟩ = .ok _ := Program.lower_eq_ok_iff.2 ⟨ha, rfl⟩
  exact ⟨_, [("Foo.0", 7)], h, by decide, by decide, by decide, by decide⟩

end StackLowering
