import StackLowering.Proofs.Machine.Layout
/-! What the lines of an accepted program define and name. Its labels are the symbols of its
commands and generated ones; its labels as addresses, its static variables and its numbers come from
the commands too, each from its own. -/
namespace StackLowering
open Assembly Machine

section References
variable {o : LoweringOptions} {sites : List Site}

private theorem mem_labels_of_placed {lines block : List Line} {n : Nat}
    (h : Placed lines n block) {l : Label} (hl : l ∈ labels block) : l ∈ labels lines := by
  obtain ⟨front, back, rfl, -⟩ := h
  rw [labels_append, labels_append]
  exact List.mem_append_left _ (List.mem_append_right _ hl)

/-- What a program defines is a label of its lines. -/
theorem LoweringOptions.mem_labels_of_mem_definitions {name : String}
    (h : name ∈ definitions sites) : .named name ∈ labels (o.lines sites) := by
  obtain ⟨k, hk⟩ := definedAt_of_mem h
  obtain ⟨block, hp⟩ := hk.placed (o := o)
  exact mem_labels_of_placed hp (mem_labels_iff.2 List.mem_cons_self)

/-- The labels of a program are those that its commands define, and generated ones. -/
theorem LoweringOptions.text_mem_labels_iff {name : String}
    (hg : ∀ kind n, (Label.generated kind n).text ≠ name) :
    name ∈ (labels (o.lines sites)).map Label.text ↔ name ∈ definitions sites := by
  refine ⟨fun h => ?_, fun h => List.mem_map_of_mem (o.mem_labels_of_mem_definitions h)⟩
  obtain ⟨l, hl, he⟩ := List.mem_map.1 h
  cases l with
  | named n =>
    rw [← show n = name from he]
    exact mem_definitions_of_mem_labels hl
  | generated kind n => exact absurd he (hg kind n)

/-- The registers have their addresses from the start. -/
theorem lookup_register (r : Register) : predefined.lookup r.text = some (address r) := by
  cases r <;> decide

/-- What the predefined names have in common: they have no mark that would make them a static
variable or the symbol of a label in a function, and no generated label takes them. -/
theorem predefined_plain {name : String} {w : Word} (h : predefined.lookup name = some w) :
    isReserved name = false ∧ '.' ∉ name.toList ∧ '$' ∉ name.toList ∧ isSymbol name = true := by
  have hall : ∀ pair ∈ predefined, isReserved pair.1 = false ∧ '.' ∉ pair.1.toList ∧
      '$' ∉ pair.1.toList ∧ isSymbol pair.1 = true := by decide
  obtain ⟨front, back, hp, -⟩ := List.lookup_eq_some_iff.1 h
  exact hall (name, w) (by rw [hp]; simp)

theorem text_generated_ne_predefined {name : String} {w : Word}
    (h : predefined.lookup name = some w) (kind : LabelKind) (n : Nat) :
    (Label.generated kind n).text ≠ name :=
  Label.text_generated_ne (predefined_plain h).1 kind n

/-- No address from the start has a dot in its name. -/
theorem lookup_static (unit : String) (i : UInt16) :
    predefined.lookup (Symbol.static unit i).text = none := by
  cases h : predefined.lookup (Symbol.static unit i).text with
  | none => rfl
  | some w => exact absurd (dot_mem_static unit i) (predefined_plain h).2.1

def Assembly.Line.static? : Line → Option String
  | address (.static unit index) => some (Symbol.static unit index).text
  | _ => none

/-- A block names the static variable of its command and no other. -/
private theorem filterMap_static?_block (ha : Acceptable sites) {s : Site}
    (hs : s ∈ sites) (number : Nat) :
    (s.command.block s.unit s.body number).filterMap Line.static? = s.static?.toList := by
  rw [Site.static?]
  cases hc : s.command with
  | push g i =>
    rw [Command.block_push (ha.inRange s hs g i (.inl hc)), List.filterMap_append]
    cases g <;> rfl
  | pop g i =>
    have hi := ha.inRange s hs g i (.inr hc)
    cases g with
    | constant => exact absurd hc (ha.storable s hs i)
    | _ =>
      rw [Command.block_pop hi rfl]
      rfl
  | operate op => cases op <;> rfl
  | function name count => exact filterMap_pushZeros rfl count.toNat
  | _ => rfl

/-- All lines together name the static variables of all commands, in order. -/
theorem filterMap_static?_lines (ha : Acceptable sites) :
    (o.lines sites).filterMap Line.static? = sites.filterMap Site.static? := by
  have commands : ∀ l : List Site, (∀ s ∈ l, s ∈ sites) → ∀ n,
      (output o.annotate n l).filterMap Line.static? = l.filterMap Site.static? := by
    intro l
    induction l with
    | nil => intro _ n; rfl
    | cons s l ih =>
      intro hs n
      have hb := filterMap_static?_block ha (hs s List.mem_cons_self) n
      have hr : (if o.annotate then [Line.comment s.located.text] else []).filterMap
          Line.static? = [] := by cases o.annotate <;> rfl
      rw [output, Site.code, List.filterMap_append, List.filterMap_append, hr, hb,
        ih fun t ht => hs t (List.mem_cons_of_mem s ht), List.nil_append, List.filterMap_cons]
      cases s.static? <;> rfl
  have hp : o.preamble.filterMap Line.static? = [] := by
    rw [LoweringOptions.preamble]
    cases o.bootstrap <;> cases o.annotate <;> rfl
  rw [LoweringOptions.lines, List.filterMap_append, hp, commands sites (fun _ h => h)]
  rfl

/-- The static variable of a command is what some line names. -/
theorem LoweringOptions.exists_static (ha : Acceptable sites) {s : Site} (hs : s ∈ sites)
    {name : String} (hv : s.static? = some name) :
    ∃ unit i, Line.address (.static unit i) ∈ o.lines sites ∧
      (Symbol.static unit i).text = name := by
  have hn : name ∈ (o.lines sites).filterMap Line.static? := by
    rw [filterMap_static?_lines ha]
    exact List.mem_filterMap.2 ⟨s, hs, hv⟩
  obtain ⟨line, hl, he⟩ := List.mem_filterMap.1 hn
  cases line with
  | address a =>
    cases a with
    | static unit i => exact ⟨unit, i, hl, Option.some.inj he⟩
    | _ => cases he
  | _ => cases he

def Assembly.Line.target? : Line → Option Label
  | pointer l => some l
  | _ => none

/-- A block names its own generated labels and the symbol that its command may jump to. -/
theorem filterMap_target?_block (unit : String) (body : Option String) (number : Nat)
    (c : Command) :
    (c.block unit body number).filterMap Line.target? =
      c.labelKinds.map (.generated · number) ++ (c.target? body).toList.map .named := by
  cases c with
  | push g i =>
    rw [Command.block, Block.push, Segment.checkIndex]
    split
    · cases g <;> rfl
    · rfl
  | pop g i =>
    rw [Command.block, Block.pop, Segment.checkIndex]
    split
    · cases g <;> rfl
    · rfl
  | operate op => cases op <;> rfl
  | function name count => exact filterMap_pushZeros rfl count.toNat
  | _ => rfl

/-- A label as an address is a generated one, which the lines define too, or what the entry code or
a command of the program leads to. -/
theorem LoweringOptions.pointer_cases {l : Label} (h : Line.pointer l ∈ o.lines sites) :
    ((∃ kind n, l = .generated kind n) ∧ l ∈ labels (o.lines sites)) ∨
      (o.bootstrap = true ∧ l = .named Block.entryPoint) ∨
      ∃ s ∈ sites, ∃ name, s.target? = some name ∧ l = .named name := by
  rcases mem_lines h with ⟨text, ht⟩ | ⟨ho, hb⟩ | ⟨k, s, hk, hb⟩
  · cases ht
  · have ht : l ∈ (Block.bootstrap 0).filterMap Line.target? := List.mem_filterMap.2 ⟨_, hb, rfl⟩
    have he : (Block.bootstrap 0).filterMap Line.target? =
        [.generated .back 0, .named Block.entryPoint] := rfl
    have hd : labels (Block.bootstrap 0) = [.generated .back 0] := rfl
    rw [he, List.mem_cons, List.mem_singleton] at ht
    rcases ht with rfl | rfl
    · refine .inl ⟨⟨_, _, rfl⟩, mem_labels_of_placed (placed_bootstrap ho).1 ?_⟩
      rw [hd]
      exact List.mem_cons_self
    · exact .inr (.inl ⟨ho, rfl⟩)
  · have ht : l ∈ (o.blockAt sites k s).filterMap Line.target? :=
      List.mem_filterMap.2 ⟨_, hb, rfl⟩
    rw [blockAt, filterMap_target?_block, List.mem_append, List.mem_map, List.mem_map] at ht
    rcases ht with ⟨kind, hi, rfl⟩ | ⟨name, hn, rfl⟩
    · refine .inl ⟨⟨_, _, rfl⟩, mem_labels_of_placed (placed_blockAt hk) ?_⟩
      rw [blockAt, Command.labels_block]
      exact List.mem_append_right _ (List.mem_map_of_mem hi)
    · exact .inr (.inr ⟨s, List.mem_of_getElem? hk, name, Option.mem_toList.1 hn, rfl⟩)

/-- The label of a source that a line names as an address is definable. -/
theorem Acceptable.definable_pointer {p : Program} (ha : Acceptable p.sites) {name : String}
    (h : Line.pointer (.named name) ∈ o.lines p.sites) : Definable name := by
  rcases o.pointer_cases h with ⟨⟨kind, n, he⟩, -⟩ | ⟨-, he⟩ | ⟨s, hs, target, ht, he⟩
  · cases he
  · rw [Label.named.inj he]
    exact ⟨by decide, by decide⟩
  · rw [Label.named.inj he]
    exact ha.definable_target hs ht

def Assembly.Line.literal? : Line → Option UInt16
  | literal n => some n
  | _ => none

private def literals : Command → List UInt16
  | .push g i | .pop g i =>
    match g.addressing with
    | .immediate | .indirect _ => [i]
    | .fixed base => [i, base]
    | .static => []
  | .call _ count => [Block.frameSize, count]
  | .ret => [Block.frameSize]
  | _ => []

private theorem filterMap_literal?_block (ha : Acceptable sites) {s : Site}
    (hs : s ∈ sites) (number : Nat) :
    (s.command.block s.unit s.body number).filterMap Line.literal? = literals s.command := by
  cases hc : s.command with
  | push g i =>
    rw [Command.block_push (ha.inRange s hs g i (.inl hc)), List.filterMap_append]
    cases g <;> rfl
  | pop g i =>
    have hi := ha.inRange s hs g i (.inr hc)
    cases g with
    | constant => exact absurd hc (ha.storable s hs i)
    | _ =>
      rw [Command.block_pop hi rfl]
      rfl
  | operate op => cases op <;> rfl
  | function name count => exact filterMap_pushZeros rfl count.toNat
  | _ => rfl

private theorem maxIndex_le (g : Segment) : g.maxIndex ≤ 0x7FFF := by cases g <;> decide

private theorem le_of_mem_literals {g : Segment} {i n : UInt16} (hi : i ≤ g.maxIndex)
    (h : n ∈ literals (.push g i)) : n ≤ 0x7FFF := by
  have hi' : i ≤ 0x7FFF := UInt16.le_trans hi (maxIndex_le g)
  cases g <;> simp only [literals, Segment.addressing, List.mem_cons, List.not_mem_nil,
    or_false] at h
  all_goals first
    | exact h ▸ hi'
    | (rcases h with rfl | rfl
       · exact hi'
       · decide)

/-- The numbers in the lines are indices, fixed addresses and argument counts. Only the last are
not checked to have 15 bits. -/
theorem LoweringOptions.le_of_literal (ha : Acceptable sites) {n : UInt16}
    (h : Line.literal n ∈ o.lines sites) :
    n ≤ 0x7FFF ∨ ∃ s ∈ sites, ∃ name, s.command = .call name n := by
  rcases mem_lines h with ⟨text, ht⟩ | ⟨-, hb⟩ | ⟨k, s, hk, hb⟩
  · cases ht
  · have hm : n ∈ (Block.bootstrap 0).filterMap Line.literal? :=
      List.mem_filterMap.2 ⟨_, hb, rfl⟩
    have he : (Block.bootstrap 0).filterMap Line.literal? =
        [Block.stackBase, Block.frameSize, 0] := rfl
    rw [he] at hm
    simp only [List.mem_cons, List.not_mem_nil, or_false] at hm
    rcases hm with rfl | rfl | rfl <;> exact .inl (by decide)
  · have hs := List.mem_of_getElem? hk
    have hm : n ∈ (o.blockAt sites k s).filterMap Line.literal? := List.mem_filterMap.2 ⟨_, hb, rfl⟩
    rw [blockAt, filterMap_literal?_block ha hs] at hm
    cases hc : s.command with
    | push g i =>
      rw [hc] at hm
      exact .inl (le_of_mem_literals (ha.inRange s hs g i (.inl hc)) hm)
    | pop g i =>
      rw [hc] at hm
      exact .inl (le_of_mem_literals (ha.inRange s hs g i (.inr hc)) hm)
    | call name count =>
      rw [hc, literals, List.mem_cons, List.mem_singleton] at hm
      rcases hm with rfl | rfl
      · exact .inl (by decide)
      · exact .inr ⟨s, hs, name, hc⟩
    | ret =>
      rw [hc, literals, List.mem_singleton] at hm
      rw [hm]
      exact .inl (by decide)
    | _ =>
      rw [hc] at hm
      cases hm

end References
end StackLowering
