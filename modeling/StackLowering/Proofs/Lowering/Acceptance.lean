import StackLowering.Proofs.Lowering.Site
/-! Which programs are lowered, said of their commands one by one and of the list of all symbols
that they define. The options and the order of the units do not enter. -/
namespace StackLowering

/-- Commands none of which is refused. -/
structure Acceptable (sites : List Site) : Prop where
  inRange : ∀ s ∈ sites, ∀ segment index,
    s.command = .push segment index ∨ s.command = .pop segment index → index ≤ segment.maxIndex
  storable : ∀ s ∈ sites, ∀ index, s.command ≠ .pop .constant index
  symbols : ∀ s ∈ sites, ∀ name, s.command.name? = some name → isSymbol name = true
  functions : ∀ s ∈ sites, ∀ name count,
    s.command = .function name count ∨ s.command = .call name count → isReserved name = false
  /-- Labels outside all functions; inside one, every name will do. -/
  bare : ∀ s ∈ sites, s.body = none → ∀ name,
    s.command = .label name ∨ s.command = .goto name ∨ s.command = .ifGoto name →
      isReserved name = false
  distinct : (definitions sites).Nodup

namespace Command
variable {body : Option String} {c : Command} {segment : Segment} {index count : UInt16}
  {name : String}

private theorem offence?_push :
    (push segment index).offence? body = none ↔ index ≤ segment.maxIndex := by
  simp [offence?]

private theorem offence?_pop : (pop segment index).offence? body = none ↔
    index ≤ segment.maxIndex ∧ segment ≠ .constant := by
  by_cases hi : index ≤ segment.maxIndex <;> simp [offence?, hi]

theorem offence?_label (hc : c = .label name ∨ c = .goto name ∨ c = .ifGoto name) :
    c.offence? body = none ↔
      isSymbol name = true ∧ (body = none → isReserved name = false) := by
  by_cases hn : isSymbol name <;> rcases hc with rfl | rfl | rfl <;> simp [offence?, hn]

private theorem offence?_function (hc : c = .function name count ∨ c = .call name count) :
    c.offence? body = none ↔ isSymbol name = true ∧ isReserved name = false := by
  by_cases hn : isSymbol name <;> rcases hc with rfl | rfl <;> simp [offence?, hn]

end Command

/-- The conditions on single commands say that each is free of offences. -/
theorem acceptable_iff {sites : List Site} :
    Acceptable sites ↔
      (∀ s ∈ sites, s.command.offence? s.body = none) ∧ (definitions sites).Nodup := by
  constructor
  · intro h
    refine ⟨fun s hs => ?_, h.distinct⟩
    have range := h.inRange s hs
    have symbol : ∀ name, s.command.name? = some name → isSymbol name = true := h.symbols s hs
    have functions := h.functions s hs
    have bare := h.bare s hs
    cases hc : s.command with
    | push segment index => exact Command.offence?_push.2 (range segment index (.inl hc))
    | pop segment index =>
      refine Command.offence?_pop.2 ⟨range segment index (.inr hc), ?_⟩
      rintro rfl
      exact h.storable s hs index hc
    | operate op => rfl
    | ret => rfl
    | label name =>
      exact (Command.offence?_label (.inl rfl)).2
        ⟨symbol name (by rw [hc]; rfl), fun hb => bare hb name (.inl hc)⟩
    | goto name =>
      exact (Command.offence?_label (.inr (.inl rfl))).2
        ⟨symbol name (by rw [hc]; rfl), fun hb => bare hb name (.inr (.inl hc))⟩
    | ifGoto name =>
      exact (Command.offence?_label (.inr (.inr rfl))).2
        ⟨symbol name (by rw [hc]; rfl), fun hb => bare hb name (.inr (.inr hc))⟩
    | function name count =>
      exact (Command.offence?_function (.inl rfl)).2
        ⟨symbol name (by rw [hc]; rfl), functions name count (.inl hc)⟩
    | call name count =>
      exact (Command.offence?_function (.inr rfl)).2
        ⟨symbol name (by rw [hc]; rfl), functions name count (.inr hc)⟩
  · rintro ⟨ho, hd⟩
    refine ⟨?_, ?_, ?_, ?_, ?_, hd⟩
    · rintro s hs segment index (hc | hc)
      · exact Command.offence?_push.1 (hc ▸ ho s hs)
      · exact (Command.offence?_pop.1 (hc ▸ ho s hs)).1
    · intro s hs index hc
      exact (Command.offence?_pop.1 (hc ▸ ho s hs)).2 rfl
    · -- Commands without a name have no symbol to ask for.
      intro s hs name hn
      have h := ho s hs
      cases hc : s.command with
      | label n | goto n | ifGoto n =>
        rw [hc] at hn h
        obtain rfl : n = name := Option.some.inj hn
        exact ((Command.offence?_label (by simp)).1 h).1
      | function n k =>
        rw [hc] at hn h
        obtain rfl : n = name := Option.some.inj hn
        exact ((Command.offence?_function (.inl rfl)).1 h).1
      | call n k =>
        rw [hc] at hn h
        obtain rfl : n = name := Option.some.inj hn
        exact ((Command.offence?_function (.inr rfl)).1 h).1
      | _ =>
        rw [hc] at hn
        cases hn
    · intro s hs name count hc
      exact ((Command.offence?_function hc).1 (ho s hs)).2
    · intro s hs hb name hc
      exact ((Command.offence?_label hc).1 (ho s hs)).2 hb

theorem Acceptable.left {first second : List Site} (h : Acceptable (first ++ second)) :
    Acceptable first := by
  rw [acceptable_iff, definitions_append] at h
  rw [acceptable_iff]
  exact ⟨fun s hs => h.1 s (List.mem_append_left second hs), (List.nodup_append.1 h.2).1⟩

theorem Acceptable.stored {sites : List Site} (h : Acceptable sites) {s : Site} (hs : s ∈ sites)
    {g : Segment} {i : UInt16} (hc : s.command = .pop g i) : g ≠ .constant := fun hg =>
  h.storable s hs i (hg ▸ hc)

/-- The functions of accepted commands have definable names. -/
private theorem Acceptable.definable_entered {sites : List Site} (h : Acceptable sites) {s : Site}
    (hs : s ∈ sites) {f : String} (hf : s.command.entered? = some f) : Definable f := by
  cases hc : s.command with
  | function n k =>
    rw [hc] at hf
    obtain rfl : n = f := Option.some.inj hf
    exact ⟨h.symbols s hs n (by rw [hc]; rfl), h.functions s hs n k (.inl hc)⟩
  | _ =>
    rw [hc] at hf
    cases hf

/-- What an accepted program jumps to or calls is definable, and so is no generated label. -/
theorem Acceptable.definable_target {p : Program} (h : Acceptable p.sites) {s : Site}
    (hs : s ∈ p.sites) {name : String} (ht : s.target? = some name) : Definable name := by
  have hb : ∀ f ∈ s.body, Definable f := by
    intro f hf
    obtain ⟨r, hr, he⟩ := p.exists_entered hs hf
    exact h.definable_entered hr he
  exact Command.definable_of_target? hb ((acceptable_iff.1 h).1 s hs) ht

/-- No command is refused when each is free of offences and nothing is defined twice. -/
private theorem firstRefusal?_eq_none_iff {earlier sites : List Site} :
    firstRefusal? earlier sites = none ↔
      (∀ s ∈ sites, s.command.offence? s.body = none) ∧ (definitions sites).Nodup ∧
        ∀ symbol ∈ definitions sites, symbol ∉ definitions earlier := by
  induction sites generalizing earlier with
  | nil => simp [firstRefusal?, definitions]
  | cons s sites ih =>
    have hs : s.refusal? earlier = none ↔ s.command.offence? s.body = none ∧
        ∀ symbol, s.definition? = some symbol → symbol ∉ definitions earlier := by
      rw [Site.refusal?, Command.refusal?, Option.or_eq_none_iff]
      refine and_congr_right fun _ => ?_
      change (s.definition?.bind _) = none ↔ _
      cases s.definition? <;> simp
    have hd : definitions (s :: sites) = s.definition?.toList ++ definitions sites := by
      rw [definitions, List.filterMap_cons]
      cases s.definition? <;> rfl
    rw [firstRefusal?, hd]
    cases hr : s.refusal? earlier with
    | some refusal =>
      have hn : ¬s.refusal? earlier = none := by simp [hr]
      rw [hs] at hn
      constructor
      · intro h
        cases h
      · rintro ⟨ho, -, hf⟩
        exact absurd ⟨ho s (by simp), fun symbol hd => hf symbol (by simp [hd])⟩ hn
    | none =>
      obtain ⟨ho, hf⟩ := hs.1 hr
      dsimp only
      rw [ih, definitions_append, definitions_singleton]
      cases hn : s.definition? with
      | none => simp [ho]
      | some symbol =>
        have hs := hf symbol hn
        simp only [Option.toList_some, List.cons_append, List.nil_append, List.nodup_cons,
          List.forall_mem_cons, List.mem_append, List.mem_singleton]
        grind

/-- The first refused command has accepted ones in front of it. -/
private theorem firstRefusal?_eq_some_iff {earlier sites : List Site} {s : Site}
    {refusal : Refusal} : firstRefusal? earlier sites = some (s, refusal) ↔
      ∃ front back, sites = front ++ s :: back ∧ firstRefusal? earlier front = none ∧
        s.refusal? (earlier ++ front) = some refusal := by
  induction sites generalizing earlier with
  | nil => simp [firstRefusal?]
  | cons r sites ih =>
    rw [firstRefusal?]
    cases hr : r.refusal? earlier with
    | some found =>
      constructor
      · intro h
        obtain ⟨rfl, rfl⟩ := Prod.mk.inj (Option.some.inj h)
        exact ⟨[], sites, rfl, rfl, by simpa using hr⟩
      · rintro ⟨front, back, hs, hn, hf⟩
        cases front with
        | nil =>
          obtain ⟨rfl, rfl⟩ := List.cons.inj hs
          rw [List.append_nil, hr] at hf
          rw [Option.some.inj hf]
        | cons r' front =>
          obtain ⟨rfl, -⟩ := List.cons.inj hs
          rw [firstRefusal?, hr] at hn
          cases hn
    | none =>
      dsimp only
      rw [ih]
      constructor
      · rintro ⟨front, back, rfl, hn, hf⟩
        refine ⟨r :: front, back, rfl, ?_, ?_⟩
        · rw [firstRefusal?, hr]
          exact hn
        · rwa [← List.singleton_append, ← List.append_assoc]
      · rintro ⟨front, back, hs, hn, hf⟩
        cases front with
        | nil =>
          obtain ⟨rfl, rfl⟩ := List.cons.inj hs
          rw [List.append_nil, hr] at hf
          cases hf
        | cons r' front =>
          obtain ⟨rfl, rfl⟩ := List.cons.inj hs
          rw [firstRefusal?, hr] at hn
          exact ⟨front, back, rfl, hn, by rwa [List.append_assoc, List.singleton_append]⟩

theorem firstRefusal?_nil_eq_none_iff {sites : List Site} :
    firstRefusal? [] sites = none ↔ Acceptable sites := by
  rw [firstRefusal?_eq_none_iff, acceptable_iff]
  simp [definitions]

namespace Program

theorem lower_eq_ok_iff {p : Program} {o : LoweringOptions} {lines : List Assembly.Line} :
    p.lower o = .ok lines ↔
      Acceptable p.sites ∧ lines = o.preamble ++ output o.annotate o.firstNumber p.sites := by
  rw [← firstRefusal?_nil_eq_none_iff]
  cases h : firstRefusal? [] p.sites with
  | none => simp [lower_of_accepted h, eq_comm]
  | some pair => simp [lower_of_refused h]

private theorem lower_eq_error_iff {p : Program} {o : LoweringOptions} {rejection : Rejection} :
    p.lower o = .error rejection ↔
      ∃ front s back refusal, p.sites = front ++ s :: back ∧ Acceptable front ∧
        s.refusal? front = some refusal ∧ rejection = s.reject refusal := by
  have found : ∀ s refusal, firstRefusal? [] p.sites = some (s, refusal) ↔
      ∃ front back, p.sites = front ++ s :: back ∧ Acceptable front ∧
        s.refusal? front = some refusal := by
    intro s refusal
    simp only [firstRefusal?_eq_some_iff, firstRefusal?_nil_eq_none_iff, List.nil_append]
  cases h : firstRefusal? [] p.sites with
  | none =>
    rw [lower_of_accepted h]
    refine ⟨fun hr => (by cases hr), ?_⟩
    rintro ⟨front, s, back, refusal, hs, ha, hr, -⟩
    rw [(found s refusal).2 ⟨front, back, hs, ha, hr⟩] at h
    cases h
  | some pair =>
    obtain ⟨s, refusal⟩ := pair
    rw [lower_of_refused h]
    constructor
    · intro hr
      obtain ⟨front, back, hs, ha, hf⟩ := (found s refusal).1 h
      exact ⟨front, s, back, refusal, hs, ha, hf, (Except.error.inj hr).symm⟩
    · rintro ⟨front, s', back, refusal', hs, ha, hr, rfl⟩
      rw [(found s' refusal').2 ⟨front, back, hs, ha, hr⟩] at h
      obtain ⟨rfl, rfl⟩ := Prod.mk.inj (Option.some.inj h)
      rfl

/-- Acceptance is a matter of the commands alone, in any order of the units. Otherwise the first
refused command in the order of the units is rejected. -/
theorem accepted_iff_acceptable (p : Program) (o : LoweringOptions) :
    ((∃ lines, p.lower o = .ok lines) ↔ Acceptable p.sites) ∧
      (∀ rejection, p.lower o = .error rejection ↔
        ∃ front s back refusal, p.sites = front ++ s :: back ∧ Acceptable front ∧
          s.refusal? front = some refusal ∧ rejection = s.reject refusal) ∧
      ∀ q : Program, p.units.Perm q.units → ∀ o' : LoweringOptions,
        ((∃ lines, p.lower o = .ok lines) ↔ ∃ lines, q.lower o' = .ok lines) := by
  have accepted : ∀ (q : Program) (o' : LoweringOptions),
      (∃ lines, q.lower o' = .ok lines) ↔ Acceptable q.sites := by
    intro q o'
    simp only [lower_eq_ok_iff, exists_and_left, exists_eq, and_true]
  refine ⟨accepted p o, fun rejection => lower_eq_error_iff, fun q hq o' => ?_⟩
  have hs : p.sites.Perm q.sites := hq.flatMap_right _
  rw [accepted, accepted, acceptable_iff, acceptable_iff]
  refine and_congr (forall_congr' fun s => imp_congr_left hs.mem_iff) ?_
  exact (hs.filterMap _).nodup_iff

end Program
end StackLowering
