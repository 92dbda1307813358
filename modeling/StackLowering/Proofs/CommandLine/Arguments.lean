import StackLowering.CommandLine.Options
import StackLowering.Result
/-! What arguments come to. Words of their own switch options, and an argument that is no option is
the input unless it starts with a dash. -/
namespace StackLowering.CommandLine
open Disk

section
variable {f f' : Flags} {input : Option Path} {a : String} {rest arguments : List String}

/-- The option that takes a filename is not switched by its word. -/
private theorem Flags.ne_of_switch? (h : f.switch? a = some f') : ¬(a = "-o" ∨ a = "--output") := by
  rintro (rfl | rfl) <;> cases h

private theorem Flags.output_of_switch? (h : f.switch? a = some f') : f'.output = f.output := by
  unfold switch? at h
  split at h <;> cases h <;> rfl

/-- All words that switch options start with a dash, and none has an extension. -/
private theorem Flags.word_of_switch? (h : f.switch? a = some f') :
    a.toList.head? = some '-' ∧ (⟨a⟩ : Path).extension? = none := by
  unfold switch? at h
  split at h
  all_goals first | exact ⟨by decide, by decide⟩ | cases h

private theorem readArguments_switch (h : f.switch? a = some f') :
    readArguments f input (a :: rest) = readArguments f' input rest := by
  rw [readArguments.eq_def]
  dsimp only
  rw [if_neg (Flags.ne_of_switch? h), h]

private theorem readArguments_input (h : f.switch? a = none) (hd : a.toList.head? ≠ some '-') :
    readArguments f none (a :: rest) = readArguments f (some ⟨a⟩) rest := by
  have ho : ¬(a = "-o" ∨ a = "--output") := by
    rintro (rfl | rfl) <;> exact hd rfl
  rw [readArguments.eq_def]
  dsimp only
  rw [if_neg ho, h]
  simp [hd]

/-- What an argument that is no output option leaves to be read. -/
private theorem readArguments_cons {r : Flags × Option Path} (ho : a ≠ "-o") (ho' : a ≠ "--output")
    (h : readArguments f input (a :: rest) = .ok r) :
    (∃ f', f.switch? a = some f' ∧ readArguments f' input rest = .ok r) ∨
      a.toList.head? ≠ some '-' ∧ readArguments f (some ⟨a⟩) rest = .ok r := by
  rw [readArguments.eq_def] at h
  dsimp only at h
  rw [if_neg (not_or.2 ⟨ho, ho'⟩)] at h
  split at h
  · next f' hf => exact .inl ⟨f', hf, h⟩
  · split at h
    · cases h
    · next hd =>
      split at h
      · cases h
      · exact .inr ⟨hd, h⟩

/-- Arguments without the option for it name no output. -/
private theorem output_of_readArguments {r : Flags × Option Path} (hf : f.output = none)
    (ho : "-o" ∉ arguments) (ho' : "--output" ∉ arguments)
    (h : readArguments f input arguments = .ok r) : r.1.output = none := by
  induction arguments generalizing f input with
  | nil =>
    rw [readArguments] at h
    cases h
    exact hf
  | cons a rest ih =>
    rw [List.mem_cons, not_or] at ho ho'
    rcases readArguments_cons (Ne.symm ho.1) (Ne.symm ho'.1) h with ⟨f', hs, h⟩ | ⟨-, h⟩
    · exact ih ((Flags.output_of_switch? hs).trans hf) ho.2 ho'.2 h
    · exact ih hf ho.2 ho'.2 h

/-- The words that say how a program is lowered, checked and shown. -/
def loweringWords : List String :=
  ["--bootstrap", "--no-bootstrap", "--annotate", "--check", "--listing"]

/-- Such words leave all else as it is, whatever the input. -/
private theorem readArguments_loweringWords {words : List String}
    (h : ∀ a ∈ words, a ∈ loweringWords) (f : Flags) :
    ∃ f' : Flags, f'.output = f.output ∧ f'.tokens = f.tokens ∧
      f'.emitBinary = f.emitBinary ∧
      ∀ input rest, readArguments f input (words ++ rest) = readArguments f' input rest := by
  induction words generalizing f with
  | nil => exact ⟨f, rfl, rfl, rfl, fun _ _ => rfl⟩
  | cons a words ih =>
    rw [List.forall_mem_cons] at h
    have hswitch : ∃ f₁, f.switch? a = some f₁ ∧ f₁.output = f.output ∧ f₁.tokens = f.tokens ∧
        f₁.emitBinary = f.emitBinary := by
      have ha := h.1
      simp only [loweringWords, List.mem_cons, List.not_mem_nil, or_false] at ha
      rcases ha with rfl | rfl | rfl | rfl | rfl <;> exact ⟨_, rfl, rfl, rfl, rfl⟩
    obtain ⟨f₁, hs, ho, ht, he⟩ := hswitch
    obtain ⟨f', ho', ht', he', hr⟩ := ih h.2 f₁
    refine ⟨f', ho'.trans ho, ht'.trans ht, he'.trans he, fun input rest => ?_⟩
    rw [List.cons_append, readArguments_switch hs, hr]

theorem asksForHelp_eq_false (h : ∀ a ∈ arguments, a ≠ "-h" ∧ a ≠ "--help") :
    asksForHelp arguments = false := by
  rw [asksForHelp, List.any_eq_false]
  exact fun a ha => by simpa using h a ha

private theorem Options.ofArguments_eq_ok_iff {o : Options} : ofArguments arguments = .ok o ↔
    readArguments .default none arguments = .ok (o.flags, some o.input) ∧
      (o.flags.tokens = true → o.input.extension? = some sourceExtension) := by
  rw [ofArguments, bind_eq_ok_iff]
  constructor
  · rintro ⟨⟨flags, _ | input⟩, hr, h⟩
    · cases h
    · dsimp only at h
      split at h
      · cases h
      · next hx =>
        cases h
        exact ⟨hr, by simpa using hx⟩
  · obtain ⟨input, flags⟩ := o
    rintro ⟨hr, hx⟩
    refine ⟨_, hr, ?_⟩
    dsimp only
    rw [if_neg]
    · rfl
    · simpa using hx

/-- An input that is read from arguments starts with no dash. -/
theorem head?_of_options {o : Options} (ha : (⟨a⟩ : Path).extension? ≠ none)
    (h : Options.ofArguments (a :: rest) = .ok o) : a.toList.head? ≠ some '-' := by
  have ho : a ≠ "-o" ∧ a ≠ "--output" := by
    constructor <;> rintro rfl <;> exact ha (by decide)
  rcases readArguments_cons ho.1 ho.2 (Options.ofArguments_eq_ok_iff.1 h).1 with ⟨f', hs, -⟩ | h
  · exact absurd (Flags.word_of_switch? hs).2 ha
  · exact h.1

/-- An input and such words, with or without the word for the binary form. -/
theorem exists_flags {words : List String} (h : ∀ a ∈ words, a ∈ loweringWords) :
    ∃ f : Flags, f.output = none ∧ f.tokens = false ∧ f.emitBinary = false ∧
      ∀ a, a.toList.head? ≠ some '-' →
        Options.ofArguments (a :: words) = .ok ⟨⟨a⟩, f⟩ ∧
        Options.ofArguments (a :: words ++ ["--emit-bin"]) =
          .ok ⟨⟨a⟩, { f with emitBinary := true }⟩ := by
  obtain ⟨f, ho, ht, he, hr⟩ := readArguments_loweringWords h .default
  refine ⟨f, ho, ht, he, fun a ha => ?_⟩
  have hs : Flags.default.switch? a = none := by
    cases hs : Flags.default.switch? a with
    | none => rfl
    | some f' => exact absurd (Flags.word_of_switch? hs).1 ha
  have htokens : ¬f.tokens = true := by simp [ht, Flags.default]
  constructor <;> refine Options.ofArguments_eq_ok_iff.2 ⟨?_, fun h => absurd h htokens⟩
  · rw [readArguments_input hs ha]
    exact (congrArg _ (List.append_nil words).symm).trans (hr _ [])
  · rw [List.cons_append, readArguments_input hs ha, hr]
    rfl

theorem output_of_options {o : Options} (h : Options.ofArguments arguments = .ok o)
    (ho : "-o" ∉ arguments) (ho' : "--output" ∉ arguments) : o.flags.output = none :=
  output_of_readArguments rfl ho ho' (Options.ofArguments_eq_ok_iff.1 h).1

end
end StackLowering.CommandLine
