import StackLowering.Lowering.Basic
import StackLowering.Proofs.Assembly.Text
import StackLowering.Proofs.Lowering.Command
/-! The labels of one lowering, whatever it is asked to do and however often it refuses. They keep
apart because user symbols are recorded and never reserved, and numbers are not given back. -/
namespace StackLowering
open Assembly

/-- The locals of a function add nothing that is not in the code of one. -/
theorem filterMap_pushZeros {α : Type} {f : Line → Option α}
    (hf : Block.pushZero.filterMap f = []) (n : Nat) :
    (List.replicate n Block.pushZero).flatten.filterMap f = [] := by
  induction n with
  | zero => rfl
  | succ n ih => rw [List.replicate_succ, List.flatten_cons, List.filterMap_append, hf, ih]; rfl

namespace Command

/-- The labels of a block are those that the command is said to define. -/
theorem labels_block (unit : String) (body : Option String) (number : Nat) (c : Command) :
    labels (c.block unit body number) =
      ((c.definition? body).toList.map .named) ++ c.labelKinds.map (.generated · number) := by
  cases c with
  | push s i =>
    rw [block, Block.push, Segment.checkIndex]
    split
    · cases s <;> rfl
    · rfl
  | pop s i =>
    rw [block, Block.pop, Segment.checkIndex]
    split
    · cases s <;> rfl
    · rfl
  | operate op => cases op <;> rfl
  | function n k =>
    have h : labels _ = [] := filterMap_pushZeros rfl k.toNat
    rw [block, Block.function, ← List.singleton_append, labels_append, h]
    rfl
  | _ => rfl

private theorem nodup_labelKinds (c : Command) : c.labelKinds.Nodup := by
  cases c with
  | operate op => cases op <;> decide
  | _ => simp [labelKinds]

end Command

namespace Lowering

structure Coherent (t : Lowering) : Prop where
  sound : t.scope.Sound
  defined_iff : ∀ name, name ∈ t.scope.defined ↔ .named name ∈ labels t.lines.toList
  definable : ∀ name ∈ t.scope.defined, Definable name
  issued : ∀ kind n, .generated kind n ∈ labels t.lines.toList → n < t.scope.issued
  nodup : (labels t.lines.toList).Nodup

theorem coherent_initial : initial.Coherent where
  sound f hf := by cases hf
  defined_iff name := by simp [initial, Scope.initial, labels]
  definable name h := by simp [initial, Scope.initial] at h
  issued kind n h := by cases h
  nodup := List.nodup_nil

private theorem labels_remark (t : Lowering) (text : String) : labels (t.remark text) = [] := by
  rw [remark]
  split <;> rfl

namespace Coherent
variable {t : Lowering} {c : Command} {front : List Line}

private theorem labels_extend (hf : labels front = []) :
    labels (t.extend (t.scope.behind c)
        (front ++ c.block t.scope.unit t.scope.function t.scope.issued)).lines.toList =
      labels t.lines.toList ++ (((c.definition? t.scope.function).toList.map .named) ++
        c.labelKinds.map (.generated · t.scope.issued)) := by
  rw [toList_lines_extend, labels_append, labels_append, hf, List.nil_append, c.labels_block]

private theorem le_issued_behind (s : Scope) : s.issued ≤ (s.behind c).issued := by
  rw [Scope.behind]
  dsimp only
  split <;> omega

/-- An accepted command keeps the invariant, and so does a comment in front of its block. -/
private theorem extend (h : t.Coherent)
    (hr : c.refusal? t.scope.function t.scope.defined.contains = none)
    (hf : labels front = []) :
    (t.extend (t.scope.behind c)
      (front ++ c.block t.scope.unit t.scope.function t.scope.issued)).Coherent := by
  rw [Command.refusal?, Option.or_eq_none_iff] at hr
  obtain ⟨ho, hd⟩ := hr
  have fresh : ∀ name, c.definition? t.scope.function = some name → name ∉ t.scope.defined := by
    intro name hn
    simpa [hn] using hd
  have new : ∀ name, c.definition? t.scope.function = some name → Definable name :=
    fun name hn => Command.definable_of_definition? h.sound ho hn
  refine ⟨?_, ?_, ?_, ?_, ?_⟩
  · exact h.sound.behind ho
  · intro name
    rw [labels_extend hf]
    simp [Lowering.extend, Scope.mem_behind_defined, h.defined_iff, or_comm]
  · intro name hn
    rcases Scope.mem_behind_defined.1 hn with hn | hn
    · exact new name hn
    · exact h.definable name hn
  · intro kind n hn
    rw [labels_extend hf] at hn
    simp only [List.mem_append, List.mem_map, reduceCtorEq, and_false, exists_false, false_or,
      Label.generated.injEq] at hn
    rcases hn with hn | ⟨k, hk, -, rfl⟩
    · exact Nat.lt_of_lt_of_le (h.issued kind n hn) (le_issued_behind _)
    · have : c.labelKinds ≠ [] := List.ne_nil_of_mem hk
      simp [Lowering.extend, Scope.behind, this]
  · rw [labels_extend hf]
    -- User labels were not defined before; generated ones have a number that none had.
    refine List.nodup_append.2 ⟨h.nodup, List.nodup_append.2 ⟨?_, ?_, ?_⟩, ?_⟩
    · cases c.definition? t.scope.function <;> simp
    · exact List.Pairwise.map _ (fun a b hab he => hab (by simpa using he)) c.nodup_labelKinds
    · intro a ha b hb
      obtain ⟨_, _, rfl⟩ := List.mem_map.1 ha
      obtain ⟨_, _, rfl⟩ := List.mem_map.1 hb
      simp
    · intro a ha b hb
      rcases List.mem_append.1 hb with hb | hb
      · obtain ⟨name, hn, rfl⟩ := List.mem_map.1 hb
        rintro rfl
        exact fresh name (by simpa using hn) ((h.defined_iff name).2 ha)
      · obtain ⟨kind, _, rfl⟩ := List.mem_map.1 hb
        rintro rfl
        exact Nat.lt_irrefl _ (h.issued kind _ ha)

private theorem beginUnit (h : t.Coherent) (name : String) : (t.beginUnit name).Coherent :=
  ⟨fun _ hf => (by cases hf), h.defined_iff, h.definable, h.issued, h.nodup⟩

/-- The entry code is the block of a call behind lines without labels. -/
theorem bootstrap (h : t.Coherent) : t.bootstrap.Coherent := by
  have hf : labels (t.remark "bootstrap" ++ Block.setup) = [] := by
    rw [labels_append, labels_remark]
    rfl
  have hb : t.bootstrap = t.extend (t.scope.behind (.call Block.entryPoint 0))
      ((t.remark "bootstrap" ++ Block.setup) ++
        (Command.call Block.entryPoint 0).block t.scope.unit t.scope.function t.scope.issued) := by
    rw [List.append_assoc]
    rfl
  rw [hb]
  exact h.extend (Command.refusal?_entry _ _) hf

private theorem command (h : t.Coherent) (c : Command) : (t.command c).1.Coherent := by
  rw [Lowering.command]
  split
  · next scope block hc =>
    obtain ⟨hr, rfl, rfl⟩ := (Scope.lower_eq_ok_iff h.sound).1 hc
    exact (h.extend hr rfl : (t.extend _ ([] ++ _)).Coherent)
  · exact h

private theorem located (h : t.Coherent) (l : Located) : (t.located l).1.Coherent := by
  rw [Lowering.located]
  split
  · next scope block hc =>
    obtain ⟨hr, rfl, rfl⟩ := (Scope.lower_eq_ok_iff h.sound).1 hc
    exact h.extend hr (labels_remark t l.text)
  · exact h

private theorem commands (h : t.Coherent) (ls : List Located) : (t.commands ls).1.Coherent := by
  induction ls generalizing t with
  | nil => exact h
  | cons l ls ih =>
    have hl := h.located l
    rw [Lowering.commands]
    split
    · next u he => exact ih (by rwa [he] at hl)
    · next u r he => rwa [he] at hl

theorem units (h : t.Coherent) (us : List SourceUnit) : (t.units us).1.Coherent := by
  induction us generalizing t with
  | nil => exact h
  | cons u us ih =>
    have hu := (h.beginUnit u.name).commands u.commands
    rw [Lowering.units, Lowering.unit]
    split
    · next v he => exact ih (by rwa [he] at hu)
    · next v r he => rwa [he] at hu

theorem step (h : t.Coherent) (s : Step) : (t.step s).1.Coherent := by
  cases s with
  | beginUnit name => exact h.beginUnit name
  | bootstrap => exact h.bootstrap
  | withAnnotations => exact ⟨h.sound, h.defined_iff, h.definable, h.issued, h.nodup⟩
  | command c => exact h.command c
  | located l => exact h.located l
  | unit u => exact (h.beginUnit u.name).commands u.commands

theorem run (h : t.Coherent) (steps : List Step) : (t.run steps).Coherent := by
  induction steps generalizing t with
  | nil => exact h
  | cons s steps ih => exact ih (h.step s)

/-- A user symbol is never reserved. -/
theorem isReserved_of_mem_labels (h : t.Coherent) {name : String}
    (hn : .named name ∈ labels t.lines.toList) : isReserved name = false :=
  (h.definable name ((h.defined_iff name).2 hn)).2

theorem isSymbol_of_mem_labels (h : t.Coherent) {l : Label} (hl : l ∈ labels t.lines.toList) :
    isSymbol l.text = true := by
  cases l with
  | named name => exact (h.definable name ((h.defined_iff name).2 hl)).1
  | generated kind n => exact Label.isSymbol_text_generated kind n

/-- The labels keep apart as texts too, which is how the assembler knows them. -/
theorem nodup_text (h : t.Coherent) : ((labels t.lines.toList).map Label.text).Nodup := by
  refine List.pairwise_map.2 (h.nodup.imp_of_mem fun ha hb hne he => hne ?_)
  refine Label.text_inj ?_ ?_ he
  · rintro name rfl
    exact h.isReserved_of_mem_labels ha
  · rintro name rfl
    exact h.isReserved_of_mem_labels hb

/-- What is recorded as defined is what the lines define, reserved labels apart. -/
private theorem mem_defined_iff (h : t.Coherent) (name : String) :
    name ∈ t.scope.defined ↔
      isReserved name = false ∧ "(" ++ name ++ ")" ∈ t.lines.toList.map Line.text := by
  rw [h.defined_iff, definition_mem_text_iff, List.mem_map]
  constructor
  · intro hn
    exact ⟨h.isReserved_of_mem_labels hn, _, hn, rfl⟩
  · rintro ⟨hr, l, hl, rfl⟩
    cases l with
    | named name => exact hl
    | generated kind n => exact absurd rfl (Label.text_generated_ne hr kind n)

/-- No two lines are the same definition. -/
theorem pairwise_text (h : t.Coherent) :
    (t.lines.toList.map Line.text).Pairwise fun a b =>
      ∀ name, ¬(a = "(" ++ name ++ ")" ∧ b = "(" ++ name ++ ")") := by
  have hp := List.pairwise_map.1 h.nodup_text
  rw [labels, List.pairwise_filterMap] at hp
  refine List.pairwise_map.2 (hp.imp ?_)
  rintro a b hab name ⟨ha, hb⟩
  obtain ⟨k, rfl, hk⟩ := Line.text_eq_definition_iff.1 ha
  obtain ⟨l, rfl, hl⟩ := Line.text_eq_definition_iff.1 hb
  exact hab k rfl l rfl (hk.trans hl.symm)

end Coherent

/-- Whatever is asked of a lowering, and whichever steps fail, no two of its lines are the same
definition. What it records as defined are the definitions that it did not generate itself. -/
theorem run_definitions_distinct (steps : List Step) :
    ((initial.run steps).lines.toList.map Line.text).Pairwise
        (fun a b => ∀ name, ¬(a = "(" ++ name ++ ")" ∧ b = "(" ++ name ++ ")")) ∧
      (∀ name, name ∈ (initial.run steps).scope.defined ↔
        isReserved name = false ∧
          "(" ++ name ++ ")" ∈ (initial.run steps).lines.toList.map Line.text) ∧
      ∀ name ∈ (initial.run steps).scope.defined,
        isSymbol name = true ∧ isReserved name = false := by
  have h : (initial.run steps).Coherent := coherent_initial.run steps
  exact ⟨h.pairwise_text, h.mem_defined_iff, h.definable⟩

end Lowering

end StackLowering
