import StackLowering.Proofs.Lowering.Acceptance
import StackLowering.Proofs.Lowering.Labels
import StackLowering.Proofs.Machine.Placement
import StackLowering.Proofs.Machine.StackMachine
/-! Where the blocks of an accepted program lie in its lines. -/
namespace StackLowering
open Assembly Machine

private theorem Lowering.coherent_started (o : LoweringOptions) :
    (Lowering.started o).Coherent := by
  obtain ⟨_ | _, _ | _⟩ := o
  · exact coherent_initial
  · exact coherent_initial.step .withAnnotations
  · exact coherent_initial.bootstrap
  · exact (coherent_initial.step .withAnnotations).bootstrap

/-- The lines of an accepted program are those of a lowering that keeps its labels apart. -/
theorem Program.coherent {p : Program} {o : LoweringOptions} {lines : List Line}
    (h : p.lower o = .ok lines) : ∃ t : Lowering, t.Coherent ∧ t.lines.toList = lines := by
  refine ⟨_, (Lowering.coherent_started o).units p.units, ?_⟩
  rw [lower_eq] at h
  cases hr : ((Lowering.started o).units p.units).2 with
  | none =>
    rw [hr] at h
    exact Except.ok.inj h
  | some rejection =>
    rw [hr] at h
    cases h

namespace LoweringOptions
variable {o : LoweringOptions} {sites : List Site} {s : Site} {k : Nat}

def lines (o : LoweringOptions) (sites : List Site) : List Line :=
  o.preamble ++ output o.annotate o.firstNumber sites

def numberAt (o : LoweringOptions) (sites : List Site) (k : Nat) : Nat :=
  o.firstNumber + issued (sites.take k)

def blockAt (o : LoweringOptions) (sites : List Site) (k : Nat) (s : Site) : List Line :=
  s.command.block s.unit s.body (o.numberAt sites k)

private theorem codeSize_code (annotate : Bool) (number : Nat) (s : Site) :
    codeSize (s.code annotate number) = codeSize (s.command.block s.unit s.body number) := by
  rw [Site.code, codeSize_append]
  cases annotate <;> simp [codeSize, Line.size]

private theorem output_singleton (annotate : Bool) (number : Nat) (s : Site) :
    output annotate number [s] = s.code annotate number := List.append_nil _

private theorem take_succ (hs : sites[k]? = some s) : sites.take (k + 1) = sites.take k ++ [s] := by
  rw [List.take_add_one, hs]
  rfl

/-- The code of the next command begins behind the block of one. -/
theorem codeAddress_succ (hs : sites[k]? = some s) :
    o.codeAddress sites (k + 1) = o.codeAddress sites k + codeSize (o.blockAt sites k s) := by
  rw [codeAddress, take_succ hs, output_append, ← List.append_assoc, codeSize_append,
    output_singleton, codeSize_code]
  rfl

theorem codeAddress_length : o.codeAddress sites sites.length = codeSize (o.lines sites) := by
  rw [codeAddress, List.take_length, lines]

/-- The block of a command lies in the lines where its code begins. -/
theorem placed_blockAt (hs : sites[k]? = some s) :
    Placed (o.lines sites) (o.codeAddress sites k) (o.blockAt sites k s) := by
  obtain ⟨hk, rfl⟩ := List.getElem?_eq_some_iff.1 hs
  have hsplit : sites = sites.take k ++ (sites[k] :: sites.drop (k + 1)) := by
    rw [List.getElem_cons_drop, List.take_append_drop]
  refine ⟨o.preamble ++ output o.annotate o.firstNumber (sites.take k) ++
    (if o.annotate then [.comment sites[k].located.text] else []),
    output o.annotate (o.numberAt sites k + sites[k].issues) (sites.drop (k + 1)), ?_, ?_⟩
  · have ho := congrArg (output o.annotate o.firstNumber) hsplit
    rw [lines, ho, output_append, output, Site.code]
    simp only [List.append_assoc]
    rfl
  · rw [codeSize_append, codeAddress]
    cases o.annotate <;> simp [codeSize, Line.size]

/-- The code at the address of a command is its block, and behind it that of the next one. -/
theorem placed_block (hs : sites[k]? = some s) {block : List Line}
    (hb : o.blockAt sites k s = block) {n : Nat} (hn : n = o.codeAddress sites k) :
    Placed (o.lines sites) n block ∧ n + codeSize block = o.codeAddress sites (k + 1) := by
  rw [hn, ← hb]
  exact ⟨placed_blockAt hs, (codeAddress_succ hs).symm⟩

/-- The code that starts a program lies in front of the first command. -/
theorem placed_bootstrap (ho : o.bootstrap = true) :
    Placed (o.lines sites) 0 (Block.bootstrap 0) ∧
      o.codeAddress sites 0 = codeSize (Block.bootstrap 0) := by
  have hp : o.preamble =
      (if o.annotate then [.comment "bootstrap"] else []) ++ Block.bootstrap 0 := by
    rw [preamble, if_pos ho]
  have hc : codeSize (if o.annotate then [Line.comment "bootstrap"] else []) = 0 := by
    cases o.annotate <;> rfl
  refine ⟨⟨_, output o.annotate o.firstNumber sites, by rw [lines, hp], hc.symm⟩, ?_⟩
  rw [codeAddress, List.take_zero, output, List.append_nil, hp, codeSize_append, hc, Nat.zero_add]

theorem codeAddress_zero (ho : o.bootstrap = false) : o.codeAddress sites 0 = 0 := by
  rw [codeAddress, preamble, ho]
  rfl

private theorem eq_comment_of_mem {text : String} {line : Line}
    (h : line ∈ (if o.annotate then [Line.comment text] else [])) : line = .comment text := by
  split at h
  · exact List.mem_singleton.1 h
  · cases h

private theorem mem_output {number : Nat} {line : Line}
    (h : line ∈ output o.annotate number sites) :
    (∃ text, line = .comment text) ∨ ∃ (k : Nat) (s : Site), sites[k]? = some s ∧
      line ∈ s.command.block s.unit s.body (number + issued (sites.take k)) := by
  induction sites generalizing number with
  | nil => cases h
  | cons s sites ih =>
    rw [output, Site.code, List.mem_append, List.mem_append] at h
    rcases h with (h | h) | h
    · exact .inl ⟨_, eq_comment_of_mem h⟩
    · exact .inr ⟨0, s, rfl, h⟩
    · rcases ih h with h | ⟨k, t, hk, ht⟩
      · exact .inl h
      · rw [Nat.add_assoc] at ht
        exact .inr ⟨k + 1, t, hk, ht⟩

/-- A line is a comment, or in the entry code, or in the block of a command. -/
theorem mem_lines {line : Line} (h : line ∈ o.lines sites) :
    (∃ text, line = .comment text) ∨ (o.bootstrap = true ∧ line ∈ Block.bootstrap 0) ∨
      ∃ k s, sites[k]? = some s ∧ line ∈ o.blockAt sites k s := by
  rw [lines, List.mem_append] at h
  rcases h with h | h
  · rw [preamble] at h
    split at h
    · next ho =>
      rcases List.mem_append.1 h with h | h
      · exact .inl ⟨_, eq_comment_of_mem h⟩
      · exact .inr (.inl ⟨ho, h⟩)
    · cases h
  · exact (mem_output h).imp_right .inr

theorem mem_lines_of_mem_blockAt {line : Line} (hs : sites[k]? = some s)
    (hl : line ∈ o.blockAt sites k s) : line ∈ o.lines sites := by
  obtain ⟨front, back, he, -⟩ := placed_blockAt (o := o) hs
  rw [he]
  exact List.mem_append_left _ (List.mem_append_right _ hl)

/-- The user symbols among the labels of a program are those that it defines. -/
theorem mem_definitions_of_mem_labels {name : String}
    (h : .named name ∈ labels (o.lines sites)) : name ∈ definitions sites := by
  rcases mem_lines (mem_labels_iff.1 h) with ⟨text, ht⟩ | ⟨-, hb⟩ | ⟨k, s, hk, hb⟩
  · cases ht
  · have hback : labels (Block.bootstrap 0) = [.generated .back 0] := rfl
    have hl := mem_labels_iff.2 hb
    rw [hback, List.mem_singleton] at hl
    cases hl
  · have hl := mem_labels_iff.2 hb
    rw [blockAt, Command.labels_block] at hl
    have hd : s.command.definition? s.body = some name := by simpa using hl
    exact List.mem_filterMap.2 ⟨s, List.mem_of_getElem? hk, hd⟩

end LoweringOptions

section Blocks
variable {o : LoweringOptions}

/-- The block of a command that defines a symbol begins with the definition. -/
theorem DefinedAt.placed {sites : List Site} {name : String} {k : Nat}
    (h : DefinedAt sites name k) :
    ∃ block, Placed (o.lines sites) (o.codeAddress sites k) (.define (.named name) :: block) := by
  obtain ⟨s, hs, hd⟩ := h
  have hp := LoweringOptions.placed_blockAt (o := o) hs
  rw [LoweringOptions.blockAt] at hp
  rw [Site.definition?] at hd
  cases hc : s.command with
  | label n =>
    rw [hc] at hd hp
    obtain rfl := Option.some.inj hd
    exact ⟨_, hp⟩
  | function n count =>
    rw [hc] at hd hp
    obtain rfl := Option.some.inj hd
    exact ⟨_, hp⟩
  | _ =>
    rw [hc] at hd
    cases hd

theorem definedAt_of_mem {sites : List Site} {name : String} (h : name ∈ definitions sites) :
    ∃ k, DefinedAt sites name k := by
  obtain ⟨s, hs, hd⟩ := List.mem_filterMap.1 h
  obtain ⟨k, hk⟩ := List.mem_iff_getElem?.1 hs
  exact ⟨k, s, hk, hd⟩

theorem Command.block_push {g : Segment} {i : UInt16} (hi : i ≤ g.maxIndex) (unit : String)
    (body : Option String) (number : Nat) :
    (push g i).block unit body number = Block.load unit i g.addressing ++ Block.pushD := by
  rw [block, Block.push, Segment.checkIndex, if_pos hi]
  rfl

theorem Command.block_pop {g : Segment} {i : UInt16} (hi : i ≤ g.maxIndex) {unit : String}
    {code : List Line} (hc : Block.locate? unit i g.addressing = some code)
    (body : Option String) (number : Nat) :
    (pop g i).block unit body number = Block.popTo code := by
  rw [block, Block.pop, Segment.checkIndex, if_pos hi]
  simp only [bind, Except.bind, hc]
  rfl

/-- An accepted program is lowered to the lines of its commands. -/
theorem Program.acceptable_of_lower {p : Program} {lines : List Line} (h : p.lower o = .ok lines) :
    Acceptable p.sites ∧ lines = o.lines p.sites := Program.lower_eq_ok_iff.1 h

end Blocks
end StackLowering
