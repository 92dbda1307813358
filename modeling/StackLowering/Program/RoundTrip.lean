import StackLowering.Program.Binary
/-! Reading a written program gives it back and leaves the bytes behind it, and a part of what is
written is missed as soon as it is not there, provided that line numbers and lengths are below
2 ^ 64. Each kind of field is read from what is written for it. -/
namespace StackLowering

def Command.Writable (c : Command) : Prop :=
  ∀ n, c.name? = some n → n.utf8ByteSize < Binary.bits64.limit

structure Located.Writable (l : Located) : Prop where
  line : l.line < Binary.bits64.limit
  text : l.text.utf8ByteSize < Binary.bits64.limit
  command : l.command.Writable

structure SourceUnit.Writable (u : SourceUnit) : Prop where
  name : u.name.utf8ByteSize < Binary.bits64.limit
  length : u.commands.length < Binary.bits64.limit
  commands : ∀ l ∈ u.commands, l.Writable

structure Program.Writable (p : Program) : Prop where
  length : p.units.length < Binary.bits64.limit
  units : ∀ u ∈ p.units, u.Writable

namespace Binary

private theorem reads_text {s : String} (h : s.utf8ByteSize < bits64.limit) :
    Reads readText (writeText s) s := by
  rw [← Text.length_toBytes] at h
  refine (reads_varint (by decide) h).bind ((reads_bytes (Text.toBytes s)).result ?_)
  rw [Text.ofBytes?_toBytes]

private theorem reads_variant {α : Type} [BEq α] [LawfulBEq α] {all : List α} {a : α} (ha : a ∈ all)
    (hl : all.length ≤ bits32.limit) : Reads (readVariant all) (writeVariant all a) a := by
  have hi : all.idxOf a < all.length := List.idxOf_lt_length_of_mem ha
  refine (reads_varint (by decide) (by omega)).result ?_
  rw [List.getElem?_eq_getElem hi]
  simp

private theorem reads_segment (s : Segment) :
    Reads (readVariant Segment.all) (writeVariant Segment.all s) s :=
  reads_variant (by cases s <;> decide) (by decide)

private theorem reads_operator (op : Operator) :
    Reads (readVariant Operator.all) (writeVariant Operator.all op) op :=
  reads_variant (by cases op <;> decide) (by decide)

private theorem reads_operand (n : UInt16) : Reads readOperand (writeOperand n) n :=
  (reads_varint (by decide) n.toNat_lt).result (by simp)

/-- The number of a variant, and its fields behind. -/
private theorem reads_tagged {α : Type} {f : Nat → Reader α} {k : Nat} {fields : List UInt8} {a : α}
    (hk : k < bits32.limit) (h : Reads (f k) fields a) :
    Reads (readVarint bits32 >>= f) (writeVarint k ++ fields) a :=
  (reads_varint (by decide) hk).bind h

private theorem reads_command {c : Command} (h : c.Writable) :
    Reads readCommand (writeCommand c) c := by
  cases c with
  | push s i | pop s i =>
    rw [writeCommand, List.append_assoc]
    exact reads_tagged (by decide) ((reads_segment s).bind ((reads_operand i).result rfl))
  | operate op => exact reads_tagged (by decide) ((reads_operator op).result rfl)
  | label n | goto n | ifGoto n =>
    exact reads_tagged (by decide) ((reads_text (h n rfl)).result rfl)
  | function n k | call n k =>
    rw [writeCommand, List.append_assoc]
    exact reads_tagged (by decide) ((reads_text (h n rfl)).bind ((reads_operand k).result rfl))
  | ret => exact (reads_varint (by decide) (by decide)).result rfl

private theorem reads_located {l : Located} (h : l.Writable) :
    Reads readLocated (writeLocated l) l := by
  rw [writeLocated, List.append_assoc]
  exact (reads_varint (by decide) h.line).bind
    ((reads_text h.text).bind ((reads_command h.command).result rfl))

private theorem reads_unit {u : SourceUnit} (h : u.Writable) : Reads readUnit (writeUnit u) u :=
  (reads_text h.name).bind ((reads_varint (by decide) h.length).bind
    ((reads_many fun l hl => reads_located (h.commands l hl)).result rfl))

theorem reads_program {p : Program} (h : p.Writable) : Reads readProgram p.toBytes p :=
  (reads_varint (by decide) h.length).bind
    ((reads_many fun u hu => reads_unit (h.units u hu)).result rfl)

end Binary

theorem Program.ofBytes_toBytes_append {p : Program} (h : p.Writable) (rest : List UInt8) :
    ofBytes (p.toBytes ++ rest) = .ok p := by
  rw [ofBytes, (Binary.reads_program h).whole]
  rfl

end StackLowering
