import StackLowering.Program.RoundTrip
/-! The binary form of a program tells by itself where it ends: nothing behind it changes what is
read, and nothing less than all of it is read as a program. -/
namespace StackLowering.Program

/-- A part of a written program is not taken for another program: the rest of it is missed. -/
private theorem ofBytes_of_prefix {p : Program} (h : p.Writable) {front : List UInt8}
    (hf : front <+: p.toBytes) (hne : front ≠ p.toBytes) : ofBytes front = .error .endOfData := by
  obtain ⟨back, hb⟩ := hf
  have hback : back ≠ [] := by
    rintro rfl
    exact hne (by rw [← hb, List.append_nil])
  rw [ofBytes, (Binary.reads_program h).short front back hb hback]
  rfl

private theorem eq_of_toBytes_eq {p q : Program} (hp : p.Writable) (hq : q.Writable)
    (h : q.toBytes = p.toBytes) : q = p := by
  have hr := ofBytes_toBytes_append hp []
  rw [← h, ofBytes_toBytes_append hq] at hr
  exact Except.ok.inj hr

/-- Programs whose lines and lengths are numbers of 64 bits have different binary forms, and none of
them is the beginning of another. -/
theorem binary_form_ends_itself {p : Program} (h : p.Writable) :
    (∀ rest, ofBytes (p.toBytes ++ rest) = .ok p) ∧
      (∀ front, front <+: p.toBytes → front ≠ p.toBytes →
        ofBytes front = .error .endOfData) ∧
      ∀ q : Program, q.Writable →
        (q.toBytes = p.toBytes → q = p) ∧ (q.toBytes <+: p.toBytes → q.toBytes = p.toBytes) := by
  refine ⟨ofBytes_toBytes_append h, fun front => ofBytes_of_prefix h, fun q hq => ?_⟩
  refine ⟨eq_of_toBytes_eq h hq, fun hf => Decidable.byContradiction fun hne => ?_⟩
  -- the beginning would be read as `q` and missed as a part of `p`
  have hr := ofBytes_toBytes_append hq []
  rw [List.append_nil, ofBytes_of_prefix h hf hne] at hr
  cases hr

def farLine : Program :=
  ⟨[⟨"Größe", [⟨0xFFFFFFFFFFFFFFFF, "push static 65535", .push .static 65535⟩,
    ⟨0, "", .call "€ 1" 128⟩]⟩, ⟨"", []⟩]⟩

theorem farLine_ends_itself :
    farLine.Writable ∧
      ofBytes (farLine.toBytes ++ [0xFF]) = .ok farLine ∧
      (farLine.toBytes.take 30 <+: farLine.toBytes ∧
        farLine.toBytes.take 30 ≠ farLine.toBytes ∧
        ofBytes (farLine.toBytes.take 30) = .error .endOfData) ∧
      ¬(⟨[]⟩ : Program).toBytes <+: farLine.toBytes := by
  have hw : farLine.Writable := by
    refine ⟨by decide, ?_⟩
    simp only [farLine, List.forall_mem_cons]
    refine ⟨⟨by decide, by decide, ?_⟩, ⟨by decide, by decide, by simp⟩, by simp⟩
    simp only [List.forall_mem_cons]
    refine ⟨⟨by decide, by decide, ?_⟩, ⟨by decide, by decide, ?_⟩, by simp⟩
    · intro n hn
      cases hn
    · intro n hn
      cases hn
      decide
  have hne : farLine.toBytes.take 30 ≠ farLine.toBytes := by decide +kernel
  obtain ⟨hread, hpart, hq⟩ := binary_form_ends_itself hw
  have hempty := hq ⟨[]⟩ ⟨by decide, by simp⟩
  refine ⟨hw, hread [0xFF], ⟨List.take_prefix .., hne, hpart _ (List.take_prefix ..) hne⟩, ?_⟩
  intro hf
  have he : (⟨[]⟩ : Program) = farLine := hempty.1 (hempty.2 hf)
  cases he

end StackLowering.Program
