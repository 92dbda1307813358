import StackLowering.Program.RoundTrip
/-! What is read from bytes can be written. Every number that is read lies within its width, also
where it is written with more groups than it needs. -/
namespace StackLowering
namespace Binary

def Yields {α : Type} (r : Reader α) (P : α → Prop) : Prop :=
  ∀ bytes a rest, r bytes = .ok (a, rest) → P a

section
variable {α β : Type} {r : Reader α} {f : α → Reader β} {P : α → Prop} {Q : β → Prop}

private theorem yields_pure {a : α} (h : P a) : Yields (pure a) P := fun bytes _ _ hr => by
  cases hr
  exact h

private theorem yields_throw (e : Fault) :
    Yields (throw e : Reader α) P := fun _ _ _ hr => by cases hr

private theorem Yields.bind (hr : Yields r P) (hf : ∀ a, P a → Yields (f a) Q) :
    Yields (r >>= f) Q := fun bytes b rest h => by
  cases ha : r bytes with
  | error e =>
    rw [bind_eq_of_error ha] at h
    cases h
  | ok pair =>
    rw [bind_eq_of_ok ha] at h
    exact hf _ (hr _ _ _ ha) _ _ _ h

private theorem yields_true (r : Reader α) : Yields r fun _ => True := fun _ _ _ _ => trivial

private theorem yields_manyFrom (h : Yields r P) (n : Nat) (found : List α)
    (hf : ∀ a ∈ found, P a) :
    Yields (readManyFrom r n found) fun as => as.length = found.length + n ∧ ∀ a ∈ as, P a := by
  induction n generalizing found with
  | zero =>
    intro bytes as rest hr
    obtain ⟨rfl, -⟩ := Prod.mk.inj (Except.ok.inj hr)
    exact ⟨List.length_reverse, by simpa using hf⟩
  | succ n ih =>
    intro bytes as rest hr
    rw [readManyFrom] at hr
    split at hr
    · next a rest' ha =>
      obtain ⟨hl, hp⟩ := ih (a :: found) (List.forall_mem_cons.2 ⟨h _ _ _ ha, hf⟩) _ _ _ hr
      rw [List.length_cons] at hl
      exact ⟨by omega, hp⟩
    · cases hr

/-- As many items are read as are asked for. -/
private theorem Yields.many (h : Yields r P) (n : Nat) :
    Yields (readMany r n) fun as => as.length = n ∧ ∀ a ∈ as, P a := by
  intro bytes as rest hr
  have hm := yields_manyFrom h n [] (by simp) bytes as rest hr
  simpa using hm

end

private theorem yields_varintFrom (last k : Nat) :
    Yields (readVarintFrom last (k + 1)) (· < Nat.repeat (128 * ·) k (last + 1)) := by
  have positive (k : Nat) : 0 < Nat.repeat (128 * ·) k (last + 1) := by
    induction k with
    | zero => exact Nat.succ_pos last
    | succ k ih => exact Nat.mul_pos (by decide) ih
  induction k with
  | zero =>
    intro bytes n rest h
    cases bytes with
    | nil => cases h
    | cons b bytes =>
      rw [readVarintFrom] at h
      split at h
      · next hb =>
        cases h
        exact Nat.lt_succ_of_le hb
      · cases h
  | succ k ih =>
    intro bytes n rest h
    cases bytes with
    | nil => cases h
    | cons b bytes =>
      show n < 128 * Nat.repeat (128 * ·) k (last + 1)
      have hk := positive k
      have hb := b.toNat_lt
      rw [readVarintFrom] at h
      split at h
      · cases h
        omega
      · cases hr : readVarintFrom last (k + 1) bytes with
        | error e =>
          rw [hr] at h
          cases h
        | ok pair =>
          have hn := ih _ _ _ hr
          rw [hr] at h
          obtain ⟨rfl, -⟩ := Prod.mk.inj (Except.ok.inj h)
          omega

theorem yields_varint {w : Width} (hw : 0 < w.bytes) : Yields (readVarint w) (· < w.limit) := by
  obtain ⟨bytes, last⟩ := w
  obtain ⟨k, rfl⟩ : ∃ k, bytes = k + 1 := ⟨bytes - 1, by simp at hw; omega⟩
  exact yields_varintFrom last k

private theorem yields_bits64 : Yields (readVarint bits64) (· < bits64.limit) :=
  yields_varint (by decide)

private theorem yields_bytes (n : Nat) :
    Yields (readBytes n) (·.length ≤ n) := fun bytes taken rest h => by
  rw [readBytes] at h
  split at h
  · cases h
  · cases h
    exact List.length_take_le n bytes

private theorem yields_text : Yields readText (·.utf8ByteSize < bits64.limit) :=
  yields_bits64.bind fun n hn => (yields_bytes n).bind fun bytes hb => by
    split
    · next s hs =>
      refine yields_pure (Nat.lt_of_le_of_lt ?_ hn)
      rw [← Text.length_toBytes, Text.toBytes_of_ofBytes? hs]
      exact hb
    · exact yields_throw _

private theorem yields_command : Yields readCommand Command.Writable := by
  refine (yields_true _).bind fun variant _ => ?_
  have named {command : String → Command} (hc : ∀ n, (command n).name? = some n) :
      Yields (do return command (← readText)) Command.Writable :=
    yields_text.bind fun n hn => yields_pure fun m hm => by
      rw [hc] at hm
      cases hm
      exact hn
  have counted {command : String → UInt16 → Command}
      (hc : ∀ n k, (command n k).name? = some n) :
      Yields (do return command (← readText) (← readOperand)) Command.Writable :=
    yields_text.bind fun n hn => (yields_true _).bind fun k _ => yields_pure fun m hm => by
      rw [hc] at hm
      cases hm
      exact hn
  have nameless {c : Command} (hc : c.name? = none) : c.Writable := fun n hn => by
    rw [hc] at hn
    cases hn
  split
  · exact (yields_true _).bind fun s _ => (yields_true _).bind fun i _ => yields_pure (nameless rfl)
  · exact (yields_true _).bind fun s _ => (yields_true _).bind fun i _ => yields_pure (nameless rfl)
  · exact (yields_true _).bind fun op _ => yields_pure (nameless rfl)
  · exact named fun _ => rfl
  · exact named fun _ => rfl
  · exact named fun _ => rfl
  · exact counted fun _ _ => rfl
  · exact counted fun _ _ => rfl
  · exact yields_pure (nameless rfl)
  · exact yields_throw _

private theorem yields_located : Yields readLocated Located.Writable :=
  yields_bits64.bind fun _ hl => yields_text.bind fun _ ht => yields_command.bind fun _ hc =>
    yields_pure ⟨hl, ht, hc⟩

private theorem yields_unit : Yields readUnit SourceUnit.Writable :=
  yields_text.bind fun _ hn => yields_bits64.bind fun n hl =>
    (yields_located.many n).bind fun _ ⟨hlen, hls⟩ => yields_pure ⟨hn, hlen ▸ hl, hls⟩

private theorem yields_program : Yields readProgram Program.Writable :=
  yields_bits64.bind fun n hl => (yields_unit.many n).bind fun _ ⟨hlen, hus⟩ =>
    yields_pure ⟨hlen ▸ hl, hus⟩

end Binary

/-- A program that is decoded can be encoded, and then decodes to itself. -/
theorem Program.writable_of_ofBytes {bytes : List UInt8} {p : Program} (h : ofBytes bytes = .ok p) :
    p.Writable := by
  rw [ofBytes] at h
  cases hr : Binary.readProgram bytes with
  | error e =>
    rw [hr] at h
    cases h
  | ok pair =>
    rw [hr] at h
    cases h
    exact Binary.yields_program _ _ _ hr

end StackLowering
