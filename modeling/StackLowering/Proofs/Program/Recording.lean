import StackLowering.Proofs.Program.Decoding
/-! Reading bytes with a record of it: the numbers that are read and the bytes that each is read
from, the bytes that are taken as they are, and every item of a list that is begun, also where
reading fails later. -/
namespace StackLowering.Binary

section Varint
variable {last k n : Nat} {bytes rest : List UInt8}

/-- A number that is read is its first byte, or goes on behind it. -/
private theorem readVarintFrom_cases (h : readVarintFrom last k bytes = .ok (n, rest)) :
    ∃ b tail, bytes = b :: tail ∧
      ((tail = rest ∧ n = b.toNat ∧ (b.toNat ≤ last ∨ b.toNat < 128) ∧
          ∀ more, readVarintFrom last k (b :: more) = .ok (n, more)) ∨
        (128 ≤ b.toNat ∧ ∃ j high, k = j + 2 ∧ n = 128 * high + (b.toNat - 128) ∧
          readVarintFrom last (j + 1) tail = .ok (high, rest))) := by
  cases bytes with
  | nil =>
    rw [readVarintFrom_nil] at h
    cases h
  | cons b tail =>
    refine ⟨b, tail, rfl, ?_⟩
    match k with
    | 0 => cases h
    | 1 =>
      rw [readVarintFrom] at h
      split at h
      · next hb =>
        cases h
        exact .inl ⟨rfl, rfl, .inl hb, fun more => by rw [readVarintFrom, if_pos hb]⟩
      · cases h
    | j + 2 =>
      by_cases hb : b.toNat < 128
      · rw [readVarintFrom, if_pos hb] at h
        cases h
        exact .inl ⟨rfl, rfl, .inr hb, fun more => by rw [readVarintFrom, if_pos hb]⟩
      · rw [readVarintFrom_cons last b (by omega)] at h
        cases hr : readVarintFrom last (j + 1) tail with
        | error e =>
          rw [hr] at h
          cases h
        | ok pair =>
          rw [hr] at h
          obtain ⟨hn, hrest⟩ := Prod.mk.inj (Except.ok.inj h)
          exact .inr ⟨by omega, j, pair.1, rfl, hn.symm, by rw [hr, ← hrest]⟩

private theorem exists_of_readVarintFrom (h : readVarintFrom last k bytes = .ok (n, rest)) :
    ∃ taken, bytes = taken ++ rest ∧ taken ≠ [] ∧ readVarintFrom last k taken = .ok (n, []) := by
  induction bytes generalizing k n with
  | nil =>
    rw [readVarintFrom_nil] at h
    cases h
  | cons b tail ih =>
    obtain ⟨_, _, hc, ⟨rfl, -, -, hb⟩ | ⟨hb, j, high, rfl, hn, hr⟩⟩ := readVarintFrom_cases h
    · cases hc
      exact ⟨[b], rfl, List.cons_ne_nil _ _, hb []⟩
    · cases hc
      obtain ⟨taken, rfl, -, ht⟩ := ih hr
      refine ⟨b :: taken, rfl, List.cons_ne_nil _ _, ?_⟩
      rw [readVarintFrom_cons last b hb, ht, hn]
      rfl

private theorem length_writeVarint_le_of_from (hl : last < 128)
    (h : readVarintFrom last k bytes = .ok (n, [])) :
    (writeVarint n).length ≤ bytes.length ∧
      ((writeVarint n).length = bytes.length → writeVarint n = bytes) := by
  induction bytes generalizing k n with
  | nil =>
    rw [readVarintFrom_nil] at h
    cases h
  | cons b tail ih =>
    obtain ⟨_, _, hc, ⟨rfl, rfl, hb, -⟩ | ⟨hb, j, high, rfl, hn, hr⟩⟩ := readVarintFrom_cases h
    · cases hc
      rw [writeVarint, if_pos (by omega), UInt8.ofNat_toNat]
      exact ⟨Nat.le_refl _, fun _ => rfl⟩
    · cases hc
      obtain ⟨hle, heq⟩ := ih hr
      have hlt := b.toNat_lt
      have hpos : 0 < tail.length := by
        obtain ⟨_, _, rfl, -⟩ := readVarintFrom_cases hr
        exact Nat.succ_pos _
      rw [writeVarint]
      split
      · -- a group that is not needed makes the number longer
        simp only [List.length_cons, List.length_nil]
        exact ⟨by omega, fun he => by omega⟩
      · have hfirst : UInt8.ofNat (128 + n % 128) = b := by
          rw [show 128 + n % 128 = b.toNat by omega, UInt8.ofNat_toNat]
        rw [hfirst, show n / 128 = high by omega]
        simp only [List.length_cons, List.cons.injEq, true_and]
        exact ⟨by omega, fun he => heq (by omega)⟩

end Varint

/-- A number is read from the bytes in front of what it leaves, and would be read from them
alone. -/
theorem exists_of_readVarint {w : Width} {bytes rest : List UInt8} {n : Nat}
    (h : readVarint w bytes = .ok (n, rest)) :
    ∃ taken, bytes = taken ++ rest ∧ taken ≠ [] ∧ readVarint w taken = .ok (n, []) :=
  exists_of_readVarintFrom h

/-- The shortest writing of a number is no longer than what it is read from, and is the only one of
its length. -/
private theorem length_writeVarint_le {w : Width} (hw : w.last < 128) {bytes : List UInt8} {n : Nat}
    (h : readVarint w bytes = .ok (n, [])) :
    (writeVarint n).length ≤ bytes.length ∧
      ((writeVarint n).length = bytes.length → writeVarint n = bytes) :=
  length_writeVarint_le_of_from hw h

inductive Event where
  /-- A number, and the bytes that it was read from. -/
  | number (w : Width) (n : Nat) (bytes : List UInt8)
  /-- Bytes that were taken as they are. -/
  | raw (bytes : List UInt8)
  /-- An item of a list was begun. -/
  | item
  deriving DecidableEq

namespace Event

def spelled : Event → List UInt8
  | number _ _ bytes | raw bytes => bytes
  | item => []

def written : Event → List UInt8
  | number _ n _ => writeVarint n
  | raw bytes => bytes
  | item => []

def Sound : Event → Prop
  | number w n bytes => (0 < w.bytes ∧ w.last < 128) ∧ readVarint w bytes = .ok (n, [])
  | _ => True

/-- Whether the number could not have been read from fewer bytes. -/
def Minimal : Event → Prop
  | number w n bytes => ∀ fewer, readVarint w fewer = .ok (n, []) → bytes.length ≤ fewer.length
  | _ => True

def isItem : Event → Bool
  | item => true
  | _ => false

def isNumber : Event → Bool
  | number .. => true
  | _ => false

variable {e : Event}

private theorem length_written_le (h : e.Sound) : e.written.length ≤ e.spelled.length := by
  cases e with
  | number w n bytes => exact (length_writeVarint_le h.1.2 h.2).1
  | _ => exact Nat.le_refl _

/-- Just what is read from the fewest bytes is written as it was. -/
private theorem minimal_iff (h : e.Sound) : e.Minimal ↔ e.written = e.spelled := by
  cases e with
  | number w n bytes =>
    obtain ⟨hw, hr⟩ := h
    obtain ⟨hle, heq⟩ := length_writeVarint_le hw.2 hr
    constructor
    · intro hm
      have hn := yields_varint hw.1 bytes n [] hr
      have hread := (reads_varint hw hn).whole []
      rw [List.append_nil] at hread
      exact heq (Nat.le_antisymm hle (hm _ hread))
    · intro he fewer hf
      rw [← show writeVarint n = bytes from he]
      exact (length_writeVarint_le hw.2 hf).1
  | _ => exact ⟨fun _ => rfl, fun _ => trivial⟩

private theorem one_le_length_spelled (h : e.Sound) (hn : e.isNumber = true) :
    1 ≤ e.spelled.length := by
  cases e with
  | number w n bytes =>
    obtain ⟨-, hr⟩ := h
    obtain ⟨taken, hb, hne, -⟩ := exists_of_readVarint hr
    rw [List.append_nil] at hb
    exact List.length_pos_iff.2 (hb ▸ hne)
  | _ => cases hn

end Event

section Events
variable {events : List Event}

def spelled (events : List Event) : List UInt8 := events.flatMap Event.spelled

def written (events : List Event) : List UInt8 := events.flatMap Event.written

def items (events : List Event) : Nat := events.countP Event.isItem

def numbers (events : List Event) : Nat := events.countP Event.isNumber

theorem length_written_le (h : ∀ e ∈ events, e.Sound) :
    (written events).length ≤ (spelled events).length := by
  induction events with
  | nil => exact Nat.le_refl _
  | cons e events ih =>
    obtain ⟨he, hs⟩ := List.forall_mem_cons.1 h
    simp only [written, spelled, List.flatMap_cons, List.length_append]
    exact Nat.add_le_add (e.length_written_le he) (ih hs)

theorem written_eq_spelled_iff (h : ∀ e ∈ events, e.Sound) :
    written events = spelled events ↔ ∀ e ∈ events, e.Minimal := by
  induction events with
  | nil => exact ⟨fun _ => List.forall_mem_nil _, fun _ => rfl⟩
  | cons e events ih =>
    obtain ⟨he, hs⟩ := List.forall_mem_cons.1 h
    rw [List.forall_mem_cons, ← ih hs, e.minimal_iff he]
    constructor
    · intro ha
      -- neither part can be longer than what it was read from
      have hle := e.length_written_le he
      have hlen := congrArg List.length ha
      have hrest := length_written_le hs
      simp only [written, spelled, List.flatMap_cons, List.length_append] at ha hlen hrest
      exact List.append_inj ha (by omega)
    · rintro ⟨ha, hb⟩
      simp only [written, spelled, List.flatMap_cons] at hb ⊢
      rw [ha, hb]

theorem numbers_le_length (h : ∀ e ∈ events, e.Sound) :
    numbers events ≤ (spelled events).length := by
  induction events with
  | nil => exact Nat.le_refl _
  | cons e events ih =>
    obtain ⟨he, hs⟩ := List.forall_mem_cons.1 h
    have hrest := ih hs
    simp only [numbers, spelled, List.flatMap_cons, List.length_append, List.countP_cons] at hrest ⊢
    split
    · next hn =>
      have hl := e.one_le_length_spelled he hn
      omega
    · omega

end Events

/-- Reading with a record, which stays when reading fails. -/
def Recorder (α : Type) := List UInt8 → List Event × Except Fault (α × List UInt8)

namespace Recorder
variable {α β : Type}

instance : Monad Recorder where
  pure a := fun bytes => ([], .ok (a, bytes))
  bind r f := fun bytes =>
    match r bytes with
    | (events, .ok (a, rest)) => (events ++ (f a rest).1, (f a rest).2)
    | (events, .error e) => (events, .error e)

def refuse (e : Fault) : Recorder α := fun _ => ([], .error e)

def noting (event : α → List UInt8 → Event) (r : Reader α) : Recorder α := fun bytes =>
  match r bytes with
  | .ok (a, rest) => ([event a (bytes.take (bytes.length - rest.length))], .ok (a, rest))
  | .error e => ([], .error e)

def begun (item : Recorder α) : Recorder α := fun bytes => (.item :: (item bytes).1, (item bytes).2)

def varint (w : Width) : Recorder Nat := noting (.number w) (readVarint w)

def bytes (n : Nat) : Recorder (List UInt8) := noting (fun _ => .raw) (readBytes n)

def manyFrom (item : Recorder α) : Nat → List α → Recorder (List α)
  | 0, found => pure found.reverse
  | n + 1, found => do manyFrom item n ((← begun item) :: found)

def many (item : Recorder α) (n : Nat) : Recorder (List α) := manyFrom item n []

def text : Recorder String := do
  let bytes ← bytes (← varint bits64)
  match Text.ofBytes? bytes with
  | some s => return s
  | none => refuse .badText

def variant (all : List α) : Recorder α := do
  match all[← varint bits32]? with
  | some a => return a
  | none => refuse .unknownVariant

def operand : Recorder UInt16 := return .ofNat (← varint bits16)

def command : Recorder Command := do
  match ← varint bits32 with
  | 0 => return .push (← variant Segment.all) (← operand)
  | 1 => return .pop (← variant Segment.all) (← operand)
  | 2 => return .operate (← variant Operator.all)
  | 3 => return .label (← text)
  | 4 => return .goto (← text)
  | 5 => return .ifGoto (← text)
  | 6 => return .function (← text) (← operand)
  | 7 => return .call (← text) (← operand)
  | 8 => return .ret
  | _ => refuse .unknownVariant

def located : Recorder Located := do
  return ⟨← varint bits64, ← text, ← command⟩

def unit : Recorder SourceUnit := do
  return ⟨← text, ← many located (← varint bits64)⟩

def program : Recorder Program := do
  return ⟨← many unit (← varint bits64)⟩

variable {r : Recorder α} {f : α → Recorder β} {bytes rest : List UInt8} {a : α} {e : Fault}

theorem bind_of_ok (h : (r bytes).2 = .ok (a, rest)) :
    (r >>= f) bytes = ((r bytes).1 ++ (f a rest).1, (f a rest).2) := by
  show (match r bytes with
    | (events, .ok (a, rest)) => (events ++ (f a rest).1, (f a rest).2)
    | (events, .error e) => (events, .error e)) = _
  rcases hr : r bytes with ⟨events, outcome⟩
  rw [hr] at h
  obtain rfl : outcome = .ok (a, rest) := h
  rfl

theorem bind_of_error (h : (r bytes).2 = .error e) :
    (r >>= f) bytes = ((r bytes).1, .error e) := by
  show (match r bytes with
    | (events, .ok (a, rest)) => (events ++ (f a rest).1, (f a rest).2)
    | (events, .error e) => (events, .error e)) = _
  rcases hr : r bytes with ⟨events, outcome⟩
  rw [hr] at h
  obtain rfl : outcome = .error e := h
  rfl

theorem noting_of_ok {event : α → List UInt8 → Event} {r : Reader α} {taken : List UInt8}
    (h : r (taken ++ rest) = .ok (a, rest)) :
    noting event r (taken ++ rest) = ([event a taken], .ok (a, rest)) := by
  rw [noting, h]
  simp

theorem noting_of_error {event : α → List UInt8 → Event} {r : Reader α} (h : r bytes = .error e) :
    noting event r bytes = ([], .error e) := by
  rw [noting, h]

end Recorder

end StackLowering.Binary
