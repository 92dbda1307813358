import StackLowering.Binary.Reader
/-! Numbers in groups of seven bits, the lowest group first, each byte but the last marked by its
high bit. A number may be written with more groups than it needs. -/
namespace StackLowering.Binary

/-- How long a number may be: at most `bytes` bytes, and if it has that many, the last of them is
at most `last`. -/
structure Width where
  bytes : Nat
  last : Nat
  deriving DecidableEq

/-- The first number that is too great. -/
def Width.limit (w : Width) : Nat := Nat.repeat (128 * ·) (w.bytes - 1) (w.last + 1)

def bits16 : Width := ⟨3, 0x03⟩

def bits32 : Width := ⟨5, 0x0F⟩

def bits64 : Width := ⟨10, 0x01⟩

def writeVarint (n : Nat) : List UInt8 :=
  if n < 128 then [.ofNat n]
  else .ofNat (128 + n % 128) :: writeVarint (n / 128)

/-- Reads a number of at most `bytes` bytes. -/
def readVarintFrom (last : Nat) : Nat → List UInt8 → Except Fault (Nat × List UInt8)
  | _, [] => .error .endOfData
  | 0, _ :: _ => .error .badVarint
  | 1, b :: rest => if b.toNat ≤ last then .ok (b.toNat, rest) else .error .badVarint
  | k + 2, b :: rest =>
    if b.toNat < 128 then .ok (b.toNat, rest)
    else do
      let (high, rest) ← readVarintFrom last (k + 1) rest
      return (128 * high + (b.toNat - 128), rest)

def readVarint (w : Width) : Reader Nat := readVarintFrom w.last w.bytes

theorem readVarintFrom_nil (last k : Nat) :
    readVarintFrom last k [] = .error .endOfData := by
  cases k <;> rfl

theorem readVarintFrom_cons (last : Nat) (b : UInt8) (hb : 128 ≤ b.toNat) (k : Nat)
    (bytes : List UInt8) :
    readVarintFrom last (k + 2) (b :: bytes) =
      (fun p => (128 * p.1 + (b.toNat - 128), p.2)) <$> readVarintFrom last (k + 1) bytes := by
  rw [readVarintFrom, if_neg (by omega)]
  cases readVarintFrom last (k + 1) bytes <;> rfl

/-- A number of one byte. -/
private theorem reads_byte {last k : Nat} {b : UInt8} {n : Nat}
    (h : ∀ rest, readVarintFrom last k (b :: rest) = .ok (n, rest)) :
    Reads (readVarintFrom last k) [b] n := by
  refine reads_cons (readVarintFrom_nil last k) h fun front back hs hb => ?_
  exact absurd (List.append_eq_nil_iff.1 hs).2 hb

private theorem reads_varintFrom {last : Nat} (hl : last < 128) (k n : Nat)
    (h : n < Nat.repeat (128 * ·) k (last + 1)) :
    Reads (readVarintFrom last (k + 1)) (writeVarint n) n := by
  induction k generalizing n with
  | zero =>
    have hn : n < last + 1 := h
    have hb : (UInt8.ofNat n).toNat = n := by simp; omega
    rw [writeVarint, if_pos (by omega)]
    exact reads_byte fun rest => by rw [readVarintFrom, hb, if_pos (by omega)]
  | succ k ih =>
    rw [writeVarint]
    split
    · have hb : (UInt8.ofNat n).toNat = n := by simp; omega
      exact reads_byte fun rest => by rw [readVarintFrom, hb, if_pos (by omega)]
    · have hb : (UInt8.ofNat (128 + n % 128)).toNat = 128 + n % 128 := by simp; omega
      have hc := readVarintFrom_cons last (.ofNat (128 + n % 128)) (by omega) k
      have hr := ih (n / 128) (Nat.div_lt_of_lt_mul h)
      refine reads_cons (readVarintFrom_nil ..) (fun rest => ?_) fun front back hs hne => ?_
      · rw [hc, hr.whole, hb]
        show Except.ok (128 * (n / 128) + (128 + n % 128 - 128), rest) = _
        rw [show 128 * (n / 128) + (128 + n % 128 - 128) = n by omega]
      · rw [hc, hr.short front back hs hne]
        rfl

/-- A number within the width is read from its shortest writing. -/
theorem reads_varint {w : Width} (hw : 0 < w.bytes ∧ w.last < 128) {n : Nat} (h : n < w.limit) :
    Reads (readVarint w) (writeVarint n) n := by
  obtain ⟨bytes, last⟩ := w
  obtain ⟨k, rfl⟩ : ∃ k, bytes = k + 1 := ⟨bytes - 1, by simp at hw; omega⟩
  exact reads_varintFrom hw.2 k n h

end StackLowering.Binary
