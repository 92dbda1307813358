/-! Reading bytes from the front: a reader gives a value and the bytes behind it. -/
namespace StackLowering.Binary

inductive Fault where
  | endOfData
  | badVarint
  | badText
  | unknownVariant
  deriving DecidableEq

def Fault.message : Fault → String
  | endOfData => "Hit the end of buffer, expected more data"
  | badVarint => "Found a varint that didn't terminate. Is the usize too big for this platform?"
  | badText => "Tried to parse invalid utf-8"
  | unknownVariant => "Serde Deserialization Error"

abbrev Reader := StateT (List UInt8) (Except Fault)

def readBytes (n : Nat) : Reader (List UInt8) := fun bytes =>
  let taken := bytes.take n
  if taken.length < n then .error .endOfData else .ok (taken, bytes.drop n)

/-- Reads `n` items, behind those found before, which are latest first. A wrong count costs no
more than the bytes there are, provided that each item takes one. -/
def readManyFrom {α : Type} (item : Reader α) (n : Nat) (found : List α) (bytes : List UInt8) :
    Except Fault (List α × List UInt8) :=
  match n with
  | 0 => .ok (found.reverse, bytes)
  | n + 1 =>
    match item bytes with
    | .ok (a, rest) => readManyFrom item n (a :: found) rest
    | .error e => .error e

def readMany {α : Type} (item : Reader α) (n : Nat) : Reader (List α) := readManyFrom item n []

theorem bind_eq_of_ok {α β : Type} {r : Reader α} {f : α → Reader β} {bytes rest : List UInt8}
    {a : α} (h : r bytes = .ok (a, rest)) : (r >>= f) bytes = f a rest := by
  show StateT.bind r f bytes = _
  simp only [StateT.bind]
  rw [h]
  rfl

theorem bind_eq_of_error {α β : Type} {r : Reader α} {f : α → Reader β} {bytes : List UInt8}
    {e : Fault} (h : r bytes = .error e) : (r >>= f) bytes = .error e := by
  show StateT.bind r f bytes = _
  simp only [StateT.bind]
  rw [h]
  rfl

/-- Whether these bytes are what a reader takes for a value: it finds the value in them whatever
stands behind, and misses data as long as some of them are still to come. -/
structure Reads {α : Type} (r : Reader α) (bytes : List UInt8) (a : α) : Prop where
  whole : ∀ rest, r (bytes ++ rest) = .ok (a, rest)
  short : ∀ front back, front ++ back = bytes → back ≠ [] → r front = .error .endOfData

section
variable {α β : Type} {r : Reader α} {f : α → Reader β} {bytes bytes' : List UInt8} {a : α} {b : β}

private theorem reads_pure (a : α) : Reads (pure a) [] a where
  whole _ := rfl
  short _ _ h hb := absurd (List.append_eq_nil_iff.1 h).2 hb

theorem Reads.bind (hr : Reads r bytes a) (hf : Reads (f a) bytes' b) :
    Reads (r >>= f) (bytes ++ bytes') b where
  whole rest := by rw [List.append_assoc, bind_eq_of_ok (hr.whole _), hf.whole]
  short front back h hb := by
    rcases List.append_eq_append_iff.1 h with ⟨rest, hbytes, rfl⟩ | ⟨rest, rfl, hs⟩
    · by_cases hn : rest = []
      · have ho := hr.whole []
        rw [hbytes, hn, List.append_nil, List.append_nil] at ho
        rw [bind_eq_of_ok ho]
        exact hf.short [] bytes' rfl (by simpa [hn] using hb)
      · exact bind_eq_of_error (hr.short front rest hbytes.symm hn)
    · rw [bind_eq_of_ok (hr.whole rest)]
      exact hf.short rest back hs.symm hb

/-- Reading a first byte together with what the bytes behind it are read for. -/
theorem reads_cons {first : UInt8} (hn : r [] = .error .endOfData)
    (hw : ∀ rest, r (first :: (bytes ++ rest)) = .ok (a, rest))
    (hs : ∀ front back, front ++ back = bytes → back ≠ [] →
      r (first :: front) = .error .endOfData) : Reads r (first :: bytes) a where
  whole := hw
  short front back h hb := by
    cases front with
    | nil => exact hn
    | cons b front =>
      obtain ⟨rfl, ht⟩ := List.cons.inj h
      exact hs front back ht hb

/-- What is made of the value takes no bytes of its own. -/
theorem Reads.result (hr : Reads r bytes a) (hf : f a = pure b) : Reads (r >>= f) bytes b := by
  have h := hr.bind (hf ▸ reads_pure b)
  rwa [List.append_nil] at h

theorem reads_bytes (bytes : List UInt8) : Reads (readBytes bytes.length) bytes bytes where
  whole rest := by simp [readBytes]
  short front back h hb := by
    have hl : front.length < bytes.length := by
      have := List.length_pos_iff.2 hb
      rw [← h, List.length_append]
      omega
    rw [readBytes, List.take_of_length_le (Nat.le_of_lt hl)]
    exact if_pos hl

theorem readManyFrom_succ (item : Reader α) (n : Nat) (found : List α) :
    (readManyFrom item (n + 1) found : Reader (List α)) =
      item >>= fun a => readManyFrom item n (a :: found) := by
  funext bytes
  rw [readManyFrom]
  cases h : item bytes with
  | ok p => exact (bind_eq_of_ok (f := fun a => readManyFrom item n (a :: found)) h).symm
  | error e => exact (bind_eq_of_error h).symm

private theorem reads_manyFrom {item : Reader α} {write : α → List UInt8} (xs found : List α)
    (h : ∀ x ∈ xs, Reads item (write x) x) :
    Reads (readManyFrom item xs.length found) (xs.flatMap write) (found.reverse ++ xs) := by
  induction xs generalizing found with
  | nil =>
    rw [List.append_nil]
    exact reads_pure found.reverse
  | cons x xs ih =>
    rw [List.length_cons, readManyFrom_succ, List.flatMap_cons]
    have hs := ih (x :: found) fun y hy => h y (List.mem_cons_of_mem _ hy)
    rw [List.reverse_cons, List.append_assoc] at hs
    exact (h x (List.mem_cons_self ..)).bind hs

/-- A list is read from the bytes of its items, one behind the other. -/
theorem reads_many {item : Reader α} {write : α → List UInt8} {xs : List α}
    (h : ∀ x ∈ xs, Reads item (write x) x) :
    Reads (readMany item xs.length) (xs.flatMap write) xs :=
  reads_manyFrom xs [] h

end
end StackLowering.Binary
