import StackLowering.Proofs.Program.Recording
/-! Decoding any bytes. Nothing is begun that no bytes are left for, whatever lengths are claimed;
and a program that is decoded is encoded again in the same bytes, but for the groups of numbers that
they have more than they need. -/
namespace StackLowering
namespace Binary

/-- What the record of a reading tells. The outcome is that of the reader itself; what was noted is
what was read from the front, and it is enough to write the value. Each item of a list comes with a
number, up to a `debt` where reading fails, and with some numbers to `spare` where it succeeds. -/
structure Records {α : Type} (r : Recorder α) (reader : Reader α) (Form : α → List UInt8 → Prop)
    (spare debt : Nat) : Prop where
  outcome : ∀ bytes, (r bytes).2 = reader bytes
  sound : ∀ bytes, ∀ e ∈ (r bytes).1, e.Sound
  whole : ∀ bytes a rest, (r bytes).2 = .ok (a, rest) →
    bytes = spelled (r bytes).1 ++ rest ∧ Form a (written (r bytes).1) ∧
      items (r bytes).1 + spare ≤ numbers (r bytes).1
  part : ∀ bytes e, (r bytes).2 = .error e →
    spelled (r bytes).1 <+: bytes ∧ items (r bytes).1 ≤ numbers (r bytes).1 + debt

section Records
variable {α β : Type} {r : Recorder α} {f : α → Recorder β} {reader : Reader α}
  {next : α → Reader β} {F : α → List UInt8 → Prop} {G : β → List UInt8 → Prop} {k l d m : Nat}

private theorem records_pure {a : α} (h : F a []) : Records (pure a) (pure a) F 0 d where
  outcome _ := rfl
  sound _ _ he := by cases he
  whole _ _ _ hb := by
    cases hb
    exact ⟨rfl, h, Nat.le_refl _⟩
  part _ _ hb := by cases hb

private theorem records_refuse (e : Fault) : Records (.refuse e) (throw e : Reader α) F k d where
  outcome _ := rfl
  sound _ _ he := by cases he
  whole _ _ _ hb := by cases hb
  part _ _ _ := ⟨List.nil_prefix, Nat.zero_le _⟩

private theorem Records.weaken (h : Records r reader F k d) {F' : α → List UInt8 → Prop}
    (hF : ∀ a u, F a u → F' a u) (hl : l ≤ k) : Records r reader F' l d where
  outcome := h.outcome
  sound := h.sound
  whole bytes a rest ha := by
    obtain ⟨hb, ha, hi⟩ := h.whole bytes a rest ha
    exact ⟨hb, hF _ _ ha, by omega⟩
  part := h.part

/-- Reading on behind a value. What is still to be written follows what is written for the value,
and a debt is paid from what the value spares. -/
private theorem Records.bind (hr : Records r reader F k d)
    (hf : ∀ a u, F a u → Records (f a) (next a) (fun b v => G b (u ++ v)) l m) (hd : m ≤ k + d) :
    Records (r >>= f) (reader >>= next) G (k + l) d := by
  -- Where the first reader succeeds, the rest is a record of what stands behind its bytes.
  have continued {bytes rest : List UInt8} {a : α} (ha : (r bytes).2 = .ok (a, rest)) :
      bytes = spelled (r bytes).1 ++ rest ∧ items (r bytes).1 + k ≤ numbers (r bytes).1 ∧
        Records (f a) (next a) (fun b v => G b (written (r bytes).1 ++ v)) l m := by
    obtain ⟨hb, hF, hi⟩ := hr.whole bytes a rest ha
    exact ⟨hb, hi, hf a _ hF⟩
  refine ⟨fun bytes => ?_, fun bytes => ?_, fun bytes b rest h => ?_, fun bytes e h => ?_⟩
  · cases ha : (r bytes).2 with
    | error e =>
      rw [Recorder.bind_of_error ha, bind_eq_of_error ((hr.outcome bytes).symm.trans ha)]
    | ok pair =>
      rw [Recorder.bind_of_ok ha, bind_eq_of_ok ((hr.outcome bytes).symm.trans ha)]
      exact (continued ha).2.2.outcome pair.2
  · cases ha : (r bytes).2 with
    | error e =>
      rw [Recorder.bind_of_error ha]
      exact hr.sound bytes
    | ok pair =>
      rw [Recorder.bind_of_ok ha]
      exact List.forall_mem_append.2 ⟨hr.sound bytes, (continued ha).2.2.sound pair.2⟩
  · cases ha : (r bytes).2 with
    | error e =>
      rw [Recorder.bind_of_error ha] at h
      cases h
    | ok pair =>
      rw [Recorder.bind_of_ok ha] at h ⊢
      obtain ⟨hb, hi, hrec⟩ := continued ha
      obtain ⟨hb', hG, hi'⟩ := hrec.whole pair.2 b rest h
      refine ⟨?_, ?_, ?_⟩
      · rw [spelled, List.flatMap_append, List.append_assoc]
        exact hb.trans (congrArg _ hb')
      · rw [written, List.flatMap_append]
        exact hG
      · simp only [items, numbers, List.countP_append] at hi hi' ⊢
        omega
  · cases ha : (r bytes).2 with
    | error e' =>
      rw [Recorder.bind_of_error ha]
      exact hr.part bytes e' ha
    | ok pair =>
      rw [Recorder.bind_of_ok ha] at h ⊢
      obtain ⟨hb, hi, hrec⟩ := continued ha
      obtain ⟨⟨rest, hb'⟩, hi'⟩ := hrec.part pair.2 e h
      refine ⟨⟨rest, ?_⟩, ?_⟩
      · rw [spelled, List.flatMap_append, List.append_assoc]
        exact (congrArg _ hb').trans hb.symm
      · simp only [items, numbers, List.countP_append] at hi hi' ⊢
        omega

private theorem records_noting {event : α → List UInt8 → Event}
    (h : ∀ bytes a rest, reader bytes = .ok (a, rest) → ∃ taken, bytes = taken ++ rest ∧
      (event a taken).Sound ∧ (event a taken).spelled = taken ∧ F a (event a taken).written ∧
      items [event a taken] + k ≤ numbers [event a taken]) :
    Records (.noting event reader) reader F k d := by
  have noted {bytes rest : List UInt8} {a : α} (ha : reader bytes = .ok (a, rest)) :
      ∃ e : Event, Recorder.noting event reader bytes = ([e], .ok (a, rest)) ∧ e.Sound ∧
        bytes = e.spelled ++ rest ∧ F a e.written ∧ items [e] + k ≤ numbers [e] := by
    obtain ⟨taken, rfl, hs, hb, hF, hi⟩ := h bytes a rest ha
    exact ⟨_, Recorder.noting_of_ok ha, hs, by rw [hb], hF, hi⟩
  have single (e : Event) : spelled [e] = e.spelled ∧ written [e] = e.written :=
    ⟨List.append_nil _, List.append_nil _⟩
  refine ⟨fun bytes => ?_, fun bytes => ?_, fun bytes a rest hr => ?_, fun bytes e hr => ?_⟩
  · cases ha : reader bytes with
    | error e => rw [Recorder.noting_of_error ha]
    | ok pair =>
      obtain ⟨e, he, -⟩ := noted ha
      rw [he]
  · cases ha : reader bytes with
    | error e =>
      rw [Recorder.noting_of_error ha]
      exact List.forall_mem_nil _
    | ok pair =>
      obtain ⟨e, he, hs, -⟩ := noted ha
      rw [he]
      exact List.forall_mem_singleton.2 hs
  · cases ha : reader bytes with
    | error e =>
      rw [Recorder.noting_of_error ha] at hr
      cases hr
    | ok pair =>
      obtain ⟨e, he, -, hb, hF, hi⟩ := noted ha
      rw [he] at hr ⊢
      cases hr
      rw [(single e).1, (single e).2]
      exact ⟨hb, hF, hi⟩
  · cases ha : reader bytes with
    | error e' =>
      rw [Recorder.noting_of_error ha]
      exact ⟨List.nil_prefix, Nat.zero_le _⟩
    | ok pair =>
      obtain ⟨e', he, -⟩ := noted ha
      rw [he] at hr
      cases hr

private theorem records_varint {w : Width} (hw : 0 < w.bytes ∧ w.last < 128) :
    Records (.varint w) (readVarint w) (fun n u => u = writeVarint n ∧ n < w.limit) 1 0 :=
  records_noting fun bytes n rest h => by
    obtain ⟨taken, hb, -, ht⟩ := exists_of_readVarint h
    exact ⟨taken, hb, ⟨hw, ht⟩, rfl, ⟨rfl, yields_varint hw.1 bytes n rest h⟩, Nat.le_refl _⟩

private theorem records_bytes (n : Nat) :
    Records (.bytes n) (readBytes n) (fun taken u => u = taken ∧ taken.length = n) 0 0 :=
  records_noting fun bytes taken rest h => by
    rw [readBytes] at h
    split at h
    · cases h
    · next hl =>
      cases h
      have hle := List.length_take_le n bytes
      exact ⟨bytes.take n, (List.take_append_drop n bytes).symm, trivial, rfl,
        ⟨rfl, by omega⟩, Nat.le_refl _⟩

/-- An item that spares a number pays for being begun, unless reading it fails. -/
private theorem Records.begun (h : Records r reader F (k + 1) 0) :
    Records (.begun r) reader F k 1 where
  outcome := h.outcome
  sound bytes := List.forall_mem_cons.2 ⟨trivial, h.sound bytes⟩
  whole bytes a rest ha := by
    obtain ⟨hb, hF, hi⟩ := h.whole bytes a rest ha
    refine ⟨hb, hF, ?_⟩
    show items (.item :: (r bytes).1) + k ≤ numbers (.item :: (r bytes).1)
    simp only [items, numbers, List.countP_cons, Event.isItem, Event.isNumber] at hi ⊢
    simp only [if_true, Bool.false_eq_true, if_false]
    omega
  part bytes e he := by
    obtain ⟨hb, hi⟩ := h.part bytes e he
    refine ⟨hb, ?_⟩
    show items (.item :: (r bytes).1) ≤ numbers (.item :: (r bytes).1) + 1
    simp only [items, numbers, List.countP_cons, Event.isItem, Event.isNumber] at hi ⊢
    simp only [if_true, Bool.false_eq_true, if_false]
    omega

private theorem records_manyFrom {write : α → List UInt8}
    (h : Records r reader (fun a u => u = write a) (k + 1) 0) (n : Nat) (found : List α) :
    Records (.manyFrom r n found) (readManyFrom reader n found)
      (fun as u => found.reverse.flatMap write ++ u = as.flatMap write ∧
        as.length = found.length + n) 0 1 := by
  induction n generalizing found with
  | zero =>
    refine records_pure ⟨List.append_nil _, ?_⟩
    rw [List.length_reverse]
    rfl
  | succ n ih =>
    rw [readManyFrom_succ]
    refine (h.begun.bind (l := 0) (m := 1) (fun a u hu => ?_) (by omega)).weaken
      (fun _ _ hG => hG) (Nat.zero_le _)
    refine (ih (a :: found)).weaken (fun as v hv => ?_) (Nat.le_refl _)
    rw [List.reverse_cons, List.flatMap_append, List.append_assoc, List.flatMap_singleton, ← hu,
      List.length_cons] at hv
    exact ⟨hv.1, by omega⟩

/-- A list as long as asked for. A debt is left where reading an item fails. -/
private theorem records_many {write : α → List UInt8}
    (h : Records r reader (fun a u => u = write a) (k + 1) 0) (n : Nat) :
    Records (.many r n) (readMany reader n)
      (fun as u => u = as.flatMap write ∧ as.length = n) 0 1 :=
  (records_manyFrom h n []).weaken (fun as u hu => by simpa using hu) (Nat.le_refl _)

end Records

private theorem records_text : Records .text readText (fun s u => u = writeText s) 1 0 := by
  refine (records_varint (by decide)).bind (l := 0) (m := 0) (fun n u hu => ?_) (by decide)
  refine (records_bytes n).bind (l := 0) (m := 0) (fun bytes v hv => ?_) (by decide)
  cases hs : Text.ofBytes? bytes with
  | some s =>
    refine records_pure ?_
    rw [writeText, Text.toBytes_of_ofBytes? hs, hu.1, hv.1, hv.2, List.append_nil]
  | none => exact records_refuse _

private theorem records_variant {α : Type} [BEq α] [LawfulBEq α] {all : List α} (hall : all.Nodup) :
    Records (.variant all) (readVariant all) (fun a u => u = writeVariant all a) 1 0 := by
  refine (records_varint (by decide)).bind (l := 0) (m := 0) (fun n u hu => ?_) (by decide)
  cases ha : all[n]? with
  | some a =>
    refine records_pure ?_
    obtain ⟨hn, rfl⟩ := List.getElem?_eq_some_iff.1 ha
    rw [writeVariant, hall.idxOf_getElem, hu.1, List.append_nil]
  | none => exact records_refuse _

private theorem records_operand :
    Records .operand readOperand (fun n u => u = writeOperand n) 1 0 := by
  refine (records_varint (by decide)).bind (l := 0) (m := 0) (fun n u hu => ?_) (by decide)
  refine records_pure ?_
  have hn : (UInt16.ofNat n).toNat = n := UInt16.toNat_ofNat_of_lt hu.2
  rw [writeOperand, hn, hu.1, List.append_nil]

private theorem records_segment :
    Records (.variant Segment.all) (readVariant Segment.all)
      (fun g u => u = writeVariant Segment.all g) 1 0 :=
  records_variant (by decide)

private theorem records_operator :
    Records (.variant Operator.all) (readVariant Operator.all)
      (fun op u => u = writeVariant Operator.all op) 1 0 :=
  records_variant (by decide)

/-- A field, and what is made of it. -/
private theorem Records.result {α β : Type} {r : Recorder α} {reader : Reader α}
    {F : α → List UInt8 → Prop} {G : β → List UInt8 → Prop} {make : α → β} {k : Nat}
    (h : Records r reader F k 0) (hG : ∀ a u, F a u → G (make a) u) :
    Records (do return make (← r)) (do return make (← reader)) G k 0 :=
  h.bind (l := 0) (m := 0) (fun a u hu => records_pure (by rw [List.append_nil]; exact hG a u hu))
    (Nat.zero_le _)

private theorem records_command :
    Records .command readCommand (fun c u => u = writeCommand c) 1 0 := by
  refine (records_varint (by decide)).bind (l := 0) (m := 0) (fun tag u hu => ?_) (by decide)
  obtain ⟨rfl, -⟩ := hu
  have accessed {make : Segment → UInt16 → Command}
      (hw : ∀ g i, writeCommand (make g i) =
        writeVarint tag ++ (writeVariant Segment.all g ++ writeOperand i)) :
      Records (do return make (← .variant Segment.all) (← .operand))
        (do return make (← readVariant Segment.all) (← readOperand))
        (fun c v => writeVarint tag ++ v = writeCommand c) 0 0 := by
    refine (records_segment.bind (l := 1) (m := 0) (fun g v hv => ?_) (by decide)).weaken
      (fun _ _ h => h) (Nat.zero_le _)
    refine records_operand.result fun i w hi => ?_
    rw [hw, hv, hi]
  have named {make : String → Command}
      (hw : ∀ n, writeCommand (make n) = writeVarint tag ++ writeText n) :
      Records (do return make (← .text)) (do return make (← readText))
        (fun c v => writeVarint tag ++ v = writeCommand c) 0 0 :=
    (records_text.result (fun n v hv => by rw [hw, hv])).weaken (fun _ _ h => h) (Nat.zero_le _)
  have counted {make : String → UInt16 → Command}
      (hw : ∀ n i, writeCommand (make n i) = writeVarint tag ++ (writeText n ++ writeOperand i)) :
      Records (do return make (← .text) (← .operand)) (do return make (← readText) (← readOperand))
        (fun c v => writeVarint tag ++ v = writeCommand c) 0 0 := by
    refine (records_text.bind (l := 1) (m := 0) (fun n v hv => ?_) (by decide)).weaken
      (fun _ _ h => h) (Nat.zero_le _)
    refine records_operand.result fun i w hi => ?_
    rw [hw, hv, hi]
  match tag with
  | 0 => exact accessed fun g i => List.append_assoc _ _ _
  | 1 => exact accessed fun g i => List.append_assoc _ _ _
  | 2 =>
    exact (records_operator.result (fun op v hv => by rw [hv]; rfl)).weaken (fun _ _ h => h)
      (Nat.zero_le _)
  | 3 => exact named fun n => rfl
  | 4 => exact named fun n => rfl
  | 5 => exact named fun n => rfl
  | 6 => exact counted fun n i => List.append_assoc _ _ _
  | 7 => exact counted fun n i => List.append_assoc _ _ _
  | 8 => exact records_pure (List.append_nil _)
  | _ + 9 => exact records_refuse _

private theorem records_located :
    Records .located readLocated (fun l u => u = writeLocated l) 3 0 := by
  refine (records_varint (by decide)).bind (l := 2) (m := 0) (fun line u hu => ?_) (by decide)
  refine records_text.bind (l := 1) (m := 0) (fun text v hv => ?_) (by decide)
  refine records_command.result fun c w hc => ?_
  rw [writeLocated, hu.1, hv, hc, List.append_assoc]

private theorem records_unit : Records .unit readUnit (fun s u => u = writeUnit s) 2 0 := by
  refine records_text.bind (l := 1) (m := 0) (fun name u hu => ?_) (by decide)
  refine (records_varint (by decide)).bind (l := 0) (m := 1) (fun n v hv => ?_) (by decide)
  refine (records_many records_located n).bind (l := 0) (m := 0) (fun ls w hw => ?_) (by decide)
  refine records_pure ?_
  rw [writeUnit, writeMany, hu, hv.1, hw.1, hw.2, List.append_nil]

private theorem records_program : Records .program readProgram (fun p u => u = p.toBytes) 1 0 := by
  refine (records_varint (by decide)).bind (l := 0) (m := 1) (fun n u hu => ?_) (by decide)
  refine (records_many records_unit n).bind (l := 0) (m := 0) (fun us v hv => ?_) (by decide)
  refine records_pure ?_
  rw [Program.toBytes, writeMany, hu.1, hv.1, hv.2, List.append_nil]

/-- No more items are begun than there are bytes, whatever lengths are claimed. -/
private theorem items_le_length {α : Type} {r : Recorder α} {reader : Reader α}
    {F : α → List UInt8 → Prop} {k : Nat} (h : Records r reader F k 0) (bytes : List UInt8) :
    items (r bytes).1 ≤ bytes.length := by
  have hn := numbers_le_length (h.sound bytes)
  cases hr : (r bytes).2 with
  | ok pair =>
    obtain ⟨hb, -, hi⟩ := h.whole bytes pair.1 pair.2 hr
    have hl := congrArg List.length hb
    rw [List.length_append] at hl
    omega
  | error e =>
    obtain ⟨hb, hi⟩ := h.part bytes e hr
    have hl := hb.length_le
    omega

private theorem one_le_length_writeVarint (n : Nat) : 1 ≤ (writeVarint n).length := by
  rw [writeVarint]
  split
  · exact Nat.le_refl _
  · exact Nat.le_add_left _ _

/-- A command takes a byte, and a unit another. -/
private theorem length_writeUnit_le (u : SourceUnit) :
    u.commands.length < (writeUnit u).length := by
  have hl : ∀ ls : List Located, ls.length ≤ (ls.flatMap writeLocated).length := by
    intro ls
    induction ls with
    | nil => exact Nat.le_refl _
    | cons l ls ih =>
      have hline := one_le_length_writeVarint l.line
      rw [List.flatMap_cons, writeLocated]
      simp only [List.length_append, List.length_cons]
      omega
  have hn := one_le_length_writeVarint u.commands.length
  have hls := hl u.commands
  rw [writeUnit, writeMany]
  simp only [List.length_append]
  omega

end Binary

namespace Program
open Binary

private theorem units_and_commands_lt (p : Program) :
    p.units.length + p.commandCount < p.toBytes.length := by
  have hu : ∀ us : List SourceUnit,
      us.length + (us.flatMap (·.commands)).length ≤ (us.flatMap writeUnit).length := by
    intro us
    induction us with
    | nil => exact Nat.le_refl _
    | cons u us ih =>
      have hlt := length_writeUnit_le u
      simp only [List.flatMap_cons, List.length_append, List.length_cons]
      omega
  have hn := one_le_length_writeVarint p.units.length
  have hus := hu p.units
  rw [toBytes, writeMany, List.length_append, commandCount]
  omega

/-- Decoding is bounded by the bytes, whatever they claim, and what is decoded is encoded in no more
bytes than it took: in the same ones just if no number in them has a group more than it needs. -/
theorem decoding_normalises (bytes : List UInt8) :
    let events := (Recorder.program bytes).1
    (Recorder.program bytes).2 = readProgram bytes ∧ items events ≤ bytes.length ∧
    ((∃ p, ofBytes bytes = .ok p) ∨
      ∃ e ∈ [Fault.endOfData, .badVarint, .badText, .unknownVariant], ofBytes bytes = .error e) ∧
    ∀ p, ofBytes bytes = .ok p → ∃ front rest, bytes = front ++ rest ∧ front = spelled events ∧
      readProgram bytes = .ok (p, rest) ∧
      p.units.length + p.commandCount < front.length ∧ p.toBytes.length ≤ front.length ∧
      ofBytes p.toBytes = .ok p ∧
      (p.toBytes = front ↔ ∀ e ∈ events, e.Minimal) := by
  intro events
  have hsound := records_program.sound bytes
  refine ⟨records_program.outcome bytes, items_le_length records_program bytes, ?_, fun p hp => ?_⟩
  · cases ofBytes bytes with
    | ok p => exact .inl ⟨p, rfl⟩
    | error e => exact .inr ⟨e, by cases e <;> decide, rfl⟩
  · obtain ⟨rest, hr⟩ : ∃ rest, readProgram bytes = .ok (p, rest) := by
      rw [ofBytes] at hp
      cases hr : readProgram bytes with
      | ok pair =>
        rw [hr] at hp
        obtain rfl := Except.ok.inj hp
        exact ⟨pair.2, rfl⟩
      | error e =>
        rw [hr] at hp
        cases hp
    have hrecorded := (records_program.outcome bytes).trans hr
    obtain ⟨hb, hw, -⟩ := records_program.whole bytes p rest hrecorded
    have hle := length_written_le hsound
    have hlt := units_and_commands_lt p
    have hagain := ofBytes_toBytes_append (writable_of_ofBytes hp) []
    rw [List.append_nil] at hagain
    rw [hw] at hle
    refine ⟨_, rest, hb, rfl, hr, by omega, hle, hagain, ?_⟩
    rw [← hw]
    exact written_eq_spelled_iff hsound

/-- One unit with one command. The count of units and the number of the line have a group more than
they need, and a byte is left behind. -/
def padded : List UInt8 := [0x81, 0x00, 0x00, 0x01, 0x85, 0x00, 0x00, 0x02, 0x00, 0xFF]

def boundless : List UInt8 := List.replicate 9 0xFF ++ [0x01, 0x00, 0x07]

/-- What is padded is read as well, and is not written again; what is not there is not looked
for. -/
theorem padded_normalises :
    ∃ p, ofBytes padded = .ok p ∧ p.toBytes.length ≤ 9 ∧ ofBytes p.toBytes = .ok p ∧
      (¬∀ e ∈ (Recorder.program padded).1, e.Minimal) ∧
      ofBytes boundless = .error .endOfData ∧ items (Recorder.program boundless).1 ≤ 12 := by
  have hp : ofBytes padded = .ok ⟨[⟨"", [⟨5, "", .operate .add⟩]⟩]⟩ := by rfl
  obtain ⟨-, -, -, hread⟩ := decoding_normalises padded
  obtain ⟨-, hitems, -⟩ := decoding_normalises boundless
  obtain ⟨front, rest, -, hfront, -, -, hle, hagain, hminimal⟩ := hread _ hp
  have hspelled : spelled (Recorder.program padded).1 = padded.take 9 := by decide
  rw [hfront, hspelled] at hle hminimal
  refine ⟨_, hp, hle, hagain, fun hm => ?_, by rfl, hitems⟩
  exact absurd (hminimal.2 hm) (by decide +kernel)

end Program
end StackLowering
