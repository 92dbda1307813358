import StackLowering.Text.Utf8
/-! Bytes as text also where they are not UTF-8. What is none stands as U+FFFD, one for each longest
part that begins a character and does not end it, and so different bytes may come to one text. -/
namespace StackLowering.Text

def replacement : Char := '\uFFFD'

def firstChar? (bytes : List UInt8) : Option Char :=
  ByteArray.utf8DecodeChar? ⟨bytes.toArray⟩ 0

/-- Whether a byte may follow the first one of a character of three or four bytes. -/
def maySecond (first second : UInt8) : Bool :=
  match first with
  | 0xE0 => 0xA0 ≤ second && second ≤ 0xBF
  | 0xED => 0x80 ≤ second && second ≤ 0x9F
  | 0xF0 => 0x90 ≤ second && second ≤ 0xBF
  | 0xF4 => 0x80 ≤ second && second ≤ 0x8F
  | _ => 0xE0 < first && first < 0xF4 && 0x80 ≤ second && second ≤ 0xBF

/-- How many bytes are passed over where no character stands first. -/
def brokenLength : List UInt8 → Nat
  | first :: second :: rest =>
    if maySecond first second then
      match rest with
      | third :: _ => if 0xF0 ≤ first && 0x80 ≤ third && third ≤ 0xBF then 3 else 2
      | [] => 2
    else 1
  | _ => 1

private theorem brokenLength_pos (bytes : List UInt8) : 0 < brokenLength bytes := by
  fun_cases brokenLength bytes <;> simp

def lossyChars : List UInt8 → List Char
  | [] => []
  | b :: bs =>
    match firstChar? (b :: bs) with
    | some c => c :: lossyChars ((b :: bs).drop c.utf8Size)
    | none => replacement :: lossyChars ((b :: bs).drop (brokenLength (b :: bs)))
termination_by bytes => bytes.length
decreasing_by
  · have := c.utf8Size_pos
    simp only [List.length_drop, List.length_cons]
    omega
  · have := brokenLength_pos (b :: bs)
    simp only [List.length_drop, List.length_cons]
    omega

def lossy (bytes : List UInt8) : String := String.ofList (lossyChars bytes)

private theorem firstChar?_append (c : Char) (bytes : List UInt8) :
    firstChar? (String.utf8EncodeChar c ++ bytes) = some c := by
  have h : (⟨(String.utf8EncodeChar c ++ bytes).toArray⟩ : ByteArray) =
      (String.utf8EncodeChar c).toByteArray ++ bytes.toByteArray := by
    rw [← List.toByteArray_append]
    exact ByteArray.ext (List.data_toByteArray).symm
  rw [firstChar?, h, ByteArray.utf8DecodeChar?_utf8EncodeChar_append]

private theorem lossyChars_encoded (cs : List Char) :
    lossyChars (cs.flatMap String.utf8EncodeChar) = cs := by
  induction cs with
  | nil => rw [List.flatMap_nil, lossyChars]
  | cons c cs ih =>
    rw [List.flatMap_cons]
    obtain ⟨b, bs, hb⟩ := List.exists_cons_of_ne_nil (String.utf8EncodeChar_ne_nil (c := c))
    have hc := firstChar?_append c (cs.flatMap String.utf8EncodeChar)
    have hd : (String.utf8EncodeChar c ++ cs.flatMap String.utf8EncodeChar).drop c.utf8Size =
        cs.flatMap String.utf8EncodeChar := by
      rw [← String.length_utf8EncodeChar, List.drop_left]
    rw [hb, List.cons_append] at hc hd ⊢
    rw [lossyChars, hc]
    dsimp only
    rw [hd, ih]

/-- Text is shown as it is. -/
theorem lossy_toBytes (s : String) : lossy (toBytes s) = s := by
  rw [lossy, toBytes_eq, lossyChars_encoded, String.ofList_toList]

/-- Three bytes of a character of four are one replacement, and bytes that begin none are one
each. -/
example : lossy [0xF0, 0x9F, 0x98, 0x41, 0xFF, 0xFE] = "\uFFFDA\uFFFD\uFFFD" := by
  decide +kernel

end StackLowering.Text
