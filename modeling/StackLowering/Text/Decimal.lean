/-! Decimal numbers as they are read and as they are lined up in columns. -/
namespace StackLowering.Text

def decimal (digits : List Char) : Nat := Nat.ofDigitChars 10 digits 0

def isDecimal (word : List Char) : Bool :=
  !word.isEmpty && word.all Char.isDigit

theorem decimal_toString (n : Nat) : decimal (toString n).toList = n := by
  rw [Nat.toString_eq_repr, Nat.toList_repr]
  exact Nat.ofDigitChars_toDigits (by decide) (by decide)

theorem isDecimal_toString (n : Nat) : isDecimal (toString n).toList := by
  rw [Nat.toString_eq_repr, Nat.toList_repr, isDecimal, Bool.and_eq_true, List.all_eq_true]
  exact ⟨by simp [Nat.toDigits_ne_nil],
    fun _ h => Nat.isDigit_of_mem_toDigits (by decide) (by decide) h⟩

theorem isDecimal_of_mem {word : List Char} {c : Char} (hc : c ∈ word) (hd : c.isDigit = false) :
    isDecimal word = false := by
  rw [isDecimal, Bool.and_eq_false_iff, List.all_eq_false]
  exact .inr ⟨c, hc, by simp [hd]⟩

theorem toList_toString_ne_nil (n : Nat) : (toString n).toList ≠ [] := by
  rw [Nat.toString_eq_repr, Nat.toList_repr]
  exact Nat.toDigits_ne_nil

def zeroPadded (width n : Nat) : String :=
  String.ofList ((toString n).toList.leftpad width '0')

theorem isDecimal_zeroPadded (width n : Nat) : isDecimal (zeroPadded width n).toList := by
  have hd := isDecimal_toString n
  rw [isDecimal, Bool.and_eq_true] at hd
  rw [isDecimal, zeroPadded, String.toList_ofList, List.leftpad, List.all_append, hd.2]
  simp

def leftAligned (width : Nat) (word : String) : String :=
  String.ofList (word.toList.rightpad width ' ')

end StackLowering.Text
