import StackLowering.Text.Blank
import StackLowering.Text.Decimal
/-! Names that the assembler takes, and the labels that generated code keeps for itself. -/
namespace StackLowering

def isSymbolChar (c : Char) : Bool :=
  c.isAlphanum || c == '_' || c == '.' || c == '$' || c == ':'

def isSymbol (name : String) : Bool :=
  match name.toList with
  | [] => false
  | c :: cs => !c.isDigit && (c :: cs).all isSymbolChar

/-- Whether a name can be the front of a symbol. The empty one can. -/
def isSymbolFront (name : String) : Bool :=
  !name.toList.head?.any Char.isDigit && name.toList.all isSymbolChar

theorem isSymbolChar_of_mem {name : String} (h : isSymbol name) {c : Char} (hc : c ∈ name.toList) :
    isSymbolChar c := by
  rw [isSymbol] at h
  cases ht : name.toList with
  | nil =>
    rw [ht] at hc
    cases hc
  | cons d ds =>
    rw [ht, Bool.and_eq_true, List.all_eq_true] at h
    exact h.2 c (ht ▸ hc)

theorem ne_nil_of_isSymbol {name : String} (h : isSymbol name) : name.toList ≠ [] := by
  intro hn
  rw [isSymbol, hn] at h
  cases h

/-- A symbol goes on with symbol characters of any kind. -/
theorem isSymbol_append {name rest : String} (h : isSymbol name)
    (hr : ∀ c ∈ rest.toList, isSymbolChar c) : isSymbol (name ++ rest) := by
  rw [isSymbol] at h ⊢
  rw [String.toList_append]
  cases ht : name.toList with
  | nil =>
    rw [ht] at h
    cases h
  | cons c cs =>
    rw [ht, Bool.and_eq_true] at h
    rw [List.cons_append, Bool.and_eq_true, ← List.cons_append, List.all_append, h.2,
      List.all_eq_true.2 hr]
    exact ⟨h.1, rfl⟩

theorem isSymbolFront_of_isSymbol {name : String} (h : isSymbol name) : isSymbolFront name := by
  rw [isSymbol] at h
  rw [isSymbolFront]
  cases ht : name.toList with
  | nil => rfl
  | cons c cs => rwa [ht] at h

/-- What may stand in front of a symbol for the whole to be one. -/
theorem isSymbol_append_iff {front rest : String} (h : isSymbol rest) :
    isSymbol (front ++ rest) ↔ isSymbolFront front := by
  have hr : rest.toList.all isSymbolChar := List.all_eq_true.2 fun c hc => isSymbolChar_of_mem h hc
  rw [isSymbolFront]
  cases ht : front.toList with
  | nil =>
    have he : front ++ rest = rest := by
      apply String.toList_inj.1
      rw [String.toList_append, ht, List.nil_append]
    rw [he, h]
    rfl
  | cons c cs =>
    rw [isSymbol, String.toList_append, ht, List.cons_append]
    dsimp only
    rw [← List.cons_append, List.all_append, hr, Bool.and_true]
    rfl

/-- A symbol is not a number. -/
theorem isDecimal_of_isSymbol {name : String} (h : isSymbol name) :
    Text.isDecimal name.toList = false := by
  rw [isSymbol] at h
  cases ht : name.toList with
  | nil => rfl
  | cons c cs =>
    rw [ht, Bool.and_eq_true, Bool.not_eq_true'] at h
    exact Text.isDecimal_of_mem List.mem_cons_self h.1

/-- The digits of a number are symbol characters. -/
theorem isSymbolChar_of_mem_toString {c : Char} {n : Nat} (h : c ∈ (toString n).toList) :
    isSymbolChar c := by
  have hd := Text.isDecimal_toString n
  rw [Text.isDecimal, Bool.and_eq_true, List.all_eq_true] at hd
  simp [isSymbolChar, Char.isAlphanum, hd.2 c h]

theorem isBlank_of_isSymbolChar {c : Char} (h : isSymbolChar c = true) :
    Text.isBlank c = false := by
  have hc : 0x20 < c.toNat ∧ c.toNat < 0x80 := by
    have hA : 'A'.val.toNat = 65 := rfl
    have hZ : 'Z'.val.toNat = 90 := rfl
    have ha : 'a'.val.toNat = 97 := rfl
    have hz : 'z'.val.toNat = 122 := rfl
    have h0 : '0'.val.toNat = 48 := rfl
    have h9 : '9'.val.toNat = 57 := rfl
    have hu : c.isUpper = decide ('A'.val ≤ c.val ∧ c.val ≤ 'Z'.val) := rfl
    have hl : c.isLower = (decide ('a'.val ≤ c.val) && decide (c.val ≤ 'z'.val)) := rfl
    have hd : c.isDigit = (decide ('0'.val ≤ c.val) && decide (c.val ≤ '9'.val)) := rfl
    have hn : c.isAlphanum = (c.isUpper || c.isLower || c.isDigit) := rfl
    simp only [isSymbolChar, hn, hu, hl, hd, Bool.or_eq_true, Bool.and_eq_true,
      decide_eq_true_eq, beq_iff_eq, UInt32.le_iff_toNat_le] at h
    rw [Char.toNat]
    rcases h with (((((h | h) | h) | rfl) | rfl) | rfl) | rfl
    · omega
    · omega
    · omega
    all_goals decide
  exact Text.isBlank_eq_false hc.1 hc.2

inductive LabelKind where
  /-- Where a comparison goes when it holds. -/
  | holds
  /-- Where the two branches of a comparison meet. -/
  | done
  /-- Where a called function comes back to. -/
  | back
  deriving DecidableEq

namespace LabelKind

def all : List LabelKind := [holds, done, back]

def stem : LabelKind → String
  | holds => "LABEL_TRUE_"
  | done => "LABEL_END_"
  | back => "RETURN_LABEL_"

end LabelKind

/-- Whether a name starts as generated labels do, with or without a number behind. -/
def isReserved (name : String) : Bool :=
  LabelKind.all.any fun kind => kind.stem.toList.isPrefixOf name.toList

end StackLowering
