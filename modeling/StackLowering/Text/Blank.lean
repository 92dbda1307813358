/-! White space is what Unicode calls White_Space, which is more than the ASCII
blanks of `Char.isWhitespace`. -/
namespace StackLowering.Text

/-- Whether a character has the property White_Space. -/
def isBlank (c : Char) : Bool :=
  let n := c.toNat
  (0x09 ≤ n && n ≤ 0x0D) || n == 0x20 || n == 0x85 || n == 0xA0 || n == 0x1680 ||
    (0x2000 ≤ n && n ≤ 0x200A) || n == 0x2028 || n == 0x2029 || n == 0x202F ||
    n == 0x205F || n == 0x3000

/-- No ASCII character behind the space is white space. -/
theorem isBlank_eq_false {c : Char} (hl : 0x20 < c.toNat) (hh : c.toNat < 0x80) :
    isBlank c = false := by
  simp only [isBlank, Bool.or_eq_false_iff, Bool.and_eq_false_iff, beq_eq_false_iff_ne,
    decide_eq_false_iff_not]
  omega

section
variable {run rest : List Char}

/-- What has no blank in it ends at the next blank. -/
theorem takeWhile_run (hr : ∀ c ∈ run, isBlank c = false)
    (hs : ∀ c, rest.head? = some c → isBlank c) : (run ++ rest).takeWhile (!isBlank ·) = run := by
  rw [List.takeWhile_append_of_pos (by simpa using hr)]
  cases rest with
  | nil => simp
  | cons c cs => simp [hs c rfl]

theorem dropWhile_run (hr : ∀ c ∈ run, isBlank c = false)
    (hs : ∀ c, rest.head? = some c → isBlank c) : (run ++ rest).dropWhile (!isBlank ·) = rest := by
  rw [List.dropWhile_append_of_pos (by simpa using hr)]
  cases rest with
  | nil => simp
  | cons c cs => simp [hs c rfl]

end

def trim (cs : List Char) : List Char :=
  ((cs.dropWhile isBlank).reverse.dropWhile isBlank).reverse

private theorem dropWhile_isBlank {cs : List Char}
    (h : ∀ c, cs.head? = some c → isBlank c = false) : cs.dropWhile isBlank = cs := by
  cases cs with
  | nil => rfl
  | cons c cs => rw [List.dropWhile_cons_of_neg (by simp [h c rfl])]

private theorem head?_dropWhile_isBlank {cs : List Char} {c : Char}
    (h : (cs.dropWhile isBlank).head? = some c) : isBlank c = false := by
  have hc := List.head?_dropWhile_not isBlank cs
  rw [h] at hc
  exact hc

theorem getLast?_trim {cs : List Char} {c : Char} (h : (trim cs).getLast? = some c) :
    isBlank c = false := by
  rw [trim, List.getLast?_reverse] at h
  exact head?_dropWhile_isBlank h

theorem head?_trim {cs : List Char} {c : Char} (h : (trim cs).head? = some c) :
    isBlank c = false := by
  rw [trim, List.head?_reverse] at h
  obtain ⟨front, hs⟩ := List.dropWhile_suffix isBlank (l := (cs.dropWhile isBlank).reverse)
  refine head?_dropWhile_isBlank (?_ : (cs.dropWhile isBlank).head? = some c)
  rw [← List.getLast?_reverse, ← hs, List.getLast?_append, h]
  rfl

/-- A text that neither starts nor ends with a blank is kept. -/
theorem trim_eq_self {cs : List Char} (hs : ∀ c, cs.head? = some c → isBlank c = false)
    (he : ∀ c, cs.getLast? = some c → isBlank c = false) : trim cs = cs := by
  rw [trim, dropWhile_isBlank hs, dropWhile_isBlank (by simpa using he), List.reverse_reverse]

/-- What a text starts with stays, unless blanks are at its ends. -/
theorem prefix_trim {front : List Char} (hs : ∀ c, front.head? = some c → isBlank c = false)
    (he : ∀ c, front.getLast? = some c → isBlank c = false) (hne : front ≠ []) (back : List Char) :
    front <+: trim (front ++ back) := by
  have hh : ∀ c, (front ++ back).head? = some c → isBlank c = false := by
    obtain ⟨c, cs, rfl⟩ := List.exists_cons_of_ne_nil hne
    exact hs
  have hr : front.reverse.dropWhile isBlank = front.reverse := dropWhile_isBlank (by simpa using he)
  rw [trim, dropWhile_isBlank hh, List.reverse_append, List.dropWhile_append, hr]
  split
  · exact ⟨[], by rw [List.append_nil, List.reverse_reverse]⟩
  · rw [List.reverse_append, List.reverse_reverse]
    exact List.prefix_append _ _

end StackLowering.Text
