/-! Texts as bytes in UTF-8, and back again. Bytes stand in the order of the texts. -/
namespace StackLowering.Text

def toBytes (s : String) : List UInt8 := s.toUTF8.data.toList

def ofBytes? (bytes : List UInt8) : Option String := String.fromUTF8? ⟨bytes.toArray⟩

theorem length_toBytes (s : String) : (toBytes s).length = s.utf8ByteSize := Array.length_toList

theorem ofBytes?_toBytes (s : String) : ofBytes? (toBytes s) = some s := by
  have h : (⟨(toBytes s).toArray⟩ : ByteArray) = s.toByteArray := rfl
  rw [ofBytes?, h, String.fromUTF8?, dif_pos s.isValidUTF8]
  rfl

theorem toBytes_of_ofBytes? {bytes : List UInt8} {s : String} (h : ofBytes? bytes = some s) :
    toBytes s = bytes := by
  rw [ofBytes?, String.fromUTF8?] at h
  split at h
  · cases h
    rfl
  · cases h

theorem toBytes_eq (s : String) : toBytes s = s.toList.flatMap String.utf8EncodeChar := by
  have h : s.toByteArray = (s.toList.flatMap String.utf8EncodeChar).toByteArray :=
    String.utf8Encode_toList.symm
  rw [toBytes]
  show s.toByteArray.data.toList = _
  rw [h, List.data_toByteArray]

theorem ofBytes?_eq_some_iff {bytes : List UInt8} {s : String} :
    ofBytes? bytes = some s ↔ toBytes s = bytes :=
  ⟨toBytes_of_ofBytes?, fun h => h ▸ ofBytes?_toBytes s⟩

theorem toBytes_inj {s t : String} : toBytes s = toBytes t ↔ s = t := by
  rw [← ofBytes?_eq_some_iff, ofBytes?_toBytes, Option.some.injEq, eq_comm]

theorem toBytes_append (s t : String) : toBytes (s ++ t) = toBytes s ++ toBytes t := by
  rw [toBytes_eq, toBytes_eq, toBytes_eq, String.toList_append, List.flatMap_append]

/-- Characters can be cut in front of a byte that begins one. -/
private theorem exists_append_of_first {b : UInt8} (hb : b.IsUTF8FirstByte) {cs : List Char}
    {front back : List UInt8} (h : cs.flatMap String.utf8EncodeChar = front ++ b :: back) :
    ∃ ds es, cs = ds ++ es ∧ ds.flatMap String.utf8EncodeChar = front := by
  induction cs generalizing front with
  | nil => simp at h
  | cons c cs ih =>
    rw [List.flatMap_cons] at h
    rcases List.append_eq_append_iff.1 h with ⟨rest, rfl, hrest⟩ | ⟨rest, hc, hrest⟩
    · obtain ⟨ds, es, rfl, rfl⟩ := ih hrest
      exact ⟨c :: ds, es, rfl, rfl⟩
    · cases rest with
      | nil =>
        rw [List.append_nil] at hc
        exact ⟨[c], cs, rfl, by simp [hc]⟩
      | cons b' rest =>
        obtain ⟨rfl, -⟩ := List.cons.inj hrest
        have hi : front.length < (String.utf8EncodeChar c).length := by simp [hc]
        have hget : (String.utf8EncodeChar c)[front.length] = b := by simp [hc]
        have hf := UInt8.isUTF8FirstByte_getElem_utf8EncodeChar.1 (hget ▸ hb)
        exact ⟨[], c :: cs, rfl, (List.eq_nil_of_length_eq_zero hf).symm⟩

theorem suffix_toBytes_iff {s t : String} : toBytes t <:+ toBytes s ↔ ∃ r, s = r ++ t := by
  constructor
  · rintro ⟨front, h⟩
    cases ht : t.toList with
    | nil => exact ⟨s, by rw [String.toList_eq_nil_iff.1 ht, String.append_empty]⟩
    | cons c cs =>
      obtain ⟨b, bs, hb⟩ := List.exists_cons_of_ne_nil (String.utf8EncodeChar_ne_nil (c := c))
      have hfirst : b.IsUTF8FirstByte := by
        have hi : 0 < (String.utf8EncodeChar c).length := by simp [hb]
        have hget : (String.utf8EncodeChar c)[0] = b := by simp [hb]
        exact hget ▸ UInt8.isUTF8FirstByte_getElem_utf8EncodeChar.2 rfl
      have hs : s.toList.flatMap String.utf8EncodeChar =
          front ++ b :: (bs ++ cs.flatMap String.utf8EncodeChar) := by
        rw [← toBytes_eq, ← h, toBytes_eq t, ht, List.flatMap_cons, hb, List.cons_append]
      obtain ⟨ds, es, hds, hfront⟩ := exists_append_of_first hfirst hs
      have hr : s = String.ofList ds ++ String.ofList es := by
        rw [← String.ofList_append, ← hds, String.ofList_toList]
      have hd : toBytes (String.ofList ds) = front := by
        rw [toBytes_eq, String.toList_ofList, hfront]
      rw [hr, toBytes_append, hd] at h
      exact ⟨_, hr.trans (congrArg _ (toBytes_inj.1 (List.append_cancel_left h)).symm)⟩
  · rintro ⟨r, rfl⟩
    exact ⟨toBytes r, (toBytes_append r t).symm⟩

/-- A number in groups of six bits. -/
private theorem eq_groups (n : Nat) :
    n = 64 * (64 * (64 * (n / 262144) + n / 4096 % 64) + n / 64 % 64) + n % 64 := by
  omega

private theorem ofNat_lt_iff {m n : Nat} (hm : m < 256) (hn : n < 256) :
    UInt8.ofNat m < UInt8.ofNat n ↔ m < n := by
  rw [UInt8.lt_iff_toNat_lt, UInt8.toNat_ofNat', UInt8.toNat_ofNat', Nat.mod_eq_of_lt hm,
    Nat.mod_eq_of_lt hn]

private theorem ofNat_eq_iff {m n : Nat} (hm : m < 256) (hn : n < 256) :
    UInt8.ofNat m = UInt8.ofNat n ↔ m = n := by
  rw [← UInt8.toNat_inj, UInt8.toNat_ofNat', UInt8.toNat_ofNat', Nat.mod_eq_of_lt hm,
    Nat.mod_eq_of_lt hn]

/-- The bytes of a smaller character are smaller, whatever follows. -/
private theorem encoded_lt {c d : Char} (h : c < d) (rest rest' : List UInt8) :
    String.utf8EncodeChar c ++ rest < String.utf8EncodeChar d ++ rest' := by
  have hv : c.val.toNat < d.val.toNat := h
  have hd : d.val.toNat < 0x110000 := by
    rcases d.valid with h | h
    · exact Nat.lt_trans h (by decide)
    · exact h.2
  have hc := eq_groups c.val.toNat
  have hd' := eq_groups d.val.toNat
  unfold String.utf8EncodeChar
  generalize c.val.toNat = m at *
  generalize d.val.toNat = n at *
  have hm : m / 262144 % 8 = m / 262144 := by omega
  have hn : n / 262144 % 8 = n / 262144 := by omega
  dsimp only
  rw [hm, hn]
  -- The first byte tells how many follow; among as many, the groups are compared in turn.
  repeat' split
  all_goals
    simp (disch := omega) only [List.cons_append, List.cons_lt_cons_iff, ofNat_lt_iff,
      ofNat_eq_iff]
    omega

private theorem encoded_chars_lt {cs ds : List Char} (h : cs < ds) :
    cs.flatMap String.utf8EncodeChar < ds.flatMap String.utf8EncodeChar := by
  induction cs generalizing ds with
  | nil =>
    cases ds with
    | nil => exact absurd h (List.lt_irrefl [])
    | cons d ds =>
      obtain ⟨b, bs, hb⟩ := List.exists_cons_of_ne_nil (String.utf8EncodeChar_ne_nil (c := d))
      rw [List.flatMap_cons, hb]
      exact List.nil_lt_cons ..
  | cons c cs ih =>
    cases ds with
    | nil => exact absurd h (List.not_lt_nil _)
    | cons d ds =>
      rw [List.flatMap_cons, List.flatMap_cons]
      rcases List.cons_lt_cons_iff.1 h with hc | ⟨rfl, hs⟩
      · exact encoded_lt hc ..
      · exact List.append_left_lt (ih hs)

/-- The order of texts is that of their bytes. -/
private theorem toBytes_lt {s t : String} (h : s < t) : toBytes s < toBytes t := by
  rw [toBytes_eq, toBytes_eq]
  exact encoded_chars_lt (String.lt_iff.1 h)

theorem toBytes_le_iff {s t : String} : toBytes s ≤ toBytes t ↔ s ≤ t := by
  rw [← List.not_lt, ← String.not_lt]
  refine ⟨mt toBytes_lt, fun h hb => ?_⟩
  by_cases ht : t ≤ s
  · rw [String.le_antisymm ht (String.not_lt.1 h)] at hb
    exact List.lt_irrefl _ hb
  · exact List.lt_asymm hb (toBytes_lt (String.not_le.1 ht))

end StackLowering.Text
