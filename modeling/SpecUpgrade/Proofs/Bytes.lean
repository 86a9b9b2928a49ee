import SpecUpgrade.Text.Offset
import SpecUpgrade.Text.Utf8

/-!
The bytes of a text. A slice between two boundaries has the bytes between the two offsets, so what
is said of byte offsets can be read off the characters and the other way round. The order of texts
is that of their bytes.
-/

namespace SpecUpgrade.Text

/-- The UTF-8 form of a text. -/
def bytes (cs : List Char) : List UInt8 := cs.flatMap String.utf8EncodeChar

@[simp] theorem bytes_nil : bytes [] = [] := rfl

theorem bytes_cons (c : Char) (cs : List Char) :
    bytes (c :: cs) = String.utf8EncodeChar c ++ bytes cs := rfl

@[simp] theorem bytes_append (xs ys : List Char) : bytes (xs ++ ys) = bytes xs ++ bytes ys := by
  simp [bytes]

@[simp] theorem length_bytes (cs : List Char) : (bytes cs).length = byteLength cs := by
  induction cs with
  | nil => rfl
  | cons c cs ih => simp [bytes_cons, byteLength, ih]

theorem byteLength_pos {c : Char} {cs : List Char} : 0 < byteLength (c :: cs) := by
  have := c.utf8Size_pos
  simp only [byteLength]
  omega

/-! ## Digits -/

theorem isDigit_of_mem_repr {n : Nat} {c : Char} (h : c ∈ (Nat.repr n).toList) :
    c.isDigit = true := by
  rw [Nat.toList_repr] at h
  exact Nat.isDigit_of_mem_toDigits (by decide) (by decide) h

/-! ## Boundaries -/

@[simp] theorem isBoundary_zero (cs : List Char) : isBoundary cs 0 = true := by
  cases cs <;> rfl

theorem isBoundary_cons {c : Char} {cs : List Char} {n : Nat} (hn : 0 < n) :
    isBoundary (c :: cs) n = true ↔ c.utf8Size ≤ n ∧ isBoundary cs (n - c.utf8Size) = true := by
  cases n with
  | zero => omega
  | succ n => simp [isBoundary]

/-- The end of a text is a boundary, also when more text follows. -/
theorem isBoundary_byteLength (xs ys : List Char) :
    isBoundary (xs ++ ys) (byteLength xs) = true := by
  induction xs with
  | nil => simp [byteLength]
  | cons c xs ih =>
    rw [List.cons_append, isBoundary_cons byteLength_pos]
    simp only [byteLength]
    exact ⟨by omega, by rw [Nat.add_sub_cancel_left]; exact ih⟩

theorem isBoundary_length (cs : List Char) : isBoundary cs (byteLength cs) = true := by
  simpa using isBoundary_byteLength cs []

theorem le_byteLength_of_isBoundary {cs : List Char} {n : Nat} (h : isBoundary cs n = true) :
    n ≤ byteLength cs := by
  have hsplit := congrArg byteLength (takeTo_append_dropTo n cs)
  rw [byteLength_append, byteLength_takeTo h] at hsplit
  omega

/-- Behind a boundary the boundaries are those of the rest. -/
theorem isBoundary_dropTo {cs : List Char} {a b : Nat} (ha : isBoundary cs a = true)
    (hab : a ≤ b) : isBoundary (dropTo a cs) (b - a) = isBoundary cs b := by
  induction cs generalizing a b with
  | nil =>
    cases a with
    | zero => rfl
    | succ a => simp [isBoundary] at ha
  | cons c cs ih =>
    cases a with
    | zero => rfl
    | succ a =>
      obtain ⟨hc, ha⟩ := (isBoundary_cons (Nat.succ_pos a)).mp ha
      have hb : isBoundary (c :: cs) b = isBoundary cs (b - c.utf8Size) := by
        rw [Bool.eq_iff_iff, isBoundary_cons (by omega)]
        exact and_iff_right (by omega)
      rw [hb, ← ih ha (by omega), dropTo]
      congr 1
      omega

/-! ## Slices -/

theorem bytes_takeTo {cs : List Char} {n : Nat} (h : isBoundary cs n = true) :
    bytes (takeTo n cs) = (bytes cs).take n := by
  have hsplit : bytes cs = bytes (takeTo n cs) ++ bytes (dropTo n cs) := by
    rw [← bytes_append, takeTo_append_dropTo]
  rw [hsplit, List.take_left' (by rw [length_bytes, byteLength_takeTo h])]

theorem bytes_dropTo {cs : List Char} {n : Nat} (h : isBoundary cs n = true) :
    bytes (dropTo n cs) = (bytes cs).drop n := by
  have hsplit : bytes cs = bytes (takeTo n cs) ++ bytes (dropTo n cs) := by
    rw [← bytes_append, takeTo_append_dropTo]
  rw [hsplit, List.drop_left' (by rw [length_bytes, byteLength_takeTo h])]

theorem bytes_slice {cs : List Char} {a b : Nat} (ha : isBoundary cs a = true)
    (hb : isBoundary cs b = true) (hab : a ≤ b) :
    bytes (slice cs a b) = ((bytes cs).drop a).take (b - a) := by
  have hrest : isBoundary (dropTo a cs) (b - a) = true := by rw [isBoundary_dropTo ha hab, hb]
  rw [slice, bytes_takeTo hrest, bytes_dropTo ha]

theorem takeTo_byteLength (front rest : List Char) :
    takeTo (byteLength front) (front ++ rest) = front := by
  induction front with
  | nil => cases rest <;> rfl
  | cons c front ih =>
    obtain ⟨n, hn⟩ : ∃ n, byteLength (c :: front) = n + 1 := Nat.exists_eq_add_one.mpr byteLength_pos
    have hrest : n + 1 - c.utf8Size = byteLength front := by
      rw [← hn, byteLength, Nat.add_sub_cancel_left]
    rw [hn, List.cons_append, takeTo, hrest, ih]

theorem dropTo_byteLength (front rest : List Char) :
    dropTo (byteLength front) (front ++ rest) = rest := by
  have hsplit := takeTo_append_dropTo (byteLength front) (front ++ rest)
  rw [takeTo_byteLength] at hsplit
  exact List.append_cancel_left hsplit

theorem takeTo_of_byteLength_le {cs : List Char} {n : Nat} (h : byteLength cs ≤ n) :
    takeTo n cs = cs := by
  induction cs generalizing n with
  | nil => cases n <;> rfl
  | cons c cs ih =>
    cases n with
    | zero =>
      have : 0 < byteLength (c :: cs) := byteLength_pos
      omega
    | succ n =>
      simp only [byteLength] at h
      rw [takeTo, ih (by omega)]

theorem slice_to_end {cs : List Char} {a : Nat} (ha : isBoundary cs a = true) :
    slice cs a (byteLength cs) = dropTo a cs := by
  have hsplit := congrArg byteLength (takeTo_append_dropTo a cs)
  rw [byteLength_append, byteLength_takeTo ha] at hsplit
  exact takeTo_of_byteLength_le (by omega)

/-- A slice between two boundaries in order; any other cut is refused. -/
def slice? (cs : List Char) (start stop : Nat) : Option (List Char) :=
  if start ≤ stop ∧ isBoundary cs start = true ∧ isBoundary cs stop = true then
    some (slice cs start stop)
  else none

theorem slice?_eq_some {cs : List Char} {a b : Nat} (ha : isBoundary cs a = true)
    (hb : isBoundary cs b = true) (hab : a ≤ b) : slice? cs a b = some (slice cs a b) :=
  if_pos ⟨hab, ha, hb⟩

/-! ## Order -/

/-- Forms are compared byte by byte. -/
theorem ofNat_cons_lt {m n : Nat} {xs ys : List UInt8} (hm : m < 256) (hn : n < 256)
    (hle : m ≤ n) (hrest : m = n → xs < ys) : UInt8.ofNat m :: xs < UInt8.ofNat n :: ys := by
  rw [List.cons_lt_cons_iff, UInt8.lt_iff_toNat_lt, UInt8.toNat_ofNat_of_lt' hm,
    UInt8.toNat_ofNat_of_lt' hn]
  rcases Nat.lt_or_eq_of_le hle with hlt | heq
  · exact .inl hlt
  · exact .inr ⟨congrArg UInt8.ofNat heq, hrest heq⟩

/-- A character that comes before another has the smaller form, whatever follows the two. -/
theorem utf8EncodeChar_append_lt {c d : Char} (h : c < d) (xs ys : List UInt8) :
    String.utf8EncodeChar c ++ xs < String.utf8EncodeChar d ++ ys := by
  have hlt : c.val.toNat < d.val.toNat := h
  have hmost : d.val.toNat < 0x110000 := by
    rcases d.valid with hd | ⟨-, hd⟩
    · omega
    · exact hd
  unfold String.utf8EncodeChar
  generalize c.val.toNat = m at hlt
  generalize d.val.toNat = n at hlt hmost
  dsimp only
  -- One case for each pair of lengths. While the bytes agree, so do the bits that they hold.
  repeat' split
  all_goals
    repeat refine ofNat_cons_lt (by omega) (by omega) (by omega) fun _ => ?_
    omega

theorem bytes_lt_of_lt {xs ys : List Char} (h : xs < ys) : bytes xs < bytes ys := by
  induction h with
  | @nil d ys =>
    rw [bytes_cons]
    cases hd : String.utf8EncodeChar d ++ bytes ys with
    | nil => simp at hd
    | cons b bs => exact List.nil_lt_cons b bs
  | rel h => exact utf8EncodeChar_append_lt h _ _
  | cons h ih => exact List.append_left_lt ih

/-- Texts come in the order of their bytes. -/
theorem bytes_lt_iff {xs ys : List Char} : bytes xs < bytes ys ↔ xs < ys := by
  refine ⟨fun h => Classical.byContradiction fun hge => ?_, bytes_lt_of_lt⟩
  rcases List.le_iff_lt_or_eq.mp (List.not_lt.mp hge) with hgt | rfl
  · exact List.lt_asymm h (bytes_lt_of_lt hgt)
  · exact List.lt_irrefl _ h

end SpecUpgrade.Text

namespace SpecUpgrade.Utf8

private theorem toList_loop (bs : ByteArray) (i : Nat) (read : List UInt8) :
    ByteArray.toList.loop bs i read = read.reverse ++ bs.data.toList.drop i := by
  fun_induction ByteArray.toList.loop bs i read with
  | case1 i read h ih =>
    have hi : i < bs.data.toList.length := by simpa using h
    have hget : bs.get! i = bs.data.toList[i] := by
      simp [ByteArray.get!, getElem!_pos, h]
    rw [ih, List.reverse_cons, List.append_assoc, hget, List.singleton_append,
      List.getElem_cons_drop]
  | case2 i read h =>
    rw [List.drop_eq_nil_of_le (by simpa using h), List.append_nil]

theorem encode_ofList (cs : List Char) : encode (String.ofList cs) = Text.bytes cs := by
  have hdata : encode (String.ofList cs) = (String.ofList cs).toByteArray.data.toList := by
    simp [encode, ByteArray.toList, toList_loop]
  rw [hdata, String.toByteArray_ofList, List.utf8Encode, List.toList_data_toByteArray]
  rfl

theorem encode_eq_bytes (text : String) : encode text = Text.bytes text.toList := by
  rw [← encode_ofList, String.ofList_toList]

theorem encode_append (a b : String) : encode (a ++ b) = encode a ++ encode b := by
  simp only [encode_eq_bytes, String.toList_append, Text.bytes_append]

theorem encode_le_iff {a b : String} : encode a ≤ encode b ↔ a ≤ b := by
  rw [encode_eq_bytes, encode_eq_bytes, ← List.not_lt, ← String.not_lt, Text.bytes_lt_iff,
    String.lt_iff]

end SpecUpgrade.Utf8
