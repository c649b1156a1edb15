import ChannelCodec.Text.Numeral

/-! Numerals read back. The digits that write a number are digits, and reading them gives the
number. -/
namespace ChannelCodec

private theorem hexDigitValue_digitChar {d : Nat} (h : d < 16) : hexDigitValue d.digitChar = d := by
  have hall : ∀ d < 16, hexDigitValue (Nat.digitChar d) = d := by decide
  exact hall d h

private theorem isHexDigit_digitChar {d : Nat} (h : d < 16) : isHexDigit d.digitChar = true := by
  have hall : ∀ d < 16, isHexDigit (Nat.digitChar d) = true := by decide
  exact hall d h

theorem ofHexDigits_append (front back : List Char) :
    ofHexDigits (front ++ back) = back.foldl (fun n c => 16 * n + hexDigitValue c)
      (ofHexDigits front) := by
  rw [ofHexDigits, List.foldl_append]
  rfl

private theorem ofHexDigits_zeros (n : Nat) (digits : List Char) :
    ofHexDigits (List.replicate n '0' ++ digits) = ofHexDigits digits := by
  have hzero : ofHexDigits (List.replicate n '0') = 0 := by
    induction n with
    | zero => rfl
    | succ n ih =>
      rw [List.replicate_succ', ofHexDigits_append, ih]
      rfl
  rw [ofHexDigits_append, hzero]
  rfl

private theorem ofHexDigits_toDigits (n : Nat) : ofHexDigits (Nat.toDigits 16 n) = n := by
  induction n using Nat.strongRecOn with
  | ind n ih =>
    by_cases h : n < 16
    · rw [Nat.toDigits_of_lt_base h, ofHexDigits]
      simp only [List.foldl_cons, List.foldl_nil, hexDigitValue_digitChar h]
      omega
    · rw [Nat.toDigits_of_base_le (by decide) (Nat.le_of_not_lt h), ofHexDigits_append,
        ih (n / 16) (by omega)]
      simp only [List.foldl_cons, List.foldl_nil,
        hexDigitValue_digitChar (Nat.mod_lt n (by decide : 16 > 0))]
      omega

private theorem isHexDigit_of_mem_toDigits {n : Nat} {c : Char} (h : c ∈ Nat.toDigits 16 n) :
    isHexDigit c = true := by
  induction n using Nat.strongRecOn with
  | ind n ih =>
    by_cases hlt : n < 16
    · rw [Nat.toDigits_of_lt_base hlt, List.mem_singleton] at h
      rw [h]
      exact isHexDigit_digitChar hlt
    · rw [Nat.toDigits_of_base_le (by decide) (Nat.le_of_not_lt hlt)] at h
      rcases List.mem_append.mp h with h | h
      · exact ih (n / 16) (by omega) h
      · rw [List.mem_singleton.mp h]
        exact isHexDigit_digitChar (Nat.mod_lt n (by decide))

def idDigits (id : Nat) : List Char :=
  List.replicate (16 - (Nat.toDigits 16 id).length) '0' ++ Nat.toDigits 16 id

theorem toList_hexadecimalId (id : Nat) :
    (hexadecimalId id).toList = '0' :: 'x' :: idDigits id := by
  simp [hexadecimalId, hexadecimalPadded, idDigits]

theorem ofHexDigits_idDigits (id : Nat) : ofHexDigits (idDigits id) = id := by
  rw [idDigits, ofHexDigits_zeros, ofHexDigits_toDigits]

theorem isHexDigit_of_mem_idDigits {id : Nat} {c : Char} (h : c ∈ idDigits id) :
    isHexDigit c = true := by
  rcases List.mem_append.mp h with h | h
  · rw [List.eq_of_mem_replicate h]
    decide
  · exact isHexDigit_of_mem_toDigits h

theorem idDigits_ne_nil (id : Nat) : idDigits id ≠ [] := by
  simp [idDigits, Nat.toDigits_ne_nil]

end ChannelCodec
