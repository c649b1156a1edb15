import ChannelCodec.Proofs.Bits.Arithmetic
import ChannelCodec.Proofs.Bits.Signs

/-! Vectors, words and numbers of 64 bits. Words go into a vector byte by byte and bit by bit, and
come out of it in slices; what is converted one way and then the other is what it was, up to zeros
above the topmost bit of a vector that does not fill its last word. -/
namespace ChannelCodec.Bits

private theorem ofBits_append (xs ys : List Bool) :
    ofBits (xs ++ ys) = (ofBits ys).append (ofBits xs) := by
  induction xs with
  | nil => exact (append_zero _).symm
  | cons x xs ih => rw [List.cons_append, ofBits_cons, ih, ofBits_cons, append_assoc]

theorem ofBytes_append (xs ys : List UInt8) :
    ofBytes (xs ++ ys) = (ofBytes ys).append (ofBytes xs) := by
  rw [ofBytes, List.flatMap_append, ofBits_append]
  rfl

private theorem ofBytes_singleton (byte : UInt8) : ofBytes [byte] = ofNat 8 byte.toNat := by
  have hbits : ofBytes [byte] = ofBits ((List.range 8).map byte.toNat.testBit) := by
    rw [ofBytes, List.flatMap_singleton]
  rw [hbits]
  ext
  · rw [width_ofBits, List.length_map, List.length_range, width_ofNat]
  · rw [toNat_ofBits, binary_testBit, toNat_ofNat]

private theorem ofBytes_range (n count : Nat) :
    ofBytes ((List.range count).map fun k => (n >>> (8 * k)).toUInt8) = ofNat (8 * count) n := by
  induction count with
  | zero => exact eq_of_width_zero rfl rfl
  | succ count ih =>
    rw [List.range_succ, List.map_append, ofBytes_append, ih, List.map_singleton,
      ofBytes_singleton]
    ext
    · rw [width_append, width_ofNat, width_ofNat, Nat.mul_succ, Nat.add_comm, width_ofNat]
    · rw [toNat_append, toNat_ofNat, toNat_ofNat, toNat_ofNat, width_ofNat, UInt8.toNat_ofNat',
        Nat.mod_mod, Nat.shiftRight_eq_div_pow, Nat.mul_succ, Nat.pow_add, Nat.mod_mul,
        Nat.mul_comm (2 ^ (8 * count)), Nat.add_comm]

theorem ofWords_cons (word : UInt64) (words : List UInt64) :
    ofWords (word :: words) = (ofWords words).append (ofNat 64 word.toNat) := by
  rw [ofWords, List.flatMap_cons, ofBytes_append, wordBytes, ofBytes_range]
  rfl

private theorem toWords_append (high : Bits) (word : UInt64) :
    (high.append (ofNat 64 word.toNat)).toWords = word :: high.toWords := by
  have hlow := slice_append_low high (ofNat 64 word.toNat)
  have hhigh : ∀ k, (high.append (ofNat 64 word.toNat)).slice ((k + 1) * 64) 64 =
      high.slice (k * 64) 64 := by
    intro k
    rw [Nat.succ_mul, Nat.add_comm]
    exact slice_append_high high (ofNat 64 word.toNat) (k * 64) 64
  have hcount : wordsFor (high.append (ofNat 64 word.toNat)).width = wordsFor high.width + 1 := by
    rw [wordsFor, wordsFor, width_append, width_ofNat]
    omega
  have hword : (ofNat 64 word.toNat).lowNat.toUInt64 = word := by
    rw [lowNat_of_lt (Nat.mod_lt _ (Nat.two_pow_pos 64)), toNat_ofNat,
      Nat.mod_eq_of_lt word.toNat_lt]
    exact UInt64.ofNat_toNat
  rw [width_ofNat] at hlow
  rw [toWords, hcount, List.range_succ_eq_map, List.map_cons, List.map_map, Nat.zero_mul, hlow,
    hword]
  congr 1
  refine List.map_congr_left fun k _ => ?_
  rw [Function.comp_apply, hhigh]

private theorem toWords_ofWords (words : List UInt64) : (ofWords words).toWords = words := by
  induction words with
  | nil => rfl
  | cons word words ih => rw [ofWords_cons, toWords_append, ih]

private theorem ofWords_append (words words' : List UInt64) :
    ofWords (words ++ words') = (ofWords words').append (ofWords words) := by
  rw [ofWords, List.flatMap_append, ofBytes_append]
  rfl

private theorem ofWords_slice (b : Bits) (low : Nat) :
    ofWords [(b.slice low 64).lowNat.toUInt64] = b.slice low 64 := by
  have hlt := (b.slice low 64).toNat_lt
  rw [width_slice] at hlt
  rw [ofWords_cons, lowNat_of_lt hlt]
  ext
  · rfl
  · change 0 * 2 ^ (64 : Nat) + _ = _
    rw [Nat.zero_mul, Nat.zero_add, toNat_ofNat, Nat.toUInt64_eq, UInt64.toNat_ofNat',
      Nat.mod_mod, Nat.mod_eq_of_lt hlt]

theorem ofWords_toWords (b : Bits) :
    ofWords b.toWords = b.slice 0 (64 * wordsFor b.width) := by
  rw [toWords]
  induction wordsFor b.width with
  | zero => exact eq_of_width_zero rfl rfl
  | succ count ih =>
    have hside := slice_above_slice b 0 (64 * count) 64
    rw [Nat.zero_add, Nat.add_comm 64, ← Nat.mul_succ] at hside
    rw [List.range_succ, List.map_append, ofWords_append, ih, List.map_singleton, ofWords_slice,
      Nat.mul_comm count]
    exact hside

private theorem lowInt_ofInt {width : Nat} {i : Int} (hlow : -2 ^ (63 : Nat) ≤ i)
    (hhigh : i < 2 ^ (63 : Nat))
    (hfits : 64 ≤ width ∨ -(2 ^ width : Nat) ≤ 2 * i ∧ 2 * i < (2 ^ width : Nat)) :
    (ofInt width i).lowInt = i := by
  have hdvd : ((2 ^ min width 64 : Nat) : Int) ∣ (2 ^ width : Nat) :=
    Int.natCast_dvd_natCast.mpr (Nat.pow_dvd_pow 2 (Nat.min_le_left width 64))
  have hpos := Nat.two_pow_pos width
  have hnumber : ((ofInt width i).toNat : Int) = i % (2 ^ width : Nat) := by
    rw [ofInt_eq hlow hhigh, toNat_ofNat, Nat.mod_eq_of_lt (by omega),
      Int.toNat_of_nonneg (Int.emod_nonneg i (by omega))]
  rw [lowInt_eq, width_ofInt, hnumber, ← Int.emod_bmod, Int.emod_emod_of_dvd i hdvd,
    Int.emod_bmod]
  by_cases hwide : 64 ≤ width
  · rw [Nat.min_eq_right hwide]
    exact Int.bmod_eq_of_le hlow hhigh
  · obtain ⟨hmin, hmax⟩ := hfits.resolve_left hwide
    rw [Nat.min_eq_left (Nat.le_of_not_le hwide)]
    exact Int.bmod_eq_of_le (by omega) (by omega)

private theorem ofInt_lowInt {b : Bits} (h : b.width ≤ 64) : ofInt b.width b.lowInt = b := by
  have hslice := slice_ofInt_lowInt h (Nat.le_refl b.width)
  have hself := slice_self (ofInt b.width b.lowInt)
  rw [width_ofInt, hslice] at hself
  exact hself.symm

/-- Conversions invert each other, at every width. Words come back out of the vector that they make,
and a vector comes back out of its words with zeros above it. A number of 64 bits comes back out of a
vector in which it fits, with a sign or without one, and a vector of at most 64 bits out of the
number that it writes. Above position 64 there are zeros, or copies of the sign. -/
theorem conversions_invert :
    (∀ words : List UInt64, (ofWords words).toWords = words) ∧
    (∀ b : Bits, (ofWords b.toWords).width = 64 * ((b.width + 63) / 64) ∧
      (ofWords b.toWords).slice 0 b.width = b ∧
      ∀ i, b.width ≤ i → (ofWords b.toWords).bit i = false) ∧
    (∀ (width : Nat) (v : Int64),
      64 ≤ width ∨ -(2 ^ width : Nat) ≤ 2 * v.toInt ∧ 2 * v.toInt < (2 ^ width : Nat) →
        (ofInt width v.toInt).lowInt = v.toInt) ∧
    (∀ b : Bits, -2 ^ (63 : Nat) ≤ b.lowInt ∧ b.lowInt < 2 ^ (63 : Nat) ∧
      (1 ≤ b.width → b.width ≤ 64 → ofInt b.width b.lowInt = b)) ∧
    (∀ (width : Nat) (v : UInt64),
      v.toNat < 2 ^ width → (ofNat width v.toNat).lowNat = v.toNat) ∧
    (∀ (width : Nat) (v : UInt64) (i : Nat), 64 ≤ i → (ofNat width v.toNat).bit i = false) ∧
    ∀ (width : Nat) (v : Int64) (i : Nat), 64 ≤ i → i < width →
      (ofInt width v.toInt).bit i = decide (v.toInt < 0) := by
  refine ⟨toWords_ofWords, fun b => ?_, fun width v => ?_, fun b => ?_, fun width v hv => ?_,
    fun width v i hi => ?_, fun width v i hi hwidth => ?_⟩
  · have hwidth := le_wordsFor b.width
    rw [ofWords_toWords]
    refine ⟨rfl, ?_, fun i hi => ?_⟩
    · rw [slice_slice b (by omega), Nat.zero_add, slice_self]
    · rw [bit_slice, Nat.zero_add, bit_of_width_le hi, Bool.and_false]
  · exact lowInt_ofInt v.le_toInt v.toInt_lt
  · exact ⟨b.lowInt_range.1, b.lowInt_range.2, fun _ h => ofInt_lowInt h⟩
  · rw [lowNat_eq, toNat_ofNat, Nat.mod_eq_of_lt hv, Nat.mod_eq_of_lt v.toNat_lt]
  · have hlt : v.toNat < 2 ^ i :=
      Nat.lt_of_lt_of_le v.toNat_lt (Nat.pow_le_pow_right (by decide) hi)
    rw [bit_ofNat, Nat.testBit_lt_two_pow hlt, Bool.and_false]
  · rw [bit_ofInt _ hwidth, if_neg (Nat.not_lt.mpr hi)]

theorem negativeThree_converts : (ofInt 5 (-3)).lowInt = -3 ∧ (ofInt 70 (-3)).lowInt = -3 ∧
    (ofInt 70 (-3)).bit 69 = true ∧ ofInt 5 (ofNat 5 29).lowInt = ofNat 5 29 ∧
    (ofNat 5 29).lowNat = 29 ∧ (ofNat 70 29).bit 69 = false ∧
    (ofWords (ofNat 65 (2 ^ (64 : Nat))).toWords).bit 65 = false := by
  obtain ⟨-, hwords, hsigned, hback, hunsigned, hzeros, hsign⟩ := conversions_invert
  exact ⟨hsigned 5 (-3) (.inr (by decide)), hsigned 70 (-3) (.inl (by decide)),
    hsign 70 (-3) 69 (by decide) (by decide), (hback (ofNat 5 29)).2.2 (by decide) (by decide),
    hunsigned 5 29 (by decide), hzeros 70 29 69 (by decide), (hwords _).2.2 65 (by decide)⟩

end ChannelCodec.Bits
