import ChannelCodec.Proofs.Bits.Positions
import Mathlib.Algebra.Group.Int.Defs

/-! Extending vectors to more bits. Zeros in front keep the number, and copies of the topmost bit
keep the number in two's complement; the low bits are the old vector in both cases. -/
namespace ChannelCodec.Bits

theorem topmost_bit {x : Bits} (h : 0 < x.width) :
    x.bit (x.width - 1) = decide (2 ^ (x.width - 1) ≤ x.toNat) := by
  have hlt := x.toNat_lt
  have hpow : 2 ^ x.width = 2 * 2 ^ (x.width - 1) := by
    rw [← Nat.pow_succ', Nat.succ_eq_add_one, Nat.sub_add_cancel h]
  have hpos : 0 < 2 ^ (x.width - 1) := Nat.two_pow_pos _
  rw [bit, Nat.testBit_eq_decide_div_mod_eq]
  congr 1
  rw [eq_iff_iff]
  by_cases hx : 2 ^ (x.width - 1) ≤ x.toNat
  · have hdiv : x.toNat / 2 ^ (x.width - 1) = 1 :=
      Nat.div_eq_of_lt_le (by omega) (by omega)
    rw [hdiv]
    exact ⟨fun _ => hx, fun _ => rfl⟩
  · rw [Nat.div_eq_of_lt (by omega)]
    exact ⟨fun h => by omega, fun h => by omega⟩

theorem width_concat_replicate (n : Nat) (x : Bits) :
    (concat (List.replicate n x)).width = n * x.width := by
  induction n with
  | zero => exact (Nat.zero_mul _).symm
  | succ n ih =>
    rw [List.replicate_succ, concat_cons, width_append, ih, Nat.succ_mul, Nat.add_comm]

theorem toNat_concat_replicate (n : Nat) {x : Bits} (h : x.width = 1) :
    (concat (List.replicate n x)).toNat = x.toNat * (2 ^ n - 1) := by
  induction n with
  | zero => exact (Nat.mul_zero _).symm
  | succ n ih =>
    have hpos : 0 < 2 ^ n := Nat.two_pow_pos n
    have hpow : 2 ^ (n + 1) - 1 = 2 ^ n + (2 ^ n - 1) := by
      rw [Nat.pow_succ]
      omega
    rw [List.replicate_succ, concat_cons, toNat_append, ih, width_concat_replicate, h,
      Nat.mul_one, hpow, Nat.mul_add]

theorem bmod_of_lt {n half : Nat} (h : n < 2 * half) :
    Int.bmod n (2 * half) = if half ≤ n then (n : Int) - (2 * half : Nat) else n := by
  have hself : (n : Int) % (2 * half : Nat) = n := Int.emod_eq_of_lt (by omega) (by omega)
  rw [Int.bmod, hself]
  by_cases hn : half ≤ n
  · rw [if_pos hn, if_neg (by omega)]
  · rw [if_neg hn, if_pos (by omega)]

theorem lowNat_eq (b : Bits) : b.lowNat = b.toNat % 2 ^ (64 : Nat) := by
  have hgather := gather_testBit b.toNat 0 (min b.width 64)
  simp only [Nat.zero_add, Nat.pow_zero, Nat.div_one] at hgather
  refine hgather.trans ?_
  by_cases h : b.width ≤ 64
  · rw [Nat.min_eq_left h, Nat.mod_eq_of_lt b.toNat_lt, Nat.mod_eq_of_lt (toNat_lt_of_width_le h)]
  · rw [Nat.min_eq_right (by omega)]

private theorem or_high_ones {n width : Nat} (hn : n < 2 ^ width) (h : width ≤ 64) :
    n ||| (2 ^ (64 : Nat) - 1) <<< width % 2 ^ (64 : Nat) = n + (2 ^ (64 : Nat) - 2 ^ width) := by
  have hpow : 2 ^ (64 : Nat) = 2 ^ (64 - width) * 2 ^ width := by
    rw [← Nat.pow_add, Nat.sub_add_cancel h]
  have hpos := Nat.two_pow_pos (64 - width)
  have hones : (2 ^ (64 : Nat) - 1) % 2 ^ (64 - width) = 2 ^ (64 - width) - 1 := by
    have hsplit : 2 ^ (64 : Nat) - 1 =
        2 ^ (64 - width) - 1 + 2 ^ (64 - width) * (2 ^ width - 1) := by
      have hle := Nat.le_mul_of_pos_right (2 ^ (64 - width)) (Nat.two_pow_pos width)
      rw [hpow, Nat.mul_sub_one]
      omega
    rw [hsplit, Nat.add_mul_mod_self_left, Nat.mod_eq_of_lt (by omega)]
  have hshift : (2 ^ (64 : Nat) - 1) <<< width % 2 ^ (64 : Nat) =
      (2 ^ (64 - width) - 1) <<< width := by
    have hmod := Nat.mul_mod_mul_right (2 ^ width) (2 ^ (64 : Nat) - 1) (2 ^ (64 - width))
    rwa [← hpow, hones, ← Nat.shiftLeft_eq, ← Nat.shiftLeft_eq] at hmod
  rw [hshift, Nat.or_comm, ← Nat.shiftLeft_add_eq_or_of_lt hn, Nat.shiftLeft_eq, Nat.sub_one_mul,
    ← hpow, Nat.add_comm]

private theorem bmod_natCast_mod (n m : Nat) : Int.bmod (n % m : Nat) m = Int.bmod n m := by
  rw [Int.natCast_emod]
  exact Int.emod_bmod _ _

private theorem signedWord_of_lt {n : Nat} (h : n < 2 ^ (64 : Nat)) :
    signedWord n = if 2 ^ (63 : Nat) ≤ n then (n : Int) - (2 ^ (64 : Nat) : Nat) else n :=
  @bmod_of_lt n (2 ^ (63 : Nat)) h

theorem lowInt_eq (b : Bits) : b.lowInt = Int.bmod b.toNat (2 ^ min b.width 64) := by
  have hlt := b.toNat_lt
  rw [lowInt]
  by_cases hends : b.width = 0 ∨ 64 ≤ b.width
  · rw [if_pos hends, lowNat_eq]
    rcases hends with hzero | hlong
    · have hnone : b.toNat = 0 := by
        rw [hzero, Nat.pow_zero] at hlt
        omega
      rw [hnone, hzero]
      rfl
    · rw [Nat.min_eq_right hlong]
      exact bmod_natCast_mod b.toNat (2 ^ (64 : Nat))
  · obtain ⟨hpos, hshort⟩ : 0 < b.width ∧ b.width < 64 := by omega
    have hhalf : 2 ^ b.width = 2 * 2 ^ (b.width - 1) := by
      rw [← Nat.pow_succ', Nat.succ_eq_add_one, Nat.sub_add_cancel hpos]
    have hrange : 2 ^ b.width ≤ 2 ^ (63 : Nat) := Nat.pow_le_pow_right (by decide) (by omega)
    have hlow : b.lowNat = b.toNat := by
      rw [lowNat_eq, Nat.mod_eq_of_lt (by omega)]
    rw [if_neg hends, topmost_bit hpos, Nat.min_eq_left (by omega), hlow, hhalf,
      bmod_of_lt (by omega)]
    by_cases hneg : 2 ^ (b.width - 1) ≤ b.toNat
    · rw [if_pos (decide_eq_true hneg), if_pos hneg, ← hhalf, or_high_ones hlt (by omega),
        signedWord_of_lt (by omega), if_pos (by omega)]
      omega
    · rw [if_neg (by simpa using hneg), if_neg hneg, signedWord_of_lt (by omega),
        if_neg (by omega)]

private theorem signedWord_range (n : Nat) :
    -2 ^ (63 : Nat) ≤ signedWord n ∧ signedWord n < 2 ^ (63 : Nat) :=
  ⟨Int.le_bmod (by decide), Int.bmod_lt (by decide)⟩

theorem lowInt_range (b : Bits) : -2 ^ (63 : Nat) ≤ b.lowInt ∧ b.lowInt < 2 ^ (63 : Nat) := by
  unfold lowInt
  split
  · exact signedWord_range _
  · split
    · exact signedWord_range _
    · exact signedWord_range _

@[simp] theorem width_setBit (b : Bits) (i : Nat) : (b.setBit i).width = b.width := rfl

private theorem bit_setBit {b : Bits} {i k : Nat} :
    (b.setBit i).bit k = true ↔ b.bit k = true ∨ k = i ∧ k < b.width := by
  have hone : (1 <<< i).testBit k = true ↔ k = i := by
    rw [Nat.one_shiftLeft, Nat.testBit_two_pow, decide_eq_true_eq]
    exact eq_comm
  rw [setBit, bit_ofNat, Nat.testBit_or, Bool.and_eq_true, decide_eq_true_eq, Bool.or_eq_true, hone]
  constructor
  · rintro ⟨hk, hbit | hi⟩
    · exact .inl hbit
    · exact .inr ⟨hi, hk⟩
  · rintro (hbit | ⟨hi, hk⟩)
    · exact ⟨lt_width_of_bit hbit, .inl hbit⟩
    · exact ⟨hk, .inr hi⟩

private theorem width_foldl_setBit (b : Bits) (places : List Nat) :
    (places.foldl setBit b).width = b.width := by
  induction places generalizing b with
  | nil => rfl
  | cons i places ih => rw [List.foldl_cons, ih, width_setBit]

private theorem bit_foldl_setBit {b : Bits} {places : List Nat} {k : Nat} :
    (places.foldl setBit b).bit k = true ↔ b.bit k = true ∨ k ∈ places ∧ k < b.width := by
  induction places generalizing b with
  | nil => simp
  | cons i places ih =>
    rw [List.foldl_cons, ih, bit_setBit, width_setBit, List.mem_cons, or_and_right, or_assoc]

@[simp] theorem width_ofInt (width : Nat) (i : Int) : (ofInt width i).width = width := by
  unfold ofInt
  split
  · rw [width_foldl_setBit, width_ofNat]
  · rfl

/-- The bits of a number in two's complement: those of its low word, and copies of its sign. -/
theorem bit_ofInt {width k : Nat} (i : Int) (hk : k < width) :
    (ofInt width i).bit k =
      if k < 64 then (i % (2 ^ (64 : Nat) : Nat)).toNat.testBit k else decide (i < 0) := by
  have hword : (i % (2 ^ (64 : Nat) : Nat)).toNat < 2 ^ (64 : Nat) := by omega
  have hmem : k ∈ List.range' 64 (width - 64) ↔ ¬ k < 64 := by
    rw [List.mem_range'_1]
    omega
  unfold ofInt
  generalize (i % (2 ^ (64 : Nat) : Nat)).toNat = word at hword ⊢
  have hlow : (ofNat width word).bit k = true ↔ k < 64 ∧ word.testBit k = true := by
    rw [bit_ofNat, decide_eq_true hk, Bool.true_and, iff_and_self]
    intro hbit
    refine Nat.lt_of_not_le fun hle => ?_
    rw [Nat.testBit_lt_two_pow (Nat.lt_of_lt_of_le hword (Nat.pow_le_pow_right (by decide) hle))]
      at hbit
    exact Bool.noConfusion hbit
  rw [Bool.eq_iff_iff]
  by_cases hneg : i < 0
  · rw [if_pos hneg, bit_foldl_setBit, hlow, hmem, width_ofNat]
    split
    · simp [*]
    · simp [*]
  · rw [if_neg hneg, hlow]
    split
    · simp [*]
    · simp [*]

private theorem testBit_emod (i : Int) {k width : Nat} (hk : k < width) :
    (i % (2 ^ width : Nat)).toNat.testBit k = (i % (2 ^ (k + 1) : Nat)).toNat.testBit k := by
  have hdvd : ((2 ^ (k + 1) : Nat) : Int) ∣ (2 ^ width : Nat) :=
    Int.natCast_dvd_natCast.mpr (Nat.pow_dvd_pow 2 hk)
  have hpos := Nat.two_pow_pos width
  have hmod : (i % (2 ^ (k + 1) : Nat)).toNat = (i % (2 ^ width : Nat)).toNat % 2 ^ (k + 1) := by
    rw [← Int.emod_emod_of_dvd i hdvd, Int.toNat_emod (Int.emod_nonneg i (by omega)) (by omega),
      Int.toNat_natCast]
  rw [hmod, Nat.testBit_mod_two_pow, decide_eq_true (Nat.lt_succ_self k), Bool.true_and]

theorem ofInt_eq {i : Int} (hlow : -2 ^ (63 : Nat) ≤ i) (hhigh : i < 2 ^ (63 : Nat)) (width : Nat) :
    ofInt width i = ofNat width (i % (2 ^ width : Nat)).toNat := by
  refine ext_bit (width_ofInt width i) fun k hk => ?_
  rw [width_ofInt] at hk
  rw [bit_ofInt i hk, bit_ofNat, decide_eq_true hk, Bool.true_and, testBit_emod i hk]
  by_cases hword : k < 64
  · rw [if_pos hword, testBit_emod i hword]
  · rw [if_neg hword]
    have hrange : 2 ^ (63 : Nat) ≤ 2 ^ k := Nat.pow_le_pow_right (by decide) (by omega)
    have hpow : 2 ^ (k + 1) = 2 * 2 ^ k := Nat.pow_succ'
    rw [hpow]
    generalize hrest : i % (2 * 2 ^ k : Nat) = rest
    by_cases hneg : i < 0
    · have hwrap : rest = i + (2 * 2 ^ k : Nat) := by
        rw [← hrest, ← Int.add_emod_right, Int.emod_eq_of_lt (by omega) (by omega)]
      rw [decide_eq_true hneg, Nat.testBit_of_two_pow_le_and_two_pow_add_one_gt (by omega)
        (by omega)]
    · have hsame : rest = i := hrest.symm.trans (Int.emod_eq_of_lt (by omega) (by omega))
      rw [decide_eq_false hneg, Nat.testBit_lt_two_pow (by omega)]

/-- The number that a vector writes in two's complement, in all its bits. -/
def signed (x : Bits) : Int := Int.bmod x.toNat (2 ^ x.width)

def ofSigned (width : Nat) (i : Int) : Bits := ofNat width (i % (2 ^ width : Nat)).toNat

@[simp] theorem width_ofSigned (width : Nat) (i : Int) : (ofSigned width i).width = width := rfl

theorem signed_range {x : Bits} (h : 0 < x.width) :
    -(2 ^ (x.width - 1) : Nat) ≤ x.signed ∧ x.signed < (2 ^ (x.width - 1) : Nat) := by
  have hhalf : 2 ^ x.width = 2 * 2 ^ (x.width - 1) := by
    rw [← Nat.pow_succ', Nat.succ_eq_add_one, Nat.sub_add_cancel h]
  have hlow := Int.le_bmod (x := x.toNat) (Nat.two_pow_pos x.width)
  have hhigh := Int.bmod_lt (x := x.toNat) (Nat.two_pow_pos x.width)
  rw [signed]
  omega

theorem signed_ofSigned {i : Int} {half width : Nat} (hlow : -(2 ^ half : Nat) ≤ i)
    (hhigh : i < (2 ^ half : Nat)) (h : half < width) : (ofSigned width i).signed = i := by
  have hpow : 2 * 2 ^ half ≤ 2 ^ width := by
    rw [← Nat.pow_succ']
    exact Nat.pow_le_pow_right (by decide) h
  have hpos := Nat.two_pow_pos width
  have hnat : ((i % (2 ^ width : Nat)).toNat : Int) = i % (2 ^ width : Nat) :=
    Int.toNat_of_nonneg (Int.emod_nonneg i (by omega))
  have hlt : (i % (2 ^ width : Nat)).toNat < 2 ^ width := by
    have hmod := Int.emod_lt_of_pos i (show (0 : Int) < (2 ^ width : Nat) by omega)
    omega
  rw [signed, ofSigned, toNat_ofNat, width_ofNat, Nat.mod_eq_of_lt hlt, hnat, Int.emod_bmod]
  exact Int.bmod_eq_of_le (by omega) (by omega)

/-- Copies of the topmost bit in front of a vector write the same number in two's complement. -/
theorem sign_copies_eq_ofSigned {x : Bits} {width : Nat} (hpos : 0 < x.width)
    (hle : x.width ≤ width) :
    concat (List.replicate (width - x.width) (x.slice (x.width - 1) 1) ++ [x]) =
      ofSigned width x.signed := by
  have hjoin : concat (List.replicate (width - x.width) (x.slice (x.width - 1) 1) ++ [x]) =
      (concat (List.replicate (width - x.width) (x.slice (x.width - 1) 1))).append x := by
    rw [concat_append, concat_cons, concat_nil, append_zero]
  have hsign : (x.slice (x.width - 1) 1).toNat = (x.bit (x.width - 1)).toNat := by
    rw [toNat_slice, Nat.pow_one, bit, Nat.testBit_eq_decide_div_mod_eq]
    rcases Nat.mod_two_eq_zero_or_one (x.toNat / 2 ^ (x.width - 1)) with h | h <;> simp [h]
  have hhalf : 2 ^ x.width = 2 * 2 ^ (x.width - 1) := by
    rw [← Nat.pow_succ', Nat.succ_eq_add_one, Nat.sub_add_cancel hpos]
  have hpow : 2 ^ (width - x.width) * (2 * 2 ^ (x.width - 1)) = 2 ^ width := by
    rw [← hhalf, ← Nat.pow_add, Nat.sub_add_cancel hle]
  have hmono : 2 * 2 ^ (x.width - 1) ≤ 2 ^ width := by
    rw [← hhalf]
    exact Nat.pow_le_pow_right (by decide) hle
  have hlt : x.toNat < 2 * 2 ^ (x.width - 1) := hhalf ▸ x.toNat_lt
  rw [hjoin]
  ext
  · rw [width_append, width_concat_replicate, width_slice, Nat.mul_one, Nat.sub_add_cancel hle,
      width_ofSigned]
  · rw [toNat_append, toNat_concat_replicate _ rfl, hsign, topmost_bit hpos, ofSigned,
      toNat_ofNat, signed, hhalf, bmod_of_lt hlt]
    -- Only the halves and the range matter from here on, not that they are powers of two.
    generalize 2 ^ (x.width - 1) = half at *
    generalize 2 ^ width = range at *
    by_cases hx : half ≤ x.toNat
    · have hcopies : (2 ^ (width - x.width) - 1) * (2 * half) = range - 2 * half := by
        rw [Nat.sub_mul, hpow, Nat.one_mul]
      have hwrap : ((x.toNat : Int) - (2 * half : Nat)) % (range : Nat) =
          x.toNat - (2 * half : Nat) + range := by
        rw [← Int.add_emod_right, Int.emod_eq_of_lt (by omega) (by omega)]
      rw [if_pos hx, hwrap, decide_eq_true hx, Bool.toNat_true, Nat.one_mul, hcopies,
        Nat.mod_eq_of_lt (by omega)]
      omega
    · rw [if_neg hx, Int.emod_eq_of_lt (by omega) (by omega), decide_eq_false hx,
        Bool.toNat_false, Nat.zero_mul, Nat.zero_mul, Nat.zero_add, Int.toNat_natCast,
        Nat.mod_eq_of_lt (by omega)]

theorem concat_sign_copies {x : Bits} {width : Nat} (hpos : 0 < x.width) (h64 : x.width ≤ 64)
    (hle : x.width ≤ width) :
    concat (List.replicate (width - x.width) (x.slice (x.width - 1) 1) ++ [x]) =
      ofInt width x.lowInt := by
  have hword : x.lowInt = x.signed := by rw [lowInt_eq, Nat.min_eq_left h64, signed]
  rw [sign_copies_eq_ofSigned hpos hle, ofInt_eq x.lowInt_range.1 x.lowInt_range.2, hword, ofSigned]

theorem slice_ofSigned_signed {x : Bits} {width : Nat} (hpos : 0 < x.width)
    (hle : x.width ≤ width) : (ofSigned width x.signed).slice 0 x.width = x := by
  rw [← sign_copies_eq_ofSigned hpos hle, concat_append, concat_cons, concat_nil, append_zero,
    slice_append_low]

theorem slice_ofInt_lowInt {x : Bits} {width : Nat} (h64 : x.width ≤ 64) (hle : x.width ≤ width) :
    (ofInt width x.lowInt).slice 0 x.width = x := by
  by_cases hpos : 0 < x.width
  · rw [← concat_sign_copies hpos h64 hle, concat_append, concat_cons, concat_nil, append_zero,
      slice_append_low]
  · exact eq_of_width_zero (by rw [width_slice]; omega) (by omega)

theorem slice_ofNat_toNat {x : Bits} {width : Nat} (hle : x.width ≤ width) :
    (ofNat width x.toNat).slice 0 x.width = x :=
  ext_bit rfl fun i hi => by
    have hi : i < x.width := hi
    have hw : i < width := by omega
    simp only [bit_slice, hi, bit_ofNat, Nat.zero_add, hw]
    simp [bit]

theorem slice_ofNat (n low width total : Nat) (h : low + width ≤ total) :
    (ofNat total n).slice low width = ofNat width (n / 2 ^ low) :=
  ext_bit rfl fun i hi => by
    have hi : i < width := hi
    have ht : low + i < total := by omega
    simp [hi, ht, Nat.testBit_div_two_pow, Nat.add_comm]

theorem lowNat_of_lt {x : Bits} (h : x.toNat < 2 ^ (64 : Nat)) : x.lowNat = x.toNat :=
  (lowNat_eq x).trans (Nat.mod_eq_of_lt h)

end ChannelCodec.Bits
