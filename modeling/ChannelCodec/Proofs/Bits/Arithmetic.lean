import ChannelCodec.Proofs.Bits.Positions
import Mathlib.Algebra.BigOperators.Fin
import Mathlib.Algebra.BigOperators.Intervals

/-! Arithmetic on vectors. Sums ripple a carry up through the bits, orders are found by a scan from
the highest bit down, and both are those of the numbers that the bits write, whatever their width.
Slices are quotients and remainders by powers of two, and parts side by side are digits. -/
namespace ChannelCodec.Bits

/-- The number that bits write, the first one lowest. -/
def binary : List Bool → Nat
  | [] => 0
  | b :: bs => b.toNat + 2 * binary bs

theorem binary_append (xs ys : List Bool) :
    binary (xs ++ ys) = binary xs + 2 ^ xs.length * binary ys := by
  induction xs with
  | nil => simp [binary]
  | cons x xs ih =>
    rw [List.cons_append, binary, binary, ih, List.length_cons, Nat.pow_succ', Nat.mul_add,
      Nat.mul_assoc, Nat.add_assoc]

theorem binary_lt (bs : List Bool) : binary bs < 2 ^ bs.length := by
  induction bs with
  | nil => exact Nat.one_pos
  | cons b bs ih =>
    have hbit := b.toNat_lt
    rw [binary, List.length_cons, Nat.pow_succ]
    omega

theorem ofBits_cons (b : Bool) (bs : List Bool) :
    ofBits (b :: bs) = (ofBits bs).append (ofBool b) :=
  ofElements_cons (ofBool b) (bs.map ofBool)

theorem width_ofBits (bs : List Bool) : (ofBits bs).width = bs.length := by
  induction bs with
  | nil => rfl
  | cons b bs ih =>
    rw [ofBits_cons, width_append, ih]
    rfl

theorem toNat_ofBits (bs : List Bool) : (ofBits bs).toNat = binary bs := by
  induction bs with
  | nil => rfl
  | cons b bs ih =>
    have hbit : (ofBool b).toNat = b.toNat := Nat.mod_eq_of_lt b.toNat_lt
    have hwidth : (ofBool b).width = 1 := rfl
    rw [ofBits_cons, toNat_append, ih, hbit, hwidth, binary, Nat.pow_one, Nat.mul_comm,
      Nat.add_comm]

@[simp] theorem length_bits (b : Bits) : b.bits.length = b.width := by
  rw [bits, List.length_map, List.length_range]

theorem binary_testBit (n width : Nat) :
    binary ((List.range width).map n.testBit) = n % 2 ^ width := by
  induction width with
  | zero => rw [Nat.pow_zero, Nat.mod_one]; rfl
  | succ width ih =>
    rw [List.range_succ, List.map_append, binary_append, ih, List.length_map, List.length_range,
      Nat.mod_pow_succ, List.map_singleton, binary, binary, Nat.toNat_testBit, Nat.mul_zero,
      Nat.add_zero]

theorem binary_bits (b : Bits) : binary b.bits = b.toNat :=
  (binary_testBit b.toNat b.width).trans (Nat.mod_eq_of_lt b.toNat_lt)

theorem binary_addBits (carry : Bool) {xs ys : List Bool} (h : xs.length = ys.length) :
    (addBits carry xs ys).length = xs.length ∧ ∃ out : Bool,
      binary (addBits carry xs ys) + 2 ^ xs.length * out.toNat =
        binary xs + binary ys + carry.toNat := by
  induction xs generalizing ys carry with
  | nil =>
    obtain rfl := List.length_eq_zero_iff.mp h.symm
    exact ⟨rfl, carry, by simp [addBits, binary]⟩
  | cons x xs ih =>
    obtain ⟨y, ys, rfl⟩ := List.exists_cons_of_length_eq_add_one h.symm
    obtain ⟨hlength, out, hout⟩ :=
      ih (x && y || carry && (x ^^ y)) (Nat.succ.inj h)
    -- One position: its bit of the sum and the carry out of it write what comes into it.
    have hstep : (x ^^ y ^^ carry).toNat + 2 * (x && y || carry && (x ^^ y)).toNat =
        x.toNat + y.toNat + carry.toNat := by
      cases x <;> cases y <;> cases carry <;> rfl
    refine ⟨by rw [addBits, List.length_cons, hlength, List.length_cons], out, ?_⟩
    rw [addBits, binary, binary, binary, List.length_cons, Nat.pow_succ', Nat.mul_assoc]
    omega

theorem compareBits_eq {xs ys : List Bool} (h : xs.length = ys.length) :
    compareBits xs ys = compare (binary xs.reverse) (binary ys.reverse) := by
  induction xs generalizing ys with
  | nil =>
    obtain rfl := List.length_eq_zero_iff.mp h.symm
    rfl
  | cons x xs ih =>
    obtain ⟨y, ys, rfl⟩ := List.exists_cons_of_length_eq_add_one h.symm
    have hlength : xs.length = ys.length := Nat.succ.inj h
    have hx := binary_lt xs.reverse
    have hy := binary_lt ys.reverse
    have htop : ∀ (b : Bool) (bs : List Bool), binary (b :: bs).reverse =
        binary bs.reverse + 2 ^ bs.length * b.toNat := by
      intro b bs
      rw [List.reverse_cons, binary_append, List.length_reverse, binary, binary, Nat.mul_zero,
        Nat.add_zero]
    rw [List.length_reverse] at hx hy
    rw [← hlength] at hy
    rw [htop, htop, ← hlength]
    cases x <;> cases y
    case false.false | true.true =>
      rw [compareBits, ih hlength, Nat.compare_eq_ite_lt, Nat.compare_eq_ite_lt]
      · simp only [Nat.add_lt_add_iff_right]
      all_goals simp
    case false.true =>
      rw [compareBits, eq_comm, Nat.compare_eq_lt, Bool.toNat_false, Bool.toNat_true]
      omega
    case true.false =>
      rw [compareBits, eq_comm, Nat.compare_eq_gt, Bool.toNat_false, Bool.toNat_true]
      omega

/-- The unsigned number of which the vector is the binary form. -/
def number (b : Bits) : Nat := ∑ i ∈ Finset.range b.width, (b.bit i).toNat * 2 ^ i

private theorem sum_testBit (n width : Nat) :
    ∑ i ∈ Finset.range width, (n.testBit i).toNat * 2 ^ i = n % 2 ^ width := by
  induction width with
  | zero => rw [Finset.range_zero, Finset.sum_empty, Nat.pow_zero, Nat.mod_one]
  | succ width ih =>
    rw [Finset.sum_range_succ, ih, Nat.mod_pow_succ, Nat.toNat_testBit, Nat.mul_comm (2 ^ width)]

theorem number_eq (b : Bits) : b.number = b.toNat :=
  (sum_testBit b.toNat b.width).trans (Nat.mod_eq_of_lt b.toNat_lt)

theorem add?_eq {a b : Bits} (h : a.width = b.width) :
    a.add? b = some (ofNat a.width (a.toNat + b.toNat)) := by
  have hlength : a.bits.length = b.bits.length := by rw [length_bits, length_bits, h]
  obtain ⟨hsum, out, hout⟩ := binary_addBits false hlength
  have hlt := binary_lt (addBits false a.bits b.bits)
  rw [hsum, length_bits] at hlt
  rw [length_bits, binary_bits, binary_bits, Bool.toNat_false, Nat.add_zero] at hout
  rw [add?, if_pos h, Option.some.injEq]
  ext
  · rw [width_ofBits, hsum, length_bits, width_ofNat]
  · rw [toNat_ofBits, toNat_ofNat, ← hout, Nat.add_mul_mod_self_left, Nat.mod_eq_of_lt hlt]

theorem compare?_eq {a b : Bits} (h : a.width = b.width) :
    a.compare? b = some (compare a.toNat b.toNat) := by
  have hlength : a.bits.reverse.length = b.bits.reverse.length := by
    rw [List.length_reverse, List.length_reverse, length_bits, length_bits, h]
  rw [compare?, if_pos h, compareBits_eq hlength, List.reverse_reverse, List.reverse_reverse,
    binary_bits, binary_bits]

/-- The position of part `k` of parts side by side, behind the parts after it. -/
def partStart (parts : List Bits) (k : Nat) : Nat := total ((parts.drop (k + 1)).map width)

theorem partStart_zero (part : Bits) (parts : List Bits) :
    partStart (part :: parts) 0 = (concat parts).width :=
  (width_concat parts).symm

private theorem number_concat (parts : List Bits) :
    (concat parts).number = ∑ k : Fin parts.length, parts[k].number * 2 ^ partStart parts k := by
  induction parts with
  | nil => rfl
  | cons part parts ih =>
    rw [number_eq] at ih ⊢
    refine Eq.trans ?_ (Fin.sum_univ_succ (n := parts.length) _).symm
    simp only [Fin.getElem_fin, Fin.val_zero, List.getElem_cons_zero, Fin.val_succ,
      List.getElem_cons_succ, partStart_zero, number_eq, concat_cons, toNat_append] at ih ⊢
    rw [ih]
    rfl

theorem partStart_add_le {parts : List Bits} {k : Nat} (hk : k < parts.length) :
    partStart parts k + parts[k].width ≤ (concat parts).width := by
  induction parts generalizing k with
  | nil => exact absurd hk (Nat.not_lt_zero k)
  | cons part parts ih =>
    rw [concat_cons, width_append]
    cases k with
    | zero =>
      rw [partStart_zero, List.getElem_cons_zero]
      omega
    | succ k => exact Nat.le_trans (ih (Nat.lt_of_succ_lt_succ hk)) (Nat.le_add_left _ _)

theorem slice_concat {parts : List Bits} {k : Nat} (hk : k < parts.length) :
    (concat parts).slice (partStart parts k) parts[k].width = parts[k] := by
  induction parts generalizing k with
  | nil => exact absurd hk (Nat.not_lt_zero k)
  | cons part parts ih =>
    rw [concat_cons]
    cases k with
    | zero =>
      have hhigh := slice_append_high part (concat parts) 0 part.width
      rwa [Nat.add_zero, slice_self, ← partStart_zero part] at hhigh
    | succ k =>
      have hk : k < parts.length := Nat.lt_of_succ_lt_succ hk
      exact (slice_append_of_le part (partStart_add_le hk)).trans (ih hk)

/-- Vectors compute as their numbers do. Sums of vectors of one width are sums modulo a power of two,
and their order is that of the numbers; slices are quotients cut to their width; parts side by side
are digits, the first one highest, each of which can be taken out again. -/
theorem computes_on_numbers :
    (∀ a b : Bits, a.width = b.width →
      (∃ sum, a.add? b = some sum ∧ sum.width = a.width ∧
        sum.number = (a.number + b.number) % 2 ^ a.width) ∧
      a.compare? b = some (compare a.number b.number)) ∧
    (∀ (b : Bits) (low width : Nat), (b.slice low width).width = width ∧
      (b.slice low width).number = b.number / 2 ^ low % 2 ^ width) ∧
    ∀ parts : List Bits,
      (concat parts).number =
        ∑ k : Fin parts.length, parts[k].number * 2 ^ partStart parts k ∧
      ofElements parts = concat parts.reverse ∧
      ∀ (k : Nat) (hk : k < parts.length), partStart parts k + parts[k].width ≤
          (concat parts).width ∧
        (concat parts).slice (partStart parts k) parts[k].width = parts[k] := by
  refine ⟨fun a b h => ⟨⟨_, add?_eq h, rfl, ?_⟩, ?_⟩, fun b low width => ⟨rfl, ?_⟩, fun parts =>
    ⟨number_concat parts, ofElements_eq_concat parts, fun k hk =>
      ⟨partStart_add_le hk, slice_concat hk⟩⟩⟩
  · rw [number_eq, number_eq, number_eq, toNat_ofNat]
  · rw [number_eq, number_eq, compare?_eq h]
  · rw [number_eq, number_eq, toNat_slice]

/-- The largest number of 65 bits and one: a carry goes up through all of them. -/
theorem allOnes_computes : ∃ sum, (ofNat 65 (2 ^ (65 : Nat) - 1)).add? (ofNat 65 1) = some sum ∧
    sum.number = 0 ∧ (ofNat 65 (2 ^ (65 : Nat) - 1)).compare? (ofNat 65 1) = some .gt ∧
    (concat [ofNat 3 5, zero 0, ofNat 65 1]).slice 65 3 = ofNat 3 5 := by
  obtain ⟨⟨sum, hsum, -, hnumber⟩, horder⟩ :=
    computes_on_numbers.1 (ofNat 65 (2 ^ (65 : Nat) - 1)) (ofNat 65 1) rfl
  obtain ⟨-, -, hparts⟩ := computes_on_numbers.2.2 [ofNat 3 5, zero 0, ofNat 65 1]
  rw [number_eq (ofNat _ _), number_eq (ofNat _ _)] at hnumber horder
  exact ⟨sum, hsum, hnumber.trans (by decide), horder, (hparts 0 (by decide)).2⟩

end ChannelCodec.Bits
