/-! Widths of indices, counts of words, and sums of widths. -/
namespace ChannelCodec

/-- Powers of numbers are the core library's own, whatever other algebra is in scope. -/
instance (priority := 2000) natPower : Pow Nat Nat := instPowNat

/-- The number of bits that tell `n` elements apart, the least `k` with `n ≤ 2 ^ k`. -/
def ceilLog2 (n : Nat) : Nat :=
  if n ≤ 1 then 0 else Nat.log2 (n - 1) + 1

def wordsFor (bits : Nat) : Nat := (bits + 63) / 64

/-- The width of an index into an array of `size` elements, one bit at least. -/
def indexWidth (size : Nat) : Nat := max (ceilLog2 size) 1

def total : List Nat → Nat
  | [] => 0
  | width :: widths => width + total widths

@[simp] theorem total_nil : total [] = 0 := rfl

@[simp] theorem total_cons (width : Nat) (widths : List Nat) :
    total (width :: widths) = width + total widths := rfl

@[simp] theorem total_append (xs ys : List Nat) : total (xs ++ ys) = total xs + total ys := by
  induction xs with
  | nil => simp
  | cons x xs ih => simp [ih, Nat.add_assoc]

@[simp] theorem total_replicate (n width : Nat) : total (List.replicate n width) = n * width := by
  induction n with
  | zero => simp
  | succ n ih => rw [List.replicate_succ, total_cons, ih, Nat.succ_mul, Nat.add_comm]

@[simp] theorem total_reverse (widths : List Nat) : total widths.reverse = total widths := by
  induction widths with
  | nil => rfl
  | cons width widths ih => simp [ih, Nat.add_comm]

theorem total_map_mul (factor : Nat) (widths : List Nat) :
    total (widths.map (factor * ·)) = factor * total widths := by
  induction widths with
  | nil => rfl
  | cons width widths ih => simp [ih, Nat.mul_add]

theorem element_stop_le (width : Nat) {k size : Nat} (h : k < size) :
    k * width + width ≤ width * size := by
  rw [← Nat.succ_mul, Nat.mul_comm]
  exact Nat.mul_le_mul_left width h

theorem le_two_pow_ceilLog2 (n : Nat) : n ≤ 2 ^ ceilLog2 n := by
  unfold ceilLog2
  split
  · omega
  · have h := Nat.lt_log2_self (n := n - 1)
    omega

theorem two_pow_lt_of_lt_ceilLog2 {n k : Nat} (h : k < ceilLog2 n) : 2 ^ k < n := by
  unfold ceilLog2 at h
  split at h
  · omega
  · have h₁ : 2 ^ k ≤ 2 ^ Nat.log2 (n - 1) := Nat.pow_le_pow_right (by decide) (by omega)
    have h₂ : 2 ^ Nat.log2 (n - 1) ≤ n - 1 := Nat.log2_self_le (by omega)
    omega

theorem indexWidth_le {size width : Nat} (hpos : 0 < width) (h : size ≤ 2 ^ width) :
    indexWidth size ≤ width := by
  apply Nat.max_le.mpr
  refine ⟨Nat.le_of_not_lt fun hlt => ?_, hpos⟩
  exact absurd h (Nat.not_le.mpr (two_pow_lt_of_lt_ceilLog2 hlt))

theorem lt_two_pow_indexWidth {k size : Nat} (h : k < size) : k < 2 ^ indexWidth size :=
  Nat.lt_of_lt_of_le (Nat.lt_of_lt_of_le h (le_two_pow_ceilLog2 size))
    (Nat.pow_le_pow_right (by decide) (Nat.le_max_left _ _))

theorem le_wordsFor (bits : Nat) : bits ≤ 64 * wordsFor bits := by
  unfold wordsFor
  omega

end ChannelCodec
