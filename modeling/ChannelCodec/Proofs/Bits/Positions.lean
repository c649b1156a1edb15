import ChannelCodec.Bits.Basic

/-! Bit vectors position by position. Two vectors of the same width are equal when they have the
same bit at every position, so each operation is determined by the bits of its result: a slice
shifts positions, and putting vectors side by side splits the positions between them. -/
namespace ChannelCodec.Bits

theorem toNat_lt_of_width_le {b : Bits} {width : Nat} (h : b.width ≤ width) :
    b.toNat < 2 ^ width :=
  Nat.lt_of_lt_of_le b.toNat_lt (Nat.pow_le_pow_right (by decide) h)

theorem bit_of_width_le {b : Bits} {i : Nat} (h : b.width ≤ i) : b.bit i = false :=
  Nat.testBit_lt_two_pow (toNat_lt_of_width_le h)

theorem lt_width_of_bit {b : Bits} {i : Nat} (h : b.bit i = true) : i < b.width := by
  apply Nat.lt_of_not_le
  intro hle
  rw [bit_of_width_le hle] at h
  exact Bool.noConfusion h

theorem ext_bit {a b : Bits} (hw : a.width = b.width)
    (h : ∀ i, i < a.width → a.bit i = b.bit i) : a = b := by
  ext
  · exact hw
  · apply Nat.eq_of_testBit_eq
    intro i
    by_cases hi : i < a.width
    · exact h i hi
    · have ha : a.bit i = false := bit_of_width_le (Nat.le_of_not_lt hi)
      have hb : b.bit i = false := bit_of_width_le (by omega)
      exact ha.trans hb.symm

theorem eq_of_width_zero {a b : Bits} (ha : a.width = 0) (hb : b.width = 0) : a = b :=
  ext_bit (by omega) (fun i hi => by omega)

@[simp] theorem bit_zero (width i : Nat) : (zero width).bit i = false := by
  simp [bit, zero]

@[simp] theorem bit_ofNat (width n i : Nat) :
    (ofNat width n).bit i = (decide (i < width) && n.testBit i) := by
  simp [bit, ofNat, Nat.testBit_mod_two_pow]

@[simp] theorem bit_ofBool (b : Bool) : (ofBool b).bit 0 = b := by
  cases b <;> rfl

@[simp] theorem bit_slice (b : Bits) (low width i : Nat) :
    (b.slice low width).bit i = (decide (i < width) && b.bit (low + i)) := by
  simp [bit, Nat.testBit_mod_two_pow, Nat.testBit_div_two_pow, Nat.add_comm]

@[simp] theorem bit_append (high low : Bits) (i : Nat) :
    (high.append low).bit i = if i < low.width then low.bit i else high.bit (i - low.width) := by
  have h := Nat.testBit_two_pow_mul_add high.toNat low.toNat_lt i
  simpa only [bit, toNat_append, Nat.mul_comm high.toNat] using h

theorem slice_zero_width (b : Bits) (low : Nat) : b.slice low 0 = zero 0 :=
  eq_of_width_zero rfl rfl

theorem slice_of_width_le {b : Bits} {low : Nat} (width : Nat) (h : b.width ≤ low) :
    b.slice low width = zero width :=
  ext_bit rfl fun i _ => by
    have hpast : b.width ≤ low + i := by omega
    simp [bit_of_width_le hpast]

theorem slice_self (b : Bits) : b.slice 0 b.width = b :=
  ext_bit rfl fun i hi => by
    have hi : i < b.width := hi
    simp [hi]

theorem slice_slice (b : Bits) {low width low' width' : Nat} (h : low' + width' ≤ width) :
    (b.slice low width).slice low' width' = b.slice (low + low') width' :=
  ext_bit rfl fun i hi => by
    have hi : i < width' := hi
    have hw : low' + i < width := by omega
    simp [hi, hw, Nat.add_assoc]

theorem append_assoc (a b c : Bits) : (a.append b).append c = a.append (b.append c) := by
  apply ext_bit
  · simp [Nat.add_assoc]
  · intro i _
    simp only [bit_append, width_append]
    by_cases hc : i < c.width
    · rw [if_pos hc, if_pos (by omega), if_pos hc]
    · rw [if_neg hc]
      by_cases hb : i - c.width < b.width
      · rw [if_pos hb, if_pos (by omega), if_neg hc]
      · rw [if_neg hb, if_neg (by omega)]
        congr 1
        omega

@[simp] theorem append_zero (a : Bits) : a.append (zero 0) = a :=
  ext_bit (by simp) fun i _ => by simp

@[simp] theorem zero_append (a : Bits) : (zero 0).append a = a := by
  apply ext_bit
  · simp
  · intro i hi
    have hi : i < a.width := by simpa using hi
    simp [hi]

@[simp] theorem slice_append_low (high low : Bits) :
    (high.append low).slice 0 low.width = low :=
  ext_bit rfl fun i hi => by
    have hi : i < low.width := hi
    simp [hi]

theorem slice_append_high (high low : Bits) (start width : Nat) :
    (high.append low).slice (low.width + start) width = high.slice start width :=
  ext_bit rfl fun i _ => by
    simp only [bit_slice, bit_append]
    rw [if_neg (by omega)]
    congr 2
    omega

theorem slice_append_of_le (high : Bits) {low : Bits} {start width : Nat}
    (h : start + width ≤ low.width) :
    (high.append low).slice start width = low.slice start width :=
  ext_bit rfl fun i hi => by
    have hi : i < width := hi
    have hlow : start + i < low.width := by omega
    simp [hi, hlow]

theorem slice_above_slice (b : Bits) (low width width' : Nat) :
    (b.slice (low + width) width').append (b.slice low width) = b.slice low (width' + width) := by
  apply ext_bit
  · rfl
  · intro i hi
    have hi : i < width' + width := hi
    simp only [bit_append, width_slice, bit_slice]
    by_cases hl : i < width
    · simp [hl, hi]
    · have hh : i - width < width' := by omega
      have he : low + width + (i - width) = low + i := by omega
      simp [hl, hh, hi, he]

private theorem append_slices (b : Bits) {width : Nat} (h : width ≤ b.width) :
    (b.slice width (b.width - width)).append (b.slice 0 width) = b := by
  have hside := slice_above_slice b 0 width (b.width - width)
  rwa [Nat.zero_add, Nat.sub_add_cancel h, slice_self] at hside

theorem concat_append (xs ys : List Bits) :
    concat (xs ++ ys) = (concat xs).append (concat ys) := by
  induction xs with
  | nil => simp
  | cons x xs ih => rw [List.cons_append, concat_cons, concat_cons, ih, append_assoc]

theorem ofElements_eq_concat (xs : List Bits) : ofElements xs = concat xs.reverse :=
  List.foldr_reverse.symm

@[simp] theorem ofElements_nil : ofElements [] = zero 0 := rfl

@[simp] theorem ofElements_cons (x : Bits) (xs : List Bits) :
    ofElements (x :: xs) = (ofElements xs).append x := by
  simp [ofElements_eq_concat, concat_append]

theorem width_ofElements (xs : List Bits) : (ofElements xs).width = total (xs.map width) := by
  induction xs with
  | nil => rfl
  | cons x xs ih => simp [ih, Nat.add_comm]

theorem width_ofElements_of_uniform {xs : List Bits} {w : Nat} (h : ∀ x ∈ xs, x.width = w) :
    (ofElements xs).width = w * xs.length := by
  induction xs with
  | nil => rfl
  | cons x xs ih =>
    have hx := h x List.mem_cons_self
    have hxs := ih fun y hy => h y (List.mem_cons_of_mem x hy)
    simp [hx, hxs, Nat.mul_succ]

theorem slice_ofElements {xs : List Bits} {w k : Nat} (h : ∀ x ∈ xs, x.width = w)
    (hk : k < xs.length) : (ofElements xs).slice (k * w) w = xs[k] := by
  induction xs generalizing k with
  | nil => exact absurd hk (Nat.not_lt_zero k)
  | cons x xs ih =>
    have hx := h x List.mem_cons_self
    cases k with
    | zero =>
      rw [Nat.zero_mul, ofElements_cons, List.getElem_cons_zero, ← hx, slice_append_low]
    | succ k =>
      have hxs : ∀ y ∈ xs, y.width = w := fun y hy => h y (List.mem_cons_of_mem x hy)
      have he : (k + 1) * w = x.width + k * w := by rw [hx, Nat.succ_mul, Nat.add_comm]
      rw [ofElements_cons, he, slice_append_high, ih hxs (by simpa using hk)]
      rfl

def elements (w n : Nat) (x : Bits) : List Bits := (List.range n).map fun k => x.slice (k * w) w

private theorem elements_succ (w n : Nat) (x : Bits) :
    elements w (n + 1) x = x.slice 0 w :: elements w n (x.slice w (w * n)) := by
  simp only [elements, List.range_succ_eq_map, List.map_cons, List.map_map, Nat.zero_mul]
  congr 1
  apply List.map_congr_left
  intro k hk
  rw [Function.comp_apply, slice_slice _ (element_stop_le w (List.mem_range.mp hk)), Nat.succ_mul,
    Nat.add_comm]

theorem ofElements_elements {w n : Nat} {x : Bits} (h : x.width = w * n) :
    ofElements (elements w n x) = x := by
  induction n generalizing x with
  | zero => exact eq_of_width_zero rfl h
  | succ n ih =>
    have hw : w * (n + 1) = w + w * n := by rw [Nat.mul_succ, Nat.add_comm]
    rw [elements_succ, ofElements_cons, ih rfl]
    have he : w * n = x.width - w := by omega
    rw [he, append_slices x (by omega)]

end ChannelCodec.Bits
