import ChannelCodec.Proofs.Bits.Positions
import Mathlib.Data.List.Pairwise

/-! Vectors described by what lies where. A vector shows pieces when each of them is found at its
place and all bits outside of them are zero; that leaves no bit open. -/
namespace ChannelCodec

structure Piece where
  start : Nat
  bits : Bits
deriving DecidableEq, Repr

namespace Piece

def stop (p : Piece) : Nat := p.start + p.bits.width

def Covers (p : Piece) (i : Nat) : Prop := p.start ≤ i ∧ i < p.stop

def Apart (p q : Piece) : Prop := ∀ i, p.Covers i → ¬ q.Covers i

variable {p q : Piece}

theorem Apart.symm (h : p.Apart q) : q.Apart p := fun i hq hp => h i hp hq

instance : Std.Symm Apart := ⟨fun _ _ h => h.symm⟩

private theorem apart_of_stop_le (h : p.stop ≤ q.start) : p.Apart q := by
  intro i hp hq
  have hp := hp.2
  have hq := hq.1
  omega

end Piece

def Sorted (pieces : List Piece) : Prop := pieces.Pairwise fun p q => p.stop ≤ q.start

theorem apart_of_sorted {pieces : List Piece} (h : Sorted pieces) : pieces.Pairwise Piece.Apart :=
  h.imp fun hpq => Piece.apart_of_stop_le hpq

/-- The vector has every piece at its place, and zeros elsewhere. -/
structure Bits.Shows (m : Bits) (pieces : List Piece) : Prop where
  inside : ∀ p ∈ pieces, m.slice p.start p.bits.width = p.bits
  outside : ∀ i, (∀ p ∈ pieces, ¬ p.Covers i) → m.bit i = false

namespace Bits

theorem Shows.unique {m m' : Bits} {pieces : List Piece} (h : m.Shows pieces)
    (h' : m'.Shows pieces) (hw : m.width = m'.width) : m = m' := by
  apply ext_bit hw
  intro i _
  by_cases hi : ∃ p ∈ pieces, p.Covers i
  · obtain ⟨p, hp, hle, hlt⟩ := hi
    have hlt : i - p.start < p.bits.width := by
      rw [Piece.stop] at hlt
      omega
    have he : p.start + (i - p.start) = i := by omega
    have hsame := congrArg (Bits.bit · (i - p.start)) ((h.inside p hp).trans (h'.inside p hp).symm)
    simpa [hlt, he] using hsame
  · have hi : ∀ p ∈ pieces, ¬ p.Covers i := fun p hp hc => hi ⟨p, hp, hc⟩
    rw [h.outside i hi, h'.outside i hi]

def overlay (pieces : List Piece) (i : Nat) : Bool :=
  pieces.any fun p => decide (p.start ≤ i) && p.bits.bit (i - p.start)

@[simp] theorem overlay_nil (i : Nat) : overlay [] i = false := rfl

@[simp] theorem overlay_cons (p : Piece) (pieces : List Piece) (i : Nat) :
    overlay (p :: pieces) i =
      (decide (p.start ≤ i) && p.bits.bit (i - p.start) || overlay pieces i) := rfl

theorem overlay_eq_true {pieces : List Piece} {i : Nat} (h : overlay pieces i = true) :
    ∃ p ∈ pieces, p.Covers i ∧ p.bits.bit (i - p.start) = true := by
  obtain ⟨p, hp, hbit⟩ := List.any_eq_true.mp h
  rw [Bool.and_eq_true, decide_eq_true_eq] at hbit
  have hlt := lt_width_of_bit hbit.2
  have hle := hbit.1
  exact ⟨p, hp, ⟨hle, by rw [Piece.stop]; omega⟩, hbit.2⟩

theorem overlay_eq_false {pieces : List Piece} {i : Nat} (h : ∀ p ∈ pieces, ¬ p.Covers i) :
    overlay pieces i = false := by
  cases ho : overlay pieces i with
  | false => rfl
  | true =>
    obtain ⟨p, hp, hc, _⟩ := overlay_eq_true ho
    exact absurd hc (h p hp)

theorem shows_of_overlay {m : Bits} {pieces : List Piece} (hapart : pieces.Pairwise Piece.Apart)
    (h : ∀ i, m.bit i = overlay pieces i) : m.Shows pieces := by
  refine ⟨fun p hp => ext_bit rfl fun i hi => ?_, fun i hi => (h i).trans (overlay_eq_false hi)⟩
  have hi : i < p.bits.width := hi
  have hcovers : p.Covers (p.start + i) := ⟨Nat.le_add_right _ _, by rw [Piece.stop]; omega⟩
  rw [bit_slice, decide_eq_true hi, Bool.true_and, h]
  cases hbit : p.bits.bit i with
  | true =>
    refine List.any_eq_true.mpr ⟨p, hp, ?_⟩
    rw [Nat.add_sub_cancel_left, hbit, decide_eq_true (Nat.le_add_right _ _)]
    rfl
  | false =>
    cases ho : overlay pieces (p.start + i) with
    | false => rfl
    | true =>
      obtain ⟨q, hq, hc, hqbit⟩ := overlay_eq_true ho
      by_cases hpq : p = q
      · rw [← hpq, Nat.add_sub_cancel_left, hbit] at hqbit
        exact hqbit.symm
      · exact absurd hc (hapart.forall hp hq hpq (p.start + i) hcovers)

theorem Shows.bit_eq_overlay {m : Bits} {pieces : List Piece} (h : m.Shows pieces) (i : Nat) :
    m.bit i = overlay pieces i := by
  have hbit : ∀ p ∈ pieces, p.Covers i → m.bit i = p.bits.bit (i - p.start) := by
    intro p hp hc
    have hle := hc.1
    have hlt := hc.2
    rw [Piece.stop] at hlt
    have hi : p.start + (i - p.start) = i := Nat.add_sub_of_le hle
    rw [← h.inside p hp, bit_slice, decide_eq_true (by omega), Bool.true_and, hi]
  by_cases hcovered : ∃ p ∈ pieces, p.Covers i
  · obtain ⟨p, hp, hc⟩ := hcovered
    cases ho : overlay pieces i with
    | true =>
      obtain ⟨q, hq, hc, hqbit⟩ := overlay_eq_true ho
      rw [hbit q hq hc, hqbit]
    | false =>
      have hnone := List.any_eq_false.mp ho p hp
      rw [decide_eq_true hc.1, Bool.true_and, Bool.not_eq_true] at hnone
      rw [hbit p hp hc, hnone]
  · have hnone : ∀ p ∈ pieces, ¬ p.Covers i := fun p hp hc => hcovered ⟨p, hp, hc⟩
    rw [h.outside i hnone, overlay_eq_false hnone]

theorem bit_behind_gap {rest : Bits} {gap reached : Nat} {pieces : List Piece}
    (hbehind : ∀ q ∈ pieces, reached + gap ≤ q.start)
    (hrest : ∀ i, rest.bit i = overlay pieces (reached + gap + i)) (i : Nat) :
    (rest.append (.zero gap)).bit i = overlay pieces (reached + i) := by
  rw [bit_append, bit_zero, width_zero]
  by_cases hgap : i < gap
  · rw [if_pos hgap]
    refine (overlay_eq_false fun q hq hc => ?_).symm
    have hstart := hbehind q hq
    have hcovered := hc.1
    omega
  · have hi : reached + gap + (i - gap) = reached + i := by omega
    rw [if_neg hgap, hrest, hi]

theorem bit_behind_piece {rest : Bits} {p : Piece} {pieces : List Piece}
    (hsorted : Sorted (p :: pieces)) (hrest : ∀ i, rest.bit i = overlay pieces (p.stop + i))
    (i : Nat) : (rest.append p.bits).bit i = overlay (p :: pieces) (p.start + i) := by
  rw [bit_append, overlay_cons, decide_eq_true (Nat.le_add_right _ _), Bool.true_and,
    Nat.add_sub_cancel_left]
  by_cases hi : i < p.bits.width
  · have hnone : overlay pieces (p.start + i) = false :=
      overlay_eq_false fun q hq hc => by
        have hpq := (List.pairwise_cons.mp hsorted).1 q hq
        have hqi := hc.1
        rw [Piece.stop] at hpq
        omega
    rw [if_pos hi, hnone, Bool.or_false]
  · have hstop : p.stop + (i - p.bits.width) = p.start + i := by
      rw [Piece.stop]
      omega
    rw [if_neg hi, hrest, hstop, bit_of_width_le (Nat.le_of_not_lt hi), Bool.false_or]

end Bits
end ChannelCodec
