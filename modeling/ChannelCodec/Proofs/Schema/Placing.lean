import ChannelCodec.Schema.Compiled

/-! Where fields are placed. The fields placed so far and the holes they leave lie over every bit
of the data section exactly once: a step takes what it gives to a field out of a hole or out of a
new word, and leaves the rest as holes. -/
namespace ChannelCodec

structure Span where
  start : Nat
  size : Nat
deriving DecidableEq, Repr

def Span.covers (s : Span) (i : Nat) : Bool := s.start ≤ i && i < s.start + s.size

def coverage (spans : List Span) (i : Nat) : Nat := spans.countP (·.covers i)

def within (low high i : Nat) : Nat := if low ≤ i ∧ i < high then 1 else 0

@[simp] theorem coverage_nil (i : Nat) : coverage [] i = 0 := rfl

theorem coverage_cons (start size : Nat) (spans : List Span) (i : Nat) :
    coverage (⟨start, size⟩ :: spans) i = within start (start + size) i + coverage spans i := by
  rw [coverage, List.countP_cons, coverage, Nat.add_comm]
  congr 1
  simp [Span.covers, within]

@[simp] theorem coverage_append (a b : List Span) (i : Nat) :
    coverage (a ++ b) i = coverage a i + coverage b i :=
  List.countP_append

theorem within_split (low middle high : Nat) (h : low ≤ middle) (h' : middle ≤ high) (i : Nat) :
    within low high i = within low middle i + within middle high i := by
  unfold within
  split <;> split <;> split <;> omega

@[simp] theorem within_self (low i : Nat) : within low low i = 0 := by
  unfold within
  rw [if_neg (by omega)]

theorem pairwise_of_coverage_le_one {spans : List Span} (h : ∀ i, coverage spans i ≤ 1) :
    spans.Pairwise fun s t => ∀ i, s.covers i = true → t.covers i = false := by
  induction spans with
  | nil => exact .nil
  | cons s spans ih =>
    have hcons : ∀ i, within s.start (s.start + s.size) i + coverage spans i ≤ 1 := fun i => by
      rw [← coverage_cons]
      exact h i
    refine .cons (fun t ht i hs => ?_) (ih fun i => by have := hcons i; omega)
    have hone : within s.start (s.start + s.size) i = 1 := by
      simpa [within, Span.covers] using hs
    have hzero : coverage spans i = 0 := by
      have := hcons i
      omega
    have hnone := List.countP_eq_zero.mp hzero t ht
    simpa using hnone

theorem le_of_coverage {spans : List Span} {low high : Nat}
    (h : ∀ i, coverage spans i ≤ within low high i) {s : Span} (hs : s ∈ spans)
    (hpos : 0 < s.size) : low ≤ s.start ∧ s.start + s.size ≤ high := by
  have hpoint : ∀ i, s.covers i = true → low ≤ i ∧ i < high := by
    intro i hi
    have hcount : 0 < coverage spans i := List.countP_pos_iff.mpr ⟨s, hs, hi⟩
    have hle := h i
    unfold within at hle
    by_cases hin : low ≤ i ∧ i < high
    · exact hin
    · rw [if_neg hin] at hle
      omega
  have hfirst := hpoint s.start (by simp [Span.covers, hpos])
  have hlast := hpoint (s.start + s.size - 1) (by
    simp only [Span.covers, Bool.and_eq_true, decide_eq_true_eq]
    omega)
  omega

namespace Holes

/-- The free regions of `2 ^ lg` bits and more, in a section that starts at bit `base`. -/
def spans (base : Nat) : (lg : Nat) → Holes → List Span
  | _, [] => []
  | lg, .none :: larger => spans base (lg + 1) larger
  | lg, some offset :: larger =>
    ⟨base + offset * 2 ^ lg, 2 ^ lg⟩ :: spans base (lg + 1) larger

theorem spans_append (base lg : Nat) (a b : Holes) :
    spans base lg (a ++ b) = spans base lg a ++ spans base (lg + a.length) b := by
  induction a generalizing lg with
  | nil => rfl
  | cons hole a ih =>
    have hlength : lg + (hole :: a).length = lg + 1 + a.length := by
      rw [List.length_cons]
      omega
    rw [hlength]
    cases hole with
    | none => exact ih (lg + 1)
    | some offset => exact congrArg (_ :: ·) (ih (lg + 1))

/-- What is taken out of the holes and what is left of them lie where the holes did. -/
theorem coverage_take? {holes holes' : Holes} {offset : Nat}
    (h : take? holes = some (offset, holes')) (base lg i : Nat) :
    holes'.length = holes.length ∧
      within (base + offset * 2 ^ lg) (base + offset * 2 ^ lg + 2 ^ lg) i +
        coverage (spans base lg holes') i = coverage (spans base lg holes) i := by
  induction holes generalizing holes' offset lg with
  | nil => cases h
  | cons hole larger ih =>
    cases hole with
    | some offset =>
      cases h
      exact ⟨rfl, (coverage_cons _ _ _ i).symm⟩
    | none =>
      rw [take?] at h
      cases ht : take? larger with
      | none =>
        rw [ht] at h
        cases h
      | some taken =>
        obtain ⟨offset, larger'⟩ := taken
        rw [ht] at h
        cases h
        obtain ⟨hlength, hcover⟩ := ih ht (lg + 1)
        -- A larger hole is halved: its first half is taken, and the second one stays free.
        have hpow : 2 ^ (lg + 1) = 2 * 2 ^ lg := Nat.pow_succ'
        have hlow : offset * 2 ^ (lg + 1) = 2 * offset * 2 ^ lg := by
          rw [hpow, ← Nat.mul_assoc, Nat.mul_comm offset 2]
        have hhigh : (2 * offset + 1) * 2 ^ lg = 2 * offset * 2 ^ lg + 2 ^ lg := by
          rw [Nat.add_mul, Nat.one_mul]
        have hend : base + 2 * offset * 2 ^ lg + 2 * 2 ^ lg =
          base + 2 * offset * 2 ^ lg + 2 ^ lg + 2 ^ lg := by omega
        have hhalves := within_split (base + 2 * offset * 2 ^ lg) _ _
          (Nat.le_add_right _ (2 ^ lg)) (Nat.le_add_right _ (2 ^ lg)) i
        refine ⟨congrArg (· + 1) hlength, ?_⟩
        rw [spans, spans, coverage_cons, ← hcover, hlow, hpow, hend, hhalves, hhigh,
          ← Nat.add_assoc base]
        omega

theorem spans_of_take?_eq_none {holes : Holes} (h : take? holes = Option.none) (base lg : Nat) :
    spans base lg holes = [] := by
  induction holes generalizing lg with
  | nil => rfl
  | cons hole larger ih =>
    cases hole with
    | some offset => cases h
    | none =>
      rw [take?] at h
      cases ht : take? larger with
      | none => exact ih ht (lg + 1)
      | some taken =>
        rw [ht] at h
        cases h

private theorem length_fill (holes : Holes) (offset : Nat) :
    (fill holes offset).length = holes.length := by
  induction holes generalizing offset with
  | nil => rfl
  | cons hole larger ih => exact congrArg (· + 1) (ih _)

/-- The holes behind a region at the start of word `word` fill the rest of the word. -/
theorem coverage_fill {holes : Holes} {lg : Nat} (h : lg + holes.length = 6) (base word i : Nat) :
    coverage (spans base lg (fill holes (word * 2 ^ (6 - lg) + 1))) i =
      within (base + word * 64 + 2 ^ lg) (base + word * 64 + 64) i := by
  induction holes generalizing lg with
  | nil =>
    have hlg : lg = 6 := h
    subst hlg
    exact (within_self _ i).symm
  | cons hole larger ih =>
    have hlength : lg + 1 + larger.length = 6 := by
      rw [List.length_cons] at h
      omega
    have hexp : 6 - lg = 6 - (lg + 1) + 1 := by omega
    have hnext : (word * 2 ^ (6 - lg) + 1 + 1) / 2 = word * 2 ^ (6 - (lg + 1)) + 1 := by
      rw [hexp, Nat.pow_succ, ← Nat.mul_assoc]
      omega
    have hword : word * 2 ^ (6 - lg) * 2 ^ lg = word * 64 := by
      rw [Nat.mul_assoc, ← Nat.pow_add, Nat.sub_add_cancel (by omega)]
    have hpow : 2 ^ (lg + 1) = 2 ^ lg + 2 ^ lg := by
      rw [Nat.pow_succ]
      omega
    have hbound : 2 ^ (lg + 1) ≤ 2 ^ (6 : Nat) := Nat.pow_le_pow_right (by decide) (by omega)
    have hparts := within_split (base + word * 64 + 2 ^ lg)
      (base + word * 64 + 2 ^ lg + 2 ^ lg) (base + word * 64 + 64)
      (Nat.le_add_right _ _) (by omega) i
    rw [fill, spans, coverage_cons, hnext, ih hlength, Nat.add_mul, hword, Nat.one_mul, hparts,
      hpow, ← Nat.add_assoc base, ← Nat.add_assoc (base + word * 64)]

end Holes

namespace Placement
variable {p : Placement} {lg : Nat}

theorem addData_of_some {offset : Nat} {larger : Holes}
    (h : Holes.take? (p.holes.drop lg) = some (offset, larger)) :
    p.addData lg = (offset, { p with holes := p.holes.take lg ++ larger }) := by
  simp only [addData, h]

theorem addData_of_none (h : Holes.take? (p.holes.drop lg) = none) :
    p.addData lg = (p.dataWords * 2 ^ (6 - lg), { p with
      dataWords := p.dataWords + 1
      holes := p.holes.take lg ++
        Holes.fill (p.holes.drop lg) (p.dataWords * 2 ^ (6 - lg) + 1) }) := by
  simp only [addData, h]

theorem pointers_addData (p : Placement) (lg : Nat) : (p.addData lg).2.pointers = p.pointers := by
  unfold addData
  dsimp only
  split <;> rfl

theorem dataWords_addData (p : Placement) (lg : Nat) :
    p.dataWords ≤ (p.addData lg).2.dataWords ∧
      (p.addData lg).2.dataWords ≤ p.dataWords + 1 := by
  unfold addData
  dsimp only
  split
  · exact ⟨Nat.le_refl _, Nat.le_add_right _ 1⟩
  · exact ⟨Nat.le_add_right _ 1, Nat.le_refl _⟩

section Sizes
variable (hlength : p.holes.length = 6) (hlg : lg ≤ 6)
include hlength hlg

theorem length_smaller : (p.holes.take lg).length = lg := by
  rw [List.length_take]
  omega

theorem length_larger : lg + (p.holes.drop lg).length = 6 := by
  rw [List.length_drop]
  omega

theorem length_addData : (p.addData lg).2.holes.length = 6 := by
  have hlarger := length_larger hlength hlg
  cases ht : Holes.take? (p.holes.drop lg) with
  | some taken =>
    rw [addData_of_some ht, List.length_append, (Holes.coverage_take? ht 0 lg 0).1,
      length_smaller hlength hlg, hlarger]
  | none =>
    rw [addData_of_none ht, List.length_append, Holes.length_fill, length_smaller hlength hlg,
      hlarger]

/-- Placing a data field covers what it opens, besides what was covered before. -/
theorem coverage_addData (base i : Nat) :
    within (base + (p.addData lg).1 * 2 ^ lg) (base + (p.addData lg).1 * 2 ^ lg + 2 ^ lg) i +
        coverage (Holes.spans base 0 (p.addData lg).2.holes) i =
      coverage (Holes.spans base 0 p.holes) i +
        within (base + p.dataWords * 64) (base + (p.addData lg).2.dataWords * 64) i := by
  have hsmaller := length_smaller hlength hlg
  have hlarger := length_larger hlength hlg
  have hsplit : coverage (Holes.spans base 0 p.holes) i =
      coverage (Holes.spans base 0 (p.holes.take lg)) i +
        coverage (Holes.spans base lg (p.holes.drop lg)) i := by
    have happend := Holes.spans_append base 0 (p.holes.take lg) (p.holes.drop lg)
    rw [List.take_append_drop, hsmaller, Nat.zero_add] at happend
    rw [happend, coverage_append]
  cases ht : Holes.take? (p.holes.drop lg) with
  | some taken =>
    obtain ⟨-, hcover⟩ := Holes.coverage_take? ht base lg i
    rw [addData_of_some ht, hsplit, Holes.spans_append, hsmaller, Nat.zero_add, coverage_append,
      within_self]
    dsimp only
    omega
  | none =>
    -- The field takes the start of a new word, and the new holes are the rest of it.
    have hword : p.dataWords * 2 ^ (6 - lg) * 2 ^ lg = p.dataWords * 64 := by
      rw [Nat.mul_assoc, ← Nat.pow_add, Nat.sub_add_cancel hlg]
    have hbound : 2 ^ lg ≤ 2 ^ (6 : Nat) := Nat.pow_le_pow_right (by decide) hlg
    have hparts := within_split (base + p.dataWords * 64)
      (base + p.dataWords * 64 + 2 ^ lg) (base + p.dataWords * 64 + 64)
      (Nat.le_add_right _ _) (by omega) i
    rw [addData_of_none ht, hsplit, Holes.spans_of_take?_eq_none ht, Holes.spans_append, hsmaller,
      Nat.zero_add, coverage_append, Holes.coverage_fill hlarger, hword, coverage_nil, Nat.add_mul,
      Nat.one_mul, ← Nat.add_assoc base, hparts]
    omega

end Sizes
end Placement
end ChannelCodec
