import ChannelCodec.Proofs.Schema.Placing
import Mathlib.Data.List.Range

/-! Every way to fill a struct. Whatever data fields and pointers are placed, and in whatever order,
the data fields and the holes they leave cut the data section into regions, each inside of one
word, and the pointers stand one behind the other. -/
namespace ChannelCodec

/-- The spans cut the first `bits` bits into regions that lie in one word each. -/
structure Tiles (spans : List Span) (bits : Nat) : Prop where
  apart : spans.Pairwise fun s t => ∀ i, s.covers i = true → t.covers i = false
  inside : ∀ s ∈ spans, s.start + s.size ≤ bits
  complete : ∀ i, i < bits → ∃ s ∈ spans, s.covers i = true
  inWord : ∀ s ∈ spans, s.start / 64 = (s.start + s.size - 1) / 64

/-- The span is one of the equal regions of a power of two of bits that words are cut into. -/
def Span.Aligned (s : Span) : Prop :=
  ∃ lg offset : Nat, lg ≤ 6 ∧ s = ⟨offset * 2 ^ lg, 2 ^ lg⟩

private theorem Span.Aligned.inWord {s : Span} (h : s.Aligned) :
    s.start / 64 = (s.start + s.size - 1) / 64 := by
  obtain ⟨lg, offset, hlg, rfl⟩ := h
  have hpos : 0 < 2 ^ lg := Nat.two_pow_pos lg
  have hword : 64 = 2 ^ lg * 2 ^ (6 - lg) := by
    rw [← Nat.pow_add, Nat.add_sub_cancel' hlg]
  have hlast : offset * 2 ^ lg + 2 ^ lg - 1 = 2 ^ lg - 1 + offset * 2 ^ lg := by omega
  simp only [hlast]
  rw [hword, ← Nat.div_div_eq_div_mul, ← Nat.div_div_eq_div_mul, Nat.mul_div_cancel _ hpos,
    Nat.add_mul_div_right _ _ hpos, Nat.div_eq_of_lt (Nat.sub_lt hpos Nat.one_pos), Nat.zero_add]

private theorem Span.Aligned.size_pos {s : Span} (h : s.Aligned) : 0 < s.size := by
  obtain ⟨lg, offset, -, rfl⟩ := h
  exact Nat.two_pow_pos lg

private theorem Tiles.of_coverage {spans : List Span} {bits : Nat}
    (hcover : ∀ i, coverage spans i = within 0 bits i) (haligned : ∀ s ∈ spans, s.Aligned) :
    Tiles spans bits where
  apart := pairwise_of_coverage_le_one fun i => by
    rw [hcover]
    unfold within
    split <;> omega
  inside s hs := (le_of_coverage (fun i => Nat.le_of_eq (hcover i)) hs (haligned s hs).size_pos).2
  complete i hi := by
    have hone : 0 < coverage spans i := by
      rw [hcover, within, if_pos ⟨Nat.zero_le i, hi⟩]
      exact Nat.one_pos
    exact List.countP_pos_iff.mp hone
  inWord s hs := (haligned s hs).inWord

namespace Holes

/-- Making the rest of a word free finds no region of the same size that is free already, and
passes odd offsets only. -/
def Fillable : Holes → Nat → Prop
  | [], _ => True
  | hole :: larger, offset =>
    hole = Option.none ∧ offset % 2 = 1 ∧ Fillable larger ((offset + 1) / 2)

/-- Every hole is the second half of a region, which is why its offset is never zero. -/
def Odd (holes : Holes) : Prop := ∀ offset, some offset ∈ holes → offset % 2 = 1

private theorem aligned_spans (lg : Nat) (holes : Holes) (h : lg + holes.length ≤ 6) :
    ∀ s ∈ spans 0 lg holes, s.Aligned := by
  induction holes generalizing lg with
  | nil =>
    intro s hs
    cases hs
  | cons hole larger ih =>
    rw [List.length_cons] at h
    have hrest := ih (lg + 1) (by omega)
    cases hole with
    | none => exact hrest
    | some offset =>
      intro s hs
      rcases List.mem_cons.mp hs with rfl | hs
      · exact ⟨lg, offset, by omega, by rw [Nat.zero_add]⟩
      · exact hrest s hs

private theorem odd_take? {holes holes' : Holes} {offset : Nat}
    (h : take? holes = some (offset, holes')) (hodd : Odd holes) : Odd holes' := by
  induction holes generalizing holes' offset with
  | nil => cases h
  | cons hole larger ih =>
    cases hole with
    | some first =>
      cases h
      intro o ho
      rcases List.mem_cons.mp ho with heq | ho
      · cases heq
      · exact hodd o (List.mem_cons_of_mem _ ho)
    | none =>
      rw [take?] at h
      cases ht : take? larger with
      | none =>
        rw [ht] at h
        cases h
      | some taken =>
        rw [ht] at h
        cases h
        have hrest := ih ht fun o ho => hodd o (List.mem_cons_of_mem _ ho)
        intro o ho
        rcases List.mem_cons.mp ho with heq | ho
        · cases heq
          omega
        · exact hrest o ho

private theorem odd_fill {holes : Holes} {offset : Nat} (h : Fillable holes offset) :
    Odd (fill holes offset) := by
  induction holes generalizing offset with
  | nil =>
    intro o ho
    cases ho
  | cons hole larger ih =>
    obtain ⟨-, hodd, hrest⟩ := h
    intro o ho
    rcases List.mem_cons.mp ho with heq | ho
    · cases heq
      exact hodd
    · exact ih hrest o ho

private theorem fillable_of_take?_eq_none {holes : Holes} (h : take? holes = Option.none) {lg : Nat}
    (hlg : lg + holes.length ≤ 6) (word : Nat) :
    Fillable holes (word * 2 ^ (6 - lg) + 1) := by
  induction holes generalizing lg with
  | nil => exact trivial
  | cons hole larger ih =>
    rw [List.length_cons] at hlg
    have hexp : 6 - lg = 6 - (lg + 1) + 1 := by omega
    have heven : word * 2 ^ (6 - lg) = 2 * (word * 2 ^ (6 - (lg + 1))) := by
      rw [hexp, Nat.pow_succ', Nat.mul_left_comm]
    have hnext : (word * 2 ^ (6 - lg) + 1 + 1) / 2 = word * 2 ^ (6 - (lg + 1)) + 1 := by
      omega
    cases hole with
    | some offset => cases h
    | none =>
      rw [take?] at h
      cases ht : take? larger with
      | none =>
        have hrest : Fillable larger (word * 2 ^ (6 - (lg + 1)) + 1) := ih ht (by omega)
        rw [← hnext] at hrest
        exact ⟨rfl, by omega, hrest⟩
      | some taken =>
        rw [ht] at h
        cases h

end Holes

namespace Placement

inductive Request where
  | data (lg : Fin 7)
  | pointer

def place (p : Placement) : Request → Nat × Placement
  | .data lg => p.addData lg
  | .pointer => p.addPointer

def placeAll (p : Placement) : List Request → List (Request × Nat) × Placement
  | [] => ([], p)
  | request :: requests =>
    let (offset, p) := p.place request
    let (placed, p) := placeAll p requests
    ((request, offset) :: placed, p)

def dataSpans : List (Request × Nat) → List Span
  | [] => []
  | (.data lg, offset) :: placed => ⟨offset * 2 ^ lg.val, 2 ^ lg.val⟩ :: dataSpans placed
  | (.pointer, _) :: placed => dataSpans placed

def pointerPlaces : List (Request × Nat) → List Nat
  | [] => []
  | (.data _, _) :: placed => pointerPlaces placed
  | (.pointer, place) :: placed => place :: pointerPlaces placed

def pointerCount : List Request → Nat
  | [] => 0
  | .data _ :: requests => pointerCount requests
  | .pointer :: requests => pointerCount requests + 1

/-- There is a hole or none for every size below a word, and holes are second halves. -/
structure WellFormed (p : Placement) : Prop where
  sizes : p.holes.length = 6
  odd : p.holes.Odd

theorem wellFormed_empty : WellFormed {} where
  sizes := rfl
  odd := by simp [Holes.Odd, Holes.none]

theorem WellFormed.fillable {p : Placement} (hp : p.WellFormed) {lg : Nat}
    (h : Holes.take? (p.holes.drop lg) = none) :
    Holes.Fillable (p.holes.drop lg) (p.dataWords * 2 ^ (6 - lg) + 1) := by
  by_cases hlg : lg ≤ 6
  · apply Holes.fillable_of_take?_eq_none h
    rw [List.length_drop, hp.sizes]
    omega
  · rw [List.drop_of_length_le (by rw [hp.sizes]; omega)]
    exact trivial

private theorem WellFormed.addData {p : Placement} (hp : p.WellFormed) {lg : Nat} (hlg : lg ≤ 6) :
    (p.addData lg).2.WellFormed := by
  refine ⟨length_addData hp.sizes hlg, ?_⟩
  have hsmaller : Holes.Odd (p.holes.take lg) := fun o ho => hp.odd o (List.mem_of_mem_take ho)
  have hlarger : Holes.Odd (p.holes.drop lg) := fun o ho => hp.odd o (List.mem_of_mem_drop ho)
  have happend : ∀ larger : Holes, larger.Odd → Holes.Odd (p.holes.take lg ++ larger) := by
    intro larger h o ho
    rcases List.mem_append.mp ho with ho | ho
    · exact hsmaller o ho
    · exact h o ho
  -- Either a hole is split and leaves its second half, or a word is opened and its rest filled.
  cases ht : Holes.take? (p.holes.drop lg) with
  | some taken =>
    rw [addData_of_some ht]
    exact happend _ (Holes.odd_take? ht hlarger)
  | none =>
    rw [addData_of_none ht]
    exact happend _ (Holes.odd_fill (hp.fillable ht))

theorem WellFormed.place {p : Placement} (hp : p.WellFormed) (request : Request) :
    (p.place request).2.WellFormed := by
  cases request with
  | data lg => exact hp.addData (Nat.le_of_lt_succ lg.isLt)
  | pointer => exact ⟨hp.sizes, hp.odd⟩

private theorem coverage_place {p : Placement} (hp : p.WellFormed) (request : Request) (i : Nat) :
    p.dataWords ≤ (p.place request).2.dataWords ∧
      coverage (dataSpans [(request, (p.place request).1)]) i +
          coverage (Holes.spans 0 0 (p.place request).2.holes) i =
        coverage (Holes.spans 0 0 p.holes) i +
          within (64 * p.dataWords) (64 * (p.place request).2.dataWords) i := by
  cases request with
  | data lg =>
    have hcover := coverage_addData hp.sizes (Nat.le_of_lt_succ lg.isLt) 0 i
    refine ⟨(p.dataWords_addData lg).1, ?_⟩
    unfold place dataSpans dataSpans
    rw [coverage_cons, coverage_nil, Nat.add_zero, Nat.mul_comm 64, Nat.mul_comm 64]
    simpa only [Nat.zero_add] using hcover
  | pointer =>
    refine ⟨Nat.le_refl _, ?_⟩
    simp only [place, addPointer, dataSpans, coverage_nil, within_self, Nat.zero_add, Nat.add_zero]

private theorem dataSpans_cons (request : Request) (offset : Nat) (placed : List (Request × Nat)) :
    dataSpans ((request, offset) :: placed) =
      dataSpans [(request, offset)] ++ dataSpans placed := by
  cases request <;> rfl

private theorem aligned_dataSpans (placed : List (Request × Nat)) :
    ∀ s ∈ dataSpans placed, s.Aligned := by
  induction placed with
  | nil =>
    intro s hs
    cases hs
  | cons first placed ih =>
    obtain ⟨request, offset⟩ := first
    cases request with
    | data lg =>
      intro s hs
      rcases List.mem_cons.mp hs with rfl | hs
      · exact ⟨lg, offset, Nat.le_of_lt_succ lg.isLt, rfl⟩
      · exact ih s hs
    | pointer => exact ih

theorem WellFormed.placeAll {p : Placement} (hp : p.WellFormed) (requests : List Request) :
    (p.placeAll requests).2.WellFormed := by
  induction requests generalizing p with
  | nil => exact hp
  | cons request requests ih => exact ih (hp.place request)

private theorem coverage_placeAll {p : Placement} (hp : p.WellFormed) (requests : List Request)
    (i : Nat) :
    p.dataWords ≤ (p.placeAll requests).2.dataWords ∧
      coverage (dataSpans (p.placeAll requests).1) i +
          coverage (Holes.spans 0 0 (p.placeAll requests).2.holes) i =
        coverage (Holes.spans 0 0 p.holes) i +
          within (64 * p.dataWords) (64 * (p.placeAll requests).2.dataWords) i := by
  induction requests generalizing p with
  | nil =>
    refine ⟨Nat.le_refl _, ?_⟩
    unfold Placement.placeAll dataSpans
    rw [within_self, coverage_nil, Nat.zero_add, Nat.add_zero]
  | cons request requests ih =>
    obtain ⟨hle, hstep⟩ := coverage_place hp request i
    obtain ⟨hle', hrest⟩ := ih (hp.place request)
    unfold Placement.placeAll
    dsimp only
    refine ⟨Nat.le_trans hle hle', ?_⟩
    rw [dataSpans_cons, coverage_append,
      within_split (64 * p.dataWords) (64 * (p.place request).2.dataWords) _ (by omega) (by omega)]
    omega

private theorem pointerPlaces_placeAll (p : Placement) (requests : List Request) :
    pointerPlaces (p.placeAll requests).1 = List.range' p.pointers (pointerCount requests) ∧
      (p.placeAll requests).2.pointers = p.pointers + pointerCount requests := by
  induction requests generalizing p with
  | nil => exact ⟨rfl, rfl⟩
  | cons request requests ih =>
    cases request with
    | data lg =>
      obtain ⟨hplaces, hcount⟩ := ih (p.addData lg).2
      rw [pointers_addData] at hplaces hcount
      exact ⟨hplaces, hcount⟩
    | pointer =>
      obtain ⟨hplaces, hcount⟩ := ih p.addPointer.2
      unfold addPointer at hplaces hcount
      dsimp only at hplaces hcount
      refine ⟨congrArg (p.pointers :: ·) hplaces, ?_⟩
      unfold Placement.placeAll place pointerCount addPointer
      dsimp only
      omega

/-- Placing any fields on an empty struct: data fields and holes tile the data section, offset zero
is left to mean that there is no hole, the next field never finds a region to make free that is
free already, and the pointers are numbered in the order they were asked for. -/
theorem placeAll_tiles (requests : List Request) :
    let placed := (placeAll {} requests).1
    let last := (placeAll {} requests).2
    Tiles (dataSpans placed ++ Holes.spans 0 0 last.holes) (64 * last.dataWords) ∧
      some 0 ∉ last.holes ∧
      (∀ lg, Holes.take? (last.holes.drop lg) = none →
        Holes.Fillable (last.holes.drop lg) (last.dataWords * 2 ^ (6 - lg) + 1)) ∧
      pointerPlaces placed = List.range (pointerCount requests) ∧
      last.pointers = pointerCount requests := by
  intro placed last
  have hlast : last.WellFormed := wellFormed_empty.placeAll requests
  obtain ⟨hplaces, hcount⟩ := pointerPlaces_placeAll {} requests
  refine ⟨Tiles.of_coverage (fun i => ?_) fun s hs => ?_, fun hzero => ?_,
    fun lg hnone => hlast.fillable hnone, ?_, ?_⟩
  · obtain ⟨-, hcover⟩ := coverage_placeAll wellFormed_empty requests i
    rw [coverage_append, hcover]
    exact Nat.zero_add _
  · rcases List.mem_append.mp hs with hs | hs
    · exact aligned_dataSpans placed s hs
    · exact Holes.aligned_spans 0 last.holes (by rw [hlast.sizes]) s hs
  · exact absurd (hlast.odd 0 hzero) (by decide)
  · rw [List.range_eq_range']
    exact hplaces
  · exact hcount.trans (Nat.zero_add _)

/-- Small fields go into the holes that a first one left, before and after a word of its own. -/
example : dataSpans (placeAll {} [.data 0, .data 6, .pointer, .data 3, .data 4]).1 =
    [⟨0, 1⟩, ⟨64, 64⟩, ⟨8, 8⟩, ⟨16, 16⟩] := by decide

end Placement
end ChannelCodec
