import ChannelCodec.Proofs.Schema.Packing

/-! How full data sections are. There is one hole of each power of two at most, so the holes that
are too small for a field have fewer bits together than the field. A field therefore opens a word
only when all bits that are free would not do, and no order of the fields takes more words than
another one. -/
namespace ChannelCodec

private theorem total_perm {widths widths' : List Nat} (h : widths.Perm widths') :
    total widths = total widths' := by
  induction h with
  | nil => rfl
  | cons width _ ih => rw [total_cons, total_cons, ih]
  | swap width width' widths =>
    simp only [total_cons]
    omega
  | trans _ _ ih ih' => exact ih.trans ih'

namespace Holes

def room (lg : Nat) (holes : Holes) : Nat := total ((spans 0 lg holes).map (·.size))

@[simp] theorem room_nil (lg : Nat) : room lg [] = 0 := rfl

@[simp] theorem room_none (lg : Nat) (larger : Holes) :
    room lg (Option.none :: larger) = room (lg + 1) larger := rfl

@[simp] theorem room_some (lg offset : Nat) (larger : Holes) :
    room lg (some offset :: larger) = 2 ^ lg + room (lg + 1) larger := rfl

private theorem room_append (lg : Nat) (a b : Holes) :
    room lg (a ++ b) = room lg a + room (lg + a.length) b := by
  rw [room, spans_append, List.map_append, total_append]
  rfl

theorem room_add_le (lg : Nat) (holes : Holes) :
    room lg holes + 2 ^ lg ≤ 2 ^ (lg + holes.length) := by
  induction holes generalizing lg with
  | nil =>
    rw [room_nil, Nat.zero_add]
    exact Nat.le_refl _
  | cons hole larger ih =>
    have hrest := ih (lg + 1)
    have hlength : lg + 1 + larger.length = lg + (hole :: larger).length := by
      rw [List.length_cons]
      omega
    have hpos : 0 < 2 ^ lg := Nat.two_pow_pos lg
    rw [hlength, Nat.two_pow_succ] at hrest
    cases hole with
    | none =>
      rw [room_none]
      omega
    | some offset =>
      rw [room_some]
      omega

private theorem room_take? {holes holes' : Holes} {offset : Nat}
    (h : take? holes = some (offset, holes')) (lg : Nat) :
    room lg holes = 2 ^ lg + room lg holes' := by
  induction holes generalizing holes' offset lg with
  | nil => cases h
  | cons hole larger ih =>
    cases hole with
    | some first =>
      cases h
      rw [room_some, room_none]
    | none =>
      rw [take?] at h
      cases ht : take? larger with
      | none =>
        rw [ht] at h
        cases h
      | some taken =>
        rw [ht] at h
        cases h
        rw [room_none, ih ht (lg + 1), room_some, Nat.two_pow_succ, Nat.add_assoc]

private theorem room_of_take?_eq_none {holes : Holes} (h : take? holes = Option.none) (lg : Nat) :
    room lg holes = 0 := by
  rw [room, spans_of_take?_eq_none h]
  rfl

private theorem room_fill {holes : Holes} {lg : Nat} (h : lg + holes.length = 6) (offset : Nat) :
    room lg (fill holes offset) + 2 ^ lg = 64 := by
  induction holes generalizing lg offset with
  | nil =>
    have hlg : lg = 6 := h
    rw [hlg]
    rfl
  | cons hole larger ih =>
    rw [List.length_cons] at h
    have hlarger : lg + 1 + larger.length = 6 := by omega
    have hrest := ih hlarger ((offset + 1) / 2)
    rw [Nat.two_pow_succ] at hrest
    rw [fill, room_some]
    omega

end Holes

namespace Placement

def free (p : Placement) : Nat := Holes.room 0 p.holes

/-- There is never a whole word free. -/
theorem WellFormed.free_lt {p : Placement} (hp : p.WellFormed) : p.free < 64 := by
  have hroom := Holes.room_add_le 0 p.holes
  rw [hp.sizes] at hroom
  exact hroom

/-- Placing a data field opens a word when the free bits are too few for it, and not otherwise. The
bits that it adds to the section and does not take are free behind it. -/
theorem WellFormed.addData_free {p : Placement} (hp : p.WellFormed) {lg : Nat} (hlg : lg ≤ 6) :
    (p.addData lg).2.dataWords =
        (if p.free < 2 ^ lg then p.dataWords + 1 else p.dataWords) ∧
      (p.addData lg).2.free + 2 ^ lg + 64 * p.dataWords =
        p.free + 64 * (p.addData lg).2.dataWords := by
  have hsmaller := length_smaller hp.sizes hlg
  have hfree : ∀ larger : Holes, Holes.room 0 (p.holes.take lg ++ larger) =
      Holes.room 0 (p.holes.take lg) + Holes.room lg larger := by
    intro larger
    rw [Holes.room_append, hsmaller, Nat.zero_add]
  have hbefore : p.free =
      Holes.room 0 (p.holes.take lg) + Holes.room lg (p.holes.drop lg) := by
    rw [← hfree, List.take_append_drop]
    rfl
  -- The holes below the size of the field are what fragmentation could cost, and they are too few.
  have hsmall := Holes.room_add_le 0 (p.holes.take lg)
  rw [hsmaller, Nat.zero_add, Nat.pow_zero] at hsmall
  cases ht : Holes.take? (p.holes.drop lg) with
  | some taken =>
    obtain ⟨offset, larger⟩ := taken
    have htaken := Holes.room_take? ht lg
    rw [addData_of_some ht, if_neg (by omega), free, hfree]
    dsimp only
    omega
  | none =>
    have hnone := Holes.room_of_take?_eq_none ht lg
    have hrest := Holes.room_fill (length_larger hp.sizes hlg) (p.dataWords * 2 ^ (6 - lg) + 1)
    rw [addData_of_none ht, if_pos (by omega), free, hfree]
    dsimp only
    omega

def dataFields : List Request → List (Fin 7)
  | [] => []
  | .data lg :: requests => lg :: dataFields requests
  | .pointer :: requests => dataFields requests

def dataBits (requests : List Request) : Nat :=
  total ((dataFields requests).map fun lg => 2 ^ lg.val)

private theorem WellFormed.free_placeAll {p : Placement} (hp : p.WellFormed)
    (requests : List Request) :
    (p.placeAll requests).2.free + dataBits requests + 64 * p.dataWords =
      p.free + 64 * (p.placeAll requests).2.dataWords := by
  induction requests generalizing p with
  | nil => rfl
  | cons request requests ih =>
    have hrest := ih (hp.place request)
    cases request with
    | data lg =>
      have hstep := (hp.addData_free (Nat.le_of_lt_succ lg.isLt)).2
      have hbits : dataBits (.data lg :: requests) = 2 ^ lg.val + dataBits requests := rfl
      rw [hbits]
      unfold Placement.placeAll
      dsimp only [Placement.place] at hrest ⊢
      omega
    | pointer => exact hrest

theorem words_placeAll (requests : List Request) :
    (placeAll {} requests).2.dataWords = wordsFor (dataBits requests) ∧
      (placeAll {} requests).2.free + dataBits requests =
        64 * (placeAll {} requests).2.dataWords := by
  have hfree := wellFormed_empty.free_placeAll requests
  have hlt := (wellFormed_empty.placeAll requests).free_lt
  have hempty : ({} : Placement).free = 0 ∧ ({} : Placement).dataWords = 0 := ⟨rfl, rfl⟩
  rw [hempty.1, hempty.2] at hfree
  unfold wordsFor
  omega

/-- Placing any fields on an empty struct takes as few words as hold the bits of the data fields.
The bits that are not theirs are the free ones; the next data field opens a word exactly when these
are too few for it. Neither the order of the data fields nor the pointers between them matter. -/
theorem placeAll_tight (requests : List Request) :
    let last := (placeAll {} requests).2
    last.dataWords = wordsFor (dataBits requests) ∧
      last.free + dataBits requests = 64 * last.dataWords ∧
      (∀ lg : Fin 7, (last.place (.data lg)).2.dataWords =
        if last.free < 2 ^ lg.val then last.dataWords + 1 else last.dataWords) ∧
      ∀ requests', (dataFields requests').Perm (dataFields requests) →
        (placeAll {} requests').2.dataWords = last.dataWords := by
  intro last
  have hlast : last.WellFormed := wellFormed_empty.placeAll requests
  refine ⟨(words_placeAll requests).1, (words_placeAll requests).2, fun lg => ?_,
    fun requests' hperm => ?_⟩
  · exact (hlast.addData_free (Nat.le_of_lt_succ lg.isLt)).1
  · rw [(words_placeAll requests').1, dataBits, total_perm (hperm.map _)]
    exact (words_placeAll requests).1.symm

/-- A word between small fields does not keep the later ones out of the first word. -/
example : (placeAll {} [.data 0, .data 6, .data 3, .pointer, .data 5]).2.dataWords =
    (placeAll {} [.data 5, .data 3, .data 0, .data 6]).2.dataWords := by decide

end Placement
end ChannelCodec
