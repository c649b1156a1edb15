import ChannelCodec.Proofs.Schema.Placing
import Mathlib.Data.List.Basic

/-! Where the fields of a compiled struct lie. Fields are placed by ascending ordinal and listed in
the order of the text; either way their slots are the same, and lie over no bit twice. -/
namespace ChannelCodec

def WireType.slot (data pointers : Nat) (t : WireType) (offset : Nat) : Span :=
  ⟨(if t.isPointer then pointers else data) + offset * t.bits, t.bits⟩

def NodeField.slot (data pointers : Nat) (f : NodeField) : Span :=
  ⟨(if f.type.isPointer then pointers else data) + f.bitOffset, f.type.bits⟩

@[simp] theorem NodeField.size_slot (data pointers : Nat) (f : NodeField) :
    (f.slot data pointers).size = f.type.bits := rfl

/-- From the placement `p` on values were placed into `spans`, which has led to `p'`. The sections
have grown by `count` words at most; what `spans` and the holes that are left lie over are the holes
that were there and the words that are new. -/
structure Placement.Opens (data pointers : Nat) (spans : List Span) (count : Nat)
    (p p' : Placement) : Prop where
  sizes : p'.holes.length = 6
  dataGrows : p.dataWords ≤ p'.dataWords
  pointersGrow : p.pointers ≤ p'.pointers
  words : p'.dataWords + p'.pointers ≤ p.dataWords + p.pointers + count
  covered : ∀ i, coverage spans i + coverage (Holes.spans data 0 p'.holes) i =
    coverage (Holes.spans data 0 p.holes) i +
      within (data + p.dataWords * 64) (data + p'.dataWords * 64) i +
      within (pointers + p.pointers * 64) (pointers + p'.pointers * 64) i

namespace Placement.Opens
variable {data pointers m n : Nat} {spans spans' : List Span} {p p' p'' : Placement}

theorem refl (hp : p.holes.length = 6) : Opens data pointers [] 0 p p where
  sizes := hp
  dataGrows := Nat.le_refl _
  pointersGrow := Nat.le_refl _
  words := Nat.le_refl _
  covered i := by
    rw [coverage_nil, within_self, within_self]
    omega

theorem trans (h : Opens data pointers spans m p p') (h' : Opens data pointers spans' n p' p'') :
    Opens data pointers (spans ++ spans') (m + n) p p'' where
  sizes := h'.sizes
  dataGrows := Nat.le_trans h.dataGrows h'.dataGrows
  pointersGrow := Nat.le_trans h.pointersGrow h'.pointersGrow
  words := by
    have hwords := h.words
    have hwords' := h'.words
    omega
  covered i := by
    have hcovered := h.covered i
    have hcovered' := h'.covered i
    have hdata := h.dataGrows
    have hdata' := h'.dataGrows
    have hpointers := h.pointersGrow
    have hpointers' := h'.pointersGrow
    rw [coverage_append,
      within_split (data + p.dataWords * 64) (data + p'.dataWords * 64) _ (by omega) (by omega),
      within_split (pointers + p.pointers * 64) (pointers + p'.pointers * 64) _ (by omega)
        (by omega)]
    omega

end Placement.Opens

namespace WireType
variable {p : Placement}

theorem bits_int (w : WireWidth) : (int w).bits = 2 ^ w.log := by
  cases w <;> rfl

theorem bits_uint (w : WireWidth) : (uint w).bits = 2 ^ w.log := by
  cases w <;> rfl

private theorem opens_addData {t : WireType} (hp : p.holes.length = 6) (data pointers : Nat)
    {lg : Nat} (hlg : lg ≤ 6) (hpointer : t.isPointer = false) (hbits : t.bits = 2 ^ lg) :
    p.Opens data pointers [t.slot data pointers (p.addData lg).1] 1 (p.addData lg).2 := by
  have hpointers := p.pointers_addData lg
  obtain ⟨hle, hgrow⟩ := p.dataWords_addData lg
  refine ⟨Placement.length_addData hp hlg, hle, Nat.le_of_eq hpointers.symm, by omega,
    fun i => ?_⟩
  rw [slot, hpointer, if_neg Bool.false_ne_true, hbits, coverage_cons, hpointers, within_self,
    coverage_nil, Nat.add_zero, Nat.add_zero, Placement.coverage_addData hp hlg data i]

theorem opens_place (t : WireType) (hp : p.holes.length = 6) (data pointers : Nat) :
    p.Opens data pointers [t.slot data pointers (t.place p).1] 1 (t.place p).2 := by
  cases t with
  | void =>
    refine ⟨hp, Nat.le_refl _, Nat.le_refl _, Nat.le_succ _, fun i => ?_⟩
    rw [slot, coverage_cons]
    simp [place, bits, elementSize, ElementSize.bits]
  | bool => exact opens_addData hp data pointers (by decide) rfl rfl
  | int w => exact opens_addData hp data pointers (by cases w <;> decide) rfl (bits_int w)
  | uint w => exact opens_addData hp data pointers (by cases w <;> decide) rfl (bits_uint w)
  | list element =>
    refine ⟨hp, Nat.le_refl _, Nat.le_succ _, Nat.le_refl _, fun i => ?_⟩
    rw [slot, coverage_cons]
    simp only [place, Placement.addPointer, isPointer, bits, elementSize, ElementSize.bits, if_true,
      within_self, coverage_nil, Nat.add_zero, Nat.add_mul, Nat.one_mul, Nat.add_assoc]
    omega

end WireType

namespace StructSource

def places (p : Placement) : List FieldSource → List (WireType × Nat)
  | [] => []
  | f :: fields => (f.type, (f.type.place p).1) :: places (f.type.place p).2 fields

theorem placeAll_cons (p : Placement) (f : FieldSource) (fields : List FieldSource) :
    placeAll p (f :: fields) =
      ((f.ordinal, (f.type.place p).1) :: (placeAll (f.type.place p).2 fields).1,
        (placeAll (f.type.place p).2 fields).2) := rfl

/-- All slots together, and the holes that are left, cover the sections once. -/
theorem opens_places (data pointers : Nat) {p : Placement} (hp : p.holes.length = 6)
    (fields : List FieldSource) :
    p.Opens data pointers ((places p fields).map fun place => place.1.slot data pointers place.2)
      fields.length (placeAll p fields).2 := by
  induction fields generalizing p with
  | nil => exact .refl hp
  | cons f fields ih =>
    have hfirst := f.type.opens_place hp data pointers
    rw [List.length_cons, Nat.add_comm]
    exact hfirst.trans (ih hfirst.sizes)

theorem map_lookup_placeAll (p : Placement) {fields : List FieldSource}
    (h : (fields.map (·.ordinal)).Nodup) :
    (fields.map fun f => (f.type, ((placeAll p fields).1.lookup f.ordinal).getD 0)) =
      places p fields := by
  induction fields generalizing p with
  | nil => rfl
  | cons f fields ih =>
    rw [List.map_cons, List.nodup_cons] at h
    rw [List.map_cons, places, placeAll_cons]
    dsimp only
    rw [List.lookup_cons_self, Option.getD_some, ← ih (f.type.place p).2 h.2]
    congr 1
    refine List.map_congr_left fun g hg => ?_
    have hne : (g.ordinal == f.ordinal) = false := by
      rw [beq_eq_false_iff_ne]
      exact fun he => h.1 (he ▸ List.mem_map_of_mem hg)
    rw [List.lookup_cons, hne]

variable {s : StructSource}

theorem compiled_fields (s : StructSource) : s.compiled.fields = s.fields.mapIdx fun codeOrder f =>
    { name := f.name, codeOrder, ordinal := f.ordinal, type := f.type
      offset := ((placeAll {} s.byOrdinal).1.lookup f.ordinal).getD 0 } := rfl

theorem map_place_compiled (s : StructSource) :
    s.compiled.fields.map (fun f => (f.type, f.offset)) =
      s.fields.map fun f => (f.type, ((placeAll {} s.byOrdinal).1.lookup f.ordinal).getD 0) := by
  refine List.ext_getElem? fun i => ?_
  rw [compiled_fields, List.getElem?_map, List.getElem?_mapIdx, List.getElem?_map, Option.map_map]
  rfl

/-- The compiler lists the places of the fields in another order, and no others. -/
theorem places_perm (h : (s.fields.map (·.ordinal)).Nodup) :
    (s.compiled.fields.map fun f => (f.type, f.offset)).Perm (places {} s.byOrdinal) := by
  have hperm : s.byOrdinal.Perm s.fields := List.mergeSort_perm _ _
  have hnodup : (s.byOrdinal.map (·.ordinal)).Nodup := (hperm.map _).nodup_iff.mpr h
  rw [map_place_compiled, ← map_lookup_placeAll {} hnodup]
  exact (hperm.map _).symm

/-- The slots of a struct lie over no bit outside its sections, and over none twice. There are no
more words in it than fields. -/
theorem coverage_slots (h : (s.fields.map (·.ordinal)).Nodup) (data pointers i : Nat) :
    s.compiled.dataWords + s.compiled.pointers ≤ s.fields.length ∧
      coverage (s.compiled.fields.map (NodeField.slot data pointers)) i ≤
        within data (data + s.compiled.dataWords * 64) i +
          within pointers (pointers + s.compiled.pointers * 64) i := by
  obtain ⟨-, -, -, hsum, hcover⟩ := opens_places data pointers (p := {}) rfl s.byOrdinal
  have hcover := hcover i
  have hlength : s.byOrdinal.length = s.fields.length := List.length_mergeSort _
  have hnone : coverage (Holes.spans data 0 ({} : Placement).holes) i = 0 := rfl
  have hdata : (placeAll {} s.byOrdinal).2.dataWords = s.compiled.dataWords := rfl
  have hpointers : (placeAll {} s.byOrdinal).2.pointers = s.compiled.pointers := rfl
  have hzero : ({} : Placement).dataWords = 0 ∧ ({} : Placement).pointers = 0 := ⟨rfl, rfl⟩
  have hslots : coverage (s.compiled.fields.map (NodeField.slot data pointers)) i =
      coverage ((places {} s.byOrdinal).map
        fun place => place.1.slot data pointers place.2) i := by
    have hmap : s.compiled.fields.map (NodeField.slot data pointers) =
        (s.compiled.fields.map fun f => (f.type, f.offset)).map
          fun place => place.1.slot data pointers place.2 := by
      rw [List.map_map]
      rfl
    rw [hmap]
    exact ((places_perm h).map _).countP_eq _
  rw [hdata, hpointers, hzero.1, hzero.2] at hsum hcover
  rw [hnone] at hcover
  rw [hslots]
  refine ⟨by omega, ?_⟩
  rw [Nat.zero_mul, Nat.add_zero, Nat.add_zero] at hcover
  omega

theorem bitOffset_add_le (h : (s.fields.map (·.ordinal)).Nodup) {f : NodeField}
    (hf : f ∈ s.compiled.fields) (hpos : 0 < f.type.bits) : f.bitOffset + f.type.bits ≤
      (if f.type.isPointer then s.compiled.pointers else s.compiled.dataWords) * 64 := by
  -- The sections may lie anywhere, so the other one is put in front of the one of the slot.
  have hpoint : ∀ data pointers i, (NodeField.slot data pointers f).covers i = true →
      (data ≤ i ∧ i < data + s.compiled.dataWords * 64) ∨
        (pointers ≤ i ∧ i < pointers + s.compiled.pointers * 64) := by
    intro data pointers i hi
    have hcover := (coverage_slots h data pointers i).2
    have hcount : 0 < coverage (s.compiled.fields.map (NodeField.slot data pointers)) i :=
      List.countP_pos_iff.mpr ⟨_, List.mem_map_of_mem hf, hi⟩
    unfold within at hcover
    split at hcover
    next h => exact .inl h
    next =>
      split at hcover
      next h => exact .inr h
      next => omega
  cases hp : f.type.isPointer with
  | true =>
    have h := hpoint 0 (s.compiled.dataWords * 64)
      (s.compiled.dataWords * 64 + f.bitOffset + f.type.bits - 1) (by
        simp only [NodeField.slot, hp, Span.covers, Bool.and_eq_true, decide_eq_true_eq, if_true]
        omega)
    rw [if_pos rfl]
    omega
  | false =>
    have h := hpoint (s.compiled.pointers * 64) 0
      (s.compiled.pointers * 64 + f.bitOffset + f.type.bits - 1) (by
        simp only [NodeField.slot, hp, Span.covers, Bool.and_eq_true, decide_eq_true_eq,
          Bool.false_eq_true, if_false]
        omega)
    rw [if_neg Bool.false_ne_true]
    omega

end StructSource
end ChannelCodec
