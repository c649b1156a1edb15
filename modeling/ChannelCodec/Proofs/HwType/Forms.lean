import ChannelCodec.Circuit.Evaluation
import ChannelCodec.Proofs.Bits.Positions
import Mathlib.Logic.ExistsUnique

/-! What lies behind the aliases of a hardware type, and how a packed struct splits into its
fields. -/
namespace ChannelCodec.HwType

@[simp] theorem bitWidth_bit : bit.bitWidth = 1 := rfl

@[simp] theorem bitWidth_bits (width : Nat) : (bits width).bitWidth = width := rfl

@[simp] theorem bitWidth_int (s : Signedness) (width : Nat) : (int s width).bitWidth = width := rfl

@[simp] theorem bitWidth_array (size : Nat) (element : HwType) :
    (array size element).bitWidth = element.bitWidth * size := rfl

@[simp] theorem bitWidth_bitArray (size : Nat) : (bitArray size).bitWidth = size := by
  rw [bitArray, bitWidth_array, bitWidth_bit, Nat.one_mul]

@[simp] theorem bitWidth_struct (fields : List (Field HwType)) :
    (struct fields).bitWidth = fieldsWidth fields := rfl

@[simp] theorem array?_bitArray (size : Nat) : (bitArray size).array? = some (bit, size) := rfl

variable {t element : HwType} {s : Signedness} {width size : Nat} {fields : List (Field HwType)}

theorem canonical_of_int? (h : t.int? = some (s, width)) : t.canonical = .int s width := by
  unfold int? at h
  split at h <;> simp_all

theorem canonical_of_array? (h : t.array? = some (element, size)) :
    t.canonical = .array size element := by
  unfold array? at h
  split at h <;> simp_all

theorem canonical_of_struct? (h : t.struct? = some fields) : t.canonical = .struct fields := by
  unfold struct? at h
  split at h <;> simp_all

theorem bitWidth_of_int? (h : t.int? = some (s, width)) : t.bitWidth = width := by
  rw [← bitWidth_canonical, canonical_of_int? h, bitWidth_int]

theorem bitWidth_of_array? (h : t.array? = some (element, size)) :
    t.bitWidth = element.bitWidth * size := by
  rw [← bitWidth_canonical, canonical_of_array? h, bitWidth_array]

theorem bitWidth_of_struct? (h : t.struct? = some fields) : t.bitWidth = fieldsWidth fields := by
  rw [← bitWidth_canonical, canonical_of_struct? h, bitWidth_struct]

theorem elementWidth_of_array? (h : t.array? = some (element, size)) :
    t.elementWidth = element.bitWidth := by
  rw [elementWidth, h]

theorem placeOf?_of_nodup (hn : (fields.map (·.name)).Nodup) {k : Nat} {f : Field HwType}
    (hf : fields[k]? = some f) :
    placeOf? f.name fields = some (fieldsWidth (fields.drop (k + 1)), f.type) := by
  induction fields generalizing k with
  | nil => simp at hf
  | cons g fields ih =>
    rw [List.map_cons, List.nodup_cons] at hn
    cases k with
    | zero =>
      rw [List.getElem?_cons_zero, Option.some_inj] at hf
      rw [placeOf?, if_pos (by rw [hf]), hf]
      rfl
    | succ k =>
      rw [List.getElem?_cons_succ] at hf
      have hne : g.name ≠ f.name := by
        intro he
        apply hn.1
        rw [he]
        exact List.mem_map_of_mem (List.mem_of_getElem? hf)
      rw [placeOf?, if_neg hne, ih hn.2 hf]
      rfl

mutual
/-- The type without the aliases in it, at whatever depth. -/
def unaliased : HwType → HwType
  | .int signedness width => .int signedness width
  | .array size element => .array size element.unaliased
  | .struct fields => .struct (unaliasedFields fields)
  | .named _ target => target.unaliased
  | .channel payload => .channel payload.unaliased
def unaliasedFields : List (Field HwType) → List (Field HwType)
  | [] => []
  | ⟨name, type⟩ :: fields => ⟨name, type.unaliased⟩ :: unaliasedFields fields
end

@[simp] theorem bitWidth_unaliased (t : HwType) : t.unaliased.bitWidth = t.bitWidth := by
  induction t using induct with
  | int s w => rfl
  | array n t ih => rw [unaliased, bitWidth_array, bitWidth_array, ih]
  | struct fields ih =>
    rw [unaliased, bitWidth_struct, bitWidth_struct]
    induction fields with
    | nil => rfl
    | cons f fields ih' =>
      rw [List.forall_mem_cons] at ih
      rw [unaliasedFields, fieldsWidth, fieldsWidth, ih.1, ih' ih.2]
  | named _ t ih => simpa [unaliased, bitWidth] using ih
  | channel t ih => simpa [unaliased, bitWidth] using ih

@[simp] theorem fieldsWidth_unaliasedFields (fields : List (Field HwType)) :
    fieldsWidth (unaliasedFields fields) = fieldsWidth fields :=
  bitWidth_unaliased (.struct fields)

theorem array?_unaliased (t : HwType) :
    t.unaliased.array? = t.array?.map fun p => (p.1.unaliased, p.2) := by
  induction t using induct with
  | named _ t ih => exact ih
  | _ => rfl

private theorem struct?_unaliased (t : HwType) :
    t.unaliased.struct? = t.struct?.map unaliasedFields := by
  induction t using induct with
  | named _ t ih => exact ih
  | _ => rfl

private theorem placeOf?_unaliasedFields (name : String) (fields : List (Field HwType)) :
    placeOf? name (unaliasedFields fields) =
      (placeOf? name fields).map fun p => (p.1, p.2.unaliased) := by
  induction fields with
  | nil => rfl
  | cons f fields ih =>
    rw [unaliasedFields, placeOf?, placeOf?, ih, fieldsWidth_unaliasedFields]
    split <;> rfl

theorem fieldRange_unaliased (t : HwType) (name : String) :
    t.unaliased.fieldRange name = t.fieldRange name := by
  rw [fieldRange, fieldRange, fieldPlace?, fieldPlace?, struct?_unaliased]
  cases t.struct? with
  | none => rfl
  | some fields =>
    rw [Option.map_some, Option.bind_some, Option.bind_some, placeOf?_unaliasedFields]
    cases placeOf? name fields with
    | none => rfl
    | some p => simp

/-- Bit `p` of a packed struct is one of its field `f`. -/
def HasBit (t : HwType) (f : Field HwType) (p : Nat) : Prop :=
  ∃ low, t.fieldPlace? f.name = some (low, f.type) ∧ low ≤ p ∧ p < low + f.type.bitWidth

theorem exists_placeOf?_of_mem (hn : (fields.map (·.name)).Nodup) {f : Field HwType}
    (hf : f ∈ fields) : ∃ low, placeOf? f.name fields = some (low, f.type) ∧
      low + f.type.bitWidth ≤ fieldsWidth fields := by
  obtain ⟨k, hk, rfl⟩ := List.mem_iff_getElem.mp hf
  refine ⟨_, placeOf?_of_nodup hn (List.getElem?_eq_getElem hk), ?_⟩
  have hsum := congrArg total (List.take_append_drop k (fields.map (·.type.bitWidth)))
  rw [total_append, ← List.map_drop, List.drop_eq_getElem_cons hk, List.map_cons, total_cons]
    at hsum
  rw [fieldsWidth_eq_total, fieldsWidth_eq_total]
  omega

theorem exists_unique_placeOf? (hn : (fields.map (·.name)).Nodup) {p : Nat}
    (hp : p < fieldsWidth fields) : ∃! f, f ∈ fields ∧
      ∃ low, placeOf? f.name fields = some (low, f.type) ∧ low ≤ p ∧ p < low + f.type.bitWidth := by
  induction fields with
  | nil => exact absurd hp (Nat.not_lt_zero p)
  | cons g fields ih =>
    have hp : p < g.type.bitWidth + fieldsWidth fields := hp
    rw [List.map_cons, List.nodup_cons] at hn
    have hfirst : placeOf? g.name (g :: fields) = some (fieldsWidth fields, g.type) := if_pos rfl
    have hothers : ∀ f ∈ fields, placeOf? f.name (g :: fields) = placeOf? f.name fields :=
      fun f hf => if_neg fun heq => hn.1 (List.mem_map.mpr ⟨f, hf, Eq.symm heq⟩)
    by_cases hlow : p < fieldsWidth fields
    · obtain ⟨f, ⟨hf, hplace⟩, hunique⟩ := ih hn.2 hlow
      refine ⟨f, ⟨List.mem_cons_of_mem g hf, hothers f hf ▸ hplace⟩, ?_⟩
      rintro f' ⟨hf', low, hplace', hbounds⟩
      rcases List.mem_cons.mp hf' with rfl | hf'
      · cases hfirst.symm.trans hplace'
        omega
      · rw [hothers f' hf'] at hplace'
        exact hunique f' ⟨hf', low, hplace', hbounds⟩
    · refine ⟨g, ⟨List.mem_cons_self, _, hfirst, by omega, by omega⟩, ?_⟩
      rintro f' ⟨hf', low, hplace', hbounds⟩
      rcases List.mem_cons.mp hf' with rfl | hf'
      · rfl
      · -- The other fields end below the first one.
        obtain ⟨low', hplace, hstop⟩ := exists_placeOf?_of_mem hn.2 hf'
        rw [hothers f' hf', hplace] at hplace'
        cases hplace'
        omega

/-- The fields of a struct without repeated names lie inside it and share out its bits. -/
theorem fields_partition (h : t.struct? = some fields) (hn : (fields.map (·.name)).Nodup) :
    (∀ f ∈ fields, ∃ low, t.fieldPlace? f.name = some (low, f.type) ∧
      low + f.type.bitWidth ≤ t.bitWidth) ∧
    ∀ p < t.bitWidth, ∃! f, f ∈ fields ∧ t.HasBit f p := by
  have hplace : ∀ name, t.fieldPlace? name = placeOf? name fields := by
    intro name
    rw [fieldPlace?, h, Option.bind_some]
  simp only [HasBit, hplace, bitWidth_of_struct? h]
  exact ⟨fun f hf => exists_placeOf?_of_mem hn hf, fun p hp => exists_unique_placeOf? hn hp⟩

/-- The values of fields packed into `x`, the first one in the highest bits. -/
def unpacked : List (Field HwType) → Bits → List Bits
  | [], _ => []
  | f :: fields, x => x.slice (fieldsWidth fields) f.type.bitWidth :: unpacked fields x

@[simp] theorem length_unpacked (fields : List (Field HwType)) (x : Bits) :
    (unpacked fields x).length = fields.length := by
  induction fields with
  | nil => rfl
  | cons f fields ih => rw [unpacked, List.length_cons, List.length_cons, ih]

theorem getElem?_unpacked {k : Nat} {f : Field HwType} (hf : fields[k]? = some f) (x : Bits) :
    (unpacked fields x)[k]? =
      some (x.slice (fieldsWidth (fields.drop (k + 1))) f.type.bitWidth) := by
  induction fields generalizing k with
  | nil => simp at hf
  | cons g fields ih =>
    cases k with
    | zero =>
      rw [List.getElem?_cons_zero, Option.some_inj] at hf
      rw [unpacked, List.getElem?_cons_zero, hf]
      rfl
    | succ k =>
      rw [List.getElem?_cons_succ] at hf
      rw [unpacked, List.getElem?_cons_succ, ih hf]
      rfl

theorem concat_unpacked {x : Bits} (h : x.width = fieldsWidth fields) :
    Bits.concat (unpacked fields x) = x := by
  have hlow : ∀ fields : List (Field HwType),
      Bits.concat (unpacked fields x) = x.slice 0 (fieldsWidth fields) := by
    intro fields
    induction fields with
    | nil => exact (Bits.slice_zero_width x 0).symm
    | cons f fields ih =>
      have hside := Bits.slice_above_slice x 0 (fieldsWidth fields) f.type.bitWidth
      rw [Nat.zero_add] at hside
      rw [unpacked, Bits.concat_cons, ih, hside]
      rfl
  rw [hlow, ← h, Bits.slice_self]

private theorem unpacked_append (high : Bits) {low : Bits} (h : fieldsWidth fields ≤ low.width) :
    unpacked fields (high.append low) = unpacked fields low := by
  induction fields with
  | nil => rfl
  | cons f fields ih =>
    have h : f.type.bitWidth + fieldsWidth fields ≤ low.width := h
    rw [unpacked, unpacked, ih (by omega), Bits.slice_append_of_le high (by omega)]

theorem unpacked_concat {values : List Bits}
    (h : values.map Bits.width = fields.map (·.type.bitWidth)) :
    unpacked fields (Bits.concat values) = values := by
  induction fields generalizing values with
  | nil =>
    rw [List.map_nil, List.map_eq_nil_iff] at h
    rw [h]
    rfl
  | cons f fields ih =>
    cases values with
    | nil => cases h
    | cons x values =>
      rw [List.map_cons, List.map_cons, List.cons_eq_cons] at h
      have hwidth : (Bits.concat values).width = fieldsWidth fields := by
        rw [Bits.width_concat, h.2, fieldsWidth_eq_total]
      have hfirst := Bits.slice_append_high x (Bits.concat values) 0 x.width
      rw [Nat.add_zero, Bits.slice_self, hwidth, h.1] at hfirst
      rw [Bits.concat_cons, unpacked, hfirst, unpacked_append x (Nat.le_of_eq hwidth.symm), ih h.2]

end ChannelCodec.HwType
