import ChannelCodec.Message.Report
import ChannelCodec.Proofs.Message.Compilation
import ChannelCodec.Proofs.Schema.Slots
import Mathlib.Data.List.Basic

/-! Where the fields of a message lie. The compiled struct has the fields of the message in order;
the slots of its data section and of its pointer section are apart, and lie between the root
pointer and the end of the struct. -/
namespace ChannelCodec

/-- The wire type of an integer has room for it, and is `void` only for integers without bits. -/
theorem HwType.Scalar.room {t : HwType} {wire : WireType} (h : t.Scalar wire) :
    t.bitWidth ≤ 64 ∧ t.bitWidth ≤ wire.bits ∧ (wire = .void ∨ 0 < t.bitWidth) := by
  obtain ⟨sign, width, hint, hle, rfl⟩ := h
  have hwidth := bitWidth_of_int? hint
  have hholding := WireWidth.le_bits_holding hle
  rw [hwidth]
  refine ⟨hle, ?_⟩
  by_cases hzero : width = 0
  · subst hzero
    exact ⟨Nat.le_refl 0, .inl rfl⟩
  · refine ⟨?_, .inr (Nat.pos_of_ne_zero hzero)⟩
    rw [wireInteger, if_neg hzero]
    by_cases hone : width = 1
    · rw [if_pos hone, hone]
      decide
    · rw [if_neg hone]
      split
      · rw [WireType.bits_int]
        exact hholding
      · rw [WireType.bits_uint]
        exact hholding

namespace MessageSchema

theorem nodup_ordinals (s : MessageSchema) : (s.source.fields.map (·.ordinal)).Nodup := by
  rw [source, ordinals_fieldSources]
  exact List.nodup_range'

theorem byOrdinal_source (s : MessageSchema) : s.source.byOrdinal = fieldSources 0 s.fields := by
  apply List.mergeSort_of_pairwise
  have hordinals := List.pairwise_lt_range' (s := 0) (n := s.fields.length)
  rw [← ordinals_fieldSources, List.pairwise_map] at hordinals
  exact hordinals.imp fun hlt => decide_eq_true (Nat.le_of_lt hlt)

/-- The slots of a message lie between its root pointer and the end of its struct, and over no
bit twice. There are no more words in the struct than fields. -/
theorem coverage_slots (s : MessageSchema) (i : Nat) :
    s.source.compiled.dataWords + s.source.compiled.pointers ≤ s.fields.length ∧
      coverage (s.source.compiled.fields.map
          (NodeField.slot dataStart (pointerStart s.source.compiled))) i ≤
        within 64 (64 * (1 + s.source.compiled.dataWords + s.source.compiled.pointers)) i := by
  obtain ⟨hsum, hcover⟩ := StructSource.coverage_slots s.nodup_ordinals dataStart
    (pointerStart s.source.compiled) i
  have hlength : s.source.fields.length = s.fields.length := length_fieldSources 0 s.fields
  have hsplit := within_split 64 (pointerStart s.source.compiled)
    (64 * (1 + s.source.compiled.dataWords + s.source.compiled.pointers))
    (by rw [pointerStart, dataStart]; omega) (by rw [pointerStart, dataStart]; omega) i
  have hdata : dataStart + s.source.compiled.dataWords * 64 = pointerStart s.source.compiled := rfl
  have hend : pointerStart s.source.compiled + s.source.compiled.pointers * 64 =
      64 * (1 + s.source.compiled.dataWords + s.source.compiled.pointers) := by
    rw [pointerStart, dataStart]
    omega
  have hstart : dataStart = 64 := rfl
  rw [hdata, hend, hstart] at hcover
  exact ⟨hlength ▸ hsum, by rwa [hsplit]⟩

theorem bitOffset_add_le {s : MessageSchema} {f : NodeField} (hf : f ∈ s.source.compiled.fields)
    (hpos : 0 < f.type.bits) : f.bitOffset + f.type.bits ≤
      (if f.type.isPointer then s.source.compiled.pointers
        else s.source.compiled.dataWords) * 64 :=
  StructSource.bitOffset_add_le s.nodup_ordinals hf hpos

def slots (s : MessageSchema) : List (NodeField × Field HwType) :=
  s.source.compiled.fields.zip s.fields

theorem length_compiled (s : MessageSchema) :
    s.source.compiled.fields.length = s.fields.length := by
  rw [StructSource.compiled_fields, List.length_mapIdx]
  exact length_fieldSources 0 s.fields

theorem map_fst_slots (s : MessageSchema) : s.slots.map (·.1) = s.source.compiled.fields :=
  List.map_fst_zip (Nat.le_of_eq s.length_compiled)

theorem map_snd_slots (s : MessageSchema) : s.slots.map (·.2) = s.fields :=
  List.map_snd_zip (Nat.le_of_eq s.length_compiled.symm)

theorem length_slots (s : MessageSchema) : s.slots.length = s.fields.length := by
  rw [← s.map_snd_slots, List.length_map]

theorem getElem?_slots {s : MessageSchema} {k : Nat} {p : NodeField × Field HwType}
    (h : s.slots[k]? = some p) :
    s.fields[k]? = some p.2 ∧ p.1.codeOrder = k ∧ p.1.name = p.2.name ∧
      p.1.type = p.2.type.wire := by
  rw [slots, List.getElem?_zip_eq_some] at h
  obtain ⟨offset, hcompiled⟩ := s.getElem?_compiled k
  rw [h.1, h.2, Option.map_some, Option.some_inj] at hcompiled
  rw [hcompiled]
  exact ⟨h.2, rfl, rfl, rfl⟩

theorem fieldOf_slot {s : MessageSchema} {p : NodeField × Field HwType} (h : p ∈ s.slots) :
    s.fieldOf p.1 = some p.2 := by
  obtain ⟨k, hk⟩ := List.mem_iff_getElem?.mp h
  obtain ⟨hfield, horder, _⟩ := getElem?_slots hk
  rw [fieldOf, horder, hfield]

theorem carried_slot {s : MessageSchema} (h : s.checkSupported = .ok ())
    {p : NodeField × Field HwType} (hp : p ∈ s.slots) : p.2.type.Carried p.1.type := by
  obtain ⟨k, hk⟩ := List.mem_iff_getElem?.mp hp
  obtain ⟨hfield, _, _, htype⟩ := getElem?_slots hk
  obtain ⟨_, _, wire, hwire⟩ := (carried_of_checkSupported h).2 p.2 (List.mem_of_getElem? hfield)
  rw [htype, hwire.wire_eq]
  exact hwire

theorem messageOffset_fieldReport (node : StructNode) (f : NodeField) (hw : Field HwType) :
    (fieldReport node f hw).messageOffset =
      (if f.type.isPointer then pointerStart node else dataStart) + f.bitOffset := by
  rw [fieldReport]
  cases f.type <;> rfl

def layout (s : MessageSchema) : MessageReport where
  name := s.name
  id := s.id
  hwType := s.type
  size := s.sizeWith s.source.compiled
  dataWords := s.source.compiled.dataWords
  pointers := s.source.compiled.pointers
  fields := s.slots.map fun p => fieldReport s.source.compiled p.1 p.2

@[simp] theorem length_layout_fields (s : MessageSchema) :
    s.layout.fields.length = s.fields.length := by
  rw [layout, List.length_map, length_slots]

theorem report_eq {t : HwType} (ht : t.Written) (h : (of t).checkSupported = .ok ())
    (hid : (of t).id ≠ ownSchemaId) : (of t).report = .ok (of t).layout := by
  have hfields : ((of t).source.compiled.fields.filterMap fun f =>
      ((of t).fieldOf f).map (fieldReport (of t).source.compiled f)) = (of t).layout.fields := by
    rw [← map_fst_slots, List.filterMap_map, layout, ← List.filterMap_eq_map]
    refine List.filterMap_congr fun p hp => ?_
    rw [Function.comp_apply, fieldOf_slot hp]
    rfl
  rw [report, node_eq ht h hid]
  simp only [Bind.bind, Except.bind, hfields]
  rfl

theorem size_eq {t : HwType} (ht : t.Written) (h : (of t).checkSupported = .ok ())
    (hid : (of t).id ≠ ownSchemaId) : (of t).size = .ok (of t).layout.size := by
  rw [size, node_eq ht h hid]
  rfl

theorem compiled_mixedType : (of mixedType).source.compiled = {
    name := (of mixedType).name, id := (of mixedType).id, dataWords := 1, pointers := 1
    fields := [⟨"a", 0, 0, .uint .w8, 0⟩, ⟨"l", 1, 1, .list (.int .w16), 0⟩] } := by
  rw [StructSource.compiled, byOrdinal_source]
  rfl

theorem layout_mixedType : (of mixedType).layout = {
    name := (of mixedType).name, id := (of mixedType).id, hwType := mixedType, size := 256
    dataWords := 1, pointers := 1
    fields := [⟨"a", .int .unsigned 5, .uint .w8, .data, 0, 64, 0⟩,
      ⟨"l", .array 3 (.int .signed 12), .list (.int .w16), .pointer, 0, 128, 1⟩] } := by
  rw [layout, slots, compiled_mixedType]
  rfl

theorem eq_of_report_mixedType {r : MessageReport} (hr : (of mixedType).report = .ok r) :
    r = (of mixedType).layout :=
  Except.ok.inj
    (hr.symm.trans (report_eq written_mixedType checkSupported_mixedType id_mixedType))

theorem size_layout (s : MessageSchema) :
    s.layout.size = 64 * (1 + s.layout.dataWords + s.layout.pointers +
      total (s.layout.fields.map (·.payloadWords))) := by
  have hpayload : s.payload s.source.compiled =
      total (s.layout.fields.map (·.payloadWords)) := by
    rw [payload, ← map_fst_slots, List.map_map, layout, List.map_map]
    congr 1
    refine List.map_congr_left fun p hp => ?_
    rw [Function.comp_apply, fieldOf_slot hp]
    rfl
  have hsize : s.layout.size = (1 + s.layout.dataWords + s.layout.pointers +
      s.payload s.source.compiled) * 64 := rfl
  rw [hsize, hpayload, Nat.mul_comm]

end MessageSchema
end ChannelCodec
