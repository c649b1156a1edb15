import ChannelCodec.Circuit.Operation
import ChannelCodec.Proofs.Message.WireFormat

/-! What decoders make of messages, whether an encoder has written them or not. Every field is read
where the report has it; a list is read where its pointer points to, in as many bits as the
decoder computes with; and what the message says about itself is checked in a fixed order. -/
namespace ChannelCodec

/-- The bit at which the list is read whose pointer `word` lies at bit `place` of a message of
`size` bits. It is computed in 36 bits, and cut to an index into the message. -/
def listStart (size place : Nat) (word : Bits) : Nat :=
  ((word.slice 2 30).toNat * 64 + place + 64) % 2 ^ (36 : Nat) % 2 ^ indexWidth size

/-- The array in a list from bit `start` on, from each element the low bits. -/
def readElements (wire : WireType) (element : HwType) (length start : Nat) (m : Bits) : Bits :=
  .ofElements ((List.range length).map fun k =>
    m.slice (start + k * wire.bits) element.bitWidth)

theorem width_readElements (wire : WireType) (element : HwType) (length start : Nat) (m : Bits) :
    (readElements wire element length start m).width = element.bitWidth * length := by
  rw [readElements, Bits.width_ofElements_of_uniform (w := element.bitWidth), List.length_map,
    List.length_range]
  intro y hy
  obtain ⟨k, _, rfl⟩ := List.mem_map.mp hy
  rfl

theorem readElements_of_width_zero {element : HwType} (h : element.bitWidth = 0) (wire : WireType)
    (length start : Nat) (m : Bits) : readElements wire element length start m = .zero 0 := by
  apply Bits.eq_of_width_zero
  · rw [width_readElements, h, Nat.zero_mul]
  · rfl

theorem readElements_eq_slices {wire : WireType} {element : HwType}
    (h : element.bitWidth ≤ wire.bits) (length start : Nat) (m : Bits) :
    readElements wire element length start m = .ofElements ((List.range length).map fun k =>
      (m.slice start (length * wire.bits)).slice (k * wire.bits) element.bitWidth) := by
  rw [readElements]
  congr 1
  apply List.map_congr_left
  intro k hk
  have hlast := Nat.mul_le_mul_right wire.bits (Nat.succ_le_of_lt (List.mem_range.mp hk))
  rw [Nat.succ_mul] at hlast
  rw [Bits.slice_slice m (by omega)]

def complaint (holds : Prop) [Decidable holds] (what : String) (predicate : Predicate)
    (expected : Nat) : List String :=
  if holds then [] else [s!"{what} {predicate.text} {expected}"]

theorem complaint_eq_nil {p : Prop} [Decidable p] {what : String} {predicate : Predicate}
    {expected : Nat} : complaint p what predicate expected = [] ↔ p := by
  rw [complaint]
  by_cases h : p
  · rw [if_pos h]
    exact iff_of_true rfl h
  · rw [if_neg h]
    exact iff_of_false (List.cons_ne_nil _ _) h

def listComplaints (name : String) (wire : WireType) (length : Nat) (word : Bits) : List String :=
  complaint ((word.slice 0 2).toNat = PointerKind.list.tag) s!"{name}: list pointer tag" .eq
      PointerKind.list.tag ++
    complaint ((word.slice 32 3).toNat = wire.elementSize.code) s!"{name}: element size" .eq
      wire.elementSize.code ++
    complaint ((word.slice 35 29).toNat ≤ length) s!"{name}: list length" .ule length

theorem listComplaints_eq_nil {name : String} {wire : WireType} {length : Nat} {word : Bits} :
    listComplaints name wire length word = [] ↔
      (word.slice 0 2).toNat = PointerKind.list.tag ∧
        (word.slice 32 3).toNat = wire.elementSize.code ∧ (word.slice 35 29).toNat ≤ length := by
  rw [listComplaints, List.append_eq_nil_iff, List.append_eq_nil_iff, complaint_eq_nil,
    complaint_eq_nil, complaint_eq_nil, and_assoc]

namespace FieldReport

def word (f : FieldReport) (m : Bits) : Bits := m.slice f.messageOffset 64

def read (f : FieldReport) (m : Bits) : Bits :=
  match f.wireType.element?, f.hwType.array? with
  | some item, some (element, length) =>
    readElements item element length (listStart m.width f.messageOffset (f.word m)) m
  | _, _ => m.slice (64 + f.bitOffset) f.hwType.bitWidth

def complaints (f : FieldReport) (m : Bits) : List String :=
  match f.wireType.element?, f.hwType.array? with
  | some item, some (_, length) => listComplaints f.name item length (f.word m)
  | _, _ => []

variable {f : FieldReport}

theorem read_of_scalar (h : f.wireType.element? = none) (m : Bits) :
    f.read m = m.slice (64 + f.bitOffset) f.hwType.bitWidth := by
  rw [read, h]

theorem complaints_of_scalar (h : f.wireType.element? = none) (m : Bits) : f.complaints m = [] := by
  rw [complaints, h]

section List
variable {wire : WireType} {element : HwType} {length : Nat}
variable (h : f.wireType.element? = some wire) (ht : f.hwType.array? = some (element, length))
include h ht

theorem read_of_list (m : Bits) : f.read m =
    readElements wire element length (listStart m.width f.messageOffset (f.word m)) m := by
  rw [read, h, ht]

theorem complaints_of_list (m : Bits) :
    f.complaints m = listComplaints f.name wire length (f.word m) := by
  rw [complaints, h, ht]

end List
end FieldReport

namespace MessageReport

def read (r : MessageReport) (m : Bits) : Bits := .concat (r.fields.map (·.read m))

def rootComplaints (r : MessageReport) (m : Bits) : List String :=
  complaint ((m.slice 0 32).toNat = r.rootOffset * 4 + PointerKind.struct.tag) "typeAndOffset" .eq
      (r.rootOffset * 4 + PointerKind.struct.tag) ++
    complaint ((m.slice 32 16).toNat = r.dataWords % 2 ^ (16 : Nat)) "dataSectionSize" .eq
      r.dataWords ++
    complaint ((m.slice 48 16).toNat = r.pointers % 2 ^ (16 : Nat)) "ptrSectionSize" .eq r.pointers

theorem rootComplaints_eq_nil {r : MessageReport} {m : Bits} : r.rootComplaints m = [] ↔
    (m.slice 0 32).toNat = r.rootOffset * 4 + PointerKind.struct.tag ∧
      (m.slice 32 16).toNat = r.dataWords % 2 ^ (16 : Nat) ∧
      (m.slice 48 16).toNat = r.pointers % 2 ^ (16 : Nat) := by
  rw [rootComplaints, List.append_eq_nil_iff, List.append_eq_nil_iff, complaint_eq_nil,
    complaint_eq_nil, complaint_eq_nil, and_assoc]

/-- What is reported of a message: first of its root pointer, then of its fields in order. -/
def complaints (r : MessageReport) (m : Bits) : List String :=
  r.rootComplaints m ++ r.fields.flatMap (·.complaints m)

end MessageReport
end ChannelCodec
