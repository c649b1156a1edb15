import ChannelCodec.Proofs.Bits.Arithmetic
import ChannelCodec.Proofs.HwType.Forms
import Mathlib.Data.List.Forall2

/-! Types of gates. What a construction step checks of the operands of a gate is what the gate needs
to have a result, and that result has the width of its type. -/
namespace ChannelCodec

def HwType.Fits (t : HwType) (x : Bits) : Prop := x.width = t.bitWidth

/-- All types are arrays of `element`, with `size` elements together. -/
inductive HwType.Joined (element : HwType) : List HwType → Nat → Prop
  | nil : Joined element [] 0
  | cons {t : HwType} {types : List HwType} {size rest : Nat}
    (array : t.array? = some (element, size)) (joined : Joined element types rest) :
    Joined element (t :: types) (size + rest)

inductive Gate.Typed : Gate → (types : List HwType) → (t : HwType) → Prop
  | constant {t : HwType} {value : Bits} (width : t.bitWidth = value.width) :
    Typed (.constant value) [] t
  | bitcast {source t : HwType} (width : source.bitWidth = t.bitWidth) : Typed .bitcast [source] t
  | extract {source : HwType} {low width : Nat} (signless : source.isSignless = true)
    (inside : low + width ≤ source.bitWidth) : Typed (.extract low) [source] (.bits width)
  | concat {types : List HwType} (signless : ∀ t ∈ types, t.isSignless = true) :
    Typed .concat types (.bits (total (types.map HwType.bitWidth)))
  | add {t : HwType} (signless : t.isSignless = true) : Typed .add [t, t] t
  | compare {t : HwType} (predicate : Predicate) (signless : t.isSignless = true) :
    Typed (.compare predicate) [t, t] .bit
  | arraySlice {array element index : HwType} {size count : Nat}
    (elements : array.array? = some (element, size)) (inside : count ≤ size)
    (signless : index.isSignless = true) (width : index.bitWidth = indexWidth size) :
    Typed .arraySlice [array, index] (.array count element)
  | arrayGet {array element index : HwType} {size : Nat}
    (elements : array.array? = some (element, size))
    (signless : index.isSignless = true) (width : index.bitWidth = indexWidth size) :
    Typed .arrayGet [array, index] element
  | arrayCreate {types : List HwType} {element : HwType} (same : ∀ t ∈ types, t = element)
    (some : types ≠ []) : Typed .arrayCreate types (.array types.length element)
  | arrayConcat {types : List HwType} {element : HwType} {size : Nat}
    (joined : element.Joined types size) (some : types ≠ []) :
    Typed .arrayConcat types (.array size element)
  | structExtract {source t : HwType} {field : String} (type : source.fieldType? field = some t) :
    Typed (.structExtract field) [source] t
  | structCreate {t : HwType} {fields : List (Field HwType)} (struct : t.struct? = some fields) :
    Typed .structCreate (fields.map (·.type)) t

theorem map_width_of_fits {types : List HwType} {operands : List Bits}
    (h : List.Forall₂ HwType.Fits types operands) :
    operands.map Bits.width = types.map HwType.bitWidth := by
  induction h with
  | nil => rfl
  | cons hx _ ih => rw [List.map_cons, List.map_cons, ih, hx]

theorem total_width_of_fits {types : List HwType} {operands : List Bits}
    (h : List.Forall₂ HwType.Fits types operands) :
    total (operands.map Bits.width) = total (types.map HwType.bitWidth) := by
  rw [map_width_of_fits h]

private theorem width_ofElements_of_joined {element : HwType} {types : List HwType} {size : Nat}
    (h : element.Joined types size) {arrays : List Bits}
    (hfits : List.Forall₂ HwType.Fits types arrays) :
    (Bits.ofElements arrays.reverse).width = element.bitWidth * size := by
  rw [Bits.width_ofElements, List.map_reverse, total_reverse, total_width_of_fits hfits]
  clear hfits
  induction h with
  | nil => rfl
  | cons harray _ ih =>
    rw [List.map_cons, total_cons, ih, HwType.bitWidth_of_array? harray, Nat.mul_add]

theorem Gate.Typed.eval {gate : Gate} {types : List HwType} {t : HwType} (h : gate.Typed types t)
    {operands : List Bits} (hfits : List.Forall₂ HwType.Fits types operands) :
    ∃ b, gate.eval t.bitWidth types operands = .ok b ∧ t.Fits b := by
  cases h with
  | constant hwidth => exact ⟨_, rfl, hwidth.symm⟩
  | bitcast hwidth =>
    obtain _ | ⟨ha, _ | _⟩ := hfits
    exact ⟨_, rfl, Eq.trans ha hwidth⟩
  | extract hsignless hinside =>
    obtain _ | ⟨ha, _ | _⟩ := hfits
    exact ⟨_, rfl, rfl⟩
  | concat hsignless =>
    refine ⟨.concat operands, rfl, ?_⟩
    unfold HwType.Fits
    rw [Bits.width_concat, total_width_of_fits hfits, HwType.bitWidth_bits]
  | add hsignless =>
    obtain _ | ⟨ha, _ | ⟨hb, _ | _⟩⟩ := hfits
    have hwidths := Eq.trans ha hb.symm
    simp only [Gate.eval, Bits.add?_eq hwidths]
    exact ⟨_, rfl, ha⟩
  | compare predicate hsignless =>
    obtain _ | ⟨ha, _ | ⟨hb, _ | _⟩⟩ := hfits
    have hwidths := Eq.trans ha hb.symm
    simp only [Gate.eval, Bits.compare?_eq hwidths]
    exact ⟨_, rfl, rfl⟩
  | arraySlice =>
    obtain _ | ⟨ha, _ | ⟨hb, _ | _⟩⟩ := hfits
    exact ⟨_, rfl, rfl⟩
  | arrayGet =>
    obtain _ | ⟨ha, _ | ⟨hb, _ | _⟩⟩ := hfits
    exact ⟨_, rfl, rfl⟩
  | @arrayCreate _ element hsame hsome =>
    refine ⟨.ofElements operands, rfl, ?_⟩
    have htypes := List.eq_replicate_of_mem hsame
    unfold HwType.Fits
    rw [Bits.width_ofElements, total_width_of_fits hfits, htypes, List.map_replicate,
      total_replicate, List.length_replicate, HwType.bitWidth_array, Nat.mul_comm]
  | arrayConcat hjoined hsome =>
    exact ⟨_, rfl, width_ofElements_of_joined hjoined hfits⟩
  | @structExtract source _ field htype =>
    obtain _ | ⟨ha, _ | _⟩ := hfits
    unfold HwType.fieldType? at htype
    obtain ⟨⟨low, type⟩, hplace, rfl⟩ := Option.map_eq_some_iff.mp htype
    have hrange : source.fieldRange field = (low, type.bitWidth) := by
      unfold HwType.fieldRange
      rw [hplace]
    simp only [Gate.eval, hrange]
    exact ⟨_, rfl, rfl⟩
  | @structCreate _ fields hstruct =>
    refine ⟨.concat operands, rfl, ?_⟩
    unfold HwType.Fits
    rw [Bits.width_concat, total_width_of_fits hfits, HwType.bitWidth_of_struct? hstruct,
      HwType.fieldsWidth_eq_total, List.map_map]
    rfl

end ChannelCodec
