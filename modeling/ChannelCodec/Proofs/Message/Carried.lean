import ChannelCodec.Message.Schema
import ChannelCodec.Proofs.HwType.Forms
import ChannelCodec.Proofs.Message.Naming

/-! The types that messages carry. A value that passes the checks is an integer, or an array of
integers, or a struct of these, and its wire type is determined by signedness and width. -/
namespace ChannelCodec

namespace HwType

def Scalar (t : HwType) (wire : WireType) : Prop :=
  ∃ sign width, t.int? = some (sign, width) ∧ width ≤ 64 ∧ wire = wireInteger sign width

inductive Carried (t : HwType) : WireType → Prop where
  | scalar {wire : WireType} (h : t.Scalar wire) : Carried t wire
  | list {element : HwType} {length : Nat} {wire : WireType}
    (array : t.array? = some (element, length)) (item : element.Scalar wire)
    (pos : 0 < length) (le : length ≤ maxListLength) : Carried t (.list wire)

variable {t : HwType} {wire : WireType}

theorem demand_eq_ok {p : Prop} [Decidable p] {obstacle : Obstacle} :
    demand p t obstacle = .ok () ↔ p := by
  unfold demand
  by_cases h : p
  · rw [if_pos h]
    exact ⟨fun _ => h, fun _ => rfl⟩
  · rw [if_neg h]
    exact ⟨fun he => (nomatch he), fun hp => absurd hp h⟩

theorem andThen_eq_ok {first : Except Diagnostic Unit} {second : Unit → Except Diagnostic Unit} :
    (first >>= second) = .ok () ↔ first = .ok () ∧ second () = .ok () := by
  cases first with
  | error d => exact ⟨fun h => (nomatch h), fun h => (nomatch h.1)⟩
  | ok a => exact ⟨fun h => ⟨rfl, h⟩, fun h => h.2⟩

private theorem Scalar.wireElement? (h : t.Scalar wire) : t.wireElement? = some (.ok wire) := by
  obtain ⟨sign, width, ht, hle, rfl⟩ := h
  rw [HwType.wireElement?, ht, Option.map_some]
  simp only [hle, if_true]

theorem Carried.wireType (h : t.Carried wire) : t.wireType = .ok wire := by
  cases h with
  | scalar h =>
    rw [HwType.wireType, h.wireElement?]
  | @list element length inner harray hitem =>
    have hcanonical := canonical_of_array? harray
    have hnone : t.wireElement? = none := by
      rw [HwType.wireElement?, int?, hcanonical]
      rfl
    rw [HwType.wireType, hnone, hcanonical]
    simp only [hitem.wireElement?]
    rfl

theorem checkArray_eq_ok {length : Nat} {element : HwType}
    (h : t.checkArray length element = .ok ()) :
    0 < length ∧ length ≤ maxListLength ∧ element.checkElement = .ok () ∧
      ∀ name target, element = .named name target → isPlainIdentifier name = true := by
  have hrest : ∀ m : Except Diagnostic Unit, (do
      m
      demand (element.array?.isNone) t .arrayOfArrays
      demand (element.struct?.isNone) t .arrayOfStructs
      demand (length ≠ 0) t .emptyArray
      demand (length ≤ maxListLength) t .longArray
      checkElement element) = .ok () →
        m = .ok () ∧ 0 < length ∧ length ≤ maxListLength ∧ element.checkElement = .ok () := by
    intro m hm
    simp only [andThen_eq_ok, demand_eq_ok] at hm
    obtain ⟨hname, _, _, hpos, hle, hitem⟩ := hm
    exact ⟨hname, Nat.pos_of_ne_zero hpos, hle, hitem⟩
  cases element with
  | named name target =>
    obtain ⟨hname, hpos, hle, hitem⟩ := hrest _ h
    refine ⟨hpos, hle, hitem, fun name' target' he => ?_⟩
    cases he
    exact demand_eq_ok.mp hname
  | _ =>
    obtain ⟨_, hpos, hle, hitem⟩ := hrest (.ok ()) h
    exact ⟨hpos, hle, hitem, fun name' target' he => by cases he⟩

theorem exists_scalar {element : HwType} (h : element.checkElement = .ok ()) :
    ∃ wire, element.Scalar wire := by
  unfold checkElement at h
  cases hint : element.int? with
  | none =>
    rw [hint] at h
    cases h
  | some p =>
    obtain ⟨sign, width⟩ := p
    rw [hint] at h
    exact ⟨_, sign, width, hint, demand_eq_ok.mp h, rfl⟩

private theorem exists_carried (h : t.checkMember = .ok ()) : ∃ wire, t.Carried wire := by
  unfold checkMember at h
  cases hc : t.canonical with
  | int sign width =>
    rw [hc] at h
    exact ⟨_, .scalar ⟨sign, width, by rw [int?, hc], demand_eq_ok.mp h, rfl⟩⟩
  | array length element =>
    rw [hc] at h
    obtain ⟨hpos, hle, hitem, _⟩ := checkArray_eq_ok h
    obtain ⟨wire, hwire⟩ := exists_scalar hitem
    exact ⟨_, .list (by rw [array?, hc]) hwire hpos hle⟩
  | struct fields =>
    rw [hc] at h
    cases h
  | channel payload =>
    rw [hc] at h
    cases h
  | named name target => exact absurd hc (canonical_ne_named t name target)

private theorem checkFields_eq_ok {fields : List (Field HwType)}
    (h : t.checkFields fields = .ok ()) :
    ∀ f ∈ fields, isPlainIdentifier f.name = true ∧ startsWith isAsciiLower f.name = true ∧
      f.type.checkMember = .ok () := by
  induction fields with
  | nil =>
    intro f hf
    cases hf
  | cons g fields ih =>
    simp only [checkFields, andThen_eq_ok, demand_eq_ok, Bool.and_eq_true] at h
    obtain ⟨⟨hplain, hlower⟩, hmember, hrest⟩ := h
    rw [List.forall_mem_cons]
    exact ⟨⟨hplain, hlower, hmember⟩, ih hrest⟩

private theorem isIdentifierChar_of_mem_elementName {element : HwType}
    (h : element.checkElement = .ok ())
    (hname : ∀ name target, element = .named name target → isPlainIdentifier name = true) :
    ∀ c ∈ (element.structName 0).toList, isIdentifierChar c = true := by
  obtain ⟨wire, sign, width, hint, _⟩ := exists_scalar h
  have hcanonical := canonical_of_int? hint
  cases element with
  | int sign width => exact (isTypeName_capitalized (isPlainIdentifier_int sign width)).2
  | named name target => exact (isTypeName_capitalized (hname name target rfl)).2
  | array | struct | channel => cases hcanonical

theorem isTypeName_structName (h : t.checkSupported = .ok ()) (id : Nat) :
    IsTypeName (t.structName id) := by
  simp only [checkSupported, andThen_eq_ok] at h
  obtain ⟨haliases, h⟩ := h
  cases t with
  | int sign width => exact isTypeName_capitalized (isPlainIdentifier_int sign width)
  | array length element =>
    obtain ⟨_, _, hitem, hname⟩ := checkArray_eq_ok (t := .array length element) h
    have harray : IsTypeName ("ArrayOf" ++ toString length ++ "x") := by
      refine IsTypeName.append (IsTypeName.append ?_ fun c hc => ?_) ?_
      · exact ⟨by decide, List.all_eq_true.mp (by decide)⟩
      · exact isIdentifierChar_of_mem_toString hc
      · exact List.all_eq_true.mp (by decide)
    exact harray.append (isIdentifierChar_of_mem_elementName hitem hname)
  | struct fields =>
    have hstruct : IsTypeName "Struct" := ⟨by decide, List.all_eq_true.mp (by decide)⟩
    exact hstruct.append fun c hc => isIdentifierChar_of_mem_toString hc
  | named name target =>
    simp only [checkAliases, checkAliasName, andThen_eq_ok, demand_eq_ok] at haliases
    exact isTypeName_capitalized haliases.1
  | channel payload => cases h

end HwType

namespace MessageSchema
variable {s : MessageSchema}

theorem carried_of_checkSupported (h : s.checkSupported = .ok ()) :
    s.fields ≠ [] ∧ ∀ f ∈ s.fields, isPlainIdentifier f.name = true ∧
      startsWith isAsciiLower f.name = true ∧ ∃ wire, f.type.Carried wire := by
  have h : s.type.checkSupported = .ok () := h
  simp only [HwType.checkSupported, HwType.andThen_eq_ok] at h
  obtain ⟨_, h⟩ := h
  unfold fields
  cases hc : s.type.canonical with
  | int sign width =>
    rw [hc] at h
    refine ⟨List.cons_ne_nil _ _, List.forall_mem_singleton.mpr ⟨?_, ?_, ?_⟩⟩
    · exact (by decide : isPlainIdentifier "i" = true)
    · exact (by decide : startsWith isAsciiLower "i" = true)
    · exact HwType.exists_carried h
  | array length element =>
    rw [hc] at h
    refine ⟨List.cons_ne_nil _ _, List.forall_mem_singleton.mpr ⟨?_, ?_, ?_⟩⟩
    · exact (by decide : isPlainIdentifier "l" = true)
    · exact (by decide : startsWith isAsciiLower "l" = true)
    · exact HwType.exists_carried h
  | struct fields =>
    rw [hc] at h
    simp only [HwType.andThen_eq_ok, HwType.demand_eq_ok] at h
    refine ⟨h.1, fun f hf => ?_⟩
    obtain ⟨hplain, hlower, hmember⟩ := HwType.checkFields_eq_ok h.2 f hf
    exact ⟨hplain, hlower, HwType.exists_carried hmember⟩
  | channel payload =>
    rw [hc] at h
    simp only [HwType.checkMember, hc] at h
    cases h
  | named name target => exact absurd hc (HwType.canonical_ne_named s.type name target)

theorem fields_of_struct? {fields : List (Field HwType)} (h : s.type.struct? = some fields) :
    s.fields = fields := by
  rw [MessageSchema.fields, HwType.canonical_of_struct? h]

theorem fields_of_struct?_eq_none (h : s.checkSupported = .ok ()) (hs : s.type.struct? = none) :
    ∃ name, s.fields = [⟨name, s.type⟩] := by
  have hne := (carried_of_checkSupported h).1
  unfold MessageSchema.fields at hne ⊢
  unfold HwType.struct? at hs
  cases hc : s.type.canonical with
  | int sign width => exact ⟨"i", rfl⟩
  | array length element => exact ⟨"l", rfl⟩
  | struct fields =>
    rw [hc] at hs
    cases hs
  | named name target => exact absurd hc (HwType.canonical_ne_named s.type name target)
  | channel payload =>
    rw [hc] at hne
    exact absurd rfl hne

theorem bitWidth_eq (h : s.checkSupported = .ok ()) :
    s.type.bitWidth = HwType.fieldsWidth s.fields := by
  cases hs : s.type.struct? with
  | some fields => rw [HwType.bitWidth_of_struct? hs, fields_of_struct? hs]
  | none =>
    obtain ⟨name, hfields⟩ := fields_of_struct?_eq_none h hs
    rw [hfields]
    rfl

end MessageSchema
end ChannelCodec
