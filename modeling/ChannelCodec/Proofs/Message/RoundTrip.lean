import ChannelCodec.Proofs.Message.Decoded
import ChannelCodec.Proofs.Message.Encoded

/-! Decoding undoes encoding. What a value leaves in a message is read back from where it lies: the
low bits of an extended integer are the integer, and the list behind a pointer is where the pointer
was computed from. No check complains of such a message. -/
namespace ChannelCodec

theorem HwType.slice_extended (t : HwType) {x : Bits} {width : Nat} (h64 : x.width ≤ 64)
    (hle : x.width ≤ width) : (t.extended width x).slice 0 x.width = x := by
  unfold HwType.extended
  split
  · exact Bits.slice_ofInt_lowInt h64 hle
  · exact Bits.slice_ofNat_toNat hle

private theorem structPointer_parts {offset dataWords : Nat} (ho : offset < 2 ^ (30 : Nat))
    (hd : dataWords < 2 ^ (16 : Nat)) (pointers : Nat) :
    ((structPointer offset dataWords pointers).slice 0 32).toNat =
        offset * 4 + PointerKind.struct.tag ∧
      ((structPointer offset dataWords pointers).slice 32 16).toNat = dataWords ∧
      ((structPointer offset dataWords pointers).slice 48 16).toNat =
        pointers % 2 ^ (16 : Nat) := by
  rw [structPointer, Bits.slice_ofNat _ 0 32 _ (by omega), Bits.slice_ofNat _ 32 16 _ (by omega),
    Bits.slice_ofNat _ 48 16 _ (by omega)]
  simp only [Bits.toNat_ofNat, PointerKind.tag]
  omega

theorem listPointer_parts {offset : Nat} (ho : offset < 2 ^ (30 : Nat)) (size : ElementSize)
    {length : Nat} (hl : length < 2 ^ (29 : Nat)) :
    ((listPointer offset size length).slice 0 2).toNat = PointerKind.list.tag ∧
      ((listPointer offset size length).slice 2 30).toNat = offset ∧
      ((listPointer offset size length).slice 32 3).toNat = size.code ∧
      ((listPointer offset size length).slice 35 29).toNat = length := by
  have hcode : size.code < 2 ^ (3 : Nat) := by cases size <;> simp [ElementSize.code]
  rw [listPointer, Bits.slice_ofNat _ 0 2 _ (by omega), Bits.slice_ofNat _ 2 30 _ (by omega),
    Bits.slice_ofNat _ 32 3 _ (by omega), Bits.slice_ofNat _ 35 29 _ (by omega)]
  simp only [Bits.toNat_ofNat, PointerKind.tag]
  omega

theorem listStart_listPointer {place list words size length : Nat} {item : ElementSize}
    (hlist : list = place + 64 + 64 * words) (hlt : list < size) (hsmall : size ≤ 2 ^ (36 : Nat))
    (hlength : length < 2 ^ (29 : Nat)) :
    listStart size place (listPointer (wordsBetween place list) item length) = list := by
  have hwords : wordsBetween place list = words := by
    rw [wordsBetween]
    omega
  have hindex := lt_two_pow_indexWidth hlt
  rw [listStart, hwords, (listPointer_parts (by omega) item hlength).2.1]
  have hsum : words * 64 + place + 64 = list := by omega
  have hbits : list < 2 ^ (36 : Nat) := Nat.lt_of_lt_of_le hlt hsmall
  rw [hsum, Nat.mod_eq_of_lt hbits, Nat.mod_eq_of_lt hindex]

private theorem readElements_of_pieces {wire : WireType} {element : HwType}
    {length list start : Nat} {m x : Bits} (hitem : element.Scalar wire)
    (hx : x.width = element.bitWidth * length) (hstart : 0 < wire.bits → start = list)
    (hinside : ∀ p ∈ elementPieces wire element length list x,
      m.slice p.start p.bits.width = p.bits) :
    readElements wire element length start m = x := by
  obtain ⟨h64, hroom, _⟩ := hitem.room
  rw [readElements, ← Bits.ofElements_elements hx, Bits.elements]
  congr 1
  refine List.map_congr_left fun k hk => ?_
  by_cases hzero : element.bitWidth = 0
  · exact Bits.eq_of_width_zero hzero hzero
  · have hpiece := hinside _ (List.mem_map_of_mem hk)
    rw [elementPiece, HwType.width_extended] at hpiece
    dsimp only at hpiece
    have hlow := HwType.slice_extended element
      (x := x.slice (k * element.bitWidth) element.bitWidth) h64 hroom
    rw [← hpiece, Bits.width_slice, Bits.slice_slice _ (by omega), Nat.add_zero] at hlow
    rw [hstart (by omega)]
    exact hlow

/-- A field and its list lie in a message as they should: data behind the root pointer, and a list
some words behind the pointer to it, in a message whose bits have numbers of 36 bits. -/
structure FieldReport.Lies (f : FieldReport) (list size : Nat) : Prop where
  carried : f.hwType.Carried f.wireType
  data : f.wireType.isPointer = false → f.messageOffset = 64 + f.bitOffset
  behind : f.wireType.isPointer = true → ∃ words, list = f.messageOffset + 64 + 64 * words
  within : list + 64 * MessageSchema.payloadWords f.wireType f.hwType ≤ size
  small : size ≤ 2 ^ (36 : Nat)

namespace FieldReport
variable {f : FieldReport} {list : Nat} {m x : Bits}

theorem read_pieces (h : f.Lies list m.width) (hx : x.width = f.hwType.bitWidth)
    (hinside : ∀ p ∈ f.pieces list x, m.slice p.start p.bits.width = p.bits) :
    f.read m = x ∧ f.complaints m = [] := by
  obtain ⟨hcarried, hdata, hbehind, hwithin, hsmall⟩ := h
  unfold FieldReport.pieces at hinside
  generalize hwire : f.wireType = wire at hcarried hdata hbehind hwithin hinside
  cases hcarried with
  | scalar hscalar =>
    have hnone := hscalar.element?_eq_none
    obtain ⟨h64, hroom, _⟩ := hscalar.room
    have hpointer := hscalar.isPointer_eq_false
    rw [WireType.pieces_of_scalar hnone, List.forall_mem_singleton, HwType.width_extended]
      at hinside
    dsimp only at hinside
    refine ⟨?_, complaints_of_scalar (hwire ▸ hnone) m⟩
    rw [read_of_scalar (hwire ▸ hnone)]
    have hlow := HwType.slice_extended f.hwType (hx ▸ h64) (hx ▸ hroom)
    rw [← hinside, Bits.slice_slice _ (by omega), Nat.add_zero, hdata hpointer, hx] at hlow
    exact hlow
  | @list element length item harray hitem hpos hle =>
    obtain ⟨words, hlist⟩ := hbehind rfl
    have hlength : length < 2 ^ (29 : Nat) := by
      rw [maxListLength] at hle
      omega
    have hpayload := MessageSchema.payloadWords_of_list harray item
    have hroom := le_wordsFor (item.bits * length)
    rw [WireType.pieces_of_list harray, List.forall_mem_cons] at hinside
    have hword : f.word m = listPointer (wordsBetween f.messageOffset list) item.elementSize
        length := hinside.1
    -- Bits with numbers of 36 bits are words with numbers of 30 bits, so no distance is cut.
    have hdistance : wordsBetween f.messageOffset list < 2 ^ (30 : Nat) := by
      rw [wordsBetween]
      omega
    have hparts := listPointer_parts hdistance item.elementSize hlength
    have hx : x.width = element.bitWidth * length := by
      rw [hx, HwType.bitWidth_of_array? harray]
    have helement : f.wireType.element? = some item := by rw [hwire, WireType.element?]
    rw [read_of_list helement harray, complaints_of_list helement harray, hword]
    constructor
    · refine readElements_of_pieces hitem hx (fun hbits => ?_) hinside.2
      have hpos := Nat.mul_pos hbits hpos
      exact listStart_listPointer hlist (by omega) hsmall hlength
    · exact listComplaints_eq_nil.mpr ⟨hparts.1, hparts.2.2.1, Nat.le_of_eq hparts.2.2.2⟩

end FieldReport

private theorem read_fieldPieces {start : Nat} {m : Bits} {fields : List (FieldReport × Bits)}
    (hlies : ∀ p ∈ withLists start (fields.map (·.1)), p.1.Lies p.2 m.width)
    (hwidths : ∀ p ∈ fields, p.2.width = p.1.hwType.bitWidth)
    (hinside : ∀ p ∈ fieldPieces start fields, m.slice p.start p.bits.width = p.bits) :
    fields.map (·.1.read m) = fields.map (·.2) ∧ fields.flatMap (·.1.complaints m) = [] := by
  induction fields generalizing start with
  | nil => exact ⟨rfl, rfl⟩
  | cons p fields ih =>
    obtain ⟨f, x⟩ := p
    rw [fieldPieces_cons, List.forall_mem_append] at hinside
    rw [List.map_cons, withLists, List.forall_mem_cons] at hlies
    rw [List.forall_mem_cons] at hwidths
    obtain ⟨hread, hcomplaints⟩ := FieldReport.read_pieces hlies.1 hwidths.1 hinside.1
    obtain ⟨hreads, hnone⟩ := ih hlies.2 hwidths.2 hinside.2
    rw [List.map_cons, List.map_cons, List.flatMap_cons, hreads, hnone]
    exact ⟨congrArg (· :: _) hread, (List.append_nil _).trans hcomplaints⟩

namespace MessageSchema
variable {s : MessageSchema} {m x : Bits}

theorem lies_layout (h : s.checkSupported = .ok ()) (hsmall : s.layout.size ≤ 2 ^ (36 : Nat)) :
    ∀ p ∈ s.layout.places, p.1.Lies p.2 s.layout.size := by
  intro p hp
  obtain ⟨hmem, words, hplace, hwords⟩ := withLists_place hp
  obtain ⟨q, hq, hreport⟩ := List.mem_map.mp hmem
  have hoffset := messageOffset_fieldReport s.source.compiled q.1 q.2
  have hsize := s.size_layout
  have hstruct : s.layout.structEnd = 64 * (1 + s.layout.dataWords + s.layout.pointers) := rfl
  have hpayload : p.1.payloadWords = payloadWords p.1.wireType p.1.hwType := by
    rw [← hreport]
    rfl
  have hfield : q.1 ∈ s.source.compiled.fields := by
    rw [← s.map_fst_slots]
    exact List.mem_map_of_mem hq
  rw [hreport] at hoffset
  refine ⟨?_, fun hpointer => ?_, fun hpointer => ?_, ?_, hsmall⟩
  · rw [← hreport]
    exact carried_slot h hq
  · have hq : q.1.type.isPointer = false := by
      rw [← hreport] at hpointer
      exact hpointer
    rw [hoffset, hq, if_neg Bool.false_ne_true, ← hreport]
    rfl
  · have hq : q.1.type.isPointer = true := by
      rw [← hreport] at hpointer
      exact hpointer
    have hbits := WireType.bits_pointer hq
    have hslot := bitOffset_add_le hfield (by omega)
    rw [hq, if_pos rfl, NodeField.bitOffset, hbits] at hslot
    rw [hq, if_pos rfl, NodeField.bitOffset, hbits, pointerStart, dataStart] at hoffset
    rw [structEnd_layout] at hplace
    exact ⟨s.source.compiled.pointers - (q.1.offset + 1) + words, by omega⟩
  · rw [← hpayload]
    omega

private theorem width_of_mem_zip_unpacked {p : FieldReport × Bits}
    (hp : p ∈ s.layout.fields.zip (HwType.unpacked s.fields x)) :
    p.2.width = p.1.hwType.bitWidth := by
  obtain ⟨k, hk⟩ := List.mem_iff_getElem?.mp hp
  obtain ⟨hreport, hvalue⟩ := List.getElem?_zip_eq_some.mp hk
  rw [layout, List.getElem?_map, Option.map_eq_some_iff] at hreport
  obtain ⟨q, hq, hreport⟩ := hreport
  rw [HwType.getElem?_unpacked (getElem?_slots hq).1, Option.some_inj] at hvalue
  rw [← hvalue, ← hreport]
  rfl

theorem root_parts {r : MessageReport} (hroot : m.slice 0 64 = Encoder.rootPointer r) :
    (m.slice 0 32).toNat = r.rootOffset * 4 + PointerKind.struct.tag ∧
      (m.slice 32 16).toNat = r.dataWords % 2 ^ (16 : Nat) ∧
      (m.slice 48 16).toNat = r.pointers % 2 ^ (16 : Nat) := by
  have hoffset : r.rootOffset < 2 ^ (30 : Nat) := by
    unfold MessageReport.rootOffset emptyStructOffset
    split <;> omega
  have hpart : ∀ low size, low + size ≤ 64 → m.slice low size = (structPointer r.rootOffset
      (r.dataWords % 2 ^ (16 : Nat)) (r.pointers % 2 ^ (16 : Nat))).slice low size := by
    intro low size hle
    rw [← Encoder.rootPointer, ← hroot, Bits.slice_slice _ hle, Nat.zero_add]
  obtain ⟨hhalf, hdata, hpointers⟩ := structPointer_parts hoffset
    (Nat.mod_lt r.dataWords (Nat.two_pow_pos 16)) (r.pointers % 2 ^ (16 : Nat))
  rw [Nat.mod_mod] at hpointers
  rw [hpart 0 32 (by omega), hpart 32 16 (by omega), hpart 48 16 (by omega)]
  exact ⟨hhalf, hdata, hpointers⟩

/-- The message that carries a value is read as this value, without complaints. -/
theorem Carries.read_back (hm : s.Carries m x) (h : s.checkSupported = .ok ())
    (hx : x.width = s.type.bitWidth) (hsmall : s.layout.size ≤ 2 ^ (36 : Nat)) :
    s.layout.read m = x ∧ s.layout.complaints m = [] := by
  have hlength : (HwType.unpacked s.fields x).length = s.fields.length :=
    HwType.length_unpacked s.fields x
  have hfst := map_fst_zip_layout hlength
  have hsnd : (s.layout.fields.zip (HwType.unpacked s.fields x)).map (·.2) =
      HwType.unpacked s.fields x :=
    List.map_snd_zip (Nat.le_of_eq (hlength.trans s.length_layout_fields.symm))
  have hinside := hm.shows_pieces.inside
  rw [List.forall_mem_cons] at hinside
  obtain ⟨hreads, hnone⟩ := read_fieldPieces (m := m) (by
    rw [hfst, hm.width]
    exact lies_layout h hsmall) (fun p hp => width_of_mem_zip_unpacked hp) hinside.2
  have hfields : s.layout.fields.map (·.read m) = HwType.unpacked s.fields x := by
    rw [← hsnd, ← hreads, ← hfst, List.map_map, hfst]
    rfl
  have hcomplaints : s.layout.fields.flatMap (·.complaints m) = [] := by
    rw [← hnone, ← hfst, List.flatMap_map, hfst]
  constructor
  · rw [MessageReport.read, hfields]
    exact HwType.concat_unpacked (hx.trans (bitWidth_eq h))
  · rw [MessageReport.complaints, hcomplaints,
      MessageReport.rootComplaints_eq_nil.mpr (root_parts hinside.1)]
    rfl

theorem nearLists_of_size_le (h : s.checkSupported = .ok ())
    (hsmall : s.layout.size ≤ 2 ^ (36 : Nat)) : NearLists s.layout := by
  intro p hp hpointer
  obtain ⟨_, _, hbehind, hwithin, _⟩ := lies_layout h hsmall p hp
  obtain ⟨words, hlist⟩ := hbehind hpointer
  rw [wordsBetween]
  omega

/-- The decoder of a supported type undoes its encoder, for every value, when the bits of a message
have numbers of 36 bits. Both circuits can be built, and neither run has a violation. -/
theorem decoder_inverts_encoder {t : HwType} (ht : t.Written)
    (h : (of t).checkSupported = .ok ()) (hid : (of t).id ≠ ownSchemaId) :
    ∃ size, (of t).size = .ok size ∧ (size ≤ 2 ^ (36 : Nat) →
      ∃ enc dec, (of t).encoder = .ok enc ∧ (of t).decoder = .ok dec ∧
        ∀ x : Bits, x.width = (of t).type.bitWidth → ∃ m : Bits,
          (∀ clock valid : Bits, clock.width = 1 → valid.width = 1 →
            ∀ d : Design, d.find? enc.name = some enc →
              d.run enc.name [("clk", clock), ("valid", valid), ("unencodedInput", x)] =
                .ok ⟨[("encoded", m)], []⟩) ∧
          ∀ d : Design, d.find? dec.name = some dec →
            d.run dec.name [("clk", .ofBool true), ("valid", .ofBool true), ("encodedInput", m)] =
              .ok ⟨[("decoded", x)], []⟩) := by
  refine ⟨(of t).layout.size, size_eq ht h hid, fun hsmall => ?_⟩
  obtain ⟨enc, henc, hwrites⟩ := encoder_writes ht h hid (nearLists_of_size_le h hsmall)
  obtain ⟨dec, hdec, _, hreads⟩ := decoder_reads ht h hid
  have hstruct : (of t).layout.structEnd ≤ 2 ^ (64 : Nat) := by
    have hsize := (of t).size_layout
    rw [MessageReport.structEnd]
    omega
  refine ⟨enc, dec, henc, hdec, fun x hx => ?_⟩
  obtain ⟨m, hm, hruns⟩ := hwrites x hx
  obtain ⟨hread, hcomplaints⟩ := hm.read_back h hx hsmall
  refine ⟨m, hruns, fun d hd => ?_⟩
  rw [hreads hstruct _ _ m rfl rfl hm.width d hd, hread, hcomplaints, ite_self]
  rfl

theorem mixedType_decoder_inverts : ∃ enc dec m, (of mixedType).encoder = .ok enc ∧
    (of mixedType).decoder = .ok dec ∧
      ({ circuits := [enc] } : Design).run enc.name [("clk", .ofBool false),
        ("valid", .ofBool false), ("unencodedInput", .ofNat 41 0x1ABCDE)] =
          .ok ⟨[("encoded", m)], []⟩ ∧
      ({ circuits := [dec] } : Design).run dec.name [("clk", .ofBool true),
        ("valid", .ofBool true), ("encodedInput", m)] =
          .ok ⟨[("decoded", .ofNat 41 0x1ABCDE)], []⟩ := by
  obtain ⟨size, hsize, hinverts⟩ :=
    decoder_inverts_encoder written_mixedType checkSupported_mixedType id_mixedType
  have hlayout : size = (of mixedType).layout.size := Except.ok.inj
    (hsize.symm.trans (size_eq written_mixedType checkSupported_mixedType id_mixedType))
  rw [layout_mixedType] at hlayout
  obtain ⟨enc, dec, henc, hdec, hinverts⟩ := hinverts (by
    rw [hlayout]
    decide)
  obtain ⟨m, hruns, hback⟩ := hinverts (.ofNat 41 0x1ABCDE) rfl
  refine ⟨enc, dec, m, henc, hdec, hruns _ _ rfl rfl _ ?_, hback _ ?_⟩
  · simp [Design.find?]
  · simp [Design.find?]

end MessageSchema
end ChannelCodec
