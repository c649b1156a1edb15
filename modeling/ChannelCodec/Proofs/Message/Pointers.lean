import ChannelCodec.Proofs.Message.RoundTrip
import ChannelCodec.Proofs.Schema.Tightness

/-! What fits into the pointers of a message. A pointer has 16 bits for each count of words, 29 for
the length of a list, and 30, one of them a sign, for the distance to it. The check of a type bounds
lengths, but neither the number of fields nor the words that lists take together, and the circuits
cut what does not fit. So a reader finds in the pointers what they were computed from exactly when
the layout keeps all counts and distances small. -/
namespace ChannelCodec

namespace WireType

/-- What a value asks of the struct that it is placed in, nothing if it has no bits. -/
def request? : WireType → Option Placement.Request
  | .void => none
  | .bool => some (.data 0)
  | .int width | .uint width => some (.data ⟨width.log, by cases width <;> decide⟩)
  | .list _ => some .pointer

def dataBits (t : WireType) : Nat := if t.isPointer then 0 else t.bits

theorem pointers_place (t : WireType) (p : Placement) :
    (t.place p).2.pointers = p.pointers + if t.isPointer then 1 else 0 := by
  cases t with
  | void | list => rfl
  | bool | int | uint => exact p.pointers_addData _

end WireType

namespace StructSource

private theorem placeAll_requests (p : Placement) (fields : List FieldSource) :
    (placeAll p fields).2 = (p.placeAll (fields.filterMap (·.type.request?))).2 := by
  induction fields generalizing p with
  | nil => rfl
  | cons f fields ih =>
    rw [placeAll_cons, List.filterMap_cons]
    dsimp only
    rw [ih]
    obtain ⟨name, ordinal, type⟩ := f
    cases type <;> rfl

private theorem dataBits_requests (fields : List FieldSource) :
    Placement.dataBits (fields.filterMap (·.type.request?)) =
      total (fields.map (·.type.dataBits)) := by
  induction fields with
  | nil => rfl
  | cons f fields ih =>
    obtain ⟨name, ordinal, type⟩ := f
    rw [List.filterMap_cons, List.map_cons, total_cons, ← ih]
    cases type with
    | void | list => exact (Nat.zero_add _).symm
    | bool => rfl
    | int width | uint width => cases width <;> rfl

theorem getElem?_places {p : Placement} {fields : List FieldSource} {k offset : Nat}
    {type : WireType} (h : (places p fields)[k]? = some (type, offset))
    (hpointer : type.isPointer = true) :
    offset = p.pointers + (fields.take k).countP (·.type.isPointer) := by
  induction fields generalizing p k with
  | nil => cases h
  | cons f fields ih =>
    cases k with
    | zero =>
      cases h
      cases hf : f.type with
      | list => rfl
      | void | bool | int | uint =>
        rw [hf] at hpointer
        cases hpointer
    | succ k =>
      rw [ih h, WireType.pointers_place, List.take_succ_cons, List.countP_cons]
      omega

private theorem pointers_placeAll (p : Placement) (fields : List FieldSource) :
    (placeAll p fields).2.pointers = p.pointers + fields.countP (·.type.isPointer) := by
  induction fields generalizing p with
  | nil => rfl
  | cons f fields ih =>
    rw [placeAll_cons, List.countP_cons]
    dsimp only
    rw [ih, WireType.pointers_place]
    omega

end StructSource

theorem getElem?_withLists (start k : Nat) (fields : List FieldReport) :
    (withLists start fields)[k]? = fields[k]?.map fun f =>
      (f, start + 64 * total ((fields.take k).map (·.payloadWords))) := by
  induction fields generalizing start k with
  | nil => rfl
  | cons f fields ih =>
    cases k with
    | zero => rfl
    | succ k =>
      rw [withLists, List.getElem?_cons_succ, List.getElem?_cons_succ, ih, List.take_succ_cons,
        List.map_cons, total_cons, Nat.mul_add, Nat.add_assoc]

private theorem mem_packedFields {start k list : Nat} {fields : List (FieldReport × Bits)}
    {f : FieldReport} {x : Bits} {p : Piece} (hf : fields[k]? = some (f, x))
    (hlist : (withLists start (fields.map (·.1)))[k]? = some (f, list))
    (hp : p ∈ f.wireType.packed f.hwType f.messageOffset list x) :
    p ∈ packedFields start fields := by
  refine List.mem_flatMap.mpr ⟨((f, list), x), List.mem_iff_getElem?.mpr ⟨k, ?_⟩, hp⟩
  rw [List.getElem?_zip_eq_some, List.getElem?_map, hf]
  exact ⟨hlist, rfl⟩

/-- A number in 30 bits is read back with its sign exactly when it does not have the sign bit. -/
theorem bmod_eq_self_iff (distance : Nat) :
    Int.bmod distance (2 ^ (30 : Nat)) = distance ↔ distance < 2 ^ (29 : Nat) := by
  constructor
  · intro h
    have hlt := Int.bmod_lt (x := distance) (m := 2 ^ (30 : Nat)) (by decide)
    rw [h] at hlt
    omega
  · intro h
    exact Int.bmod_eq_of_le (by omega) (by omega)

namespace MessageReport

/-- The words between the pointer to list `k` and the list: the pointers behind it, and the lists of
the fields in front of it. -/
def distance (r : MessageReport) (k : Nat) : Nat :=
  (r.fields.drop (k + 1)).countP (·.wireType.isPointer) +
    total ((r.fields.take k).map (·.payloadWords))

/-- All that the pointers of a message are to hold fits into them, and no distance is so long that
it has the sign bit. -/
structure FitsPointers (r : MessageReport) : Prop where
  dataWords : r.dataWords < 2 ^ (16 : Nat)
  pointers : r.pointers < 2 ^ (16 : Nat)
  lengths : ∀ f ∈ r.fields, ∀ element length, f.hwType.array? = some (element, length) →
    length < 2 ^ (29 : Nat)
  distances : ∀ k f, r.fields[k]? = some f → f.wireType.isPointer = true →
    r.distance k < 2 ^ (29 : Nat)

/-- A reader finds in the pointers of the message what they were computed from. The 30 bits for a
distance are read with their sign. -/
structure PointersRead (r : MessageReport) (m : Bits) : Prop where
  kind : (m.slice 0 2).toNat = PointerKind.struct.tag
  root : (m.slice 2 30).lowInt = if r.dataWords + r.pointers = 0 then -1 else 0
  dataWords : (m.slice 32 16).toNat = r.dataWords
  pointers : (m.slice 48 16).toNat = r.pointers
  lists : ∀ (k : Nat) (f : FieldReport) item element length, r.fields[k]? = some f →
    f.wireType = .list item → f.hwType.array? = some (element, length) →
      ((f.word m).slice 0 2).toNat = PointerKind.list.tag ∧
        ((f.word m).slice 2 30).lowInt = r.distance k ∧
        ((f.word m).slice 32 3).toNat = item.elementSize.code ∧
        ((f.word m).slice 35 29).toNat = length

end MessageReport

namespace MessageSchema
variable {s : MessageSchema}

private theorem map_place_source (s : MessageSchema) :
    s.source.compiled.fields.map (fun f => (f.type, f.offset)) =
      StructSource.places {} s.source.fields := by
  rw [StructSource.map_place_compiled, byOrdinal_source]
  exact StructSource.map_lookup_placeAll {} s.nodup_ordinals

theorem map_wireType_layout (s : MessageSchema) :
    s.layout.fields.map (·.wireType) = s.source.fields.map (·.type) := by
  have hcompiled : s.layout.fields.map (·.wireType) =
      (s.source.compiled.fields.map fun f => (f.type, f.offset)).map (·.1) := by
    rw [← map_fst_slots, layout, List.map_map, List.map_map, List.map_map]
    rfl
  rw [hcompiled, StructSource.map_place_compiled, List.map_map]
  rfl

theorem counts_layout (s : MessageSchema) :
    s.layout.dataWords = wordsFor (total (s.layout.fields.map (·.wireType.dataBits))) ∧
      s.layout.pointers = s.layout.fields.countP (·.wireType.isPointer) := by
  have hplaced : s.layout.dataWords =
      (StructSource.placeAll {} s.source.byOrdinal).2.dataWords := rfl
  have hnumbered : s.layout.pointers =
      (StructSource.placeAll {} s.source.byOrdinal).2.pointers := rfl
  have hbits : s.layout.fields.map (·.wireType.dataBits) =
      s.source.fields.map (·.type.dataBits) := by
    have h := congrArg (List.map WireType.dataBits) s.map_wireType_layout
    rwa [List.map_map, List.map_map] at h
  have hcount : s.layout.fields.countP (·.wireType.isPointer) =
      s.source.fields.countP (·.type.isPointer) := by
    have h := congrArg (List.countP WireType.isPointer) s.map_wireType_layout
    rwa [List.countP_map, List.countP_map] at h
  rw [byOrdinal_source] at hplaced hnumbered
  constructor
  · rw [hplaced, StructSource.placeAll_requests, (Placement.words_placeAll _).1,
      StructSource.dataBits_requests, hbits]
    rfl
  · rw [hnumbered, StructSource.pointers_placeAll, hcount]
    exact Nat.zero_add _

theorem messageOffset_layout {k : Nat} {f : FieldReport} (hf : s.layout.fields[k]? = some f)
    (hpointer : f.wireType.isPointer = true) : f.messageOffset =
      64 * (1 + s.layout.dataWords +
        (s.layout.fields.take k).countP (·.wireType.isPointer)) := by
  rw [layout, List.getElem?_map, Option.map_eq_some_iff] at hf
  obtain ⟨q, hq, rfl⟩ := hf
  have hpointer : q.1.type.isPointer = true := hpointer
  have hbits := WireType.bits_pointer hpointer
  have hplace : (StructSource.places {} s.source.fields)[k]? = some (q.1.type, q.1.offset) := by
    rw [← map_place_source, List.getElem?_map, (List.getElem?_zip_eq_some.mp hq).1]
    rfl
  have hoffset := StructSource.getElem?_places hplace hpointer
  have hcount : (s.layout.fields.take k).countP (·.wireType.isPointer) =
      (s.source.fields.take k).countP (·.type.isPointer) := by
    have h := congrArg (fun types => (types.take k).countP WireType.isPointer)
      s.map_wireType_layout
    rwa [← List.map_take, ← List.map_take, List.countP_map, List.countP_map] at h
  have hnone : ({} : Placement).pointers = 0 := rfl
  have hdata : s.layout.dataWords = s.source.compiled.dataWords := rfl
  rw [hnone, ← hcount] at hoffset
  rw [messageOffset_fieldReport, if_pos hpointer, NodeField.bitOffset, hbits, hoffset,
    pointerStart, dataStart, hdata]
  omega

/-- A list starts as many words behind the end of its pointer as the pointers that follow and the
lists in front of it take. -/
theorem place_layout {k list : Nat} {f : FieldReport} (hf : s.layout.places[k]? = some (f, list))
    (hpointer : f.wireType.isPointer = true) :
    list = f.messageOffset + 64 + 64 * s.layout.distance k := by
  rw [MessageReport.places, getElem?_withLists, Option.map_eq_some_iff] at hf
  obtain ⟨g, hg, he⟩ := hf
  cases he
  obtain ⟨hk, hget⟩ := List.getElem?_eq_some_iff.mp hg
  have hsplit : s.layout.fields.countP (·.wireType.isPointer) =
      (s.layout.fields.take k).countP (·.wireType.isPointer) + 1 +
        (s.layout.fields.drop (k + 1)).countP (·.wireType.isPointer) := by
    conv_lhs => rw [← List.take_append_drop k s.layout.fields]
    rw [List.countP_append, List.drop_eq_getElem_cons hk, hget, List.countP_cons, if_pos hpointer]
    omega
  rw [messageOffset_layout hg hpointer, MessageReport.structEnd, MessageReport.distance,
    s.counts_layout.2, hsplit]
  omega

private theorem Packs.word {m x : Bits} (hm : s.Packs m x) {k length : Nat} {f : FieldReport}
    {item : WireType} {element : HwType} (hf : s.layout.fields[k]? = some f)
    (hwire : f.wireType = .list item) (harray : f.hwType.array? = some (element, length)) :
    f.word m = listPointer (s.layout.distance k % 2 ^ (30 : Nat)) item.elementSize length := by
  -- The list of a field comes behind those of all fields in front of it.
  let list := s.layout.structEnd + 64 * total ((s.layout.fields.take k).map (·.payloadWords))
  have hplaces : s.layout.places[k]? = some (f, list) := by
    rw [MessageReport.places, getElem?_withLists, hf]
    rfl
  have hlist := place_layout hplaces (by rw [hwire]; rfl)
  have hwords : wordsBetween f.messageOffset list = s.layout.distance k := by
    rw [wordsBetween]
    omega
  have hlength := HwType.length_unpacked s.fields x
  obtain ⟨value, hvalue⟩ : ∃ value, (HwType.unpacked s.fields x)[k]? = some value := by
    obtain ⟨hk, -⟩ := List.getElem?_eq_some_iff.mp hf
    rw [s.length_layout_fields, ← hlength] at hk
    exact ⟨_, List.getElem?_eq_getElem hk⟩
  have hentry : (s.layout.fields.zip (HwType.unpacked s.fields x))[k]? = some (f, value) :=
    List.getElem?_zip_eq_some.mpr ⟨hf, hvalue⟩
  rw [MessageReport.places, ← map_fst_zip_layout hlength] at hplaces
  have hmem := mem_packedFields hentry hplaces (by
    rw [hwire, WireType.packed_of_list harray]
    exact List.mem_cons_self)
  have hinside := hm.shows_packed.inside _ (List.mem_cons_of_mem _ hmem)
  rw [hwords] at hinside
  exact hinside

theorem list_or_scalar (h : s.checkSupported = .ok ()) {f : FieldReport}
    (hf : f ∈ s.layout.fields) :
    (∃ item element length, f.wireType = .list item ∧
        f.hwType.array? = some (element, length) ∧ length < 2 ^ (29 : Nat)) ∨
      f.wireType.isPointer = false ∧ f.hwType.array? = none := by
  obtain ⟨q, hq, rfl⟩ := List.mem_map.mp hf
  have hcarried : (fieldReport s.source.compiled q.1 q.2).hwType.Carried
      (fieldReport s.source.compiled q.1 q.2).wireType := carried_slot h hq
  generalize fieldReport s.source.compiled q.1 q.2 = f at hcarried
  obtain ⟨name, hwType, wireType⟩ := f
  cases hcarried with
  | scalar hscalar =>
    refine .inr ⟨hscalar.isPointer_eq_false, ?_⟩
    obtain ⟨sign, width, hint, -⟩ := hscalar
    rw [HwType.array?, HwType.canonical_of_int? hint]
  | @list element length item harray _ _ hle =>
    rw [maxListLength] at hle
    exact .inl ⟨item, element, length, rfl, harray, by omega⟩

theorem length_lt_of_array (h : s.checkSupported = .ok ()) {f : FieldReport}
    (hf : f ∈ s.layout.fields) {element : HwType} {length : Nat}
    (harray : f.hwType.array? = some (element, length)) : length < 2 ^ (29 : Nat) := by
  rcases list_or_scalar h hf with ⟨_, _, _, _, hlist, hlength⟩ | ⟨-, hnone⟩
  · cases harray.symm.trans hlist
    exact hlength
  · cases harray.symm.trans hnone

theorem Packs.list_parts {m x : Bits} (hm : s.Packs m x) (h : s.checkSupported = .ok ()) {k : Nat}
    {f : FieldReport} (hf : s.layout.fields[k]? = some f) {item : WireType} {element : HwType}
    {length : Nat} (hwire : f.wireType = .list item)
    (harray : f.hwType.array? = some (element, length)) :
    ((f.word m).slice 0 2).toNat = PointerKind.list.tag ∧
      ((f.word m).slice 2 30).lowInt = Int.bmod (s.layout.distance k) (2 ^ (30 : Nat)) ∧
      ((f.word m).slice 32 3).toNat = item.elementSize.code ∧
      ((f.word m).slice 35 29).toNat = length := by
  have hlength := length_lt_of_array h (List.mem_of_getElem? hf) harray
  have hcut := Nat.mod_lt (s.layout.distance k) (Nat.two_pow_pos 30)
  obtain ⟨htag, hdistance, hsize, hcount⟩ := listPointer_parts hcut item.elementSize hlength
  rw [hm.word hf hwire harray]
  refine ⟨htag, ?_, hsize, hcount⟩
  rw [Bits.lowInt_eq, hdistance, Bits.width_slice, Int.natCast_emod]
  exact Int.emod_bmod _ _

private theorem Packs.root_half {m x : Bits} (hm : s.Packs m x) :
    (m.slice 0 2).toNat = PointerKind.struct.tag ∧
      (m.slice 2 30).lowInt =
        if s.layout.dataWords + s.layout.pointers = 0 then -1 else 0 := by
  obtain ⟨hhalf, -⟩ := root_parts (hm.shows_packed.inside _ List.mem_cons_self)
  rw [Bits.toNat_slice, PointerKind.tag] at hhalf
  have hoffset : (m.slice 2 30).toNat = s.layout.rootOffset := by
    rw [Bits.toNat_slice]
    omega
  constructor
  · rw [Bits.toNat_slice, PointerKind.tag]
    omega
  · rw [Bits.lowInt_eq, hoffset, MessageReport.rootOffset, Bits.width_slice]
    split
    · decide
    · decide

theorem Packs.pointersRead_iff {m x : Bits} (hm : s.Packs m x) (h : s.checkSupported = .ok ()) :
    s.layout.PointersRead m ↔ s.layout.FitsPointers := by
  obtain ⟨-, hdata, hpointers⟩ := root_parts (hm.shows_packed.inside _ List.mem_cons_self)
  constructor
  · intro hread
    refine ⟨?_, ?_, fun f hf element length harray => length_lt_of_array h hf harray,
      fun k f hf hpointer => ?_⟩
    · rw [← hread.dataWords]
      exact (m.slice 32 16).toNat_lt
    · rw [← hread.pointers]
      exact (m.slice 48 16).toNat_lt
    · rcases list_or_scalar h (List.mem_of_getElem? hf) with
        ⟨item, element, length, hwire, harray, _⟩ | ⟨hscalar, -⟩
      · obtain ⟨-, hdistance, -⟩ := hread.lists k f item element length hf hwire harray
        rw [(hm.list_parts h hf hwire harray).2.1] at hdistance
        exact (bmod_eq_self_iff _).mp hdistance
      · cases hpointer.symm.trans hscalar
  · intro hfits
    refine ⟨hm.root_half.1, hm.root_half.2, ?_, ?_,
      fun k f item element length hf hwire harray => ?_⟩
    · rw [hdata, Nat.mod_eq_of_lt hfits.dataWords]
    · rw [hpointers, Nat.mod_eq_of_lt hfits.pointers]
    · have hsmall := hfits.distances k f hf (by rw [hwire]; rfl)
      rw [← (bmod_eq_self_iff _).mpr hsmall]
      exact hm.list_parts h hf hwire harray

/-- The pointers of a supported message have its counts and distances cut to the bits that they have
there. Lengths of lists always fit. Whatever value is encoded, a reader finds in the pointers what
they were computed from exactly when there are few enough data words and pointers, and when few
enough words lie between each pointer to a list and its list. The former is known from the widths of
the fields; the latter are the pointers that follow and the lists of the fields in front. -/
theorem pointers_read_iff_fit {t : HwType} (ht : t.Written) (h : (of t).checkSupported = .ok ())
    (hid : (of t).id ≠ ownSchemaId) :
    ∃ r c, (of t).report = .ok r ∧ (of t).encoder = .ok c ∧
      r.dataWords = wordsFor (total (r.fields.map (·.wireType.dataBits))) ∧
      r.pointers = r.fields.countP (·.wireType.isPointer) ∧
      (∀ k f list, r.places[k]? = some (f, list) → f.wireType.isPointer = true →
        list = f.messageOffset + 64 + 64 * r.distance k) ∧
      (∀ f ∈ r.fields, ∀ element length, f.hwType.array? = some (element, length) →
        length < 2 ^ (29 : Nat)) ∧
      ∀ x : Bits, x.width = (of t).type.bitWidth → ∃ m : Bits,
        (∀ clock valid : Bits, clock.width = 1 → valid.width = 1 →
          ∀ d : Design, d.find? c.name = some c →
            d.run c.name [("clk", clock), ("valid", valid), ("unencodedInput", x)] =
              .ok ⟨[("encoded", m)], []⟩) ∧
        m.width = r.size ∧ (r.PointersRead m ↔ r.FitsPointers) := by
  obtain ⟨c, hc, hpacks⟩ := encoder_packs ht h hid
  refine ⟨(of t).layout, c, report_eq ht h hid, hc, (counts_layout _).1, (counts_layout _).2,
    fun k f list hf hpointer => place_layout hf hpointer,
    fun f hf element length harray => length_lt_of_array h hf harray, fun x hx => ?_⟩
  obtain ⟨m, hm, hruns⟩ := hpacks x hx
  exact ⟨m, hruns, hm.width, hm.pointersRead_iff h⟩

theorem mixedType_pointers_read : ∃ r c m, (of mixedType).report = .ok r ∧
    (of mixedType).encoder = .ok c ∧
      ({ circuits := [c] } : Design).run c.name [("clk", .ofBool true), ("valid", .ofBool false),
        ("unencodedInput", .ofNat 41 0x1ABCDE)] = .ok ⟨[("encoded", m)], []⟩ ∧
      r.PointersRead m := by
  obtain ⟨r, c, hr, hc, -, -, -, hlengths, hencodes⟩ :=
    pointers_read_iff_fit written_mixedType checkSupported_mixedType id_mixedType
  have hlayout := eq_of_report_mixedType hr
  rw [layout_mixedType] at hlayout
  subst hlayout
  obtain ⟨m, hruns, -, hread⟩ := hencodes (.ofNat 41 0x1ABCDE) rfl
  refine ⟨_, c, m, hr, hc, hruns _ _ rfl rfl _ (by simp [Design.find?]), hread.mpr ?_⟩
  refine ⟨by decide, by decide, hlengths, fun k f hf _ => ?_⟩
  obtain ⟨hk, -⟩ := List.getElem?_eq_some_iff.mp hf
  have hk : k < 2 := hk
  have hcases : k = 0 ∨ k = 1 := by omega
  rcases hcases with rfl | rfl
  · decide
  · decide

def farLists : HwType :=
  .struct [⟨"a", .array maxListLength (.int .unsigned 64)⟩,
    ⟨"b", .array maxListLength (.int .unsigned 64)⟩,
    ⟨"c", .array maxListLength (.int .unsigned 64)⟩]

private theorem written_farLists : farLists.Written :=
  ⟨"!hw.struct<a: !hw.array<536870911xui64>, b: !hw.array<536870911xui64>, " ++
    "c: !hw.array<536870911xui64>>", by decide +kernel, by decide +kernel⟩

private theorem layout_farLists : (of farLists).layout.fields[1]? =
    some ⟨"b", .array maxListLength (.int .unsigned 64), .list (.uint .w64), .pointer, 64, 128,
      maxListLength⟩ ∧ (of farLists).layout.distance 1 = 2 ^ (29 : Nat) := by
  rw [MessageReport.distance, layout, slots, StructSource.compiled, byOrdinal_source]
  exact ⟨rfl, rfl⟩

/-- The check of a type does not see how far away its lists are: the second one of three is read as
if it lay in front of its pointer. -/
theorem farLists_misread : farLists.Written ∧ (of farLists).checkSupported = .ok () ∧
    (of farLists).id ≠ ownSchemaId ∧ ∃ r c m, (of farLists).report = .ok r ∧
      (of farLists).encoder = .ok c ∧
      ({ circuits := [c] } : Design).run c.name [("clk", .ofBool true), ("valid", .ofBool true),
        ("unencodedInput", .zero farLists.bitWidth)] = .ok ⟨[("encoded", m)], []⟩ ∧
      r.distance 1 = 2 ^ (29 : Nat) ∧ ((m.slice 128 64).slice 2 30).lowInt = -536870912 ∧
      ¬ r.FitsPointers := by
  have h : (of farLists).checkSupported = .ok () := by decide +kernel
  have hid : (of farLists).id ≠ ownSchemaId := by decide +kernel
  obtain ⟨hfield, hdistance⟩ := layout_farLists
  obtain ⟨c, hc, hpacks⟩ := encoder_packs written_farLists h hid
  obtain ⟨m, hm, hruns⟩ := hpacks (.zero farLists.bitWidth) rfl
  have hread := (hm.list_parts h hfield rfl rfl).2.1
  rw [hdistance] at hread
  refine ⟨written_farLists, h, hid, _, c, m, report_eq written_farLists h hid, hc,
    hruns _ _ rfl rfl _ (by simp [Design.find?]), hdistance, hread.trans (by decide),
    fun hfits => ?_⟩
  have hlt := hfits.distances 1 _ hfield rfl
  rw [hdistance] at hlt
  exact absurd hlt (by decide)

end MessageSchema
end ChannelCodec
