import ChannelCodec.Proofs.Schema.Legality
import ChannelCodec.Proofs.Schema.Slots

/-! The schema compiler. However a schema is written down, it is accepted exactly when it is legal,
and what is returned are its definitions with places for all fields. -/
namespace ChannelCodec

/-- The node holds the definitions of the struct in order, and every field has a place of its own
in its section. -/
structure StructNode.Holds (n : StructNode) (s : StructSource) : Prop where
  name : n.name = s.name
  id : n.id = s.id
  fields : n.fields.map (fun f => FieldSource.mk f.name f.ordinal f.type) = s.fields
  codeOrder : n.fields.map (·.codeOrder) = List.range n.fields.length
  aligned : ∀ f ∈ n.fields, f.type.bits ∣ f.bitOffset
  dataInside : ∀ f ∈ n.fields, f.type.isPointer = false →
    f.bitOffset + f.type.bits ≤ n.dataWords * 64
  dataApart : n.fields.Pairwise fun f g => f.type.isPointer = false → g.type.isPointer = false →
    f.bitOffset + f.type.bits ≤ g.bitOffset ∨ g.bitOffset + g.type.bits ≤ f.bitOffset
  pointerInside : ∀ f ∈ n.fields, f.type.isPointer = true → f.offset < n.pointers
  pointersApart : n.fields.Pairwise fun f g => f.type.isPointer = true →
    g.type.isPointer = true → f.offset ≠ g.offset

theorem Span.le_or_le {s t : Span} (h : ∀ i, s.covers i = true → t.covers i = false)
    (hs : 0 < s.size) (ht : 0 < t.size) :
    s.start + s.size ≤ t.start ∨ t.start + t.size ≤ s.start := by
  by_cases hle : s.start + s.size ≤ t.start
  · exact .inl hle
  by_cases hle' : t.start + t.size ≤ s.start
  · exact .inr hle'
  have hmax := h (max s.start t.start) (by
    simp only [Span.covers, Bool.and_eq_true, decide_eq_true_eq]
    omega)
  simp only [Span.covers, Bool.and_eq_false_iff, decide_eq_false_iff_not] at hmax
  omega

theorem WireType.bits_pointer {t : WireType} (h : t.isPointer = true) : t.bits = 64 := by
  cases t with
  | list element => rfl
  | _ => cases h

namespace StructSource
variable {s : StructSource}

theorem slots_apart (h : (s.fields.map (·.ordinal)).Nodup) :
    s.compiled.fields.Pairwise fun f g =>
      ∀ i, (f.slot 0 (s.compiled.dataWords * 64)).covers i = true →
        (g.slot 0 (s.compiled.dataWords * 64)).covers i = false := by
  refine List.pairwise_map.mp (pairwise_of_coverage_le_one fun i => ?_)
  have hcover := (coverage_slots h 0 (s.compiled.dataWords * 64) i).2
  refine Nat.le_trans hcover ?_
  unfold within
  split <;> split <;> omega

theorem map_source_compiled (s : StructSource) :
    s.compiled.fields.map (fun f => FieldSource.mk f.name f.ordinal f.type) = s.fields := by
  refine List.ext_getElem? fun i => ?_
  rw [compiled_fields, List.getElem?_map, List.getElem?_mapIdx, Option.map_map]
  exact congrFun Option.map_id _

private theorem map_codeOrder_compiled (s : StructSource) :
    s.compiled.fields.map (·.codeOrder) = List.range s.compiled.fields.length := by
  refine List.ext_getElem? fun i => ?_
  rw [compiled_fields, List.length_mapIdx, List.getElem?_map, List.getElem?_mapIdx, Option.map_map]
  by_cases hi : i < s.fields.length
  · rw [List.getElem?_eq_getElem hi, List.getElem?_range hi]
    rfl
  · rw [List.getElem?_eq_none (Nat.le_of_not_lt hi), List.getElem?_eq_none (by simpa using hi)]
    rfl

theorem bitOffset_of_no_bits {f : NodeField} (h : f.type.bits = 0) : f.bitOffset = 0 := by
  rw [NodeField.bitOffset, h, Nat.mul_zero]

section Sections
variable (hnodup : (s.fields.map (·.ordinal)).Nodup)
include hnodup

private theorem data_inside {f : NodeField} (hf : f ∈ s.compiled.fields)
    (hdata : f.type.isPointer = false) :
    f.bitOffset + f.type.bits ≤ s.compiled.dataWords * 64 := by
  by_cases hpos : 0 < f.type.bits
  · have hle := bitOffset_add_le hnodup hf hpos
    rwa [hdata, if_neg Bool.false_ne_true] at hle
  · have hzero : f.type.bits = 0 := by omega
    rw [hzero, bitOffset_of_no_bits hzero]
    exact Nat.zero_le _

private theorem data_apart : s.compiled.fields.Pairwise fun f g =>
    f.type.isPointer = false → g.type.isPointer = false →
      f.bitOffset + f.type.bits ≤ g.bitOffset ∨ g.bitOffset + g.type.bits ≤ f.bitOffset := by
  refine (slots_apart hnodup).imp fun {f g} hfg hf hg => ?_
  by_cases hposf : 0 < f.type.bits
  · by_cases hposg : 0 < g.type.bits
    · have hle := Span.le_or_le hfg hposf hposg
      simpa only [NodeField.slot, hf, hg, Bool.false_eq_true, if_false, Nat.zero_add] using hle
    · have hzero : g.type.bits = 0 := by omega
      rw [hzero, bitOffset_of_no_bits hzero]
      exact .inr (Nat.zero_le _)
  · have hzero : f.type.bits = 0 := by omega
    rw [hzero, bitOffset_of_no_bits hzero]
    exact .inl (Nat.zero_le _)

private theorem pointer_inside {f : NodeField} (hf : f ∈ s.compiled.fields)
    (hpointer : f.type.isPointer = true) : f.offset < s.compiled.pointers := by
  have hbits := WireType.bits_pointer hpointer
  have hle := bitOffset_add_le hnodup hf (by omega)
  rw [hpointer, if_pos rfl, NodeField.bitOffset, hbits] at hle
  omega

private theorem pointers_apart : s.compiled.fields.Pairwise fun f g =>
    f.type.isPointer = true → g.type.isPointer = true → f.offset ≠ g.offset := by
  refine (slots_apart hnodup).imp fun {f g} hfg hf hg he => ?_
  have hbitsf := WireType.bits_pointer hf
  have hbitsg := WireType.bits_pointer hg
  have hle := Span.le_or_le hfg (by rw [NodeField.size_slot]; omega)
    (by rw [NodeField.size_slot]; omega)
  simp only [NodeField.slot, NodeField.bitOffset, hf, hg, hbitsf, hbitsg, if_true, he] at hle
  omega

end Sections

theorem Legal.holds (h : s.Legal) : s.compiled.Holds s :=
  have hnodup : (s.fields.map (·.ordinal)).Nodup := h.ordinals.nodup_iff.mpr List.nodup_range
  { name := rfl
    id := rfl
    fields := map_source_compiled s
    codeOrder := map_codeOrder_compiled s
    aligned := fun f _ => ⟨f.offset, Nat.mul_comm _ _⟩
    dataInside := fun _ hf hdata => data_inside hnodup hf hdata
    dataApart := data_apart hnodup
    pointerInside := fun _ hf hpointer => pointer_inside hnodup hf hpointer
    pointersApart := pointers_apart hnodup }

end StructSource

namespace SchemaSource
variable {s : SchemaSource} {text : String}

theorem compile_renders (h : s.Renders text) (file : String) (c : CompiledSchema) :
    compile file text = .ok c ↔ (s.Legal ∧ s.OrdinalsFit) ∧ c = s.compiled := by
  rw [← sound_iff, compile]
  cases hread : read text with
  | error why =>
    refine iff_of_false nofun fun ⟨hsound, _⟩ => ?_
    rw [(read_renders h).mpr ⟨hsound, rfl⟩] at hread
    cases hread
  | ok s' =>
    obtain ⟨hsound, rfl⟩ := (read_renders h).mp hread
    exact ⟨fun h => ⟨hsound, (Except.ok.inj h).symm⟩, fun ⟨_, hc⟩ => by rw [hc]; rfl⟩

/-- The compiler accepts exactly the legal schemas. Whatever spaces and comments stand between the
words of a schema, and whether or not a space ends the keyword in front of the name of a struct, the
text compiles if and only if the schema keeps the rules; what it compiles to are the definitions of
the schema in order, with places for their fields. -/
theorem compile_iff_legal (h : s.Renders text) (hsize : text.utf8ByteSize < 2 ^ (64 : Nat))
    (file : String) :
    ((∃ c, compile file text = .ok c) ↔ s.Legal) ∧
      ∀ c, compile file text = .ok c →
        c.id = s.id ∧ List.Forall₂ StructNode.Holds c.nodes s.structs := by
  refine ⟨⟨?_, fun hlegal => ?_⟩, fun c hc => ?_⟩
  · rintro ⟨c, hc⟩
    exact ((compile_renders h file c).mp hc).1.1
  · exact ⟨s.compiled, (compile_renders h file _).mpr ⟨⟨hlegal, hlegal.ordinalsFit h hsize⟩, rfl⟩⟩
  · obtain ⟨⟨hlegal, -⟩, rfl⟩ := (compile_renders h file c).mp hc
    refine ⟨rfl, List.forall₂_map_left_iff.mpr (List.forall₂_same.mpr fun t ht => ?_)⟩
    exact (hlegal.structs t ht).holds

def pairSource : StructSource :=
  ⟨"Pair", 0x8000000000000002, [⟨"b", 1, .list .bool⟩, ⟨"a", 0, .uint .w8⟩]⟩

def pairSchema : SchemaSource := ⟨0xc000000000000001, [pairSource]⟩

/-- The struct written down with zeros in front of numbers, capital digits, and spaces and a comment
where none are needed. -/
def pairText : String :=
  "@ 0x00C000000000000001; # A pair.\n\tstruct Pair@0x8000000000000002\x7b" ++
    "b@01:List( Bool);a @0:UInt8;\x7d"

theorem renders_pairSchema : pairSchema.Renders pairText := by
  have ha := (((Spaced.nil .nil).front "\x7d").front ";").front "UInt8"
  have ha := ((((ha.front ":").front "0").front "@").space (c := ' ') rfl).front "a"
  have hb := (((ha.front ";").front ")").front "Bool").space (c := ' ') rfl
  have hb := (((((hb.front "(").front "List").front ":").front "01").front "@").front "b"
  have hpair := ((hb.front "\x7b").front "0x8000000000000002").front "@"
  have hpair := ((hpair.front "Pair").space (c := ' ') rfl).front "struct"
  have hremark := (hpair.space (c := '\t') rfl).comment " A pair.".toList
    (List.all_eq_true.mp (by decide))
  have hown := ((hremark.space (c := ' ') rfl).front ";").front "0x00C000000000000001"
  have hfields : List.Forall₂ FieldSource.Spells pairSource.fields
      [["b", "@", "01", ":", "List", "(", "Bool", ")", ";"], ["a", "@", "0", ":", "UInt8", ";"]] :=
    .cons ⟨by decide, "01", ⟨by decide, List.all_eq_true.mp (by decide), by decide⟩, rfl⟩
      (.cons ⟨by decide, "0", ⟨by decide, List.all_eq_true.mp (by decide), by decide⟩, rfl⟩ .nil)
  have hid : IsHexadecimal pairSource.id "0x8000000000000002" := ⟨"8000000000000002".toList, rfl,
    by decide, List.all_eq_true.mp (by decide), by decide⟩
  have hschemaId : IsHexadecimal pairSchema.id "0x00C000000000000001" :=
    ⟨"00C000000000000001".toList, rfl, by decide, List.all_eq_true.mp (by decide), by decide⟩
  have hstruct : pairSource.Spells _ := ⟨by decide, "0x8000000000000002", _, hid, hfields, rfl⟩
  exact ⟨_, ⟨"0x00C000000000000001", [_], hschemaId, .cons hstruct .nil, rfl⟩,
    (hown.space (c := ' ') rfl).front "@"⟩

theorem pairText_compiles : ∃ c, compile "pair.capnp" pairText = .ok c ∧ c.id = pairSchema.id ∧
    List.Forall₂ StructNode.Holds c.nodes [pairSource] := by
  have hlegal : pairSchema.Legal := ⟨by decide, by decide, by decide,
    List.forall_mem_singleton.mpr ⟨by decide, by decide, by decide, by decide⟩⟩
  obtain ⟨hiff, hholds⟩ := compile_iff_legal renders_pairSchema (by decide) "pair.capnp"
  obtain ⟨c, hc⟩ := hiff.mpr hlegal
  exact ⟨c, hc, hholds c hc⟩

end SchemaSource
end ChannelCodec
