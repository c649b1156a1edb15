import ChannelCodec.Proofs.Message.Carried
import ChannelCodec.Proofs.Schema.Compiling
import Mathlib.Data.List.Basic

/-! Compiling the schema of a message. The declaration of a message struct is read back as it was
written: every field under its name, at its place, with its wire type. -/
namespace ChannelCodec

def HwType.wire (t : HwType) : WireType :=
  match t.wireType with
  | .ok wire => wire
  | .error _ => .void

theorem HwType.Carried.wire_eq {t : HwType} {wire : WireType} (h : t.Carried wire) :
    t.wire = wire := by
  rw [HwType.wire, h.wireType]

def fieldSources (k : Nat) : List (Field HwType) → List FieldSource
  | [] => []
  | f :: fields => ⟨f.name, k, f.type.wire⟩ :: fieldSources (k + 1) fields

def lineTexts (width k : Nat) : List (Field HwType) → String
  | [] => ""
  | f :: fields => fieldLine width k f f.type.wire ++ lineTexts width (k + 1) fields

@[simp] theorem length_fieldSources (k : Nat) (fields : List (Field HwType)) :
    (fieldSources k fields).length = fields.length := by
  induction fields generalizing k with
  | nil => rfl
  | cons f fields ih => rw [fieldSources, List.length_cons, ih, List.length_cons]

theorem getElem?_fieldSources (k i : Nat) (fields : List (Field HwType)) :
    (fieldSources k fields)[i]? = fields[i]?.map fun f => ⟨f.name, k + i, f.type.wire⟩ := by
  induction fields generalizing k i with
  | nil => rfl
  | cons f fields ih =>
    cases i with
    | zero => rfl
    | succ i =>
      rw [fieldSources, List.getElem?_cons_succ, List.getElem?_cons_succ, ih]
      congr 1
      funext f
      rw [Nat.add_assoc, Nat.add_comm 1 i]

private theorem names_fieldSources (k : Nat) (fields : List (Field HwType)) :
    (fieldSources k fields).map (·.name) = fields.map (·.name) := by
  induction fields generalizing k with
  | nil => rfl
  | cons f fields ih => rw [fieldSources, List.map_cons, List.map_cons, ih]

theorem ordinals_fieldSources (k : Nat) (fields : List (Field HwType)) :
    (fieldSources k fields).map (·.ordinal) = List.range' k fields.length := by
  induction fields generalizing k with
  | nil => rfl
  | cons f fields ih => rw [fieldSources, List.map_cons, ih, List.length_cons, List.range'_succ]

private theorem fieldLines_eq (width k : Nat) {fields : List (Field HwType)}
    (h : ∀ f ∈ fields, ∃ wire, f.type.Carried wire) :
    fieldLines width k fields = (lineTexts width k fields, .ok ()) := by
  induction fields generalizing k with
  | nil => rfl
  | cons f fields ih =>
    obtain ⟨wire, hwire⟩ := h f List.mem_cons_self
    have hrest := ih (k + 1) fun g hg => h g (List.mem_cons_of_mem f hg)
    simp only [fieldLines, hwire.wireType, hrest, lineTexts, hwire.wire_eq]

/-- The remark behind a field, which tells the type of its values. -/
def remark (t : HwType) : List Char :=
  '#' :: (" Actual type is ".toList ++ t.text.toList ++ ['.', '\n'])

theorem gap_remark {t : HwType} (h : ∀ c ∈ t.text.toList, isInline c = true) : Gap (remark t) := by
  have hfront : " Actual type is ".toList.all isInline = true := by decide
  have hbody : ∀ c ∈ " Actual type is ".toList ++ t.text.toList ++ ['.'], isInline c = true := by
    intro c hc
    rcases List.mem_append.mp hc with hc | hc
    · rcases List.mem_append.mp hc with hc | hc
      · exact List.all_eq_true.mp hfront c hc
      · exact h c hc
    · rw [List.mem_singleton.mp hc]
      decide
  have hgap : Gap ('#' :: ((" Actual type is ".toList ++ t.text.toList ++ ['.']) ++ ['\n'])) :=
    .comment hbody (by decide) .nil
  rwa [List.append_assoc] at hgap

private theorem toList_fieldLine (width k : Nat) (f : Field HwType) (wire : WireType)
    (rest : List Char) :
    (fieldLine width k f wire).toList ++ rest =
      ' ' :: ' ' :: (f.name.toList ++ (List.replicate (width - f.name.length) ' ' ++ ' ' :: '@' ::
        ((toString k).toList ++ ' ' :: ':' :: (wire.text.toList ++ ';' :: ' ' :: ' ' ::
          (remark f.type ++ rest))))) := by
  have hline : fieldLine width k f wire = "  " ++ paddedName width f.name ++ " @" ++ toString k ++
      " :" ++ wire.text ++ ";  # Actual type is " ++ f.type.text ++ ".\n" := rfl
  have hname : paddedName width f.name =
      f.name ++ String.ofList (List.replicate (width - f.name.length) ' ') := rfl
  simp [hline, hname, remark]

theorem spaced_lineTexts (width : Nat) {fields : List (Field HwType)}
    (hfields : ∀ f ∈ fields, isPlainIdentifier f.name = true ∧ Gap (remark f.type)) (k : Nat) :
    ∃ spellings, List.Forall₂ FieldSource.Spells (fieldSources k fields) spellings ∧
      ∀ {words : List String} {text : List Char}, Spaced words text →
        Spaced (spellings.flatten ++ words) ((lineTexts width k fields).toList ++ text) := by
  induction fields generalizing k with
  | nil => exact ⟨[], .nil, fun h => h⟩
  | cons f fields ih =>
    obtain ⟨⟨hname, hremark⟩, hfields⟩ := List.forall_mem_cons.mp hfields
    obtain ⟨spellings, hspellings, hlines⟩ := ih hfields (k + 1)
    refine ⟨_ :: spellings, .cons ⟨hname, toString k, isDecimal_toString k, rfl⟩ hspellings, ?_⟩
    intro words text h
    have hend := (((hlines h).behind hremark).replicate 2).front ";"
    have htype := (f.type.wire.spaced_text hend).front ":"
    have hordinal := ((htype.replicate 1).front (toString k)).front "@"
    have hname := (((hordinal.replicate 1).replicate (width - f.name.length)).front
      f.name).replicate 2
    have hwords : ((f.name :: "@" :: toString k :: ":" :: (f.type.wire.words ++ [";"])) ::
        spellings).flatten ++ words = f.name :: "@" :: toString k :: ":" ::
          (f.type.wire.words ++ ";" :: (spellings.flatten ++ words)) := by simp
    rw [lineTexts, String.toList_append, List.append_assoc, toList_fieldLine, hwords]
    exact hname

theorem legalId_fingerprint (text : String) : LegalId (fingerprint text).toNat := by
  have hlt : (fingerprint text).toNat < 2 ^ (64 : Nat) := UInt64.toNat_lt _
  have hle : 2 ^ (63 : Nat) ≤ (fingerprint text).toNat := by
    rw [fingerprint, UInt64.toNat_or]
    exact Nat.right_le_or
  rw [← idFault?_eq_none, idFault?, if_neg (Nat.not_le.mpr hlt), if_neg (Nat.not_lt.mpr hle)]

namespace MessageSchema

def source (s : MessageSchema) : StructSource := ⟨s.name, s.id, fieldSources 0 s.fields⟩

/-- The schema that holds nothing but the message struct. -/
def ownSchema (s : MessageSchema) : SchemaSource := ⟨ownSchemaId, [s.source]⟩

section Supported
variable {s : MessageSchema} (h : s.checkSupported = .ok ())

theorem ordinals_fit (hfew : s.fields.length ≤ 2 ^ (64 : Nat)) :
    ∀ f ∈ s.source.fields, f.ordinal < 2 ^ (64 : Nat) := by
  intro f hf
  have hmem : f.ordinal ∈ (fieldSources 0 s.fields).map (·.ordinal) := List.mem_map_of_mem hf
  rw [ordinals_fieldSources, List.mem_range'] at hmem
  omega

include h

/-- The struct of a supported message keeps the rules for structs if its fields have different
names. -/
theorem legal_source_iff : s.source.Legal ↔ (s.fields.map (·.name)).Nodup := by
  rw [← names_fieldSources 0]
  refine ⟨fun hlegal => hlegal.distinct, fun hdistinct => ?_⟩
  refine ⟨(HwType.isTypeName_structName h _).1, fun f hf => ?_, hdistinct, ?_⟩
  · obtain ⟨k, hk⟩ := List.mem_iff_getElem?.mp hf
    rw [source, getElem?_fieldSources, Option.map_eq_some_iff] at hk
    obtain ⟨g, hg, rfl⟩ := hk
    exact ((carried_of_checkSupported h).2 g (List.mem_of_getElem? hg)).2.1
  · rw [source, ordinals_fieldSources, length_fieldSources, ← List.range_eq_range']

private theorem legal_ownSchema_iff (hid : s.id ≠ ownSchemaId) :
    s.ownSchema.Legal ↔ (s.fields.map (·.name)).Nodup := by
  rw [← legal_source_iff h]
  refine ⟨fun hlegal => hlegal.structs _ (List.mem_singleton.mpr rfl), fun hstruct => ?_⟩
  refine ⟨?_, ?_, List.nodup_singleton _, List.forall_mem_singleton.mpr hstruct⟩
  · rw [ownSchema, List.map_singleton, List.forall_mem_cons, List.forall_mem_singleton]
    exact ⟨(by decide : LegalId ownSchemaId), legalId_fingerprint _⟩
  · rw [ownSchema, List.map_singleton, List.nodup_cons, List.mem_singleton]
    exact ⟨hid.symm, List.nodup_singleton _⟩

theorem declaration_eq :
    s.declaration = .ok ("struct " ++ s.name ++ " " ++ idText s.id ++ " \x7b\n" ++
      lineTexts (nameWidth s.fields) 0 s.fields ++ "\x7d\n\n") := by
  have hlines := fieldLines_eq (nameWidth s.fields) 0 fun f hf =>
    ((carried_of_checkSupported h).2 f hf).2.2
  rw [declaration, write, h]
  simp only [writeStruct, hlines]

variable (hremarks : ∀ f ∈ s.fields, Gap (remark f.type))
include hremarks

theorem spaced_declaration {declaration : String} (hd : s.declaration = .ok declaration) :
    ∃ spelling, s.source.Spells spelling ∧
      ∀ {words : List String} {text : List Char}, Spaced words text →
        Spaced (spelling ++ words) (declaration.toList ++ text) := by
  have hfields : ∀ f ∈ s.fields, isPlainIdentifier f.name = true ∧ Gap (remark f.type) :=
    fun f hf => ⟨((carried_of_checkSupported h).2 f hf).1, hremarks f hf⟩
  have hname := (HwType.isTypeName_structName h s.id).isPlainIdentifier
  obtain ⟨spellings, hspellings, hlines⟩ := spaced_lineTexts (nameWidth s.fields) hfields 0
  refine ⟨_, ⟨hname, _, spellings, isHexadecimal_hexadecimalId s.id, hspellings, rfl⟩, ?_⟩
  intro words text hend
  have hend := ((hend.space (c := '\n') rfl).space (c := '\n') rfl).front "\x7d"
  have hbody := ((hlines hend).space (c := '\n') rfl).front "\x7b"
  have hid := ((hbody.space (c := ' ') rfl).front (hexadecimalId s.id)).front "@"
  have hstruct := (((hid.space (c := ' ') rfl).front s.name).space (c := ' ') rfl).front "struct"
  rw [declaration_eq h] at hd
  cases hd
  simpa [idText, source] using hstruct

theorem renders_declaration {declaration : String} (hd : s.declaration = .ok declaration) :
    s.ownSchema.Renders (idText ownSchemaId ++ ";\n" ++ declaration) := by
  obtain ⟨spelling, hspelling, hstruct⟩ := spaced_declaration h hremarks hd
  have hown := ((((hstruct (.nil .nil)).space (c := '\n') rfl).front ";").front
    (hexadecimalId ownSchemaId)).front "@"
  refine ⟨_, ⟨_, [spelling], isHexadecimal_hexadecimalId ownSchemaId, .cons hspelling .nil, rfl⟩,
    ?_⟩
  simpa [idText] using hown

/-- The schema of a message is read as the declared struct, unless two fields have the same name. -/
theorem compile_declaration_iff (hid : s.id ≠ ownSchemaId)
    (hfew : s.fields.length ≤ 2 ^ (64 : Nat)) {text : String} (hd : s.declaration = .ok text)
    (file : String) (c : CompiledSchema) :
    SchemaSource.compile file (idText ownSchemaId ++ ";\n" ++ text) = .ok c ↔
      (s.fields.map (·.name)).Nodup ∧ c = ⟨ownSchemaId, [s.source.compiled]⟩ := by
  have hfit : s.ownSchema.OrdinalsFit := List.forall_mem_singleton.mpr (ordinals_fit hfew)
  rw [SchemaSource.compile_renders (renders_declaration h hremarks hd) file c,
    legal_ownSchema_iff h hid, and_iff_left hfit]
  rfl

end Supported

theorem node_of_compiled {s : MessageSchema}
    (h : s.compiled = .ok ⟨ownSchemaId, [s.source.compiled]⟩) :
    s.node = .ok s.source.compiled := by
  have hfind : CompiledSchema.find? ⟨ownSchemaId, [s.source.compiled]⟩ s.id =
      some s.source.compiled := by
    rw [CompiledSchema.find?, List.find?_cons_of_pos]
    exact decide_eq_true rfl
  rw [node, h]
  simp only [Bind.bind, Except.bind, hfind]
  rfl

variable {t : HwType}

theorem fields_of_written (ht : t.Written) :
    ((of t).fields.map (·.name)).Nodup ∧ (of t).fields.length < 2 ^ (64 : Nat) ∧
      ∀ f ∈ (of t).fields, Gap (remark f.type) := by
  obtain ⟨bound, hbound, hwell⟩ := ht.wellNamed
  have hwell : (of t).type.WellNamed bound := hwell.unwrapped
  have hcanonical := hwell.canonical
  have hsingle : ∀ name, (([⟨name, (of t).type⟩] : List (Field HwType)).map (·.name)).Nodup ∧
      ([⟨name, (of t).type⟩] : List (Field HwType)).length < 2 ^ (64 : Nat) ∧
      ∀ f ∈ ([⟨name, (of t).type⟩] : List (Field HwType)), Gap (remark f.type) := by
    intro name
    refine ⟨by simp, by simp, ?_⟩
    rw [List.forall_mem_singleton]
    exact gap_remark hwell.inline
  unfold fields
  cases hc : (of t).type.canonical with
  | int | array => exact hsingle _
  | struct fields =>
    rw [hc] at hcanonical
    refine ⟨hcanonical.1, Nat.lt_of_le_of_lt hcanonical.2.1 hbound, fun f hf => ?_⟩
    exact gap_remark (HwType.fieldsWellNamed_iff.mp hcanonical.2.2 f hf).2.inline
  | named | channel => exact ⟨List.nodup_nil, by simp, by simp⟩

theorem compile_declaration (ht : t.Written) (h : (of t).checkSupported = .ok ())
    (hid : (of t).id ≠ ownSchemaId) {text : String} (hd : (of t).declaration = .ok text)
    (file : String) :
    SchemaSource.compile file (idText ownSchemaId ++ ";\n" ++ text) =
      .ok ⟨ownSchemaId, [(of t).source.compiled]⟩ := by
  obtain ⟨hdistinct, hfew, hremarks⟩ := fields_of_written ht
  exact (compile_declaration_iff h hremarks hid (Nat.le_of_lt hfew) hd file _).mpr ⟨hdistinct, rfl⟩

theorem compiled_eq (ht : t.Written) (h : (of t).checkSupported = .ok ())
    (hid : (of t).id ≠ ownSchemaId) :
    (of t).compiled = .ok ⟨ownSchemaId, [(of t).source.compiled]⟩ := by
  have hd := declaration_eq h
  have hcompile := compile_declaration ht h hid hd "schema.capnp"
  rw [compiled, hd]
  simp only [Bind.bind, Except.bind]
  rw [hcompile]
  rfl

theorem node_eq (ht : t.Written) (h : (of t).checkSupported = .ok ())
    (hid : (of t).id ≠ ownSchemaId) : (of t).node = .ok (of t).source.compiled :=
  node_of_compiled (compiled_eq ht h hid)

theorem getElem?_compiled (s : MessageSchema) (k : Nat) :
    ∃ offset, s.source.compiled.fields[k]? = s.fields[k]?.map fun f =>
      { name := f.name, codeOrder := k, ordinal := k, type := f.type.wire, offset } := by
  let offsets := (StructSource.placeAll {} s.source.byOrdinal).1
  refine ⟨(offsets.lookup k).getD 0, ?_⟩
  have hfields : s.source.compiled.fields = (fieldSources 0 s.fields).mapIdx fun codeOrder f =>
      { name := f.name, codeOrder, ordinal := f.ordinal, type := f.type
        offset := (offsets.lookup f.ordinal).getD 0 } := rfl
  rw [hfields, List.getElem?_mapIdx, getElem?_fieldSources, Nat.zero_add, Option.map_map]
  rfl

def mixedType : HwType :=
  .struct [⟨"a", .int .unsigned 5⟩, ⟨"l", .array 3 (.int .signed 12)⟩]

theorem written_mixedType : mixedType.Written :=
  ⟨"!hw.struct<a: ui5, l: !hw.array<3xsi12>>", by decide +kernel, by decide +kernel⟩

theorem checkSupported_mixedType : (of mixedType).checkSupported = .ok () := by
  decide +kernel

theorem id_mixedType : (of mixedType).id ≠ ownSchemaId := by
  decide +kernel

/-- The schema of a supported message is accepted by its own compiler, and holds exactly the
message struct: under its name and its identifier, with one field for each value, under its name,
in its place and with its wire type. -/
theorem compiles_to_own_struct (ht : t.Written) (h : (of t).checkSupported = .ok ())
    (hid : (of t).id ≠ ownSchemaId) :
    ∃ text node, (of t).declaration = .ok text ∧
      SchemaSource.compile "schema.capnp" (idText ownSchemaId ++ ";\n" ++ text) =
        .ok ⟨ownSchemaId, [node]⟩ ∧
      (of t).compiled = .ok ⟨ownSchemaId, [node]⟩ ∧ (of t).node = .ok node ∧
      node.name = (of t).name ∧ node.id = (of t).id ∧
      node.fields.length = (of t).fields.length ∧
      ∀ (k : Nat) (f : Field HwType), (of t).fields[k]? = some f → ∃ wire place,
        f.type.wireType = .ok wire ∧ node.fields[k]? = some place ∧ place.name = f.name ∧
        place.codeOrder = k ∧ place.ordinal = k ∧ place.type = wire := by
  have hd := declaration_eq h
  refine ⟨_, (of t).source.compiled, hd, compile_declaration ht h hid hd _,
    compiled_eq ht h hid, node_eq ht h hid, rfl, rfl, ?_, fun k f hf => ?_⟩
  · exact List.length_mapIdx.trans (length_fieldSources 0 _)
  · obtain ⟨_, _, wire, hwire⟩ := (carried_of_checkSupported h).2 f (List.mem_of_getElem? hf)
    obtain ⟨offset, hplace⟩ := getElem?_compiled (of t) k
    rw [hf, Option.map_some] at hplace
    exact ⟨wire, _, hwire.wireType, hplace, rfl, rfl, rfl, hwire.wire_eq⟩

theorem mixedType_compiles : ∃ node place, (of mixedType).node = .ok node ∧
    node.name = (of mixedType).name ∧ node.fields.length = 2 ∧ node.fields[1]? = some place ∧
      place.name = "l" ∧ place.ordinal = 1 ∧ place.type = .list (.int .w16) := by
  obtain ⟨_, node, _, _, _, hnode, hname, _, hlength, hfields⟩ :=
    compiles_to_own_struct written_mixedType checkSupported_mixedType id_mixedType
  obtain ⟨wire, place, hwire, hplace, hplaceName, _, hordinal, htype⟩ :=
    hfields 1 ⟨"l", .array 3 (.int .signed 12)⟩ rfl
  have hlist : wire = .list (.int .w16) := (Except.ok.inj hwire).symm
  exact ⟨node, place, hnode, hname, hlength, hplace, hplaceName, hordinal, htype.trans hlist⟩

end MessageSchema
end ChannelCodec
