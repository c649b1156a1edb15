import ChannelCodec.Proofs.Gasket.Labels
import ChannelCodec.Proofs.HwType.Writing
import ChannelCodec.Proofs.Message.Admission

/-! The written form of encoders and decoders. The fields of a message may have any names, also
those of ports, of other fields with numbers behind them, or those that encoders and decoders give
themselves: in both circuits every value has a text of its own and comes from one place. -/
namespace ChannelCodec
namespace MessageSchema
variable {t : HwType} {c : Circuit}

theorem letter_of_field {s : MessageSchema} (h : s.checkSupported = .ok ()) :
    ∀ f ∈ s.fields, startsWith isAsciiLetter f.name = true := by
  intro f hf
  have hlower := ((carried_of_checkSupported h).2 f hf).2.1
  unfold startsWith at hlower ⊢
  cases hl : f.name.toList with
  | nil =>
    rw [hl] at hlower
    cases hlower
  | cons c rest =>
    rw [hl] at hlower
    exact Bool.or_eq_true_iff.mpr (.inl hlower)

private theorem letter_of_compiled {s : MessageSchema} (h : s.checkSupported = .ok ()) :
    ∀ f ∈ s.source.compiled.fields, startsWith isAsciiLetter f.name = true := by
  intro f hf
  obtain ⟨k, hk⟩ := List.mem_iff_getElem?.mp hf
  obtain ⟨offset, hcompiled⟩ := s.getElem?_compiled k
  rw [hcompiled] at hk
  obtain ⟨field, hfield, rfl⟩ := Option.map_eq_some_iff.mp hk
  exact letter_of_field h field (List.mem_of_getElem? hfield)

theorem unambiguous_of_converter (source target : Field HwType) {name : String}
    {steps : Build Unit} (hletter : startsWith isAsciiLetter source.name = true)
    (hkeeps : Keeps (portsOf .input (converterPorts source target)) steps fun _ => True)
    (hc : (do
      let circuit ← (Circuit.ofPorts name (converterPorts source target)).mapError Failure.misuse
      let ((), circuit) ← circuit.build steps
      return circuit) = .ok c) : c.Unambiguous := by
  have hletters : ∀ port ∈ portsOf .input (converterPorts source target),
      startsWith isAsciiLetter port.name = true := by
    rintro port (_ | ⟨_, _ | ⟨_, _ | ⟨_, ⟨⟩⟩⟩⟩)
    · exact (by decide : startsWith isAsciiLetter "clk" = true)
    · exact (by decide : startsWith isAsciiLetter "valid" = true)
    · exact hletter
  cases hstart : Circuit.ofPorts name (converterPorts source target) with
  | error mistake =>
    rw [hstart] at hc
    cases hc
  | ok start =>
    rw [hstart] at hc
    cases hbuild : start.build steps with
    | error failure =>
      simp only [Except.mapError, Bind.bind, Except.bind, hbuild] at hc
      cases hc
    | ok result =>
      obtain ⟨⟨⟩, c'⟩ := result
      simp only [Except.mapError, Bind.bind, Except.bind, hbuild] at hc
      cases hc
      exact hkeeps.unambiguous hstart hletters hbuild

private theorem encoder_unambiguous (ht : t.Written) (h : (of t).checkSupported = .ok ())
    (hid : (of t).id ≠ ownSchemaId) (hc : (of t).encoder = .ok c) : c.Unambiguous := by
  rw [encoder, bind_of_ok (prepared_eq ht h hid)] at hc
  have hletter : startsWith isAsciiLetter "unencodedInput" = true := rfl
  refine unambiguous_of_converter ⟨"unencodedInput", (of t).type⟩
    ⟨"encoded", .bitArray (of t).layout.size⟩ hletter ?_ hc
  have hletters : ∀ fields, (of t).type.struct? = some fields →
      ∀ f ∈ fields, startsWith isAsciiLetter f.name = true := by
    intro fields hfields
    rw [← fields_of_struct? hfields]
    exact letter_of_field h
  refine .read (Build.input_inspects _) fun operand => ?_
  refine (Encoder.fieldValues_keeps hletters operand).bind fun values _ => ?_
  refine (Encoder.encodeMessage_keeps _ _ values).bind fun encoded _ => ?_
  exact Build.output_keeps [encoded]

private theorem decoder_unambiguous (ht : t.Written) (h : (of t).checkSupported = .ok ())
    (hid : (of t).id ≠ ownSchemaId) (hc : (of t).decoder = .ok c) : c.Unambiguous := by
  rw [decoder, bind_of_ok (prepared_eq ht h hid)] at hc
  have hletter : startsWith isAsciiLetter "encodedInput" = true := rfl
  refine unambiguous_of_converter ⟨"encodedInput", .bitArray (of t).layout.size⟩
    ⟨"decoded", (of t).type⟩ hletter ?_ hc
  refine (Decoder.decodeMessage_keeps _ (letter_of_compiled h)).bind fun decoded _ => ?_
  exact Build.output_keeps [decoded]

/-- Whatever the fields of a supported type are called, the written forms of its encoder and of its
decoder leave no doubt about their values. -/
theorem converters_print_unambiguously (ht : t.Written) (h : (of t).checkSupported = .ok ())
    (hid : (of t).id ≠ ownSchemaId) : ∃ enc dec, (of t).encoder = .ok enc ∧
      (of t).decoder = .ok dec ∧ enc.Unambiguous ∧ dec.Unambiguous := by
  have haccepted := accepted_of_supported ht h hid
  obtain ⟨_, enc, -, henc, -⟩ := haccepted.encoder
  obtain ⟨dec, hdec, -⟩ := haccepted.decoder
  exact ⟨enc, dec, henc, hdec, encoder_unambiguous ht h hid henc, decoder_unambiguous ht h hid hdec⟩

/-- A struct with fields that are called like a port, like a port with a number behind it, and like
what encoders and decoders name themselves. -/
def echoType : HwType :=
  .struct [⟨"clk", .int .unsigned 8⟩, ⟨"clk0", .int .unsigned 8⟩,
    ⟨"structPointer", .array 2 (.int .unsigned 8)⟩]

private theorem legible_echoType : echoType.Legible := by
  have hnames : ∀ name ∈ ["clk", "clk0", "structPointer"], isTypeIdentifier name = true := by
    decide +kernel
  simpa [echoType, HwType.legible_struct, HwType.legible_int, HwType.legible_array] using hnames

theorem supported_echoType : echoType.Written ∧ (of echoType).checkSupported = .ok () ∧
    (of echoType).id ≠ ownSchemaId :=
  ⟨⟨echoType.text, by decide +kernel, legible_echoType.parse_text⟩, by decide +kernel,
    by decide +kernel⟩

theorem compiled_echoType : (of echoType).source.compiled = {
    name := (of echoType).name, id := (of echoType).id, dataWords := 1, pointers := 1
    fields := [⟨"clk", 0, 0, .uint .w8, 0⟩, ⟨"clk0", 1, 1, .uint .w8, 1⟩,
      ⟨"structPointer", 2, 2, .list (.uint .w8), 0⟩] } := by
  rw [StructSource.compiled, byOrdinal_source]
  rfl

private theorem size_layout_echoType : (of echoType).layout.size = 256 := by
  rw [layout, slots, compiled_echoType]
  rfl

private theorem texts_encoder_echoType : (of echoType).encoder.toOption.map (fun c =>
    [0, 3, 4].map c.valueText) = some ["%clk", "%clk0", "%clk00"] := by
  obtain ⟨hwritten, hsupported, hid⟩ := supported_echoType
  rw [encoder, bind_of_ok (prepared_eq hwritten hsupported hid), compiled_echoType,
    size_layout_echoType]
  decide +kernel

theorem echoType_prints_unambiguously : ∃ enc dec, (of echoType).encoder = .ok enc ∧
    (of echoType).decoder = .ok dec ∧ enc.Unambiguous ∧ dec.Unambiguous ∧
      [0, 3, 4].map enc.valueText = ["%clk", "%clk0", "%clk00"] := by
  obtain ⟨hwritten, hsupported, hid⟩ := supported_echoType
  obtain ⟨enc, dec, henc, hdec, hencoder, hdecoder⟩ :=
    converters_print_unambiguously hwritten hsupported hid
  have htexts := texts_encoder_echoType
  rw [henc] at htexts
  exact ⟨enc, dec, henc, hdec, hencoder, hdecoder, Option.some.inj htexts⟩

end MessageSchema
end ChannelCodec
