import ChannelCodec.Proofs.Gasket.Framing
import ChannelCodec.Proofs.Message.Converting

/-! Running decoders. Whatever the message is, a run gives the value that the report finds in it;
it reports what the report complains of, if the clock rises and the message is valid. -/
namespace ChannelCodec

private theorem le_total_of_mem {width : Nat} {widths : List Nat} (h : width ∈ widths) :
    width ≤ total widths := by
  induction widths with
  | nil => cases h
  | cons first widths ih =>
    rw [total_cons]
    rcases List.mem_cons.mp h with rfl | h
    · exact Nat.le_add_right _ _
    · exact Nat.le_trans (ih h) (Nat.le_add_left _ _)

namespace MessageSchema

/-- The data section of a message, from a place of 64 bits on. -/
def dataSection (s : MessageSchema) (m : Bits) : Bits :=
  m.slice (dataStart % 2 ^ (64 : Nat)) (s.source.compiled.dataWords * 64)

def pointerSection (s : MessageSchema) (m : Bits) : Bits :=
  m.slice (pointerStart s.source.compiled % 2 ^ (64 : Nat)) (s.source.compiled.pointers * 64)

variable {s : MessageSchema} {m : Bits} {p : NodeField × Field HwType}

theorem fits_slot (h : s.checkSupported = .ok ()) (hm : m.width = s.layout.size)
    (hp : p ∈ s.slots) : Decoder.Fits s.source.compiled p.1 p.2.type m := by
  have hmem : p.1 ∈ s.source.compiled.fields := by
    rw [← s.map_fst_slots]
    exact List.mem_map_of_mem hp
  refine ⟨carried_slot h hp, fun hpos => bitOffset_add_le hmem hpos, ?_⟩
  have hwords : payloadWords p.1.type p.2.type ∈ s.layout.fields.map (·.payloadWords) := by
    rw [layout, List.map_map]
    exact List.mem_map.mpr ⟨p, hp, rfl⟩
  have hle := le_total_of_mem hwords
  rw [hm, size_layout]
  omega

private theorem section_eq_report (h : s.checkSupported = .ok ()) (hm : m.width = s.layout.size)
    (hp : p ∈ s.slots) (hsmall : s.layout.structEnd ≤ 2 ^ (64 : Nat)) :
    Decoder.sectionValue s.source.compiled p.1 p.2.type m (s.dataSection m) (s.pointerSection m) =
        (fieldReport s.source.compiled p.1 p.2).read m ∧
      Decoder.sectionComplaints p.1 p.2.type (s.pointerSection m) =
        (fieldReport s.source.compiled p.1 p.2).complaints m := by
  obtain ⟨f, hw⟩ := p
  have hfits := fits_slot h hm hp
  dsimp only at hfits ⊢
  have hslot := hfits.slot
  have hcarried := hfits.carried
  have hplace := messageOffset_fieldReport s.source.compiled f hw
  rw [structEnd_layout] at hsmall
  generalize hwire : f.type = wire at hslot hcarried hplace
  cases hcarried with
  | scalar hscalar =>
    have hnone : f.type.element? = none := hwire ▸ hscalar.element?_eq_none
    obtain ⟨_, hroom, _⟩ := hscalar.room
    rw [Decoder.sectionValue_of_scalar hnone, Decoder.sectionComplaints_of_scalar hnone,
      FieldReport.read_of_scalar hnone, FieldReport.complaints_of_scalar hnone]
    refine ⟨?_, rfl⟩
    by_cases hzero : hw.type.bitWidth = 0
    · exact Bits.eq_of_width_zero hzero hzero
    · have hslot := hslot (by omega)
      rw [hscalar.isPointer_eq_false, if_neg Bool.false_ne_true] at hslot
      have hoffset : f.bitOffset % 2 ^ (64 : Nat) = f.bitOffset := Nat.mod_eq_of_lt (by omega)
      rw [hoffset, dataSection, Bits.slice_slice _ (by omega)]
      rfl
  | @list element length item harray =>
    have helement : f.type.element? = some item := by rw [hwire, WireType.element?]
    have hslot := hslot (Nat.succ_pos 63)
    rw [WireType.isPointer, if_pos rfl, WireType.bits, WireType.elementSize, ElementSize.bits]
      at hslot
    rw [WireType.isPointer, if_pos rfl] at hplace
    -- Both sections end below `2 ^ 64`, so no place was cut.
    have hoffset : f.bitOffset % 2 ^ (64 : Nat) = f.bitOffset := Nat.mod_eq_of_lt (by omega)
    have hstart : pointerStart s.source.compiled % 2 ^ (64 : Nat) =
        pointerStart s.source.compiled := by
      rw [pointerStart, dataStart]
      exact Nat.mod_eq_of_lt (by omega)
    have hword : (s.pointerSection m).slice (f.bitOffset % 2 ^ (64 : Nat)) 64 =
        (fieldReport s.source.compiled f hw).word m := by
      rw [hoffset, pointerSection, Bits.slice_slice _ (by omega), hstart, FieldReport.word, hplace]
    rw [Decoder.sectionValue_of_list helement harray,
      Decoder.sectionComplaints_of_list helement harray, FieldReport.read_of_list helement harray,
      FieldReport.complaints_of_list helement harray, hword, hplace]
    exact ⟨rfl, rfl⟩

variable {t : HwType} {clock valid : Bits} {name : String} {target : Field HwType} {b : Builder}

def fieldComplaints (s : MessageSchema) (m : Bits) : List String :=
  s.slots.flatMap fun p => Decoder.sectionComplaints p.1 p.2.type (s.pointerSection m)

def sectionValues (s : MessageSchema) (m : Bits) : List Bits :=
  s.slots.map fun p => Decoder.sectionValue s.source.compiled p.1 p.2.type m (s.dataSection m)
    (s.pointerSection m)

/-- Once the region of the checks is open, a decoder fills it with them, in the order of the report,
and gives the values of the fields. -/
theorem decodeParts_builds {e : Setting} {c : Checks} {clock valid edge index : Nat}
    (h : s.checkSupported = .ok ()) (hb : b.Sound e) (hready : c.Ready b clock valid edge)
    (hblock : b.block = .body) (hm : (Slice.root index 2 s.layout.size).On e b .bit m) :
    Builds e c.region (s.layout.rootComplaints m ++ s.fieldComplaints m) (do
      Decoder.checkRoot c (.root index 2 s.layout.size) s.source.compiled
      let data ← Decoder.cutSection (.root index 2 s.layout.size) 64 s.source.compiled.dataWords
        "dataSection"
      let pointers ← Decoder.cutSection (.root index 2 s.layout.size)
        (64 + s.source.compiled.dataWords * 64) s.source.compiled.pointers "ptrSection"
      let values ← Decoder.decodeFields { checks := c, data, pointers } s s.source.compiled.fields
      match s.type.struct?, values with
      | some _, values => Build.structCreate s.type values
      | none, value :: _ => Build.cast value s.type
      | none, [] => Build.misuse .fieldCount) b fun v b' =>
        Holds e b' v s.type (.concat (s.sectionValues m)) ∧
          s.fields.length ≤ b'.circuit.values.size := by
  have hwidth : m.width = s.layout.size := by
    rw [hm.width, HwType.bitWidth_bit, Nat.one_mul]
    rfl
  have hstruct : 64 * (1 + s.source.compiled.dataWords + s.source.compiled.pointers) ≤
      s.layout.size := by
    rw [size_layout]
    exact Nat.mul_le_mul_left 64 (Nat.le_add_right _ _)
  refine Builds.andThen (Decoder.checkRoot_builds hb hready hblock hm ?_) fun _ b₁ hg₁ _ => ?_
  · rw [Slice.size]
    omega
  refine Builds.bind (Decoder.cutSection_builds hg₁.after (hm.mono hg₁) dataStart
    s.source.compiled.dataWords ?_ _) fun data b₂ hg₂ hdata => ?_
  · rw [Slice.size, dataStart]
    omega
  refine Builds.bind (Decoder.cutSection_builds hg₂.after (hm.mono (hg₁.trans hg₂))
    (pointerStart s.source.compiled) s.source.compiled.pointers ?_ _)
    fun pointers b₃ hg₃ hpointers => ?_
  · rw [Slice.size, pointerStart, dataStart]
    omega
  have hg₁₃ := hg₁.trans (hg₂.trans hg₃)
  have hframe := Decoder.sections_on (hready.mono hg₁₃) (hg₁₃.block.trans hblock)
    (hm.mono hg₁₃) rfl rfl (hdata.mono hg₃) hpointers
  rw [← map_fst_slots, ← List.append_nil (s.fieldComplaints m)]
  refine Builds.andThen (Decoder.decodeFields_builds hg₃.after hframe
    fun p hp => ⟨fieldOf_slot hp, fits_slot h hwidth hp⟩) ?_
  rintro vs b₄ hg₄ ⟨items, rfl, hitems, htypes, hbits, hlength⟩
  have htypes : items.map (·.type) = s.fields.map (·.type) := by
    rw [htypes, ← map_snd_slots, List.map_map]
    rfl
  have hvalues : s.sectionValues m = items.map (·.bits) := hbits.symm
  rw [hvalues]
  refine (Decoder.assemble_builds h hg₄.after hitems htypes).mono fun v b₅ hg₅ hv => ⟨hv, ?_⟩
  have hgrown := hg₅.size_le
  rw [length_slots] at hlength
  omega

/-- The steps of a decoder give the values of the fields; its checks are its only assertions. -/
theorem decodeMessage_succeeds (h : s.checkSupported = .ok ())
    (hb : b.Starts (converterSetting clock valid m) name
      (converterPorts ⟨"encodedInput", .bitArray s.layout.size⟩ target)) :
    Succeeds (Decoder.decodeMessage s s.source.compiled) b fun v b' =>
      ∃ (c : Checks) (edge : Nat), b.circuit.Extends b'.circuit ∧
        b'.Sound (converterSetting clock valid m) ∧
        c.Reports (converterSetting clock valid m) b' 0 1 edge
          (s.layout.rootComplaints m ++ s.fieldComplaints m) ∧
        Holds (converterSetting clock valid m) b' v s.type (.concat (s.sectionValues m)) ∧
        s.fields.length ≤ b'.circuit.values.size := by
  obtain ⟨hclk, hclock⟩ := hb.input_clock
  obtain ⟨hval, hvalid⟩ := hb.input_valid
  obtain ⟨hin, hm⟩ := hb.input_source ⟨by simp, by simp⟩
  unfold Decoder.decodeMessage
  refine .step hclk ?_
  refine .step hval ?_
  refine .step hin ?_
  refine Succeeds.bind (Build.rootSlice_builds (r := 0) hb.sound hm (HwType.array?_bitArray _)) ?_
  rintro _ b₁ ⟨hg₁, index, rfl⟩
  -- Opening a region is no growth: growth leaves the regions as they are.
  obtain ⟨c, b₂, edge, hunder, hsound₂, hblock₂, hx₂, hreports⟩ :=
    Checks.under_opens hg₁.after (hg₁.block.trans hb.block)
      (fun blk => (hg₁.guards blk).trans (hb.guards blk))
      (fun blk => (hg₁.failures_eq blk).trans (hb.failures blk)) (hclock.mono hg₁) (hvalid.mono hg₁)
  refine .step hunder ?_
  have hon : (Slice.root index 2 s.layout.size).On (converterSetting clock valid m) b₂ .bit m :=
    ⟨_, HwType.array?_bitArray _, (hm.mono hg₁).of_extends hg₁.after hx₂⟩
  refine Succeeds.mono (decodeParts_builds h hsound₂ hreports.ready hblock₂ hon) ?_
  rintro v b' ⟨hg, hv, hlength⟩
  exact ⟨c, edge, hg₁.circuit.trans (hx₂.trans hg.circuit), hg.after, hreports.grow hg, hv, hlength⟩

private theorem sections_eq_report (h : s.checkSupported = .ok ()) (hm : m.width = s.layout.size)
    (hsmall : s.layout.structEnd ≤ 2 ^ (64 : Nat)) :
    .concat (s.sectionValues m) = s.layout.read m ∧
      s.layout.rootComplaints m ++ s.fieldComplaints m = s.layout.complaints m := by
  have hfields : s.layout.fields = s.slots.map fun p => fieldReport s.source.compiled p.1 p.2 := rfl
  constructor
  · rw [MessageReport.read, hfields, List.map_map, sectionValues]
    exact congrArg Bits.concat
      (List.map_congr_left fun p hp => (section_eq_report h hm hp hsmall).1)
  · rw [MessageReport.complaints, hfields, List.flatMap_map, fieldComplaints]
    exact congrArg (s.layout.rootComplaints m ++ ·)
      (List.flatMap_congr fun p hp => (section_eq_report h hm hp hsmall).2)

theorem decoder_runs (ht : t.Written) (h : (of t).checkSupported = .ok ())
    (hid : (of t).id ≠ ownSchemaId) (hclock : clock.width = 1) (hvalid : valid.width = 1)
    (hm : m.width = (of t).layout.size) :
    ∃ c, (of t).decoder = .ok c ∧ c.Drives [⟨.output, "decoded", (of t).type⟩] ∧
      c.callees = [] ∧ (of t).fields.length ≤ c.values.size ∧
      ((of t).layout.structEnd ≤ 2 ^ (64 : Nat) → ∀ d : Design, d.find? c.name = some c →
        d.run c.name [("clk", clock), ("valid", valid), ("encodedInput", m)] =
          .ok ⟨[("decoded", (of t).layout.read m)],
            (if clock.bit 0 && valid.bit 0 then (of t).layout.complaints m else []).map
              fun message => ⟨[c.name], message⟩⟩) := by
  let source : Field HwType := ⟨"encodedInput", .bitArray (of t).layout.size⟩
  let target : Field HwType := ⟨"decoded", (of t).type⟩
  let setting := converterSetting clock valid m
  let value : Bits := .concat ((of t).sectionValues m)
  let messages := if clock.bit 0 && valid.bit 0 then
    (of t).layout.rootComplaints m ++ (of t).fieldComplaints m else []
  let steps : Build Unit := do
    let decoded ← Decoder.decodeMessage (of t) (of t).source.compiled
    Build.output [decoded]
  have hsteps : ∀ b : Builder, b.Starts setting (of t).decoderName (converterPorts source target) →
      Succeeds steps b fun _ b' => b.circuit.Extends b'.circuit ∧ ∃ y,
        b'.Ends setting target.type y messages ∧
          y = value ∧ (of t).fields.length ≤ b'.circuit.values.size := by
    intro b hb
    refine (decodeMessage_succeeds h hb).bind
      ?_
    rintro v b₁ ⟨c, edge, hx, hsound, hreports, hv, hlength⟩
    refine Succeeds.mono (Build.output_builds (r := c.region) hsound hv
      (outputPorts_of_extends hb hx) rfl) ?_
    rintro _ b₂ ⟨hg, hout, hv₂⟩
    have hx₂ := hx.trans hg.circuit
    have halarms := (hreports.grow hg).alarms hg.after
      (hb.input_clock.2.of_extends hb.sound hx₂) (hb.input_valid.2.of_extends hb.sound hx₂)
    rw [List.append_nil] at halarms
    exact ⟨hx₂, value, ⟨hg.after, ⟨v, hout, hv₂⟩, halarms⟩, rfl,
      Nat.le_trans hlength hg.size_le⟩
  obtain ⟨start, c, y, hstart, hbuild, ⟨hy, hlength⟩, _, hdrives, hcallees, hruns⟩ :=
    converter_runs (fun c y => y = value ∧ (of t).fields.length ≤ c.values.size) hclock hvalid
      (hm.trans (HwType.bitWidth_bitArray _).symm) (by simp [source, target]) hsteps
  refine ⟨c, ?_, hdrives, hcallees, hlength, fun hsmall d hd => ?_⟩
  · have hstart : (Circuit.ofPorts (of t).decoderName (converterPorts source target)).mapError
        Failure.misuse = .ok start := by
      rw [hstart]
      rfl
    rw [decoder]
    refine (bind_of_ok (prepared_eq ht h hid) _).trans ?_
    refine (bind_of_ok hstart _).trans ?_
    exact (bind_of_ok hbuild _).trans rfl
  · obtain ⟨hread, hcomplaints⟩ := sections_eq_report h hm hsmall
    rw [← hcomplaints, ← hy.trans hread]
    exact hruns d hd

private theorem structEnd_le (s : MessageSchema) (h : s.fields.length ≤ 2 ^ (32 : Nat)) :
    s.layout.structEnd ≤ 2 ^ (64 : Nat) := by
  have hwords := (s.coverage_slots 0).1
  rw [structEnd_layout]
  omega

theorem decoder_reads (ht : t.Written) (h : (of t).checkSupported = .ok ())
    (hid : (of t).id ≠ ownSchemaId) :
    ∃ c, (of t).decoder = .ok c ∧ (of t).fields.length ≤ c.values.size ∧
      ((of t).layout.structEnd ≤ 2 ^ (64 : Nat) → ∀ clock valid m : Bits, clock.width = 1 →
        valid.width = 1 → m.width = (of t).layout.size → ∀ d : Design, d.find? c.name = some c →
          d.run c.name [("clk", clock), ("valid", valid), ("encodedInput", m)] =
            .ok ⟨[("decoded", (of t).layout.read m)],
              (if clock.bit 0 && valid.bit 0 then (of t).layout.complaints m else []).map
                fun message => ⟨[c.name], message⟩⟩) := by
  have hzero : (Bits.zero 1).width = 1 := rfl
  have hblank : (Bits.zero (of t).layout.size).width = (of t).layout.size := rfl
  obtain ⟨c, hc, _, _, hlength, _⟩ := decoder_runs ht h hid hzero hzero hblank
  refine ⟨c, hc, hlength, fun hsmall clock valid m hclock hvalid hm => ?_⟩
  obtain ⟨c', hc', _, _, _, hruns⟩ := decoder_runs ht h hid hclock hvalid hm
  cases hc.symm.trans hc'
  exact hruns hsmall

/-- The decoder of a supported type reads every message of its size, whoever has written it. The
value is what the report finds at the places of the fields, whether it is asked for or not; the
violations are the complaints of the report, in their order, if the clock rises while the message
is valid. -/
theorem decoder_reads_every_message (ht : t.Written) (h : (of t).checkSupported = .ok ())
    (hid : (of t).id ≠ ownSchemaId) :
    ∃ r c, (of t).report = .ok r ∧ (of t).size = .ok r.size ∧ (of t).decoder = .ok c ∧
      (c.values.size ≤ 2 ^ (32 : Nat) → ∀ clock valid m : Bits, clock.width = 1 →
        valid.width = 1 → m.width = r.size → ∀ d : Design, d.find? c.name = some c →
          d.run c.name [("clk", clock), ("valid", valid), ("encodedInput", m)] =
            .ok ⟨[("decoded", r.read m)],
              (if clock.bit 0 && valid.bit 0 then r.complaints m else []).map
                fun message => ⟨[c.name], message⟩⟩) := by
  obtain ⟨c, hc, hlength, hruns⟩ := decoder_reads ht h hid
  exact ⟨(of t).layout, c, report_eq ht h hid, size_eq ht h hid, hc,
    fun hsize => hruns (structEnd_le _ (Nat.le_trans hlength hsize))⟩

private theorem decoder_mixedType :
    (of mixedType).decoder.toOption.map (·.values.size) = some 74 := by
  rw [decoder, bind_of_ok (prepared_eq written_mixedType checkSupported_mixedType id_mixedType),
    compiled_mixedType, layout_mixedType]
  decide +kernel

theorem mixedType_decoder_reads : ∃ c, (of mixedType).decoder = .ok c ∧
    ({ circuits := [c] } : Design).run c.name [("clk", .ofBool true), ("valid", .ofBool true),
      ("encodedInput", .zero 256)] = .ok ⟨[("decoded", .zero 41)],
        ["dataSectionSize eq 1", "ptrSectionSize eq 1", "l: list pointer tag eq 1",
          "l: element size eq 3"].map fun message => ⟨[c.name], message⟩⟩ := by
  obtain ⟨r, c, hr, _, hc, hreads⟩ :=
    decoder_reads_every_message written_mixedType checkSupported_mixedType id_mixedType
  have hlayout := eq_of_report_mixedType hr
  rw [layout_mixedType] at hlayout
  have hvalues : c.values.size = 74 := by
    have hdecoder := decoder_mixedType
    rw [hc] at hdecoder
    exact Option.some.inj hdecoder
  have hsize : c.values.size ≤ 2 ^ (32 : Nat) := by
    rw [hvalues]
    decide
  have hwidth : (Bits.zero 256).width = r.size := by rw [hlayout]; rfl
  have hread : r.read (.zero 256) = .zero 41 := by
    rw [hlayout]
    decide +kernel
  have hcomplaints : r.complaints (.zero 256) = ["dataSectionSize eq 1", "ptrSectionSize eq 1",
      "l: list pointer tag eq 1", "l: element size eq 3"] := by
    rw [hlayout]
    decide +kernel
  refine ⟨c, hc, ?_⟩
  rw [← hread, ← hcomplaints]
  refine hreads hsize (.ofBool true) (.ofBool true) (.zero 256) rfl rfl hwidth _ ?_
  simp [Design.find?]

end MessageSchema
end ChannelCodec
