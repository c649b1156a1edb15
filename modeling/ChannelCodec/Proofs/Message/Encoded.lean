import ChannelCodec.Proofs.Gasket.Encoding
import ChannelCodec.Proofs.Message.Converting

/-! Running encoders. Whatever the clock and the valid signal are, a run gives the message that
carries the input, and no violation. -/
namespace ChannelCodec
namespace MessageSchema

variable {t : HwType} {clock valid x m : Bits}

/-- The vector is the message that carries `x`, as the circuits have it: the counts in the root
pointer are cut to the bits they have there. -/
structure Carries (s : MessageSchema) (m x : Bits) : Prop where
  width : m.width = s.layout.size
  shows_pieces : m.Shows (⟨0, Encoder.rootPointer s.layout⟩ :: fieldPieces s.layout.structEnd
    (s.layout.fields.zip (HwType.unpacked s.fields x)))

/-- The vector is what the encoder makes of `x`, whether the distances to the lists fit into their
pointers or not. -/
structure Packs (s : MessageSchema) (m x : Bits) : Prop where
  width : m.width = s.layout.size
  shows_packed : m.Shows (⟨0, Encoder.rootPointer s.layout⟩ :: packedFields s.layout.structEnd
    (s.layout.fields.zip (HwType.unpacked s.fields x)))

theorem Packs.unique {s : MessageSchema} {m m' : Bits} (h : s.Packs m x) (h' : s.Packs m' x) :
    m = m' :=
  h.shows_packed.unique h'.shows_packed (h.width.trans h'.width.symm)

def NearLists (r : MessageReport) : Prop :=
  ∀ p ∈ r.places, p.1.wireType.isPointer = true →
    wordsBetween p.1.messageOffset p.2 < 2 ^ (30 : Nat)

private theorem Packs.carries {s : MessageSchema} (hm : s.Packs m x) (hnear : NearLists s.layout) :
    s.Carries m x := by
  refine ⟨hm.width, ?_⟩
  rw [← packedFields_eq_fieldPieces]
  · exact hm.shows_packed
  · rw [MessageSchema.map_fst_zip_layout (HwType.length_unpacked _ _)]
    exact hnear

theorem encoder_runs (ht : t.Written) (h : (of t).checkSupported = .ok ())
    (hid : (of t).id ≠ ownSchemaId)
    (hclock : clock.width = 1) (hvalid : valid.width = 1)
    (hx : x.width = (of t).type.bitWidth) :
    ∃ c m, (of t).encoder = .ok c ∧
      c.Drives [⟨.output, "encoded", .bitArray (of t).layout.size⟩] ∧ c.callees = [] ∧
      (of t).Packs m x ∧
      ∀ d : Design, d.find? c.name = some c →
        d.run c.name [("clk", clock), ("valid", valid), ("unencodedInput", x)] =
          .ok ⟨[("encoded", m)], []⟩ := by
  let source : Field HwType := ⟨"unencodedInput", (of t).type⟩
  let target : Field HwType := ⟨"encoded", .bitArray (of t).layout.size⟩
  let steps : Build Unit := do
    let operand ← Build.input "unencodedInput"
    let values ← Encoder.fieldValues (of t).type operand
    let encoded ← Encoder.encodeMessage (of t).layout.size (of t).source.compiled values
    Build.output [encoded]
  have hsteps : ∀ b : Builder, b.Starts (converterSetting clock valid x) (of t).encoderName
      (converterPorts source target) → Succeeds steps b fun _ b' =>
        b.circuit.Extends b'.circuit ∧ ∃ m,
          b'.Ends (converterSetting clock valid x) target.type m [] ∧ (of t).Packs m x := by
    intro b hb
    obtain ⟨hinput, hv⟩ := hb.input_source ⟨by simp [source], by simp [source]⟩
    -- Encoders have no assertions, so any region may be named here.
    have hbuilds : Builds (converterSetting clock valid x) 0 [] steps b fun _ b' => ∃ v m,
        b'.circuit.outputs = [v] ∧ Holds (converterSetting clock valid x) b' v target.type m ∧
          (of t).Packs m x := by
      refine .look hinput ?_
      refine (Encoder.fieldValues_builds h (fields_of_written ht).1 hb.sound hv).bind
        ?_
      rintro vs b₁ hg₁ ⟨items, hvs, hon, htypes, hbits⟩
      subst hvs
      refine (Encoder.encodeMessage_builds h hg₁.after hon htypes).bind
        ?_
      rintro v b₂ hg₂ ⟨m, hm, hshows⟩
      rw [hbits] at hshows
      have hout := outputPorts_of_extends hb (hg₁.trans hg₂).circuit
      refine (Build.output_builds hg₂.after hm hout rfl).mono ?_
      rintro _ b₃ _ ⟨houtputs, hm⟩
      exact ⟨v, m, houtputs, hm, hm.width.trans (HwType.bitWidth_bitArray _), hshows⟩
    refine hbuilds.imp ?_
    rintro _ ⟨b', hrun, hg, v, m, hout, hm, hpacks⟩
    exact ⟨b', hrun, hg.circuit, m, hb.ends hg hout hm, hpacks⟩
  obtain ⟨start, c, m, hstart, hbuild, hpacks, _, hdrives, hcallees, hruns⟩ :=
    converter_runs (fun _ m => (of t).Packs m x) hclock hvalid hx
      (by simp [source, target]) hsteps
  refine ⟨c, m, ?_, hdrives, hcallees, hpacks, hruns⟩
  have hstart : (Circuit.ofPorts (of t).encoderName (converterPorts source target)).mapError
      Failure.misuse = .ok start := by
    rw [hstart]
    rfl
  rw [encoder]
  refine (bind_of_ok (prepared_eq ht h hid) _).trans ?_
  refine (bind_of_ok hstart _).trans ?_
  exact (bind_of_ok hbuild _).trans rfl

/-- There is one encoder for all values, and neither the clock nor the valid signal matters. -/
theorem encoder_packs (ht : t.Written) (h : (of t).checkSupported = .ok ())
    (hid : (of t).id ≠ ownSchemaId) :
    ∃ c, (of t).encoder = .ok c ∧ ∀ x : Bits, x.width = (of t).type.bitWidth →
      ∃ m, (of t).Packs m x ∧ ∀ clock valid : Bits, clock.width = 1 → valid.width = 1 →
        ∀ d : Design, d.find? c.name = some c →
          d.run c.name [("clk", clock), ("valid", valid), ("unencodedInput", x)] =
            .ok ⟨[("encoded", m)], []⟩ := by
  have hzero : (Bits.zero 1).width = 1 := rfl
  have hblank : (Bits.zero (of t).type.bitWidth).width = (of t).type.bitWidth := rfl
  obtain ⟨c, _, hc, _⟩ := encoder_runs ht h hid hzero hzero hblank
  refine ⟨c, hc, fun x hx => ?_⟩
  obtain ⟨_, m, _, _, _, hm, _⟩ := encoder_runs ht h hid hzero hzero hx
  refine ⟨m, hm, fun clock valid hclock hvalid => ?_⟩
  obtain ⟨c', m', hc', _, _, hm', hruns⟩ := encoder_runs ht h hid hclock hvalid hx
  cases hc.symm.trans hc'
  rw [hm.unique hm']
  exact hruns

theorem encoder_writes (ht : t.Written) (h : (of t).checkSupported = .ok ())
    (hid : (of t).id ≠ ownSchemaId) (hnear : NearLists (of t).layout) :
    ∃ c, (of t).encoder = .ok c ∧ ∀ x : Bits, x.width = (of t).type.bitWidth →
      ∃ m, (of t).Carries m x ∧ ∀ clock valid : Bits, clock.width = 1 → valid.width = 1 →
        ∀ d : Design, d.find? c.name = some c →
          d.run c.name [("clk", clock), ("valid", valid), ("unencodedInput", x)] =
            .ok ⟨[("encoded", m)], []⟩ := by
  obtain ⟨c, hc, hpacks⟩ := encoder_packs ht h hid
  refine ⟨c, hc, fun x hx => ?_⟩
  obtain ⟨m, hm, hruns⟩ := hpacks x hx
  exact ⟨m, hm.carries hnear, hruns⟩

/-- The encoder of a supported type writes for every value the message of the report, in which the
root pointer, the fields at their places and the lists behind the struct lie, and nothing else.
Neither the clock nor the valid signal matters, and there are no violations. -/
theorem encoder_writes_image (ht : t.Written) (h : (of t).checkSupported = .ok ())
    (hid : (of t).id ≠ ownSchemaId) :
    ∃ r, (of t).report = .ok r ∧ (of t).size = .ok r.size ∧
      (r.dataWords < 2 ^ (16 : Nat) → r.pointers < 2 ^ (16 : Nat) → NearLists r →
        ∃ c, (of t).encoder = .ok c ∧ ∀ x : Bits, x.width = (of t).type.bitWidth →
          ∃ m, m.width = r.size ∧ m.Shows (r.image (HwType.unpacked (of t).fields x)) ∧
            ∀ clock valid : Bits, clock.width = 1 → valid.width = 1 →
              ∀ d : Design, d.find? c.name = some c →
                d.run c.name [("clk", clock), ("valid", valid), ("unencodedInput", x)] =
                  .ok ⟨[("encoded", m)], []⟩) := by
  refine ⟨(of t).layout, report_eq ht h hid, size_eq ht h hid, fun hdata hpointers hnear => ?_⟩
  have hroot : Encoder.rootPointer (of t).layout = structPointer (of t).layout.rootOffset
      (of t).layout.dataWords (of t).layout.pointers := by
    rw [Encoder.rootPointer, Nat.mod_eq_of_lt hdata, Nat.mod_eq_of_lt hpointers]
  obtain ⟨c, hc, hwrites⟩ := encoder_writes ht h hid hnear
  refine ⟨c, hc, fun x hx => ?_⟩
  obtain ⟨m, hm, hruns⟩ := hwrites x hx
  refine ⟨m, hm.width, ?_, hruns⟩
  rw [MessageReport.image, ← hroot]
  exact hm.shows_pieces

theorem mixedType_encoder_writes : ∃ r c m, (of mixedType).report = .ok r ∧
    (of mixedType).encoder = .ok c ∧ m.width = 256 ∧
      m.Shows (r.image (HwType.unpacked (of mixedType).fields (.ofNat 41 0x1ABCDE))) ∧
        ({ circuits := [c] } : Design).run c.name [("clk", .ofBool true), ("valid", .ofBool false),
          ("unencodedInput", .ofNat 41 0x1ABCDE)] = .ok ⟨[("encoded", m)], []⟩ := by
  obtain ⟨r, hr, _, hwrites⟩ :=
    encoder_writes_image written_mixedType checkSupported_mixedType id_mixedType
  have hlayout := eq_of_report_mixedType hr
  rw [layout_mixedType] at hlayout
  subst hlayout
  obtain ⟨c, hc, hwrites⟩ := hwrites (by decide) (by decide) (by
    unfold NearLists
    decide)
  obtain ⟨m, hm, hshows, hruns⟩ := hwrites (.ofNat 41 0x1ABCDE) rfl
  refine ⟨_, c, m, hr, hc, hm, hshows, hruns _ _ rfl rfl _ ?_⟩
  simp [Design.find?]

end MessageSchema
end ChannelCodec
