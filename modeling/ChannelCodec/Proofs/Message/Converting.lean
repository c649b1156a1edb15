import ChannelCodec.Proofs.Circuit.Whole
import ChannelCodec.Proofs.Message.Layout

/-! What encoders and decoders have in common. Both have a clock, a signal that tells when the
input is valid, one input besides and one output. -/
namespace ChannelCodec

def converterPorts (source target : Field HwType) : List Port :=
  [⟨.input, "clk", .bit⟩, ⟨.input, "valid", .bit⟩, ⟨.input, source.name, source.type⟩,
    ⟨.output, target.name, target.type⟩]

variable {clock valid x : Bits} {name : String} {source target : Field HwType} {b : Builder}

def converterSetting (clock valid x : Bits) : Setting := { inputs := [clock, valid, x] }

theorem Builder.Starts.input_clock
    (h : b.Starts (converterSetting clock valid x) name (converterPorts source target)) :
    Build.input "clk" b = .ok 0 b ∧ Holds (converterSetting clock valid x) b 0 .bit clock := by
  refine ⟨Build.input_eq ?_, h.input 0 _ clock rfl rfl⟩
  rw [Circuit.input?, Circuit.inputPorts, h.ports_eq]
  rfl

theorem Builder.Starts.input_valid
    (h : b.Starts (converterSetting clock valid x) name (converterPorts source target)) :
    Build.input "valid" b = .ok 1 b ∧ Holds (converterSetting clock valid x) b 1 .bit valid := by
  refine ⟨Build.input_eq ?_, h.input 1 _ valid rfl rfl⟩
  rw [Circuit.input?, Circuit.inputPorts, h.ports_eq]
  rfl

theorem Builder.Starts.input_source
    (h : b.Starts (converterSetting clock valid x) name (converterPorts source target))
    (hnames : source.name ≠ "clk" ∧ source.name ≠ "valid") :
    Build.input source.name b = .ok 2 b ∧
      Holds (converterSetting clock valid x) b 2 source.type x := by
  refine ⟨Build.input_eq ?_, h.input 2 _ x rfl rfl⟩
  have hports : portsOf .input (converterPorts source target) =
    [⟨.input, "clk", .bit⟩, ⟨.input, "valid", .bit⟩, ⟨.input, source.name, source.type⟩] := rfl
  rw [Circuit.input?, Circuit.inputPorts, h.ports_eq, hports]
  simp [List.findIdx?_cons, hnames.1.symm, hnames.2.symm]

theorem outputPorts_of_extends {b b' : Builder}
    (hb : b.Starts (converterSetting clock valid x) name (converterPorts source target))
    (h : b.circuit.Extends b'.circuit) :
    b'.circuit.outputPorts = [⟨.output, target.name, target.type⟩] := by
  rw [h.outputPorts, Circuit.outputPorts, hb.ports_eq]
  rfl

theorem converter_runs {steps : Build Unit} {messages : List String} (p : Circuit → Bits → Prop)
    (hclock : clock.width = 1) (hvalid : valid.width = 1) (hx : x.width = source.type.bitWidth)
    (hnames : ["clk", "valid", source.name, target.name].Nodup)
    (hsteps : ∀ b : Builder,
      b.Starts (converterSetting clock valid x) name (converterPorts source target) →
        Succeeds steps b fun _ b' => b.circuit.Extends b'.circuit ∧
          ∃ y, b'.Ends (converterSetting clock valid x) target.type y messages ∧ p b'.circuit y) :
    ∃ start c y, Circuit.ofPorts name (converterPorts source target) = .ok start ∧
      start.build steps = .ok ((), c) ∧ p c y ∧ c.name = name ∧
      c.Drives [⟨.output, target.name, target.type⟩] ∧ c.callees = [] ∧
      ∀ d : Design, d.find? c.name = some c →
        d.run c.name [("clk", clock), ("valid", valid), (source.name, x)] =
          .ok ⟨[(target.name, y)], messages.map fun message => ⟨[c.name], message⟩⟩ := by
  have hsource : source.name ≠ "clk" ∧ source.name ≠ "valid" := by
    simp only [List.nodup_cons, List.mem_cons, not_or] at hnames
    exact ⟨fun h => hnames.1.2.1 h.symm, fun h => hnames.2.1.1 h.symm⟩
  have hgiven : List.Forall₂ (fun port y =>
      [("clk", clock), ("valid", valid), (source.name, x)].lookup port.name = some y ∧
        y.width = port.type.bitWidth) (portsOf .input (converterPorts source target))
      (converterSetting clock valid x).inputs := by
    have hclk : (source.name == "clk") = false := beq_false_of_ne hsource.1
    have hval : (source.name == "valid") = false := beq_false_of_ne hsource.2
    refine .cons ⟨rfl, hclock⟩ (.cons ⟨rfl, hvalid⟩ (.cons ⟨?_, hx⟩ .nil))
    simp only [List.lookup_cons, hclk, hval, BEq.rfl]
  have hknown : ∀ q ∈ [("clk", clock), ("valid", valid), (source.name, x)],
      ∃ port ∈ portsOf .input (converterPorts source target), port.name = q.1 := by
    rintro _ (_ | ⟨_, _ | ⟨_, _ | ⟨_, ⟨⟩⟩⟩⟩)
    · exact ⟨_, List.mem_cons_self, rfl⟩
    · exact ⟨_, List.mem_cons_of_mem _ List.mem_cons_self, rfl⟩
    · exact ⟨_, List.mem_cons_of_mem _ (List.mem_cons_of_mem _ List.mem_cons_self), rfl⟩
  have hout : portsOf .output (converterPorts source target) =
    [⟨.output, target.name, target.type⟩] := rfl
  have hdistinct : ((converterPorts source target).map (·.name)).Nodup := hnames
  exact Circuit.runs_of_steps hdistinct hgiven hknown hout hsteps

namespace MessageSchema

theorem prepared_eq {t : HwType} (ht : t.Written) (h : (of t).checkSupported = .ok ())
    (hid : (of t).id ≠ ownSchemaId) :
    (Except.mapError Failure.report do
      (of t).checkSupported
      let node ← (of t).node
      return (node, (of t).sizeWith node)) =
        .ok ((of t).source.compiled, (of t).layout.size) := by
  rw [h, node_eq ht h hid]
  rfl

end MessageSchema
end ChannelCodec
