import ChannelCodec.Proofs.Circuit.Guards
import Mathlib.Data.List.Forall2

/-! Whole circuits. A circuit starts with its ports alone, where every input means what it is
given; when its steps are done and its output is set, a run shows the meaning of the output and
the alarms. -/
namespace ChannelCodec

structure Builder.Starts (b : Builder) (e : Setting) (name : String) (ports : List Port) :
    Prop where
  sound : b.Sound e
  block : b.block = .body
  name_eq : b.circuit.name = name
  ports_eq : b.circuit.ports = ports
  input : ∀ (k : Nat) (port : Port) (x : Bits), (portsOf .input ports)[k]? = some port →
    e.inputs[k]? = some x → Holds e b k port.type x
  guards : ∀ block, b.circuit.guards block = []
  failures : ∀ block, b.circuit.failures e block = []

structure Builder.Ends (b : Builder) (e : Setting) (t : HwType) (y : Bits)
    (messages : List String) : Prop where
  sound : b.Sound e
  output : ∃ v, b.circuit.outputs = [v] ∧ Holds e b v t y
  alarms : b.circuit.body.flatMap (b.circuit.alarms e) = messages

theorem Builder.Starts.ends {b b' : Builder} {e : Setting} {name : String} {ports : List Port}
    {r v : Nat} {t : HwType} {y : Bits} (h : b.Starts e name ports) (hg : Grows e r [] b b')
    (hout : b'.circuit.outputs = [v]) (hv : Holds e b' v t y) : b'.Ends e t y [] := by
  refine ⟨hg.after, ⟨v, hout, hv⟩, ?_⟩
  have hguards : b'.circuit.guards .body = [] := (hg.guards .body).trans (h.guards .body)
  have hfailures : b'.circuit.failures e .body = [] :=
    (hg.failures_eq .body).trans (h.failures .body)
  exact (Circuit.flatMap_alarms_of_no_guards hguards).trans hfailures

namespace Circuit
variable {e : Setting} {name : String} {ports : List Port} {given : List (String × Bits)}

private theorem ofPorts_starts (name : String) (hnames : (ports.map (·.name)).Nodup)
    (hwidths : List.Forall₂ (fun port x => x.width = port.type.bitWidth) (portsOf .input ports)
      e.inputs) :
    ∃ c, ofPorts name ports = .ok c ∧ Builder.Starts { circuit := c } e name ports := by
  obtain ⟨c, hc⟩ : ∃ c, ofPorts name ports = .ok c := by
    rw [ofPorts, firstRepeated_eq_none.mpr hnames]
    exact ⟨_, rfl⟩
  obtain ⟨hname, hports, hoperations⟩ := ofPorts_eq hc
  have hwell : Builder.WellTyped noCircuits { circuit := c } :=
    ⟨wellTyped_ofPorts hc, by rintro _ ⟨⟩⟩
  have hsized : e.Sized noCircuits c := by
    refine ⟨?_, fun _ _ _ _ hknown => hknown.elim⟩
    rw [Circuit.inputPorts, hports]
    exact hwidths
  have hempty : ∀ block, c.operationsIn block = [] := fun block => by
    rw [operationsIn, hoperations]
    rfl
  refine ⟨c, hc, ⟨⟨hwell, hsized⟩, rfl, hname, hports, fun k port x hport hx => ?_,
    fun block => ?_, fun block => ?_⟩⟩
  · have hvalue : c.values.get? k =
        some { type := port.type, origin := .input k, name := some port.name } := by
      rw [get?_values_ofPorts hc, hport]
      rfl
    refine .of_sound ⟨hwell, hsized⟩ (type?_of_get? hvalue) ?_
    rw [meaning_input hvalue rfl, List.getD_eq_getElem?_getD, hx]
    rfl
  · rw [guards, hempty]
    rfl
  · rw [failures, hempty]
    rfl

theorem Straight.callees_eq_nil {c : Circuit} (h : c.Straight e) : c.callees = [] := by
  have hnone : ∀ o ∈ c.operations.values, ∀ callee name, o.kind ≠ .instantiate callee name := by
    intro o ho callee name hkind
    obtain ⟨i, hi⟩ := List.mem_iff_getElem?.mp ho
    rw [← Arena.get?_eq_values] at hi
    rcases h.operation i o hi with ⟨_, _, hcomp⟩ | hobs
    · obtain ⟨gate, _, hgate, _⟩ := hcomp.eval
      rw [hgate] at hkind
      cases hkind
    · rcases hobs.kind with hk | hk | ⟨message, hk⟩ <;> rw [hk] at hkind <;> cases hkind
  rw [callees, List.filterMap_eq_nil_iff.mpr]
  · rfl
  · intro o ho
    split
    next callee name hkind => exact absurd hkind (hnone o ho callee name)
    next => rfl

theorem inputValues_eq {inputs : List Bits} {ports : List Port}
    (h : List.Forall₂ (fun port x => given.lookup port.name = some x ∧
      x.width = port.type.bitWidth) ports inputs) :
    Simulation.inputValues given ports = .ok inputs := by
  induction h with
  | nil => rfl
  | cons hx _ ih =>
    simp only [Simulation.inputValues, hx.1, hx.2, if_true, ih]
    rfl

theorem runs_of_steps {steps : Build Unit} {port : Port} {messages : List String}
    {p : Circuit → Bits → Prop} (hnames : (ports.map (·.name)).Nodup)
    (hgiven : List.Forall₂ (fun port x => given.lookup port.name = some x ∧
      x.width = port.type.bitWidth) (portsOf .input ports) e.inputs)
    (hknown : ∀ q ∈ given, ∃ port ∈ portsOf .input ports, port.name = q.1)
    (hout : portsOf .output ports = [port])
    (hsteps : ∀ b : Builder, b.Starts e name ports → Succeeds steps b fun _ b' =>
      b.circuit.Extends b'.circuit ∧ ∃ y, b'.Ends e port.type y messages ∧ p b'.circuit y) :
    ∃ start c y, ofPorts name ports = .ok start ∧ start.build steps = .ok ((), c) ∧ p c y ∧
      c.name = name ∧ c.Drives [port] ∧ c.callees = [] ∧
      ∀ d : Design, d.find? c.name = some c → d.run c.name given =
        .ok ⟨[(port.name, y)], messages.map fun message => ⟨[c.name], message⟩⟩ := by
  obtain ⟨start, hstart, hstarts⟩ := ofPorts_starts name hnames
    (hgiven.imp fun _ _ h => h.2)
  obtain ⟨⟨⟩, b, hrun, hextends, y, hends, hp⟩ := hsteps _ hstarts
  obtain ⟨v, houtputs, hv⟩ := hends.output
  have hports : b.circuit.ports = ports := hextends.ports.trans hstarts.ports_eq
  have hinputPorts : b.circuit.inputPorts = portsOf .input ports := by
    rw [Circuit.inputPorts, hports]
  have houtputPorts : b.circuit.outputPorts = [port] := by
    rw [Circuit.outputPorts, hports, hout]
  have hbuild : start.build steps = .ok ((), b.circuit) := by
    unfold Circuit.build
    rw [EStateM.run, hrun]
  have hname : b.circuit.name = name := hextends.name.trans hstarts.name_eq
  have hdrives : b.circuit.Drives [port] :=
    ⟨houtputPorts, houtputs ▸ .cons hv.type .nil⟩
  have hcallees := hends.sound.straight.callees_eq_nil
  refine ⟨start, b.circuit, y, hstart, hbuild, hp, hname, hdrives, hcallees, fun d hd => ?_⟩
  have hin : Simulation.inputValues given b.circuit.inputPorts = .ok e.inputs := by
    rw [hinputPorts]
    exact inputValues_eq hgiven
  have hlt : ∀ w ∈ b.circuit.outputs, w < b.circuit.values.size := by
    rw [houtputs, List.forall_mem_singleton]
    exact hv.lt
  rw [hends.sound.straight.run hlt hd hin (hinputPorts ▸ hknown), houtputPorts, houtputs,
    hends.alarms]
  simp only [List.map_cons, List.map_nil, List.zip_cons_cons, List.zip_nil_left, hv.meaning]

end Circuit

namespace Build
variable {e : Setting} {r : Nat} {b : Builder} {v : Nat} {t : HwType} {x : Bits}

theorem input_eq {name : String} {k : Nat} (h : b.circuit.input? name = some k) :
    input name b = .ok k b :=
  expect_eq h (.unknownInput name) b

theorem output_builds (hb : b.Sound e) (hv : Holds e b v t x) {port : Port}
    (hports : b.circuit.outputPorts = [port]) (ht : port.type = t) :
    Builds e r [] (output [v]) b fun _ b' =>
      b'.circuit.outputs = [v] ∧ Holds e b' v t x := by
  have hlength : b.circuit.outputPorts.length = [v].length := by
    rw [hports]
    rfl
  have hdriven : b.circuit.Types [v] (b.circuit.outputPorts.map (·.type)) :=
    hports ▸ .cons (hv.type.trans (congrArg some ht.symm)) .nil
  have htypes : requireTypes .outputType (b.circuit.outputPorts.map Port.field) [v] b =
      .ok () b := by
    refine requireTypes_eq _ ?_
    rw [List.map_map]
    exact hdriven
  refine .look (m := circuit) (a := b.circuit) rfl ?_
  refine .look (require_eq hlength _ b) ?_
  refine .look htypes ?_
  let b' : Builder := { b with circuit := { b.circuit with outputs := [v] } }
  have hadds : b.Adds b' :=
    .of_operations ⟨rfl, rfl, fun _ x hx => ⟨x, hx, rfl, rfl⟩, fun _ _ ho => ho⟩
      (fun _ hb => hb.step (.output hdriven))
      rfl rfl
  have hg := hadds.grows hb r
  exact .of_eq rfl ⟨hg, rfl, hv.mono hg⟩

end Build
end ChannelCodec
