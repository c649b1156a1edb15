import ChannelCodec.Proofs.Circuit.Whole
import ChannelCodec.Proofs.Design.Visits

/-! Runs of designs. On inputs that fit, a run shows the reference values of the outputs and records
every assertion that does not hold, in every instance that is visited; and no instance is visited
twice. -/
namespace ChannelCodec.Design

open Simulation

def notedRun (d : Design) (note : Note) (name : String) (given : List (String × Bits)) :
    Except Failure Run := do
  let some c := d.find? name
    | throw (.report (.malformedStructure s!"No module named `{name}'"))
  let inputs ← (inputValues given c.inputPorts).mapError .report
  if let some (extra, _) := given.find? fun (n, _) => !c.inputPorts.any (·.name = n) then
    throw (.report (.malformedStructure s!"Module `{name}' has no input `{extra}'"))
  let (results, violations) ← notedOutputs d note d.circuits.length c [name] inputs #[]
  return { outputs := (c.outputPorts.map (·.name)).zip results, violations := violations.toList }

variable {d : Design} {name : String} {c : Circuit} {given : List (String × Bits)}
variable {inputs : List Bits}

theorem notedRun_nothing (d : Design) : d.notedRun (fun _ _ _ => []) = d.run := by
  funext name given
  unfold notedRun
  rw [notedOutputs_nothing]
  rfl

namespace WellBuilt

theorem fit_of_given (h : List.Forall₂ (fun port x => given.lookup port.name = some x ∧
    x.width = port.type.bitWidth) c.inputPorts inputs) : Fit c.inputPorts inputs :=
  h.imp fun _ _ hx => hx.2

theorem notedRun_visits (hd : d.WellBuilt) (hc : d.find? name = some c)
    (hgiven : List.Forall₂ (fun port x => given.lookup port.name = some x ∧
      x.width = port.type.bitWidth) c.inputPorts inputs)
    (hnames : ∀ p ∈ given, ∃ port ∈ c.inputPorts, port.name = p.1) (note : Note) :
    ∃ r, d.notedRun note name given = .ok r ∧
      r.outputs = (c.outputPorts.map (·.name)).zip (d.reference name inputs) ∧
      r.violations.Perm
        ((d.visits d.circuits.length ⟨[name], c, inputs⟩).flatMap (Visit.traces d note)) := by
  have hname := name_of_find? hc
  have hgood : Visit.Good d ⟨[name], c, inputs⟩ := ⟨hname.symm ▸ hc, fit_of_given hgiven⟩
  have hrank : d.rank c.name < d.circuits.length := hname.symm ▸ hd.rank_lt hc
  obtain ⟨violations, hrun, hperm⟩ := hd.notedOutputs_visits note hgood hrank #[]
  rw [hname] at hrun
  have hinputs : (inputValues given c.inputPorts).mapError Failure.report = .ok inputs := by
    rw [Circuit.inputValues_eq hgiven]
    rfl
  have hextra := find?_extra_eq_none.mpr hnames
  refine ⟨⟨(c.outputPorts.map (·.name)).zip (d.reference name inputs), violations.toList⟩, ?_,
    rfl, hperm⟩
  unfold notedRun
  simp only [hc]
  refine (bind_of_ok hinputs _).trans ?_
  simp only [hextra]
  exact bind_of_ok hrun _

/-- The simulator computes what the circuits of a design mean. Every output has its reference
value; and there is one visit for every instance that is reached, which leaves one record for each
assertion that does not hold in regions that all run, and the notes of an observer once. -/
theorem run_refines (hd : d.WellBuilt) (hc : d.find? name = some c)
    (hgiven : List.Forall₂ (fun port x => given.lookup port.name = some x ∧
      x.width = port.type.bitWidth) c.inputPorts inputs)
    (hnames : ∀ p ∈ given, ∃ port ∈ c.inputPorts, port.name = p.1) :
    d.Refers d.reference ∧ ∃ r, ∃ visits : List Visit, d.run name given = .ok r ∧
      c.outputs.length = c.outputPorts.length ∧
      r.outputs = (c.outputPorts.map (·.name)).zip
        (c.outputs.map (c.meaning { inputs, callee := d.reference })) ∧
      (visits.map Visit.path).Nodup ∧
      (∀ visit, visit ∈ visits ↔ d.Visits ⟨[name], c, inputs⟩ visit) ∧
      r.violations.Perm (visits.flatMap (Visit.failures d)) ∧
      ∀ note : Note, ∃ r', d.notedRun note name given = .ok r' ∧ r'.outputs = r.outputs ∧
        r'.violations.Perm (visits.flatMap fun visit =>
          visit.failures d ++ note visit.path visit.circuit (visit.known d)) := by
  have hname := name_of_find? hc
  have hgood : Visit.Good d ⟨[name], c, inputs⟩ := ⟨hname.symm ▸ hc, fit_of_given hgiven⟩
  have hrank : d.rank c.name < d.circuits.length := hname.symm ▸ hd.rank_lt hc
  obtain ⟨r, hrun, houtputs, hviolations⟩ :=
    hd.notedRun_visits hc hgiven hnames fun _ _ _ => []
  rw [notedRun_nothing] at hrun
  have htraces : (Visit.traces d fun _ _ _ => []) = Visit.failures d := by
    funext visit
    unfold Visit.traces
    rw [List.append_nil]
  rw [htraces] at hviolations
  refine ⟨hd.refers, r, d.visits d.circuits.length ⟨[name], c, inputs⟩, hrun,
    (hd.drives hc).outputs.length_eq, ?_, hd.nodup_paths hgood _,
    fun visit => hd.mem_visits hgood hrank, hviolations, fun note => ?_⟩
  · rw [houtputs, hd.reference_eq hc]
    rfl
  · obtain ⟨r', hrun', houtputs', hviolations'⟩ := hd.notedRun_visits hc hgiven hnames note
    exact ⟨r', hrun', houtputs'.trans houtputs.symm, hviolations'⟩

end WellBuilt

def lowOnEdge : List (String × Bits) := [("clk", .ofBool true), ("ok", .ofBool false)]

theorem given_lowOnEdge : List.Forall₂ (fun port x => lowOnEdge.lookup port.name = some x ∧
    x.width = port.type.bitWidth) monitor.inputPorts [.ofBool true, .ofBool false] :=
  .cons ⟨rfl, rfl⟩ (.cons ⟨rfl, rfl⟩ .nil)

theorem names_lowOnEdge : ∀ p ∈ lowOnEdge, ∃ port ∈ monitor.inputPorts, port.name = p.1 :=
  find?_extra_eq_none.mp rfl

theorem monitored_run_refines : ∃ r, ∃ visits : List Visit,
    monitored.run "Monitor" lowOnEdge = .ok r ∧ (visits.map Visit.path).Nodup ∧
      (∀ visit, visit ∈ visits ↔ monitored.Visits
        ⟨["Monitor"], monitor, [.ofBool true, .ofBool false]⟩ visit) ∧
      r.violations.Perm (visits.flatMap (Visit.failures monitored)) := by
  have hfind : monitored.find? "Monitor" = some monitor := rfl
  obtain ⟨-, r, visits, hrun, -, -, hpaths, hvisits, hviolations, -⟩ :=
    wellBuilt_monitored.run_refines hfind given_lowOnEdge names_lowOnEdge
  exact ⟨r, visits, hrun, hpaths, hvisits, hviolations⟩

end ChannelCodec.Design
