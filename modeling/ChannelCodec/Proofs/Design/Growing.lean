import ChannelCodec.Proofs.Circuit.Growing
import ChannelCodec.Proofs.Design.Soundness

/-! Runs of circuits that have grown. What is found out about values while a circuit is built is
true of the values in every run of a design that has the finished circuit. -/
namespace ChannelCodec

/-- In every run of a well-built design, `p` holds of the values of a circuit that `c` has grown
into. The values of the inputs are what is given, and those of the outputs are what is shown. -/
def Circuit.InRuns (c : Circuit) (p : (Nat → Bits) → Prop) : Prop :=
  ∀ (d : Design) name c' given inputs, d.WellBuilt → d.find? name = some c' → c.Extends c' →
    List.Forall₂ (fun port x => given.lookup port.name = some x ∧ x.width = port.type.bitWidth)
      c'.inputPorts inputs →
    (∀ p ∈ given, ∃ port ∈ c'.inputPorts, port.name = p.1) →
    ∃ r, d.run name given = .ok r ∧
      r.outputs = (c'.outputPorts.map (·.name)).zip
        (c'.outputs.map (c'.meaning (d.setting inputs))) ∧
      (List.range inputs.length).map (c'.meaning (d.setting inputs)) = inputs ∧
      p (c'.meaning (d.setting inputs))

theorem Circuit.Henceforth.inRuns {c : Circuit} {p : (Nat → Bits) → Prop}
    (h : c.Henceforth fun c e => p (c.meaning e)) : c.InRuns p := by
  intro d name c' given inputs hd hc hx hgiven hnames
  obtain ⟨r, hrun, houtputs, -⟩ := hd.run_outputs hc hgiven hnames
  have hsized := hd.sized hc (hgiven.imp fun _ _ hx => hx.2)
  have hinputs := (hd.wellTyped hc).map_meaning_inputs hsized
  rw [hgiven.length_eq] at hinputs
  rw [hd.reference_eq hc] at houtputs
  exact ⟨r, hrun, houtputs, hinputs, h d.Has c' _ hx (hd.wellTyped hc) hsized⟩

end ChannelCodec
