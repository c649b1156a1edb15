import ChannelCodec.Proofs.Circuit.Sizes
import Mathlib.Data.Finset.Card
import Mathlib.Logic.Relation

/-! Reference values of a design. Where no circuit has an instance of itself, directly or through
others, the outputs of every circuit can be found by recursion, without a simulator: inputs are
their arguments, results are what operations make of operands, and the results of an instance are
the outputs of its circuit. -/
namespace ChannelCodec

namespace Circuit
variable {c : Circuit} {e e' : Setting}

private theorem meaning_congr (hinputs : e.inputs = e'.inputs)
    (hcallee : ∀ callee ∈ c.callees, e.callee callee = e'.callee callee) (v : Nat) :
    c.meaning e v = c.meaning e' v := by
  induction v using Nat.strongRecOn with
  | ind v ih =>
    rw [meaning, meaning]
    cases c.values.get? v with
    | none => rfl
    | some x =>
      cases horigin : x.origin with
      | input n => simp only [horigin, hinputs]
      | result i n =>
        simp only [horigin]
        cases ho : c.operations.get? i with
        | none => rfl
        | some o =>
          have hoperands : (o.operands.map fun w =>
              if _h : w < v then c.meaning e w else .zero 0) =
              o.operands.map fun w => if _h : w < v then c.meaning e' w else .zero 0 := by
            apply List.map_congr_left
            intro w _
            by_cases h : w < v
            · rw [dif_pos h, dif_pos h, ih w h]
            · rw [dif_neg h, dif_neg h]
          simp only [hoperands]
          unfold resultOf
          cases hk : o.kind with
          | instantiate callee name =>
            simp only [hcallee callee (mem_callees.mpr ⟨i, o, name, ho, hk⟩)]
          | compute | always | branch | assertion => rfl

end Circuit

namespace Design

def Has (d : Design) (name : String) (ports : List Port) : Prop :=
  ∃ c, d.find? name = some c ∧ c.ports = ports

def Calls (d : Design) (a b : String) : Prop := ∃ c, d.find? a = some c ∧ b ∈ c.callees

/-- Every circuit is built by calls that set its outputs and make instances only of circuits that
the design has, with the ports they have there; and no circuit has an instance of itself, directly
or through others. -/
structure WellBuilt (d : Design) : Prop where
  built : ∀ name c, d.find? name = some c → ∃ calls, c.BuiltBy calls ∧
    (∃ values, .output values ∈ calls) ∧ ∀ call ∈ calls, call.Respects d.Has
  acyclic : ∀ name, ¬ Relation.TransGen d.Calls name name

/-- The outputs of the circuit called `name`, with instances at most `depth` deep. -/
def referenceTo (d : Design) : Nat → String → List Bits → List Bits
  | 0, _, _ => []
  | depth + 1, name, inputs =>
    match d.find? name with
    | none => []
    | some c => c.outputs.map (c.meaning { inputs, callee := d.referenceTo depth })

def reference (d : Design) : String → List Bits → List Bits := d.referenceTo d.circuits.length

def setting (d : Design) (inputs : List Bits) : Setting := { inputs, callee := d.reference }

open Classical in
noncomputable def below (d : Design) (name : String) : Finset String :=
  d.names.toFinset.filter fun callee => Relation.TransGen d.Calls name callee

noncomputable def rank (d : Design) (name : String) : Nat := (d.below name).card

variable {d : Design} {name : String} {c : Circuit}

theorem mem_names_of_find? (h : d.find? name = some c) : name ∈ d.names := by
  unfold names
  exact List.mem_map.mpr ⟨c, List.mem_of_find?_eq_some h, by simpa using List.find?_some h⟩

theorem mem_below {callee : String} :
    callee ∈ d.below name ↔ callee ∈ d.names ∧ Relation.TransGen d.Calls name callee := by
  simp only [below, Finset.mem_filter, List.mem_toFinset]

theorem name_of_find? (h : d.find? name = some c) : c.name = name := by
  simpa using List.find?_some h

namespace WellBuilt

theorem wellTyped (hd : d.WellBuilt) (hc : d.find? name = some c) : c.WellTyped d.Has := by
  obtain ⟨calls, hbuilt, -, hcalls⟩ := hd.built name c hc
  exact (hbuilt.wellTyped hcalls).1

theorem drives (hd : d.WellBuilt) (hc : d.find? name = some c) : c.Drives c.outputPorts := by
  obtain ⟨calls, hbuilt, houtput, hcalls⟩ := hd.built name c hc
  exact (hbuilt.wellTyped hcalls).2 houtput

theorem lt_of_mem_outputs (hd : d.WellBuilt) (hc : d.find? name = some c) :
    ∀ v ∈ c.outputs, v < c.values.size := by
  intro v hv
  obtain ⟨n, hn, rfl⟩ := List.mem_iff_getElem.mp hv
  have houtputs := (hd.drives hc).outputs
  exact Circuit.lt_of_type? (houtputs.get hn (houtputs.length_eq ▸ hn))

theorem find?_callee (hd : d.WellBuilt) (hc : d.find? name = some c) {callee : String}
    (h : callee ∈ c.callees) : ∃ c', d.find? callee = some c' := by
  obtain ⟨i, o, instanceName, ho, hk⟩ := Circuit.mem_callees.mp h
  obtain ⟨ports, ⟨c', hc', -⟩, -⟩ := ((hd.wellTyped hc).typed i o ho).of_instance hk
  exact ⟨c', hc'⟩

theorem rank_lt (hd : d.WellBuilt) (hc : d.find? name = some c) :
    d.rank name < d.circuits.length := by
  have hmem : name ∈ d.names.toFinset := List.mem_toFinset.mpr (mem_names_of_find? hc)
  have hsubset : d.below name ⊆ d.names.toFinset := fun _ h =>
    List.mem_toFinset.mpr (mem_below.mp h).1
  have hstrict : d.rank name < d.names.toFinset.card := by
    refine Finset.card_lt_card ((Finset.ssubset_iff_of_subset hsubset).mpr ⟨name, hmem, ?_⟩)
    exact fun h => hd.acyclic name (mem_below.mp h).2
  refine Nat.lt_of_lt_of_le hstrict ((List.toFinset_card_le _).trans ?_)
  rw [names, List.length_map]

theorem rank_callee_lt (hd : d.WellBuilt) (hc : d.find? name = some c) {callee : String}
    (h : callee ∈ c.callees) : d.rank callee < d.rank name := by
  have hcalls : Relation.TransGen d.Calls name callee := .single ⟨c, hc, h⟩
  obtain ⟨c', hc'⟩ := hd.find?_callee hc h
  have hmem : callee ∈ d.below name := mem_below.mpr ⟨mem_names_of_find? hc', hcalls⟩
  have hsubset : d.below callee ⊆ d.below name := by
    intro b hb
    rw [mem_below] at hb ⊢
    exact ⟨hb.1, hcalls.trans hb.2⟩
  refine Finset.card_lt_card ((Finset.ssubset_iff_of_subset hsubset).mpr ⟨callee, hmem, ?_⟩)
  exact fun h => hd.acyclic callee (mem_below.mp h).2

private theorem referenceTo_eq (hd : d.WellBuilt) {m n : Nat} (hc : d.find? name = some c)
    (hm : d.rank name < m) (hn : d.rank name < n) :
    d.referenceTo m name = d.referenceTo n name := by
  induction m generalizing n name c with
  | zero => omega
  | succ m ih =>
    obtain _ | n := n
    · omega
    funext inputs
    rw [referenceTo, referenceTo]
    simp only [hc]
    apply List.map_congr_left
    intro v _
    apply Circuit.meaning_congr
    · rfl
    intro callee hcallee
    obtain ⟨c', hc'⟩ := hd.find?_callee hc hcallee
    have hlt := hd.rank_callee_lt hc hcallee
    -- The rank goes down with either depth, so both still suffice for the callee.
    exact ih hc' (by omega) (by omega)

/-- The reference values of a circuit's outputs are their meanings, where instances give the
reference values of theirs. -/
theorem reference_eq (hd : d.WellBuilt) (hc : d.find? name = some c) (inputs : List Bits) :
    d.reference name inputs = c.outputs.map (c.meaning (d.setting inputs)) := by
  have hrank := hd.rank_lt hc
  unfold reference
  rw [hd.referenceTo_eq hc hrank (Nat.lt_succ_of_lt hrank), referenceTo]
  simp only [hc]
  rfl

theorem fits_reference (hd : d.WellBuilt) (hc : d.find? name = some c) {inputs : List Bits}
    (hinputs : Fit c.inputPorts inputs) :
    (d.setting inputs).Sized d.Has c ∧ Fit c.outputPorts (d.reference name inputs) := by
  induction hn : d.rank name using Nat.strongRecOn generalizing name c inputs with
  | ind n ih =>
    have hsized : (d.setting inputs).Sized d.Has c := by
      refine ⟨hinputs, ?_⟩
      rintro callee hcallee _ xs ⟨c', hc', rfl⟩ hxs
      exact (ih _ (hn ▸ hd.rank_callee_lt hc hcallee) hc' hxs rfl).2
    refine ⟨hsized, ?_⟩
    rw [hd.reference_eq hc]
    unfold Fit
    rw [List.forall₂_map_right_iff]
    refine (hd.drives hc).outputs.flip.imp ?_
    intro port v htype
    exact (hd.wellTyped hc).fits_meaning hsized htype

theorem sized (hd : d.WellBuilt) (hc : d.find? name = some c) {inputs : List Bits}
    (hinputs : Fit c.inputPorts inputs) : (d.setting inputs).Sized d.Has c :=
  (hd.fits_reference hc hinputs).1

end WellBuilt

theorem WellBuilt.of_single {calls : List BuildCall} (h : c.BuiltBy calls)
    (houtput : ∃ values, .output values ∈ calls)
    (hcalls : ∀ call ∈ calls, call.Respects ({ circuits := [c] } : Design).Has)
    (hcallees : c.callees = []) : ({ circuits := [c] } : Design).WellBuilt where
  built := by
    intro name c' hc'
    obtain rfl : c' = c := List.mem_singleton.mp (List.mem_of_find?_eq_some hc')
    exact ⟨calls, h, houtput, hcalls⟩
  acyclic := by
    intro name h
    obtain ⟨callee, ⟨c', hc', hmem⟩, -⟩ := Relation.TransGen.head'_iff.mp h
    obtain rfl : c' = c := List.mem_singleton.mp (List.mem_of_find?_eq_some hc')
    rw [hcallees] at hmem
    exact absurd hmem List.not_mem_nil

/-- `ref` gives the outputs of every circuit by recursion: inputs mean what they are given, an
operation makes its results of the meanings of its operands, and an instance by `ref` itself. -/
structure Refers (d : Design) (ref : String → List Bits → List Bits) : Prop where
  outputs : ∀ name c inputs, d.find? name = some c → Fit c.inputPorts inputs →
    ref name inputs = c.outputs.map (c.meaning { inputs, callee := ref })
  inputs : ∀ name c inputs, d.find? name = some c → Fit c.inputPorts inputs →
    (List.range c.inputPorts.length).map (c.meaning { inputs, callee := ref }) = inputs
  operations : ∀ name c inputs, d.find? name = some c → Fit c.inputPorts inputs →
    ∀ i o, c.operations.get? i = some o → c.Performs { inputs, callee := ref } o

theorem WellBuilt.refers (hd : d.WellBuilt) : d.Refers d.reference where
  outputs _ _ inputs hc _ := hd.reference_eq hc inputs
  inputs _ _ _ hc hinputs := (hd.wellTyped hc).map_meaning_inputs (hd.sized hc hinputs)
  operations _ _ _ hc hinputs _ _ ho := (hd.wellTyped hc).performs (hd.sized hc hinputs) ho

/-! A design of two circuits: one that reports on a clock edge that its input is low, and one that
has an instance of it. -/

def checkerPorts : List Port := [⟨.input, "clk", .bit⟩, ⟨.input, "ok", .bit⟩]

def checkerCalls : List BuildCall :=
  [.always 0, .enter (.region 0), .assertion 1 "not ok", .output []]

def checker : Circuit where
  name := "Checker"
  ports := checkerPorts
  values := ⟨#[⟨.bit, .input 0, some "clk"⟩, ⟨.bit, .input 1, some "ok"⟩]⟩
  operations := ⟨#[⟨.always, [0], [], .body⟩, ⟨.assertion "not ok", [1], [], .region 0⟩]⟩
  names := .reserving ["clk", "ok"]

def monitorCalls : List BuildCall :=
  [.instantiate "Checker" checkerPorts "check" [0, 1], .compare .eq 0 1, .output [2]]

def monitor : Circuit where
  name := "Monitor"
  ports := checkerPorts ++ [⟨.output, "same", .bit⟩]
  values := ⟨#[⟨.bit, .input 0, some "clk"⟩, ⟨.bit, .input 1, some "ok"⟩,
    ⟨.bit, .result 1 0, none⟩]⟩
  operations := ⟨#[⟨.instantiate "Checker" "check", [0, 1], [], .body⟩,
    ⟨.compute (.compare .eq), [0, 1], [2], .body⟩]⟩
  outputs := [2]
  names := ⟨["check", "clk", "ok", "same"], [("check", 0)]⟩

def monitored : Design := { circuits := [checker, monitor] }

theorem find?_monitored {name : String} {c : Circuit} (h : monitored.find? name = some c) :
    name = "Checker" ∧ c = checker ∨ name = "Monitor" ∧ c = monitor := by
  have hname := name_of_find? h
  have hmem : c ∈ [checker, monitor] := List.mem_of_find?_eq_some h
  rw [List.mem_cons, List.mem_singleton] at hmem
  rcases hmem with rfl | rfl
  · exact .inl ⟨hname.symm, rfl⟩
  · exact .inr ⟨hname.symm, rfl⟩

private theorem calls_monitored {a b : String} (h : Relation.TransGen monitored.Calls a b) :
    a = "Monitor" ∧ b = "Checker" := by
  have hcalls : ∀ {a b}, monitored.Calls a b → a = "Monitor" ∧ b = "Checker" := by
    rintro a b ⟨c, hc, hb⟩
    rcases find?_monitored hc with ⟨rfl, rfl⟩ | ⟨rfl, rfl⟩
    · exact absurd hb List.not_mem_nil
    · exact ⟨rfl, List.mem_singleton.mp hb⟩
  induction h with
  | single h => exact hcalls h
  | tail _ h ih => exact ⟨ih.1, (hcalls h).2⟩

theorem wellBuilt_monitored : monitored.WellBuilt where
  built := by
    intro name c hc
    rcases find?_monitored hc with ⟨-, rfl⟩ | ⟨-, rfl⟩
    · refine ⟨checkerCalls, ⟨"Checker", checkerPorts, _, rfl, rfl⟩, ⟨[], ?_⟩, ?_⟩
      · exact List.getLast_mem (List.cons_ne_nil _ _)
      · simp [checkerCalls, BuildCall.Respects]
    · refine ⟨monitorCalls, ⟨"Monitor", monitor.ports, _, rfl, rfl⟩, ⟨[2], ?_⟩, ?_⟩
      · exact List.getLast_mem (List.cons_ne_nil _ _)
      · simp only [monitorCalls, List.forall_mem_cons, BuildCall.Respects]
        exact ⟨⟨checker, rfl, rfl⟩, trivial, trivial, List.forall_mem_nil _⟩
  acyclic := by
    intro name h
    obtain ⟨rfl, hname⟩ := calls_monitored h
    simp at hname

end Design
end ChannelCodec
