import ChannelCodec.Proofs.Design.Refinement

/-! Runs that go wrong. A run of a well-built design is refused for what it is given and for nothing
else; no operation meets operands of other widths than it asks for. -/
namespace ChannelCodec.Design

open Simulation

inductive Refuses (d : Design) (name : String) (given : List (String × Bits)) : Prop
  | unknown (find : d.find? name = none)
  | missing {c : Circuit} {port : Port} (find : d.find? name = some c)
    (port_mem : port ∈ c.inputPorts) (lookup : given.lookup port.name = none)
  | width {c : Circuit} {port : Port} {x : Bits} (find : d.find? name = some c)
    (port_mem : port ∈ c.inputPorts) (lookup : given.lookup port.name = some x)
    (wrong : x.width ≠ port.type.bitWidth)
  | noInput {c : Circuit} {p : String × Bits} (find : d.find? name = some c) (mem : p ∈ given)
    (other : ∀ port ∈ c.inputPorts, port.name ≠ p.1)

variable {d : Design} {name : String} {c : Circuit} {given : List (String × Bits)}

private theorem inputValues_cases (given : List (String × Bits)) (ports : List Port) :
    (∃ inputs, List.Forall₂ (fun port x => given.lookup port.name = some x ∧
      x.width = port.type.bitWidth) ports inputs) ∨
    ((∃ diagnostic, inputValues given ports = .error diagnostic) ∧ ∃ port ∈ ports,
      given.lookup port.name = none ∨
        ∃ x, given.lookup port.name = some x ∧ x.width ≠ port.type.bitWidth) := by
  induction ports with
  | nil => exact .inl ⟨[], .nil⟩
  | cons port ports ih =>
    cases hlookup : given.lookup port.name with
    | none =>
      refine .inr ⟨?_, port, List.mem_cons_self, .inl hlookup⟩
      unfold inputValues
      simp only [hlookup]
      exact ⟨_, rfl⟩
    | some x =>
      by_cases hwidth : x.width = port.type.bitWidth
      · rcases ih with ⟨inputs, h⟩ | ⟨⟨diagnostic, herror⟩, port', hport', h⟩
        · exact .inl ⟨x :: inputs, .cons ⟨hlookup, hwidth⟩ h⟩
        · refine .inr ⟨⟨diagnostic, ?_⟩, port', List.mem_cons_of_mem port hport', h⟩
          unfold inputValues
          simp only [hlookup, hwidth, if_true, herror]
          rfl
      · refine .inr ⟨?_, port, List.mem_cons_self, .inr ⟨x, hlookup, hwidth⟩⟩
        unfold inputValues
        simp only [hlookup, hwidth, if_false]
        exact ⟨_, rfl⟩

theorem given_cases (d : Design) (name : String) (given : List (String × Bits)) :
    (∃ c inputs, d.find? name = some c ∧
      List.Forall₂ (fun port x => given.lookup port.name = some x ∧
        x.width = port.type.bitWidth) c.inputPorts inputs ∧
      ∀ p ∈ given, ∃ port ∈ c.inputPorts, port.name = p.1) ∨
    (d.Refuses name given ∧ ∃ diagnostic, d.run name given = .error (.report diagnostic)) := by
  cases hc : d.find? name with
  | none =>
    refine .inr ⟨.unknown hc, ?_⟩
    unfold run
    simp only [hc]
    exact ⟨_, rfl⟩
  | some c =>
    rcases inputValues_cases given c.inputPorts with ⟨inputs, hinputs⟩ | ⟨⟨diagnostic, herror⟩, h⟩
    · by_cases hnames : ∀ p ∈ given, ∃ port ∈ c.inputPorts, port.name = p.1
      · exact .inl ⟨c, inputs, rfl, hinputs, hnames⟩
      · refine .inr ⟨?_, ?_⟩
        · simp only [not_forall, not_exists, not_and] at hnames
          obtain ⟨p, hp, hother⟩ := hnames
          exact .noInput hc hp hother
        · have hextra := mt find?_extra_eq_none.mp hnames
          obtain ⟨p, hp⟩ := Option.ne_none_iff_exists'.mp hextra
          have hvalues : (inputValues given c.inputPorts).mapError Failure.report =
              .ok inputs := by
            rw [Circuit.inputValues_eq hinputs]
            rfl
          refine ⟨.malformedStructure s!"Module `{name}' has no input `{p.1}'", ?_⟩
          unfold run
          simp only [hc]
          refine (bind_of_ok hvalues _).trans ?_
          simp only [hp]
          rfl
    · refine .inr ⟨?_, diagnostic, ?_⟩
      · obtain ⟨port, hport, hnone | ⟨x, hx, hwidth⟩⟩ := h
        · exact .missing hc hport hnone
        · exact .width hc hport hx hwidth
      · unfold run
        simp only [hc, herror]
        rfl

theorem not_refuses {inputs : List Bits} (hc : d.find? name = some c)
    (hgiven : List.Forall₂ (fun port x => given.lookup port.name = some x ∧
      x.width = port.type.bitWidth) c.inputPorts inputs)
    (hnames : ∀ p ∈ given, ∃ port ∈ c.inputPorts, port.name = p.1) : ¬ d.Refuses name given := by
  have hport : ∀ port ∈ c.inputPorts, ∃ x, given.lookup port.name = some x ∧
      x.width = port.type.bitWidth := by
    intro port hport
    obtain ⟨n, hn, rfl⟩ := List.mem_iff_getElem.mp hport
    exact ⟨_, hgiven.get hn (hgiven.length_eq ▸ hn)⟩
  intro h
  cases h with
  | unknown hnone =>
    rw [hc] at hnone
    cases hnone
  | missing hc' hmem hnone =>
    obtain rfl := Option.some.inj (hc.symm.trans hc')
    obtain ⟨x, hx, -⟩ := hport _ hmem
    rw [hnone] at hx
    cases hx
  | width hc' hmem hx hwrong =>
    obtain rfl := Option.some.inj (hc.symm.trans hc')
    obtain ⟨y, hy, hwidth⟩ := hport _ hmem
    obtain rfl := Option.some.inj (hx.symm.trans hy)
    exact hwrong hwidth
  | noInput hc' hmem hother =>
    obtain rfl := Option.some.inj (hc.symm.trans hc')
    obtain ⟨port, hmem', hname⟩ := hnames _ hmem
    exact hother port hmem' hname

private theorem fit_zip {ports : List Port} {xs : List Bits} (h : Fit ports xs) :
    List.Forall₂ (fun port p => p.1 = port.name ∧ port.type.Fits p.2) ports
      ((ports.map (·.name)).zip xs) := by
  unfold Fit at h
  induction h with
  | nil => exact .nil
  | cons hx _ ih => exact .cons ⟨rfl, hx⟩ ih

/-- An observer who only writes something down when a value does not have the width of its type. -/
def Silent (note : Note) : Prop :=
  ∀ path (c : Circuit) known, (∀ (v : Nat) x t, known[v]? = some (some x) → c.type? v = some t →
    t.Fits x) → note path c known = []

theorem eq_meaning_of_known {visit : Visit} {v : Nat} {x : Bits}
    (h : (visit.known d)[v]? = some (some x)) :
    x = visit.circuit.meaning (d.setting visit.inputs) v := by
  unfold Visit.known at h
  by_cases hv : v < visit.circuit.values.size
  · rw [Circuit.getElem?_table hv, Option.some.injEq, Option.ite_none_right_eq_some] at h
    exact (Option.some.inj h.2).symm
  · rw [Array.getElem?_eq_none (by rw [Circuit.size_table]; omega)] at h
    cases h

namespace WellBuilt

private theorem note_eq_nil (hd : d.WellBuilt) {visit : Visit} (hgood : visit.Good d) {note : Note}
    (hnote : Silent note) : note visit.path visit.circuit (visit.known d) = [] := by
  refine hnote _ _ _ fun v x t hx ht => ?_
  rw [eq_meaning_of_known hx]
  exact (hd.wellTyped hgood.found).fits_meaning (hd.sized hgood.found hgood.fits) ht

private theorem good_of_visits (hd : d.WellBuilt) {start visit : Visit} (hgood : start.Good d)
    (h : d.Visits start visit) : visit.Good d := by
  induction h with
  | here => exact hgood
  | inside _ hruns hasks hc ih =>
    obtain ⟨-, c, hc', hgood'⟩ := hd.good_instance ih hasks
    obtain rfl := Option.some.inj (hc.symm.trans hc')
    exact hgood'

/-- A run that is not refused shows the reference values, and an observer who has nothing to say at
any visit changes nothing. -/
theorem run_unnoted (hd : d.WellBuilt) {inputs : List Bits} (hc : d.find? name = some c)
    (hgiven : List.Forall₂ (fun port x => given.lookup port.name = some x ∧
      x.width = port.type.bitWidth) c.inputPorts inputs)
    (hnames : ∀ p ∈ given, ∃ port ∈ c.inputPorts, port.name = p.1) :
    ∃ r, d.run name given = .ok r ∧
      r.outputs = (c.outputPorts.map (·.name)).zip (d.reference name inputs) ∧
      ∀ note : Note, (∀ visit : Visit, visit.Good d →
        note visit.path visit.circuit (visit.known d) = []) →
          ∃ r', d.notedRun note name given = .ok r' ∧ r'.outputs = r.outputs ∧
            r'.violations.Perm r.violations := by
  have hgood : Visit.Good d ⟨[name], c, inputs⟩ :=
    ⟨(name_of_find? hc).symm ▸ hc, fit_of_given hgiven⟩
  obtain ⟨r, hrun, houtputs, hviolations⟩ :=
    hd.notedRun_visits hc hgiven hnames fun _ _ _ => []
  rw [notedRun_nothing] at hrun
  refine ⟨r, hrun, houtputs, fun note hnote => ?_⟩
  obtain ⟨r', hrun', houtputs', hviolations'⟩ := hd.notedRun_visits hc hgiven hnames note
  refine ⟨r', hrun', houtputs'.trans houtputs.symm, hviolations'.trans ?_⟩
  -- At every visit the observer writes what one does who never writes.
  have htraces : (d.visits d.circuits.length ⟨[name], c, inputs⟩).flatMap (Visit.traces d note) =
      (d.visits d.circuits.length ⟨[name], c, inputs⟩).flatMap
        (Visit.traces d fun _ _ _ => []) := by
    apply List.flatMap_congr
    intro visit hvisit
    unfold Visit.traces
    rw [hnote visit (hd.good_of_visits hgood (visits_of_mem hvisit))]
  rw [htraces]
  exact hviolations.symm

theorem run_outputs (hd : d.WellBuilt) {inputs : List Bits} (hc : d.find? name = some c)
    (hgiven : List.Forall₂ (fun port x => given.lookup port.name = some x ∧
      x.width = port.type.bitWidth) c.inputPorts inputs)
    (hnames : ∀ p ∈ given, ∃ port ∈ c.inputPorts, port.name = p.1) :
    ∃ r, d.run name given = .ok r ∧
      r.outputs = (c.outputPorts.map (·.name)).zip (d.reference name inputs) ∧
      Fit c.outputPorts (d.reference name inputs) ∧
      ∀ note, Silent note → ∃ r', d.notedRun note name given = .ok r' ∧ r'.outputs = r.outputs ∧
        r'.violations.Perm r.violations := by
  obtain ⟨r, hrun, houtputs, hnotes⟩ := hd.run_unnoted hc hgiven hnames
  exact ⟨r, hrun, houtputs, (hd.fits_reference hc (fit_of_given hgiven)).2, fun note hnote =>
    hnotes note fun _ hgood => hd.note_eq_nil hgood hnote⟩

/-- Runs of a well-built design do not go wrong. No run ends in a misuse; a run fails exactly when
it is refused for what it is given; the outputs are as wide as their ports, and so is every value
that an observer finds known; and every gate has one result. -/
theorem run_sound (hd : d.WellBuilt) (name : String) (given : List (String × Bits)) :
    (∀ mistake, d.run name given ≠ .error (.misuse mistake)) ∧
    ((∃ failure, d.run name given = .error failure) ↔ d.Refuses name given) ∧
    (∀ c r, d.find? name = some c → d.run name given = .ok r →
      List.Forall₂ (fun port p => p.1 = port.name ∧ port.type.Fits p.2) c.outputPorts r.outputs ∧
      ∀ note, Silent note → ∃ r', d.notedRun note name given = .ok r' ∧ r'.outputs = r.outputs ∧
        r'.violations.Perm r.violations) ∧
    ∀ callee c i o gate, d.find? callee = some c → c.operations.get? i = some o →
      o.kind = .compute gate → ∃ v, o.results = [v] := by
  have hresult : ∀ callee c i o gate, d.find? callee = some c → c.operations.get? i = some o →
      o.kind = .compute gate → ∃ v, o.results = [v] := by
    intro callee c i o gate hc ho hk
    obtain ⟨types, t, -, -, hresults⟩ := ((hd.wellTyped hc).typed i o ho).of_gate hk
    obtain ⟨v, hv, -⟩ := hresults.singleton
    exact ⟨v, hv⟩
  rcases given_cases d name given with
    ⟨c, inputs, hc, hgiven, hnames⟩ | ⟨hrefuses, diagnostic, hrun⟩
  · obtain ⟨r, hrun, houtputs, hfit, hnotes⟩ := hd.run_outputs hc hgiven hnames
    have hrefuses := not_refuses hc hgiven hnames
    refine ⟨fun mistake h => ?_, ⟨?_, fun h => absurd h hrefuses⟩, ?_, hresult⟩
    · rw [hrun] at h
      cases h
    · rintro ⟨failure, h⟩
      rw [hrun] at h
      cases h
    · intro c' r' hc' hrun'
      obtain rfl := Option.some.inj (hc.symm.trans hc')
      rw [hrun] at hrun'
      cases hrun'
      exact ⟨houtputs ▸ fit_zip hfit, hnotes⟩
  · refine ⟨fun mistake h => ?_, ⟨fun _ => hrefuses, fun _ => ⟨_, hrun⟩⟩, fun c r _ h => ?_,
      hresult⟩
    · rw [hrun] at h
      cases h
    · rw [hrun] at h
      cases h

end WellBuilt

theorem monitored_run_sound : ¬ (∃ failure, monitored.run "Monitor" lowOnEdge = .error failure) ∧
    ∃ failure, monitored.run "Monitor" [] = .error failure := by
  constructor
  · rw [(wellBuilt_monitored.run_sound "Monitor" lowOnEdge).2.1]
    exact not_refuses rfl given_lowOnEdge names_lowOnEdge
  · rw [(wellBuilt_monitored.run_sound "Monitor" []).2.1]
    exact .missing (c := monitor) rfl List.mem_cons_self rfl

end ChannelCodec.Design
