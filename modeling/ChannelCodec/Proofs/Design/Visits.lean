import ChannelCodec.Proofs.Circuit.Requests
import ChannelCodec.Proofs.Design.Reference
import Mathlib.Data.List.Basic
import Mathlib.Data.List.Perm.Basic

/-! Visits of instances. A run of a design visits the circuit that is run and, from each circuit it
visits, the instances that run there. An observer who takes notes at the end of each visit finds
every instance visited once, with what it means. -/
namespace ChannelCodec

namespace Simulation

/-- What an observer writes down when an instance ends: from its path, its circuit and what is known
of its values. -/
abbrev Note := (path : List String) → Circuit → (known : Array (Option Bits)) → List Violation

def callFrom (d : Design) (path : List String)
    (run : Circuit → List String → List Bits → Array Violation →
      Except Failure (List Bits × Array Violation)) : Call :=
  fun callee name operands violations =>
    match d.find? callee with
    | some c => run c (path ++ [name]) operands violations
    | none => .error <| .report <| .malformedStructure
        s!"Instance `{name}' of undefined module `{callee}'"

/-- What `outputs` is under an observer, whose notes go behind the violations so far. -/
def notedOutputs (d : Design) (note : Note) : Nat → Circuit → List String → List Bits →
    Array Violation → Except Failure (List Bits × Array Violation)
  | 0, c, _, _, _ =>
    .error (.report (.malformedStructure s!"Module `{c.name}' instantiates itself"))
  | depth + 1, c, path, inputs, violations =>
    match (instanceOutputs c (callFrom d path (notedOutputs d note depth)) path inputs).run
        { known := Array.replicate c.values.size none, violations } with
    | .ok results s => .ok (results, s.violations ++ (note path c s.known).toArray)
    | .error failure _ => .error failure

theorem notedOutputs_nothing (d : Design) (depth : Nat) :
    notedOutputs d (fun _ _ _ => []) depth = outputs d depth := by
  induction depth with
  | zero => rfl
  | succ depth ih =>
    funext c path inputs violations
    rw [notedOutputs, outputs, ih]
    change _ = match (instanceOutputs c (callFrom d path (outputs d depth)) path inputs).run
        { known := Array.replicate c.values.size none, violations } with
      | .ok results s => Except.ok (results, s.violations)
      | .error failure _ => .error failure
    generalize (instanceOutputs c (callFrom d path (outputs d depth)) path inputs).run _ = result
    cases result with
    | ok results s =>
      change Except.ok (results, s.violations ++ #[]) = Except.ok (results, s.violations)
      rw [Array.append_empty]
    | error failure s => rfl

end Simulation

open Simulation

/-- A circuit at work: where, which, and on what. -/
structure Visit where
  path : List String
  circuit : Circuit
  inputs : List Bits

namespace Visit

def child? (d : Design) (visit : Visit) (inst : Instance) : Option Visit :=
  (d.find? inst.callee).map fun c => ⟨visit.path ++ [inst.name], c, inst.inputs⟩

noncomputable def children (d : Design) (visit : Visit) : List Visit :=
  (visit.circuit.running (d.setting visit.inputs)).filterMap fun i =>
    (visit.circuit.instanceAt? (d.setting visit.inputs) i).bind (visit.child? d)

/-- One violation for each assertion that does not hold, of those whose regions all run. -/
def failures (d : Design) (visit : Visit) : List Violation :=
  (((List.range visit.circuit.operations.size).filter
    (visit.circuit.active (d.setting visit.inputs))).flatMap
      (visit.circuit.messages (d.setting visit.inputs))).map fun message => ⟨visit.path, message⟩

noncomputable def known (d : Design) (visit : Visit) : Array (Option Bits) :=
  visit.circuit.table (d.setting visit.inputs) (visit.circuit.running (d.setting visit.inputs))

noncomputable def traces (d : Design) (note : Note) (visit : Visit) : List Violation :=
  visit.failures d ++ note visit.path visit.circuit (visit.known d)

def inside (d : Design) (visit : Visit) (f : Visit → List Violation) (inst : Instance) :
    List Violation := (visit.child? d inst).toList.flatMap f

structure Good (d : Design) (visit : Visit) : Prop where
  found : d.find? visit.circuit.name = some visit.circuit
  fits : Fit visit.circuit.inputPorts visit.inputs

end Visit

namespace Design

inductive Visits (d : Design) (start : Visit) : Visit → Prop
  | here : Visits d start start
  | inside {visit : Visit} {i : Nat} {inst : Instance} {c : Circuit}
    (outer : Visits d start visit) (runs : visit.circuit.Runs (d.setting visit.inputs) i)
    (asks : visit.circuit.instanceAt? (d.setting visit.inputs) i = some inst)
    (callee : d.find? inst.callee = some c) :
    Visits d start ⟨visit.path ++ [inst.name], c, inst.inputs⟩

noncomputable def visits (d : Design) : Nat → Visit → List Visit
  | 0, _ => []
  | depth + 1, start => start :: (start.children d).flatMap (d.visits depth)

end Design

variable {d : Design} {visit start : Visit}

theorem Circuit.of_instanceAt? {c : Circuit} {e : Setting} {i : Nat} {inst : Instance}
    (h : c.instanceAt? e i = some inst) : ∃ o, c.operations.get? i = some o ∧
      o.kind = .instantiate inst.callee inst.name ∧
      inst.inputs = o.operands.map (c.meaning e) := by
  unfold instanceAt? at h
  split at h
  · cases h
  next o ho =>
    split at h
    next callee name hk =>
      cases h
      exact ⟨o, ho, hk, rfl⟩
    · cases h

theorem Visit.mem_children {child : Visit} : child ∈ visit.children d ↔ ∃ i inst c,
    visit.circuit.Runs (d.setting visit.inputs) i ∧
    visit.circuit.instanceAt? (d.setting visit.inputs) i = some inst ∧
    d.find? inst.callee = some c ∧
    child = ⟨visit.path ++ [inst.name], c, inst.inputs⟩ := by
  unfold children child?
  simp only [List.mem_filterMap, Circuit.mem_running, Option.bind_eq_some_iff,
    Option.map_eq_some_iff]
  constructor
  · rintro ⟨i, ⟨-, hruns⟩, inst, hasks, c, hc, rfl⟩
    exact ⟨i, inst, c, hruns, hasks, hc, rfl⟩
  · rintro ⟨i, inst, c, hruns, hasks, hc, rfl⟩
    obtain ⟨o, ho, -⟩ := Circuit.of_instanceAt? hasks
    exact ⟨i, ⟨Circuit.lt_of_get?_operations ho, hruns⟩, inst, hasks, c, hc, rfl⟩

theorem Design.WellBuilt.good_instance (hd : d.WellBuilt) (hgood : visit.Good d) {i : Nat}
    {inst : Instance}
    (h : visit.circuit.instanceAt? (d.setting visit.inputs) i = some inst) :
    inst.callee ∈ visit.circuit.callees ∧ ∃ c, d.find? inst.callee = some c ∧
      Visit.Good d ⟨visit.path ++ [inst.name], c, inst.inputs⟩ := by
  have hc := hd.wellTyped hgood.found
  obtain ⟨o, ho, hk, hinputs⟩ := Circuit.of_instanceAt? h
  have hcallee := Circuit.mem_callees.mpr ⟨i, o, _, ho, hk⟩
  obtain ⟨ports, ⟨c, hfind, hports⟩, hoperands, -⟩ := (hc.typed i o ho).of_instance hk
  refine ⟨hcallee, c, hfind, (Design.name_of_find? hfind).symm ▸ hfind, ?_⟩
  have hfits := hoperands.fits_iff.mpr fun v _ t ht =>
    hc.fits_meaning (hd.sized hgood.found hgood.fits) ht
  rw [← hinputs] at hfits
  unfold Circuit.inputPorts
  rw [hports]
  exact Circuit.fit_iff.mpr hfits

theorem Design.WellBuilt.child (hd : d.WellBuilt) (hgood : visit.Good d) {child : Visit}
    (h : child ∈ visit.children d) :
    child.Good d ∧ d.rank child.circuit.name < d.rank visit.circuit.name := by
  obtain ⟨i, inst, c, -, hasks, hc, rfl⟩ := Visit.mem_children.mp h
  obtain ⟨hcallee, c', hc', hgood'⟩ := hd.good_instance hgood hasks
  obtain rfl := Option.some.inj (hc.symm.trans hc')
  refine ⟨hgood', ?_⟩
  rw [Design.name_of_find? hc]
  exact hd.rank_callee_lt hgood.found hcallee

/-! Every instance is visited once. -/

private theorem Design.path_prefix {depth : Nat} (h : visit ∈ d.visits depth start) :
    start.path <+: visit.path := by
  induction depth generalizing start with
  | zero => cases h
  | succ depth ih =>
    rcases List.mem_cons.mp h with rfl | h
    · exact List.prefix_refl _
    · obtain ⟨child, hchild, hvisit⟩ := List.mem_flatMap.mp h
      obtain ⟨i, inst, c, -, -, -, rfl⟩ := Visit.mem_children.mp hchild
      exact (List.prefix_append _ _).trans (ih hvisit)

theorem Design.WellBuilt.apart (hd : d.WellBuilt) (hgood : visit.Good d) :
    (visit.children d).Pairwise fun a b => ∀ path, a.path <+: path → ¬ b.path <+: path := by
  unfold Visit.children
  refine List.Pairwise.filterMap _ ?_ Circuit.nodup_running
  intro i j hne a ha b hb path hpath hpath'
  obtain ⟨inst, hasks, ha⟩ := Option.bind_eq_some_iff.mp ha
  obtain ⟨inst', hasks', hb⟩ := Option.bind_eq_some_iff.mp hb
  obtain ⟨c, -, rfl⟩ := Option.map_eq_some_iff.mp ha
  obtain ⟨c', -, rfl⟩ := Option.map_eq_some_iff.mp hb
  obtain ⟨o, ho, hk, -⟩ := Circuit.of_instanceAt? hasks
  obtain ⟨o', ho', hk', -⟩ := Circuit.of_instanceAt? hasks'
  have hnames : visit.path ++ [inst.name] = visit.path ++ [inst'.name] := by
    refine (List.prefix_of_prefix_length_le hpath hpath' ?_).eq_of_length ?_
    · rw [List.length_append, List.length_append]
      exact Nat.le_refl _
    · rw [List.length_append, List.length_append]
      rfl
  have hname : inst.name = inst'.name := by simpa using hnames
  rw [hname] at hk
  -- Two paths of one length through one place end in the same name, and names are not shared.
  exact hne ((hd.wellTyped hgood.found).instances i o _ j o' _ _ ho hk ho' hk')

theorem Design.WellBuilt.nodup_paths (hd : d.WellBuilt) (hgood : start.Good d) (depth : Nat) :
    ((d.visits depth start).map (·.path)).Nodup := by
  induction depth generalizing start with
  | zero => exact List.nodup_nil
  | succ depth ih =>
    rw [Design.visits, List.map_cons, List.nodup_cons, List.map_flatMap, List.nodup_flatMap]
    refine ⟨fun h => ?_, fun child hchild => ih (hd.child hgood hchild).1, ?_⟩
    · obtain ⟨child, hchild, hmem⟩ := List.mem_flatMap.mp h
      obtain ⟨visit, hvisit, hpath⟩ := List.mem_map.mp hmem
      have hprefix := Design.path_prefix hvisit
      obtain ⟨i, inst, c, -, -, -, rfl⟩ := Visit.mem_children.mp hchild
      have hlength := hprefix.length_le
      rw [hpath, List.length_append, List.length_singleton] at hlength
      omega
    · refine (hd.apart hgood).imp ?_
      intro a b hab path ha hb
      obtain ⟨visit, hvisit, rfl⟩ := List.mem_map.mp ha
      obtain ⟨visit', hvisit', hpath⟩ := List.mem_map.mp hb
      exact hab _ (Design.path_prefix hvisit) (hpath ▸ Design.path_prefix hvisit')

theorem Design.Visits.trans {middle : Visit} (h : d.Visits start middle)
    (h' : d.Visits middle visit) : d.Visits start visit := by
  induction h' with
  | here => exact h
  | inside _ hruns hasks hc ih => exact ih.inside hruns hasks hc

theorem Design.visits_of_mem {depth : Nat} (h : visit ∈ d.visits depth start) :
    d.Visits start visit := by
  induction depth generalizing start with
  | zero => cases h
  | succ depth ih =>
    rcases List.mem_cons.mp h with rfl | h
    · exact .here
    · obtain ⟨child, hchild, hvisit⟩ := List.mem_flatMap.mp h
      obtain ⟨i, inst, c, hruns, hasks, hc, rfl⟩ := Visit.mem_children.mp hchild
      exact (Design.Visits.here.inside hruns hasks hc).trans (ih hvisit)

/-- Each visit inside another one has a smaller rank, so the depth lasts. -/
theorem Design.WellBuilt.children_mem_visits (hd : d.WellBuilt) (hgood : start.Good d) {depth : Nat}
    (hdepth : d.rank start.circuit.name < depth) {child : Visit}
    (hvisit : visit ∈ d.visits depth start) (hchild : child ∈ visit.children d) :
    child ∈ d.visits depth start := by
  induction depth generalizing start with
  | zero => omega
  | succ depth ih =>
    refine List.mem_cons_of_mem _ (List.mem_flatMap.mpr ?_)
    rcases List.mem_cons.mp hvisit with rfl | hvisit
    · have hrank := (hd.child hgood hchild).2
      obtain ⟨depth, rfl⟩ : ∃ n, depth = n + 1 := ⟨depth - 1, by omega⟩
      exact ⟨child, hchild, List.mem_cons_self⟩
    · obtain ⟨middle, hmiddle, hvisit⟩ := List.mem_flatMap.mp hvisit
      obtain ⟨hgood', hrank⟩ := hd.child hgood hmiddle
      exact ⟨middle, hmiddle, ih hgood' (by omega) hvisit⟩

theorem Design.WellBuilt.mem_visits (hd : d.WellBuilt) (hgood : start.Good d) {depth : Nat}
    (hdepth : d.rank start.circuit.name < depth) :
    visit ∈ d.visits depth start ↔ d.Visits start visit := by
  refine ⟨Design.visits_of_mem, fun h => ?_⟩
  induction h with
  | here =>
    obtain ⟨depth, rfl⟩ : ∃ n, depth = n + 1 := ⟨depth - 1, by omega⟩
    exact List.mem_cons_self
  | inside _ hruns hasks hc ih =>
    exact hd.children_mem_visits hgood hdepth ih
      (Visit.mem_children.mpr ⟨_, _, _, hruns, hasks, hc, rfl⟩)

/-! What a run leaves behind is what its visits do. -/

private theorem flatMap_filter_congr {α β : Type} {p q : α → Bool} {g : α → List β} {items : List α}
    (h : ∀ a ∈ items, g a ≠ [] → p a = q a) :
    (items.filter p).flatMap g = (items.filter q).flatMap g := by
  induction items with
  | nil => rfl
  | cons a items ih =>
    rw [List.forall_mem_cons] at h
    have hrest := ih h.2
    by_cases hg : g a = []
    · cases hp : p a <;> cases hq : q a <;> simp [hp, hq, hg, hrest]
    · have hpq := h.1 hg
      cases hq : q a <;> simp [hpq, hq, hrest]

private theorem Circuit.WellTyped.messages_running {known : String → List Port → Prop} {c : Circuit}
    {e : Setting} (hc : c.WellTyped known) :
    (c.running e).flatMap (c.messages e) =
      ((List.range c.operations.size).filter (c.active e)).flatMap (c.messages e) := by
  unfold Circuit.running
  refine flatMap_filter_congr fun i hi hmessages => ?_
  obtain ⟨o, ho⟩ := Circuit.get?_operations_of_lt (List.mem_range.mp hi)
  apply Bool.eq_iff_iff.mpr
  simp only [decide_eq_true_eq]
  refine ⟨fun hruns => hc.active_of_runs hruns ?_, .active⟩
  rintro ⟨p, hp, hne⟩
  obtain rfl := Option.some.inj (ho.symm.trans hp)
  refine hmessages ?_
  unfold Circuit.messages Circuit.failure
  cases hc.typed i o ho with
  | compute hkind => simp only [ho, hkind]
  | instantiate hkind => simp only [ho, hkind]
  | observe _ _ hresults => exact absurd hresults hne

theorem Design.WellBuilt.records_running (hd : d.WellBuilt) (hgood : visit.Good d)
    (f : Visit → List Violation) :
    ((visit.circuit.running (d.setting visit.inputs)).flatMap
      (records visit.circuit (d.setting visit.inputs) visit.path (visit.inside d f))).Perm
      (visit.failures d ++ (visit.children d).flatMap f) := by
  have hfailures : visit.failures d = (visit.circuit.running (d.setting visit.inputs)).flatMap
      fun i => (visit.circuit.messages (d.setting visit.inputs) i).map fun message =>
        ⟨visit.path, message⟩ := by
    unfold Visit.failures
    rw [← (hd.wellTyped hgood.found).messages_running, List.map_flatMap]
  have hchildren : (visit.children d).flatMap f =
      (visit.circuit.running (d.setting visit.inputs)).flatMap fun i =>
        (visit.circuit.instanceAt? (d.setting visit.inputs) i).toList.flatMap
          (visit.inside d f) := by
    unfold Visit.children
    rw [List.filterMap_eq_flatMap_toList, List.flatMap_assoc]
    apply List.flatMap_congr
    intro i _
    cases visit.circuit.instanceAt? (d.setting visit.inputs) i with
    | none => rfl
    | some inst =>
      rw [Option.bind_some, Option.toList_some, List.flatMap_singleton]
      rfl
  rw [hfailures, hchildren]
  exact (List.flatMap_append_perm _ _ _).symm

/-- Instances of one depth more may call those that give their reference values and leave behind
what their visits do. -/
theorem Design.WellBuilt.serves_visits (hd : d.WellBuilt) {note : Note} {depth : Nat}
    (hgood : visit.Good d)
    (hcallees : ∀ {child : Visit}, child.Good d → d.rank child.circuit.name <
      d.rank visit.circuit.name → ∀ violations : Array Violation, ∃ violations' : Array Violation,
      notedOutputs d note depth child.circuit child.path child.inputs violations =
        .ok (d.reference child.circuit.name child.inputs, violations') ∧
      violations'.toList.Perm
        (violations.toList ++ (d.visits depth child).flatMap (Visit.traces d note))) :
    Serves visit.circuit (d.setting visit.inputs)
      (callFrom d visit.path (notedOutputs d note depth))
      (visit.inside d fun child => (d.visits depth child).flatMap (Visit.traces d note)) := by
  intro i inst hasks violations
  obtain ⟨hcallee, c, hfind, hgood'⟩ := hd.good_instance hgood hasks
  have hname := Design.name_of_find? hfind
  have hrank := hd.rank_callee_lt hgood.found hcallee
  obtain ⟨violations', hrun, hperm⟩ := hcallees hgood' (hname.symm ▸ hrank) violations
  refine ⟨violations', ?_, ?_⟩
  · unfold callFrom
    simp only [hfind]
    rw [hrun, hname]
    rfl
  · have hchild : visit.child? d inst = some ⟨visit.path ++ [inst.name], c, inst.inputs⟩ := by
      unfold Visit.child?
      rw [hfind]
      rfl
    unfold Visit.inside
    rw [hchild, Option.toList_some, List.flatMap_singleton]
    exact hperm

/-- An instance gives its reference values, and leaves behind what its visits do. -/
theorem Design.WellBuilt.notedOutputs_visits (hd : d.WellBuilt) (note : Note) {depth : Nat}
    (hgood : visit.Good d) (hdepth : d.rank visit.circuit.name < depth)
    (violations : Array Violation) : ∃ violations' : Array Violation,
      notedOutputs d note depth visit.circuit visit.path visit.inputs violations =
        .ok (d.reference visit.circuit.name visit.inputs, violations') ∧
      violations'.toList.Perm
        (violations.toList ++ (d.visits depth visit).flatMap (Visit.traces d note)) := by
  induction depth generalizing visit violations with
  | zero => omega
  | succ depth ih =>
    have hc := hd.wellTyped hgood.found
    have he := hd.sized hgood.found hgood.fits
    have hserves : Serves visit.circuit (d.setting visit.inputs)
        (callFrom d visit.path (notedOutputs d note depth))
        (visit.inside d fun child => (d.visits depth child).flatMap (Visit.traces d note)) :=
      hd.serves_visits hgood fun hgood' hrank => ih hgood' (by omega)
    obtain ⟨results, s, hrun, rfl, hknown, hviolations⟩ :=
      instanceOutputs_runs hc he hserves (hd.lt_of_mem_outputs hgood.found) visit.path violations
    refine ⟨s.violations ++ (note visit.path visit.circuit s.known).toArray, ?_, ?_⟩
    · rw [notedOutputs, hd.reference_eq hgood.found]
      change (match instanceOutputs visit.circuit
          (callFrom d visit.path (notedOutputs d note depth)) visit.path visit.inputs
          { known := Array.replicate visit.circuit.values.size none, violations } with
        | .ok results s =>
          Except.ok (results, s.violations ++ (note visit.path visit.circuit s.known).toArray)
        | .error failure _ => .error failure) = _
      have hrun : instanceOutputs visit.circuit
          (callFrom d visit.path (notedOutputs d note depth)) visit.path visit.inputs
          { known := Array.replicate visit.circuit.values.size none, violations } = _ := hrun
      rw [hrun]
    · rw [Array.toList_append, Design.visits, List.flatMap_cons, List.flatMap_assoc, hknown]
      refine (hviolations.append_right _).trans ?_
      rw [List.append_assoc]
      refine List.Perm.append_left _ ?_
      refine ((hd.records_running hgood _).append_right _).trans ?_
      unfold Visit.traces
      rw [List.append_assoc, List.append_assoc]
      exact List.perm_append_comm.append_left _

end ChannelCodec
