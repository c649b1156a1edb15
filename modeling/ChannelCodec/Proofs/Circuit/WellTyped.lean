import ChannelCodec.Proofs.Circuit.Calls
import ChannelCodec.Proofs.FreshNames

/-! Circuits that are built by calls are well typed. Every call keeps that operations have operands
and results of the right types, that operands come before results, and that instances have names of
their own. -/
namespace ChannelCodec

def Circuit.origin? (c : Circuit) (v : Nat) : Option Origin := (c.values.get? v).map (·.origin)

/-- Operands and results of an operation have the types that it asks for. Instances are made of what
`known` has, with the ports it has. -/
inductive Circuit.Typed (known : String → List Port → Prop) (c : Circuit) (o : Operation) : Prop
  | compute {gate : Gate} {types : List HwType} {t : HwType} (kind : o.kind = .compute gate)
    (operands : c.Types o.operands types) (gate : gate.Typed types t)
    (results : c.Types o.results [t])
  | instantiate {callee name : String} {ports : List Port}
    (kind : o.kind = .instantiate callee name) (ports_known : known callee ports)
    (operands : c.Types o.operands ((portsOf .input ports).map (·.type)))
    (results : c.Types o.results ((portsOf .output ports).map (·.type)))
  | observe (kind : o.kind = .always ∨ o.kind = .branch ∨ ∃ message, o.kind = .assertion message)
    (operands : c.Types o.operands [.bit]) (results : o.results = [])

/-- A circuit as the construction steps make it. -/
structure Circuit.WellTyped (known : String → List Port → Prop) (c : Circuit) : Prop where
  input : ∀ (v : Nat) (port : Port), c.inputPorts[v]? = some port →
    c.origin? v = some (.input v) ∧ c.type? v = some port.type
  origin : ∀ v, v < c.values.size →
    (c.origin? v = some (.input v) ∧ v < c.inputPorts.length) ∨
      ∃ i n o, c.origin? v = some (.result i n) ∧ c.operations.get? i = some o ∧
        o.results[n]? = some v
  result : ∀ (i : Nat) (o : Operation) (n v : Nat), c.operations.get? i = some o →
    o.results[n]? = some v → c.origin? v = some (.result i n)
  typed : ∀ i o, c.operations.get? i = some o → c.Typed known o
  earlier : ∀ i o, c.operations.get? i = some o → ∀ w ∈ o.operands, ∀ v ∈ o.results, w < v
  region : ∀ i o owner, c.operations.get? i = some o → o.block = .region owner → owner < i
  names : ∀ i o callee name, c.operations.get? i = some o → o.kind = .instantiate callee name →
    name ∈ c.names.taken
  instances : ∀ i o callee j o' callee' name, c.operations.get? i = some o →
    o.kind = .instantiate callee name → c.operations.get? j = some o' →
    o'.kind = .instantiate callee' name → i = j

structure Builder.WellTyped (known : String → List Port → Prop) (b : Builder) : Prop where
  circuit : b.circuit.WellTyped known
  block : ∀ owner, b.block = .region owner → owner < b.circuit.operations.size

namespace Circuit
variable {known : String → List Port → Prop} {c c' : Circuit}

theorem Types.drives (h : c.Types c.outputs (c.outputPorts.map (·.type))) :
    c.Drives c.outputPorts := by
  refine ⟨rfl, ?_⟩
  unfold Types at h
  rwa [List.forall₂_map_right_iff] at h

theorem Typed.of_type? {o : Operation} (h : c.Typed known o)
    (htype : ∀ v t, c.type? v = some t → c'.type? v = some t) : c'.Typed known o := by
  cases h with
  | compute hkind hoperands hgate hresults =>
    exact .compute hkind (hoperands.of_type? htype) hgate (hresults.of_type? htype)
  | instantiate hkind hknown hoperands hresults =>
    exact .instantiate hkind hknown (hoperands.of_type? htype) (hresults.of_type? htype)
  | observe hkind hoperands hresults =>
    exact .observe hkind (hoperands.of_type? htype) hresults

theorem Typed.of_gate {o : Operation} {gate : Gate} (h : c.Typed known o)
    (hk : o.kind = .compute gate) : ∃ types t, c.Types o.operands types ∧ gate.Typed types t ∧
      c.Types o.results [t] := by
  cases h with
  | compute hkind hoperands hgate hresults =>
    obtain ⟨⟩ := hkind.symm.trans hk
    exact ⟨_, _, hoperands, hgate, hresults⟩
  | instantiate hkind =>
    rw [hkind] at hk
    cases hk
  | observe hkind => simp [hk] at hkind

theorem Typed.of_instance {o : Operation} {callee name : String} (h : c.Typed known o)
    (hk : o.kind = .instantiate callee name) : ∃ ports, known callee ports ∧
      c.Types o.operands ((portsOf .input ports).map (·.type)) ∧
      c.Types o.results ((portsOf .output ports).map (·.type)) := by
  cases h with
  | compute hkind =>
    rw [hkind] at hk
    cases hk
  | instantiate hkind hknown hoperands hresults =>
    obtain ⟨⟩ := hkind.symm.trans hk
    exact ⟨_, hknown, hoperands, hresults⟩
  | observe hkind => simp [hk] at hkind

theorem WellTyped.of_same (hc : c.WellTyped known) (hports : c'.ports = c.ports)
    (hsize : c'.values.size = c.values.size) (hoperations : c'.operations = c.operations)
    (horigin : ∀ v, c'.origin? v = c.origin? v) (htype : ∀ v, c'.type? v = c.type? v)
    (hnames : ∀ name ∈ c.names.taken, name ∈ c'.names.taken) : c'.WellTyped known where
  input v port hport := by
    rw [horigin, htype]
    exact hc.input v port (by rwa [inputPorts, hports] at hport)
  origin v hv := by
    rw [horigin, hoperations, inputPorts, hports]
    exact hc.origin v (hsize ▸ hv)
  result i o n v ho hv := by
    rw [horigin]
    exact hc.result i o n v (hoperations ▸ ho) hv
  typed i o ho := (hc.typed i o (hoperations ▸ ho)).of_type? fun v t h => by rw [htype, h]
  earlier i o ho := hc.earlier i o (hoperations ▸ ho)
  region i o owner ho := hc.region i o owner (hoperations ▸ ho)
  names i o callee name ho hk := hnames name (hc.names i o callee name (hoperations ▸ ho) hk)
  instances i o callee j o' callee' name ho hk ho' hk' :=
    hc.instances i o callee j o' callee' name (hoperations ▸ ho) hk (hoperations ▸ ho') hk'

section Append
variable {block : Block} {kind : OperationKind} {operands : List Nat} {types : List HwType}

theorem get?_values_append_new (n : Nat) :
    (c.append block kind operands types).values.get? (c.values.size + n) =
      types[n]?.map fun type => { type, origin := .result c.operations.size n } := by
  unfold append
  dsimp only
  rw [Arena.get?_eq_values, Arena.values_pushAll, ← Arena.length_values,
    List.getElem?_append_right (Nat.le_add_right _ _), Nat.add_sub_cancel_left,
    List.getElem?_mapIdx]
  rfl

private theorem origin?_append_of_lt {v : Nat} (hv : v < c.values.size) :
    (c.append block kind operands types).origin? v = c.origin? v := by
  rw [origin?, get?_values_append_of_lt hv, origin?]

private theorem origin?_append_new {n : Nat} (hn : n < types.length) :
    (c.append block kind operands types).origin? (c.values.size + n) =
      some (.result c.operations.size n) := by
  rw [origin?, get?_values_append_new, List.getElem?_eq_getElem hn]
  rfl

theorem type?_append {v : Nat} {t : HwType} (h : c.type? v = some t) :
    (c.append block kind operands types).type? v = some t := by
  rw [append_extends.type? (lt_of_type? h), h]

theorem types_append_new :
    (c.append block kind operands types).Types (List.range' c.values.size types.length) types := by
  unfold Types
  rw [List.forall₂_iff_get]
  refine ⟨List.length_range', fun n hn hn' => ?_⟩
  rw [List.get_eq_getElem, List.getElem_range', Nat.one_mul, type?, get?_values_append_new,
    List.getElem?_eq_getElem hn']
  rfl

theorem get?_operations_append_cases {i : Nat} {o : Operation}
    (h : (c.append block kind operands types).operations.get? i = some o) :
    (i < c.operations.size ∧ c.operations.get? i = some o) ∨
      (i = c.operations.size ∧
        o = ⟨kind, operands, List.range' c.values.size types.length, block⟩) := by
  have hlt := lt_of_get?_operations h
  rw [size_operations_append] at hlt
  by_cases hi : i < c.operations.size
  · rw [get?_operations_append_of_lt hi] at h
    exact .inl ⟨hi, h⟩
  · obtain rfl : i = c.operations.size := by omega
    rw [get?_operations_append_self] at h
    cases h
    exact .inr ⟨rfl, rfl⟩

theorem WellTyped.append (hc : c.WellTyped known)
    (hoperands : ∀ w ∈ operands, w < c.values.size)
    (hblock : ∀ owner, block = .region owner → owner < c.operations.size)
    (htyped : (c.append block kind operands types).Typed known
      ⟨kind, operands, List.range' c.values.size types.length, block⟩)
    (htaken : ∀ callee name, kind = .instantiate callee name → name ∈ c.names.taken)
    (hfresh : ∀ callee name, kind = .instantiate callee name → ∀ i o callee',
      c.operations.get? i = some o → o.kind ≠ .instantiate callee' name) :
    (c.append block kind operands types).WellTyped known := by
  have hcases := fun i o => @get?_operations_append_cases c block kind operands types i o
  constructor
  case input =>
    intro v port hport
    obtain ⟨horigin, htype⟩ := hc.input v port hport
    rw [origin?_append_of_lt (lt_of_type? htype)]
    exact ⟨horigin, type?_append htype⟩
  case origin =>
    intro v hv
    by_cases hold : v < c.values.size
    · rw [origin?_append_of_lt hold]
      rcases hc.origin v hold with hin | ⟨i, n, o, horigin, ho, hn⟩
      · exact .inl hin
      · refine .inr ⟨i, n, o, horigin, ?_, hn⟩
        rw [get?_operations_append_of_lt (lt_of_get?_operations ho), ho]
    · rw [size_values_append] at hv
      obtain ⟨n, rfl⟩ := Nat.exists_eq_add_of_le (Nat.le_of_not_lt hold)
      have hn : n < types.length := by omega
      refine .inr ⟨_, n, _, origin?_append_new hn, get?_operations_append_self, ?_⟩
      rw [List.getElem?_range' hn, Nat.one_mul]
  case result =>
    intro i o n v ho hv
    rcases hcases i o ho with ⟨hi, ho⟩ | ⟨rfl, rfl⟩
    · have horigin := hc.result i o n v ho hv
      have hlt : v < c.values.size := by
        unfold origin? at horigin
        obtain ⟨x, hx, -⟩ := Option.map_eq_some_iff.mp horigin
        exact lt_of_get?_values hx
      rw [origin?_append_of_lt hlt, horigin]
    · obtain ⟨hn, rfl⟩ := List.getElem?_eq_some_iff.mp hv
      rw [List.length_range'] at hn
      rw [List.getElem_range', Nat.one_mul, origin?_append_new hn]
  case typed =>
    intro i o ho
    rcases hcases i o ho with ⟨hi, ho⟩ | ⟨rfl, rfl⟩
    · exact (hc.typed i o ho).of_type? fun v t => type?_append
    · exact htyped
  case earlier =>
    intro i o ho
    rcases hcases i o ho with ⟨hi, ho⟩ | ⟨rfl, rfl⟩
    · exact hc.earlier i o ho
    · intro w hw v hv
      have hlt := hoperands w hw
      have hle := (List.mem_range'_1.mp hv).1
      omega
  case region =>
    intro i o owner ho hb
    rcases hcases i o ho with ⟨hi, ho⟩ | ⟨rfl, rfl⟩
    · exact hc.region i o owner ho hb
    · exact hblock owner hb
  case names =>
    intro i o callee name ho hk
    rcases hcases i o ho with ⟨hi, ho⟩ | ⟨rfl, rfl⟩
    · exact hc.names i o callee name ho hk
    · exact htaken callee name hk
  case instances =>
    intro i o callee j o' callee' name ho hk ho' hk'
    rcases hcases i o ho with ⟨hi, ho⟩ | ⟨rfl, rfl⟩ <;>
      rcases hcases j o' ho' with ⟨hj, ho'⟩ | ⟨rfl, rfl⟩
    · exact hc.instances i o callee j o' callee' name ho hk ho' hk'
    -- An old instance and the new one would share a name, which was not free.
    · exact absurd hk (hfresh callee' name hk' i o callee ho)
    · exact absurd hk' (hfresh callee name hk j o' callee' ho')
    · rfl

end Append

end Circuit

namespace Builder
variable {known : String → List Port → Prop} {b b' : Builder}

theorem WellTyped.append (hb : b.WellTyped known) {kind : OperationKind} {operands : List Nat}
    {types : List HwType} (hc : (b.append kind operands types).circuit.WellTyped known) :
    (b.append kind operands types).WellTyped known :=
  ⟨hc, fun owner howner => Circuit.append_extends.lt_operations (hb.block owner howner)⟩

private theorem WellTyped.takeName (hb : b.WellTyped known) (name : String) :
    (b.takeName name).WellTyped known := by
  refine ⟨hb.circuit.of_same rfl rfl rfl (fun _ => rfl) (fun _ => rfl) fun taken h => ?_, hb.block⟩
  unfold Builder.takeName
  rw [(b.circuit.names.fresh_spec name).2]
  exact List.mem_cons_of_mem _ h

theorem get?_values_rename_eq (b : Builder) (v : Nat) (name : String) (w : Nat) :
    (b.rename v name).circuit.values.get? w = if v = w then
      (b.circuit.values.get? w).map fun value =>
        { value with name := some (b.circuit.names.fresh name).1 }
      else b.circuit.values.get? w := Array.getElem?_modify

theorem get?_values_rename (b : Builder) (v : Nat) (name : String) (w : Nat) :
    ∃ f : Value → Value, (b.rename v name).circuit.values.get? w = (b.circuit.values.get? w).map f ∧
      (∀ x, (f x).type = x.type) ∧ ∀ x, (f x).origin = x.origin := by
  rw [get?_values_rename_eq]
  split
  · exact ⟨_, rfl, fun _ => rfl, fun _ => rfl⟩
  · exact ⟨id, Option.map_id.symm ▸ rfl, fun _ => rfl, fun _ => rfl⟩

theorem WellTyped.rename (hb : b.WellTyped known) (v : Nat) (name : String) :
    (b.rename v name).WellTyped known := by
  refine ⟨hb.circuit.of_same rfl Array.size_modify rfl (fun w => ?_) (fun w => ?_)
    fun taken h => ?_, hb.block⟩
  · obtain ⟨f, hget, -, horigin⟩ := b.get?_values_rename v name w
    rw [Circuit.origin?, hget, Option.map_map, Circuit.origin?]
    exact congrArg (Option.map · _) (funext horigin)
  · obtain ⟨f, hget, htype, -⟩ := b.get?_values_rename v name w
    rw [Circuit.type?, hget, Option.map_map, Circuit.type?]
    exact congrArg (Option.map · _) (funext htype)
  · unfold Builder.rename
    rw [(b.circuit.names.fresh_spec name).2]
    exact List.mem_cons_of_mem _ h

theorem WellTyped.step (hb : b.WellTyped known) (hstep : b.Step known b') :
    b'.WellTyped known := by
  cases hstep with
  | look => exact hb
  | enter hregion =>
    refine ⟨hb.circuit, fun owner howner => ?_⟩
    obtain ⟨o, ho, -⟩ := hregion owner howner
    exact Circuit.lt_of_get?_operations ho
  | rename v name => exact hb.rename v name
  | compute hoperands hgate =>
    refine hb.append (hb.circuit.append hoperands.lt hb.block ?_ ?_ ?_)
    · exact .compute rfl (hoperands.of_type? fun _ _ => Circuit.type?_append) hgate
        Circuit.types_append_new
    · rintro _ _ ⟨⟩
    · rintro _ _ ⟨⟩
  | @instantiate callee ports inputs name hknown hinputs =>
    have hname := hb.takeName name
    obtain ⟨hfresh, htaken⟩ := b.circuit.names.fresh_spec name
    have hinputs : (b.takeName name).circuit.Types inputs
        ((portsOf .input ports).map (·.type)) := hinputs
    refine hname.append (hname.circuit.append hinputs.lt hname.block ?_ ?_ ?_)
    · exact .instantiate rfl hknown (hinputs.of_type? fun _ _ => Circuit.type?_append)
        Circuit.types_append_new
    · rintro _ _ ⟨rfl⟩
      unfold Builder.takeName
      rw [htaken]
      exact List.mem_cons_self
    · rintro _ _ ⟨rfl⟩ i o callee' ho hk
      exact hfresh (hb.circuit.names i o callee' _ ho hk)
  | observe hkind htype =>
    refine hb.append (hb.circuit.append ?_ hb.block ?_ ?_ ?_)
    · exact List.forall_mem_singleton.mpr (Circuit.lt_of_type? htype)
    · exact .observe hkind (.cons (Circuit.type?_append htype) .nil) rfl
    · rintro callee name rfl
      obtain ⟨⟨⟩⟩ | ⟨⟨⟩⟩ | ⟨_, ⟨⟩⟩ := hkind
    · rintro callee name rfl
      obtain ⟨⟨⟩⟩ | ⟨⟨⟩⟩ | ⟨_, ⟨⟩⟩ := hkind
  | output htypes =>
    exact ⟨hb.circuit.of_same rfl rfl rfl (fun _ => rfl) (fun _ => rfl) fun _ h => h, hb.block⟩

theorem Step.keeps (hstep : b.Step known b') : b'.circuit.ports = b.circuit.ports ∧
    ∀ v t, b.circuit.type? v = some t → b'.circuit.type? v = some t := by
  cases hstep with
  | look => exact ⟨rfl, fun _ _ h => h⟩
  | enter hregion => exact ⟨rfl, fun _ _ h => h⟩
  | rename v name =>
    refine ⟨rfl, fun w t h => ?_⟩
    obtain ⟨f, hget, htype, -⟩ := b.get?_values_rename v name w
    rw [Circuit.type?, hget, Option.map_map, ← h, Circuit.type?]
    exact congrArg (Option.map · _) (funext htype)
  | compute | observe => exact ⟨rfl, fun _ _ => Circuit.type?_append⟩
  | instantiate name =>
    exact ⟨rfl, fun _ _ h => Circuit.type?_append (c := (b.takeName name).circuit) h⟩
  | output htypes => exact ⟨rfl, fun _ _ h => h⟩

private theorem Step.drives (hstep : b.Step known b') (h : b.circuit.Drives b.circuit.outputPorts) :
    b'.circuit.Drives b'.circuit.outputPorts := by
  obtain ⟨hports, htype⟩ := hstep.keeps
  have hold : b'.circuit.outputs = b.circuit.outputs →
      b'.circuit.Drives b'.circuit.outputPorts := by
    intro houtputs
    refine ⟨rfl, ?_⟩
    rw [houtputs, Circuit.outputPorts, hports]
    refine h.outputs.imp ?_
    intro v port hport
    exact htype v port.type hport
  cases hstep with
  | output htypes => exact Circuit.Types.drives htypes
  | look | enter | rename | compute | instantiate | observe => exact hold rfl

private theorem WellTyped.calls (hb : b.WellTyped known) {calls : List BuildCall}
    (hcalls : ∀ call ∈ calls, call.Respects known) :
    Ensures (calls.forM BuildCall.run) b fun _ b' => b'.WellTyped known := by
  induction calls generalizing b with
  | nil => exact .pure hb
  | cons call calls ih =>
    rw [List.forall_mem_cons] at hcalls
    refine Ensures.bind (BuildCall.run_steps hcalls.1 b) fun _ b₁ h₁ => ?_
    exact ih (hb.step h₁) hcalls.2

private theorem drives_calls {calls : List BuildCall} (hcalls : ∀ call ∈ calls, call.Respects known)
    (h : b.circuit.Drives b.circuit.outputPorts ∨ ∃ values, .output values ∈ calls) :
    Ensures (calls.forM BuildCall.run) b fun _ b' => b'.circuit.Drives b'.circuit.outputPorts := by
  induction calls generalizing b with
  | nil =>
    obtain h | ⟨_, ⟨⟩⟩ := h
    exact .pure h
  | cons call calls ih =>
    rw [List.forall_mem_cons] at hcalls
    have hsteps := BuildCall.run_steps hcalls.1 b
    rcases h with h | ⟨values, hmem⟩
    · exact Ensures.bind hsteps fun _ b₁ h₁ => ih hcalls.2 (.inl (h₁.drives h))
    · rcases List.mem_cons.mp hmem with rfl | hmem
      · refine Ensures.bind (Build.output_ensures values) fun _ b₁ h₁ => ih hcalls.2 (.inl ?_)
        obtain ⟨htypes, rfl⟩ := h₁
        exact Circuit.Types.drives htypes
      · exact Ensures.bind hsteps fun _ b₁ _ => ih hcalls.2 (.inr ⟨values, hmem⟩)

end Builder

namespace Circuit
variable {known : String → List Port → Prop} {c : Circuit}

theorem wellTyped_ofPorts {name : String} {ports : List Port} (h : ofPorts name ports = .ok c) :
    c.WellTyped known := by
  obtain ⟨-, hports, hoperations⟩ := ofPorts_eq h
  have hget := get?_values_ofPorts h
  have hnone : ∀ i o, c.operations.get? i ≠ some o := by
    intro i o ho
    rw [hoperations] at ho
    cases ho
  have hinput : ∀ (v : Nat) (port : Port), c.inputPorts[v]? = some port →
      c.origin? v = some (.input v) ∧ c.type? v = some port.type := by
    intro v port hport
    rw [inputPorts, hports] at hport
    rw [origin?, type?, hget, hport]
    exact ⟨rfl, rfl⟩
  constructor
  case input => exact hinput
  case origin =>
    intro v hv
    obtain ⟨x, hx⟩ := get?_values_of_lt hv
    rw [hget, ← hports] at hx
    obtain ⟨port, hport, -⟩ := Option.map_eq_some_iff.mp hx
    exact .inl ⟨(hinput v port hport).1, (List.getElem?_eq_some_iff.mp hport).1⟩
  case result => exact fun i o n v ho => absurd ho (hnone i o)
  case typed => exact fun i o ho => absurd ho (hnone i o)
  case earlier => exact fun i o ho => absurd ho (hnone i o)
  case region => exact fun i o owner ho => absurd ho (hnone i o)
  case names => exact fun i o callee name ho => absurd ho (hnone i o)
  case instances => exact fun i o callee j o' callee' name ho => absurd ho (hnone i o)

/-- The circuit is what `calls` make of its ports. -/
def BuiltBy (c : Circuit) (calls : List BuildCall) : Prop :=
  ∃ name ports start, ofPorts name ports = .ok start ∧
    start.build (calls.forM BuildCall.run) = .ok ((), c)

/-- A circuit that is built by calls, of known instances, is well typed; its outputs are driven if
they are set at all. -/
theorem BuiltBy.wellTyped {calls : List BuildCall} (h : c.BuiltBy calls)
    (hcalls : ∀ call ∈ calls, call.Respects known) :
    c.WellTyped known ∧
      ((∃ values, .output values ∈ calls) → c.Drives c.outputPorts) := by
  obtain ⟨name, ports, start, hstart, hbuild⟩ := h
  unfold build at hbuild
  split at hbuild
  next a b hrun =>
    cases hbuild
    have hsound : Builder.WellTyped known { circuit := start } :=
      ⟨wellTyped_ofPorts hstart, by rintro _ ⟨⟩⟩
    exact ⟨(hsound.calls hcalls _ _ hrun).circuit, fun houtput =>
      Builder.drives_calls hcalls (.inr houtput) _ _ hrun⟩
  next => cases hbuild

end Circuit
end ChannelCodec
