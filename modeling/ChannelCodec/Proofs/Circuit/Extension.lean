import ChannelCodec.Proofs.Circuit.Meaning
import Mathlib.Data.List.Basic

/-! Extending circuits. A circuit that grows keeps its values and operations, and with them every
meaning found so far. -/
namespace ChannelCodec.Circuit

/-- `c'` has all values and operations of `c`, perhaps under other names, and may have more. -/
structure Extends (c c' : Circuit) : Prop where
  name : c'.name = c.name
  ports : c'.ports = c.ports
  values : ∀ v x, c.values.get? v = some x →
    ∃ x', c'.values.get? v = some x' ∧ x'.type = x.type ∧ x'.origin = x.origin
  operations : ∀ i o, c.operations.get? i = some o → c'.operations.get? i = some o

variable {c c' c'' : Circuit} {e : Setting}

theorem Extends.refl (c : Circuit) : Extends c c :=
  ⟨rfl, rfl, fun _ x hx => ⟨x, hx, rfl, rfl⟩, fun _ _ ho => ho⟩

theorem Extends.trans (h : Extends c c') (h' : Extends c' c'') : Extends c c'' := by
  refine ⟨h'.name.trans h.name, h'.ports.trans h.ports, fun v x hx => ?_, fun i o ho =>
    h'.operations i o (h.operations i o ho)⟩
  obtain ⟨x', hx', ht, ho⟩ := h.values v x hx
  obtain ⟨x'', hx'', ht', ho'⟩ := h'.values v x' hx'
  exact ⟨x'', hx'', ht'.trans ht, ho'.trans ho⟩

theorem Extends.outputPorts (h : Extends c c') : c'.outputPorts = c.outputPorts := by
  rw [Circuit.outputPorts, Circuit.outputPorts, h.ports]

theorem Extends.lt (h : Extends c c') {v : Nat} (hv : v < c.values.size) :
    v < c'.values.size := by
  obtain ⟨x, hx⟩ := get?_values_of_lt hv
  obtain ⟨x', hx', _⟩ := h.values v x hx
  exact lt_of_get?_values hx'

theorem Extends.lt_operations (h : Extends c c') {i : Nat} (hi : i < c.operations.size) :
    i < c'.operations.size := by
  obtain ⟨o, ho⟩ := get?_operations_of_lt hi
  exact lt_of_get?_operations (h.operations i o ho)

theorem type?_of_get? {v : Nat} {x : Value} (hx : c.values.get? v = some x) :
    c.type? v = some x.type := by
  rw [type?, hx, Option.map_some]

theorem lt_of_type? {v : Nat} {t : HwType} (h : c.type? v = some t) : v < c.values.size := by
  rw [type?, Option.map_eq_some_iff] at h
  obtain ⟨x, hx, _⟩ := h
  exact lt_of_get?_values hx

/-- The output ports are `ports`, and each of them shows a value of its type. -/
structure Drives (c : Circuit) (ports : List Port) : Prop where
  outputPorts : c.outputPorts = ports
  outputs : List.Forall₂ (fun v port => c.type? v = some port.type) c.outputs ports

theorem Extends.type? (h : Extends c c') {v : Nat} (hv : v < c.values.size) :
    c'.type? v = c.type? v := by
  obtain ⟨x, hx⟩ := get?_values_of_lt hv
  obtain ⟨x', hx', ht, _⟩ := h.values v x hx
  rw [type?_of_get? hx, type?_of_get? hx', ht]

private theorem Extends.operandTypes (h : Extends c c') {o : Operation}
    (ho : ∀ w ∈ o.operands, w < c.values.size) : c'.operandTypes o = c.operandTypes o := by
  apply List.filterMap_congr
  intro w hw
  exact h.type? (ho w hw)

private theorem Extends.resultWidth (h : Extends c c') {o : Operation} {v : Nat}
    (hr : o.results = [v]) (hv : v < c.values.size) : c'.resultWidth o = c.resultWidth o := by
  simp [Circuit.resultWidth, hr, h.type? hv]

theorem Extends.meaning (h : Extends c c') (hc : c.Straight e) {v : Nat}
    (hv : v < c.values.size) : c'.meaning e v = c.meaning e v := by
  induction v using Nat.strongRecOn with
  | ind v ih =>
    obtain ⟨x, hx⟩ := get?_values_of_lt hv
    obtain ⟨x', hx', _, horigin⟩ := h.values v x hx
    rcases hc.origin v x hx with ⟨ho, _⟩ | ⟨i, n, o, ho, hi, hcomp⟩
    · rw [meaning_input hx ho, meaning_input hx' (horigin.trans ho)]
    · obtain ⟨gate, b, hk, heval⟩ := hcomp.eval
      have hlt : ∀ w ∈ o.operands, w < c.values.size := fun w hw =>
        Nat.lt_trans (hcomp.earlier w hw) hv
      have hmap : o.operands.map (c'.meaning e) = o.operands.map (c.meaning e) :=
        List.map_congr_left fun w hw => ih w (hcomp.earlier w hw) (hlt w hw)
      have heval' : gate.eval (c'.resultWidth o) (c'.operandTypes o)
          (o.operands.map (c'.meaning e)) = .ok b := by
        rw [h.resultWidth hcomp.results hv, h.operandTypes hlt, hmap, heval]
      rw [meaning_of_eval hx ho hi hk hcomp.earlier heval,
        meaning_of_eval hx' (horigin.trans ho) (h.operations i o hi) hk hcomp.earlier heval']

/-! A new circuit has its ports and nothing else. -/

section Ports
variable {name : String} {ports : List Port}

theorem ofPorts_eq (h : ofPorts name ports = .ok c) :
    c.name = name ∧ c.ports = ports ∧ c.operations = ∅ := by
  unfold ofPorts at h
  split at h
  · cases h
  · cases h
    exact ⟨rfl, rfl, rfl⟩

theorem get?_values_ofPorts (h : ofPorts name ports = .ok c) (v : Nat) :
    c.values.get? v = (portsOf .input ports)[v]?.map fun port =>
      { type := port.type, origin := .input v, name := some port.name } := by
  unfold ofPorts at h
  split at h
  · cases h
  · cases h
    rw [Arena.get?_eq_values, Arena.values_pushAll]
    exact List.getElem?_mapIdx

end Ports

/-! Appending an operation. -/

section Append
variable {block : Block} {kind : OperationKind} {operands : List Nat} {types : List HwType}

theorem get?_values_append_of_lt {v : Nat} (hv : v < c.values.size) :
    (c.append block kind operands types).values.get? v = c.values.get? v := by
  simp only [append]
  exact Arena.get?_pushAll_of_lt _ _ hv

theorem get?_operations_append_of_lt {i : Nat} (hi : i < c.operations.size) :
    (c.append block kind operands types).operations.get? i = c.operations.get? i := by
  simp only [append]
  exact Arena.get?_push_of_lt _ _ hi

theorem get?_operations_append_self :
    (c.append block kind operands types).operations.get? c.operations.size =
      some ⟨kind, operands, List.range' c.values.size types.length, block⟩ := by
  simp only [append]
  exact Arena.get?_push_self _ _

@[simp] theorem size_operations_append :
    (c.append block kind operands types).operations.size = c.operations.size + 1 := by
  simp [append]

@[simp] theorem size_values_append :
    (c.append block kind operands types).values.size = c.values.size + types.length := by
  simp [append]

theorem append_extends : Extends c (c.append block kind operands types) := by
  refine ⟨rfl, rfl, fun v x hx => ?_, fun i o ho => ?_⟩
  · refine ⟨x, ?_, rfl, rfl⟩
    rw [get?_values_append_of_lt (lt_of_get?_values hx), hx]
  · rw [get?_operations_append_of_lt (lt_of_get?_operations ho), ho]

theorem operationsIn_append (blk : Block) :
    (c.append block kind operands types).operationsIn blk =
      c.operationsIn blk ++ if block = blk then [c.operations.size] else [] := by
  unfold operationsIn
  rw [size_operations_append, List.range_succ, List.filter_append]
  congr 1
  · apply List.filter_congr
    intro i hi
    rw [get?_operations_append_of_lt (List.mem_range.mp hi)]
  · simp only [List.filter_cons, get?_operations_append_self, List.filter_nil]
    by_cases hb : block = blk <;> simp [hb]

end Append

end ChannelCodec.Circuit
