import ChannelCodec.Circuit.Simulation
import ChannelCodec.Proofs.Bits.Positions

/-! What circuits mean. The meaning of a value is found by recursion over the operations that
lead to it, without a store and without an order of evaluation; the alarms of an operation are
the messages of the assertions in it that do not hold. -/
namespace ChannelCodec

structure Setting where
  /-- The values of its inputs, in order. -/
  inputs : List Bits
  /-- The outputs of other circuits, for values of their inputs. -/
  callee : String → List Bits → List Bits := fun _ _ => []

namespace Circuit

def resultWidth (c : Circuit) (o : Operation) : Nat :=
  ((o.results.head?.bind c.type?).map HwType.bitWidth).getD 0

def operandTypes (c : Circuit) (o : Operation) : List HwType := o.operands.filterMap c.type?

def resultOf (c : Circuit) (e : Setting) (o : Operation) (operands : List Bits) (n : Nat) : Bits :=
  match o.kind with
  | .compute gate =>
    match gate.eval (c.resultWidth o) (c.operandTypes o) operands with
    | .ok b => b
    | .error _ => .zero 0
  | .instantiate callee _ => (e.callee callee operands).getD n (.zero 0)
  | _ => .zero 0

def meaning (c : Circuit) (e : Setting) (v : Nat) : Bits :=
  match c.values.get? v with
  | none => .zero 0
  | some x =>
    match x.origin with
    | .input n => e.inputs.getD n (.zero 0)
    | .result i n =>
      match c.operations.get? i with
      | none => .zero 0
      | some o =>
        let operands := o.operands.map fun w => if _h : w < v then c.meaning e w else .zero 0
        c.resultOf e o operands n
termination_by v
decreasing_by assumption

/-- The messages of the assertions in operation `i` that do not hold, in order. -/
def alarms (c : Circuit) (e : Setting) (i : Nat) : List String :=
  match c.operations.get? i with
  | none => []
  | some o =>
    match o.kind, o.operands with
    | .assertion message, v :: _ => if (c.meaning e v).bit 0 then [] else [message]
    | .always, v :: _ | .branch, v :: _ =>
      if (c.meaning e v).bit 0 then
        (c.operationsIn (.region i)).flatMap fun j =>
          if _h : i < j ∧ j < c.operations.size then c.alarms e j else []
      else []
    | _, _ => []
termination_by c.operations.size - i
decreasing_by omega

structure Computes (c : Circuit) (e : Setting) (o : Operation) (v : Nat) : Prop where
  results : o.results = [v]
  earlier : ∀ w ∈ o.operands, w < v
  eval : ∃ gate b, o.kind = .compute gate ∧
    gate.eval (c.resultWidth o) (c.operandTypes o) (o.operands.map (c.meaning e)) = .ok b

structure Observes (c : Circuit) (o : Operation) : Prop where
  results : o.results = []
  operand : ∃ v, o.operands = [v] ∧ v < c.values.size
  kind : o.kind = .always ∨ o.kind = .branch ∨ ∃ message, o.kind = .assertion message

/-- A circuit without instances that runs in a setting: the inputs are its first values, every
other value is computed from earlier ones, and regions belong to earlier operations. -/
structure Straight (c : Circuit) (e : Setting) : Prop where
  inputs : e.inputs.length = c.inputPorts.length
  input : ∀ v, v < c.inputPorts.length → ∃ x, c.values.get? v = some x ∧ x.origin = .input v
  origin : ∀ v x, c.values.get? v = some x →
    (x.origin = .input v ∧ v < c.inputPorts.length) ∨
      ∃ i n o, x.origin = .result i n ∧ c.operations.get? i = some o ∧ c.Computes e o v
  operation : ∀ i o, c.operations.get? i = some o →
    (∃ v, v < c.values.size ∧ c.Computes e o v) ∨ c.Observes o
  region : ∀ i o owner, c.operations.get? i = some o → o.block = .region owner → owner < i

variable {c : Circuit} {e : Setting}

theorem get?_values_of_lt {v : Nat} (h : v < c.values.size) : ∃ x, c.values.get? v = some x := by
  cases hx : c.values.get? v with
  | some x => exact ⟨x, rfl⟩
  | none =>
    rw [Arena.get?_eq_values, List.getElem?_eq_none_iff, Arena.length_values] at hx
    omega

theorem lt_of_get?_values {v : Nat} {x : Value} (h : c.values.get? v = some x) :
    v < c.values.size := by
  rw [Arena.get?_eq_values] at h
  have := (List.getElem?_eq_some_iff.mp h).1
  rwa [Arena.length_values] at this

theorem lt_of_get?_operations {i : Nat} {o : Operation} (h : c.operations.get? i = some o) :
    i < c.operations.size := by
  rw [Arena.get?_eq_values] at h
  have := (List.getElem?_eq_some_iff.mp h).1
  rwa [Arena.length_values] at this

theorem get?_operations_of_lt {i : Nat} (h : i < c.operations.size) :
    ∃ o, c.operations.get? i = some o := by
  cases ho : c.operations.get? i with
  | some o => exact ⟨o, rfl⟩
  | none =>
    rw [Arena.get?_eq_values, List.getElem?_eq_none_iff, Arena.length_values] at ho
    omega

theorem meaning_input {v n : Nat} {x : Value} (hx : c.values.get? v = some x)
    (ho : x.origin = .input n) : c.meaning e v = e.inputs.getD n (.zero 0) := by
  rw [meaning]
  simp [hx, ho]

theorem meaning_result {v i n : Nat} {x : Value} {o : Operation} (hx : c.values.get? v = some x)
    (ho : x.origin = .result i n) (hi : c.operations.get? i = some o)
    (hlt : ∀ w ∈ o.operands, w < v) :
    c.meaning e v = c.resultOf e o (o.operands.map (c.meaning e)) n := by
  have hops : (o.operands.map fun w => if _h : w < v then c.meaning e w else .zero 0) =
      o.operands.map (c.meaning e) := by
    apply List.map_congr_left
    intro w hw
    rw [dif_pos (hlt w hw)]
  rw [meaning]
  simp only [hx, ho, hi, hops]

theorem meaning_of_eval {v i n : Nat} {x : Value} {o : Operation} {gate : Gate} {b : Bits}
    (hx : c.values.get? v = some x) (ho : x.origin = .result i n)
    (hi : c.operations.get? i = some o) (hk : o.kind = .compute gate)
    (hlt : ∀ w ∈ o.operands, w < v)
    (heval : gate.eval (c.resultWidth o) (c.operandTypes o) (o.operands.map (c.meaning e)) =
      .ok b) : c.meaning e v = b := by
  rw [meaning_result hx ho hi hlt]
  unfold resultOf
  simp only [hk, heval]

theorem mem_operationsIn {block : Block} {i : Nat} :
    i ∈ c.operationsIn block ↔ ∃ o, c.operations.get? i = some o ∧ o.block = block := by
  simp only [operationsIn, List.mem_filter, List.mem_range]
  constructor
  · rintro ⟨_, h⟩
    cases ho : c.operations.get? i with
    | none => simp [ho] at h
    | some o => exact ⟨o, rfl, by simpa [ho] using h⟩
  · rintro ⟨o, ho, hb⟩
    exact ⟨lt_of_get?_operations ho, by simpa [ho] using hb⟩

theorem Straight.lt_of_mem_region (h : c.Straight e) {i j : Nat}
    (hj : j ∈ c.operationsIn (.region i)) : i < j ∧ j < c.operations.size := by
  obtain ⟨o, ho, hb⟩ := mem_operationsIn.mp hj
  exact ⟨h.region j o i ho hb, lt_of_get?_operations ho⟩

end Circuit
end ChannelCodec
