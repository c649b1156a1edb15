import ChannelCodec.Proofs.Circuit.Growing
import ChannelCodec.Proofs.Circuit.Running

/-! What changes besides values. Names and outputs do not matter to any meaning, an assertion adds
its message to the region it stands in, and regions are opened before anything is computed in
them. In the end the alarms of a block are those of its own assertions and of its regions. -/
namespace ChannelCodec

namespace Circuit
variable {c c' : Circuit} {e : Setting}

theorem alarms_of_no_region {i : Nat} {o : Operation} (ho : c.operations.get? i = some o)
    (hk : o.kind.hasRegion = false) : c.alarms e i = c.failure e o := by
  rw [alarms]
  simp only [ho, failure]
  cases hkind : o.kind with
  | assertion message => cases o.operands <;> rfl
  | compute | instantiate => rfl
  | always | branch =>
    rw [hkind] at hk
    cases hk

theorem flatMap_alarms_of_no_guards {block : Block} (h : c.guards block = []) :
    (c.operationsIn block).flatMap (c.alarms e) = c.failures e block := by
  apply List.flatMap_congr
  intro i hi
  obtain ⟨o, ho, _⟩ := mem_operationsIn.mp hi
  have hk : o.kind.hasRegion = false := by
    have hnot := List.filter_eq_nil_iff.mp h i hi
    simpa [ho] using hnot
  rw [alarms_of_no_region ho hk, ho]

theorem flatMap_alarms_of_no_failures {block : Block} (h : c.failures e block = []) :
    (c.operationsIn block).flatMap (c.alarms e) = (c.guards block).flatMap (c.alarms e) := by
  have hnone : ∀ i ∈ c.operationsIn block, ∃ o, c.operations.get? i = some o ∧
      c.failure e o = [] := by
    intro i hi
    obtain ⟨o, ho, _⟩ := mem_operationsIn.mp hi
    have hi := List.flatMap_eq_nil_iff.mp h i hi
    exact ⟨o, ho, by simpa only [ho] using hi⟩
  unfold guards
  generalize c.operationsIn block = items at hnone
  induction items with
  | nil => rfl
  | cons i items ih =>
    obtain ⟨o, ho, hfail⟩ := hnone i List.mem_cons_self
    have hrest := ih fun j hj => hnone j (List.mem_cons_of_mem i hj)
    simp only [List.flatMap_cons, List.filter_cons, ho]
    cases hk : o.kind.hasRegion with
    | true => rw [if_pos rfl, List.flatMap_cons, hrest]
    | false =>
      rw [if_neg Bool.false_ne_true, alarms_of_no_region ho hk, hfail, List.nil_append, hrest]

theorem alarms_of_guard (hc : c.Straight e) {i v : Nat} {kind : OperationKind} {block : Block}
    (ho : c.operations.get? i = some ⟨kind, [v], [], block⟩) (hk : kind.hasRegion = true) :
    c.alarms e i =
      if (c.meaning e v).bit 0 then (c.operationsIn (.region i)).flatMap (c.alarms e) else [] := by
  have hregion : ((c.operationsIn (.region i)).flatMap fun j =>
      if _h : i < j ∧ j < c.operations.size then c.alarms e j else []) =
        (c.operationsIn (.region i)).flatMap (c.alarms e) := by
    apply List.flatMap_congr
    intro j hj
    rw [dif_pos (hc.lt_of_mem_region hj)]
  rw [alarms]
  cases kind with
  | always | branch => simp only [ho, hregion]
  | compute | instantiate | assertion => cases hk

end Circuit

variable {e : Setting} {r : Nat} {messages : List String} {b b' : Builder}

theorem Grows.within {block : Block} (hb : b.Sound e)
    (h : Grows e r messages { b with block } b') :
    Grows e r messages b { b' with block := b.block } where
  before := hb
  after := h.after.of_ports ⟨h.after.wellTyped.circuit, fun owner howner =>
    h.circuit.lt_operations (hb.wellTyped.block owner howner)⟩ rfl
  circuit := h.circuit
  block := rfl
  guards := h.guards
  failures := h.failures
  elsewhere := h.elsewhere

theorem Grows.size_le (h : Grows e r messages b b') :
    b.circuit.values.size ≤ b'.circuit.values.size := by
  by_cases hz : b.circuit.values.size = 0
  · omega
  · have hlt := h.circuit.lt (v := b.circuit.values.size - 1) (by omega)
    omega

theorem Grows.get?_operations (h : Grows e r messages b b') {i : Nat} {o : Operation}
    (ho : b.circuit.operations.get? i = some o) : b'.circuit.operations.get? i = some o :=
  h.circuit.operations i o ho

def Builder.opening (b : Builder) (kind : OperationKind) (v : Nat) : Builder :=
  { b.append kind [v] [] with block := .region b.circuit.operations.size }

section Opening
variable {kind : OperationKind} {v : Nat} (hk : kind.hasRegion = true)
include hk

theorem Builder.Sound.opening (hb : b.Sound e) (hv : b.circuit.type? v = some .bit) :
    (b.opening kind v).Sound e := by
  have hobserver : kind = .always ∨ kind = .branch ∨ ∃ message, kind = .assertion message := by
    cases kind with
    | always => exact .inl rfl
    | branch => exact .inr (.inl rfl)
    | compute | instantiate | assertion => cases hk
  have happend := hb.step (.observe hobserver hv)
  refine happend.of_ports ⟨happend.wellTyped.circuit, fun owner howner => ?_⟩ rfl
  cases howner
  exact Nat.lt_of_lt_of_eq (Nat.lt_succ_self _) Circuit.size_operations_append.symm

theorem Builder.guards_opening (blk : Block) : (b.opening kind v).circuit.guards blk =
    b.circuit.guards blk ++ if b.block = blk then [b.circuit.operations.size] else [] := by
  refine (Circuit.guards_append blk).trans ?_
  simp only [hk, and_true]

theorem Builder.failures_opening (hb : b.Sound e) (blk : Block) :
    (b.opening kind v).circuit.failures e blk = b.circuit.failures e blk := by
  refine (Circuit.failures_append hb.straight blk).trans ?_
  have hnone : ∀ c : Circuit, c.failure e ⟨kind, [v], [], b.block⟩ = [] := by
    intro c
    cases kind with
    | always | branch => rfl
    | compute | instantiate | assertion => cases hk
  rw [List.length_nil, List.range'_zero, hnone, ite_self, List.append_nil]

end Opening

namespace Build
variable {v : Nat} {t : HwType} {x : Bits}

theorem assertion_builds (hb : b.Sound e) (hv : Holds e b v .bit x) (hr : b.block = .region r)
    (message : String) :
    Builds e r (if x.bit 0 then [] else [message]) (assertion v message) b fun _ _ => True := by
  let b' := b.append (.assertion message) [v] []
  have hstep : b.Step noCircuits b' := .observe (.inr (.inr ⟨message, rfl⟩)) hv.type
  have hx : b.circuit.Extends b'.circuit := Circuit.append_extends
  have hfail : ∀ blk, b'.circuit.failures e blk = b.circuit.failures e blk ++
      if b.block = blk then (if x.bit 0 then [] else [message]) else [] := by
    intro blk
    refine (Circuit.failures_append hb.straight blk).trans ?_
    have hmeaning : (b.circuit.append b.block (.assertion message) [v] []).meaning e v = x :=
      (hx.meaning hb.straight hv.lt).trans hv.meaning
    simp only [Circuit.failure, hmeaning]
  refine .of_eq (assertion_eq hv.type message)
    ⟨⟨hb, hb.step hstep, hx, rfl, fun blk => ?_, ?_, fun blk hblk => ?_⟩, trivial⟩
  · exact (Circuit.guards_append blk).trans (by simp [OperationKind.hasRegion])
  · rw [hfail, if_pos hr]
  · rw [hfail, if_neg (fun h => hblk (h.symm.trans hr)), List.append_nil]

end Build
end ChannelCodec
