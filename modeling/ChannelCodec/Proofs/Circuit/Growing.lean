import ChannelCodec.Proofs.Circuit.Aggregates
import ChannelCodec.Proofs.Circuit.Construction

/-! Circuits that may still grow. What is found out about values while a circuit is built stays true
of whatever the circuit grows into, in every setting that fits it, with instances of other circuits
or without. -/
namespace ChannelCodec

/-- `p` holds of every well-typed circuit that `c` grows into, in every setting that fits it. -/
def Circuit.Henceforth (c : Circuit) (p : Circuit → Setting → Prop) : Prop :=
  ∀ known c' e, c.Extends c' → c'.WellTyped known → e.Sized known c' → p c' e

namespace Circuit.Henceforth
variable {c c' : Circuit} {p q : Circuit → Setting → Prop}

theorem mono (h : c.Henceforth p) (hx : c.Extends c') : c'.Henceforth p :=
  fun known c'' e hx' => h known c'' e (hx.trans hx')

theorem imp (h : c.Henceforth p) (hpq : ∀ c e, p c e → q c e) : c.Henceforth q :=
  fun known c' e hx hc he => hpq c' e (h known c' e hx hc he)

theorem and (hp : c.Henceforth p) (hq : c.Henceforth q) :
    c.Henceforth fun c e => p c e ∧ q c e :=
  fun known c' e hx hc he => ⟨hp known c' e hx hc he, hq known c' e hx hc he⟩

end Circuit.Henceforth

theorem Circuit.Henceforth.now {b : Builder} {e : Setting} {p : Circuit → Setting → Prop}
    (h : b.circuit.Henceforth p) (hb : b.Sound e) : p b.circuit e :=
  h noCircuits b.circuit e (.refl _) hb.wellTyped.circuit hb.sized

theorem Circuit.henceforth_width {c : Circuit} {v : Nat} {t : HwType} (ht : c.type? v = some t) :
    c.Henceforth fun c e => (c.meaning e v).width = t.bitWidth := by
  intro known c' e hx hc he
  refine hc.fits_meaning he ?_
  rw [hx.type? (lt_of_type? ht), ht]

theorem Circuit.Makes.mono {c c' : Circuit} {gate : Gate} {operands : List Nat} {v : Nat}
    (h : c.Makes gate operands v) (hx : c.Extends c') : c'.Makes gate operands v := by
  obtain ⟨i, o, ho, hmakes⟩ := h
  exact ⟨i, o, hx.operations i o ho, hmakes⟩

/-- `b'` has all of the circuit of `b` and may have more gates, and is as well typed. -/
structure Builder.Adds (b b' : Builder) : Prop where
  circuit : b.circuit.Extends b'.circuit
  wellTyped : ∀ known, b.WellTyped known → b'.WellTyped known
  block : b'.block = b.block
  gates : ∀ blk, ∃ added, b'.circuit.operationsIn blk = b.circuit.operationsIn blk ++ added ∧
    ∀ i ∈ added, ∃ o gate, b'.circuit.operations.get? i = some o ∧ o.kind = .compute gate

namespace Builder.Adds
variable {b b' b'' : Builder}

theorem of_operations (hx : b.circuit.Extends b'.circuit)
    (hb : ∀ known, b.WellTyped known → b'.WellTyped known) (hblock : b'.block = b.block)
    (ho : b'.circuit.operations = b.circuit.operations) : b.Adds b' := by
  refine ⟨hx, hb, hblock, fun blk => ⟨[], ?_, List.forall_mem_nil _⟩⟩
  rw [Circuit.operationsIn, Circuit.operationsIn, ho, List.append_nil]

theorem refl (b : Builder) : b.Adds b := of_operations (.refl _) (fun _ hb => hb) rfl rfl

theorem trans (h : b.Adds b') (h' : b'.Adds b'') : b.Adds b'' := by
  refine ⟨h.circuit.trans h'.circuit, fun known hb => h'.wellTyped known (h.wellTyped known hb),
    h'.block.trans h.block, fun blk => ?_⟩
  obtain ⟨added, hadded, hgates⟩ := h.gates blk
  obtain ⟨added', hadded', hgates'⟩ := h'.gates blk
  refine ⟨added ++ added', by rw [hadded', hadded, List.append_assoc], fun i hi => ?_⟩
  rcases List.mem_append.mp hi with hi | hi
  · obtain ⟨o, gate, ho, hkind⟩ := hgates i hi
    exact ⟨o, gate, h'.circuit.operations i o ho, hkind⟩
  · exact hgates' i hi

theorem type? (h : b.Adds b') {v : Nat} {t : HwType} (hv : b.circuit.type? v = some t) :
    b'.circuit.type? v = some t := by
  rw [h.circuit.type? (Circuit.lt_of_type? hv), hv]

theorem types (h : b.Adds b') {values : List Nat} {types : List HwType}
    (hvalues : b.circuit.Types values types) : b'.circuit.Types values types :=
  hvalues.of_type? fun _ _ => h.type?

private theorem of_gate {gate : Gate} {operands : List Nat} {types : List HwType} {t : HwType}
    (hoperands : b.circuit.Types operands types) (hgate : gate.Typed types t) :
    b.Adds (b.append (.compute gate) operands [t]) where
  circuit := Circuit.append_extends
  wellTyped _ hb := hb.step (.compute hoperands hgate)
  block := rfl
  gates blk := by
    refine ⟨_, Circuit.operationsIn_append blk, fun i hi => ?_⟩
    obtain rfl : i = b.circuit.operations.size := by
      split at hi
      · exact List.mem_singleton.mp hi
      · cases hi
    exact ⟨_, gate, Circuit.get?_operations_append_self, rfl⟩

private theorem guards (h : b.Adds b') (blk : Block) :
    b'.circuit.guards blk = b.circuit.guards blk := by
  obtain ⟨added, hadded, hgates⟩ := h.gates blk
  rw [Circuit.guards, hadded, List.filter_append]
  refine (congrArg₂ (· ++ ·) (List.filter_congr fun i hi => ?_)
    (List.filter_eq_nil_iff.mpr fun i hi => ?_)).trans (List.append_nil _)
  · obtain ⟨o, ho, -⟩ := Circuit.mem_operationsIn.mp hi
    rw [h.circuit.operations i o ho, ho]
  · obtain ⟨o, gate, ho, hkind⟩ := hgates i hi
    simp [ho, hkind, OperationKind.hasRegion]

private theorem failures (h : b.Adds b') {e : Setting} (hb : b.Sound e) (blk : Block) :
    b'.circuit.failures e blk = b.circuit.failures e blk := by
  obtain ⟨added, hadded, hgates⟩ := h.gates blk
  rw [Circuit.failures, hadded, List.flatMap_append]
  refine (congrArg₂ (· ++ ·) (List.flatMap_congr fun i hi => ?_)
    (List.flatMap_eq_nil_iff.mpr fun i hi => ?_)).trans (List.append_nil _)
  · obtain ⟨o, ho, -⟩ := Circuit.mem_operationsIn.mp hi
    rw [h.circuit.operations i o ho, ho]
    exact h.circuit.failure hb.straight ho
  · obtain ⟨o, gate, ho, hkind⟩ := hgates i hi
    simp [ho, Circuit.failure, hkind]

theorem grows (h : b.Adds b') {e : Setting} (hb : b.Sound e) (r : Nat) : Grows e r [] b b' where
  before := hb
  after := hb.of_ports (h.wellTyped _ hb.wellTyped) h.circuit.ports
  circuit := h.circuit
  block := h.block
  guards := h.guards
  failures := by rw [h.failures hb, List.append_nil]
  elsewhere blk _ := h.failures hb blk

end Builder.Adds

/-- `m` succeeds on `b` and adds to its circuit, and `post` holds of what it returns. -/
def Adding {α : Type} (m : Build α) (b : Builder) (post : α → Builder → Prop) : Prop :=
  Succeeds m b fun a b' => b.Adds b' ∧ post a b'

namespace Adding
variable {α β : Type} {m : Build α} {f : α → Build β} {b : Builder}
variable {post : α → Builder → Prop} {post' : β → Builder → Prop}

theorem pure {a : α} (h : post a b) : Adding (Pure.pure a) b post := Succeeds.pure ⟨.refl b, h⟩

theorem look {a : α} (h : m b = .ok a b) (hf : Adding (f a) b post') : Adding (m >>= f) b post' :=
  Succeeds.step h hf

theorem bind (h : Adding m b post)
    (hf : ∀ a b', b.Adds b' → post a b' → Adding (f a) b' post') : Adding (m >>= f) b post' :=
  Succeeds.bind h fun a b₁ h₁ =>
    (hf a b₁ h₁.1 h₁.2).mono fun _ _ h₂ => ⟨h₁.1.trans h₂.1, h₂.2⟩

theorem congr {m' : Build α} (hm : m b = m' b) (h : Adding m' b post) : Adding m b post :=
  Succeeds.congr hm h

theorem mono {post' : α → Builder → Prop} (h : Adding m b post)
    (hp : ∀ a b', b.Adds b' → post a b' → post' a b') : Adding m b post' :=
  Succeeds.mono h fun a b' h' => ⟨h'.1, hp a b' h'.1 h'.2⟩

variable {e : Setting} {r : Nat}

/-- What adds gates reports nothing in any setting. -/
theorem builds (h : Adding m b post) (hb : b.Sound e) : Builds e r [] m b post :=
  Succeeds.mono h fun _ _ h' => ⟨h'.1.grows hb r, h'.2⟩

/-- A value that will always mean what others make of it means this in a setting. -/
theorem holds {f : α → Nat} {t : HwType} {y : Circuit → Setting → Bits} {x : Bits}
    (h : Adding m b fun a b' => b'.circuit.type? (f a) = some t ∧
      b'.circuit.Henceforth fun c e => c.meaning e (f a) = y c e)
    (hb : b.Sound e) (hx : ∀ b', Grows e r [] b b' → y b'.circuit e = x) :
    Builds e r [] m b fun a b' => Holds e b' (f a) t x :=
  (h.builds hb).mono fun _ b' hg ha =>
    .of_sound hg.after ha.1 ((ha.2.now hg.after).trans (hx b' hg))

end Adding

namespace Build
variable {b : Builder} {v : Nat} {s t : HwType}

theorem addGate_adds {gate : Gate} {operands : List Nat} {types : List HwType}
    (hoperands : b.circuit.Types operands types) (hgate : gate.Typed types t) :
    Adding (addGate gate operands t) b fun v b' => v = b.circuit.values.size ∧
      b'.circuit.type? v = some t ∧ b'.circuit.Makes gate operands v ∧
        b'.circuit.Henceforth fun c e =>
          gate.eval t.bitWidth types (operands.map (c.meaning e)) = .ok (c.meaning e v) := by
  have hadds := Builder.Adds.of_gate hoperands hgate
  have hnew : (b.append (.compute gate) operands [t]).circuit.Types
      (List.range' b.circuit.values.size 1) [t] := Circuit.types_append_new
  obtain ⟨v, hv, htype⟩ := hnew.singleton
  obtain ⟨rfl, -⟩ := List.cons.inj hv
  have hmakes : (b.append (.compute gate) operands [t]).circuit.Makes gate operands
      b.circuit.values.size :=
    ⟨_, _, Circuit.get?_operations_append_self, rfl, rfl, rfl⟩
  refine .of_eq rfl ⟨hadds, rfl, htype, hmakes, fun known c e hx hc he => ?_⟩
  obtain ⟨types', t', htypes', -, ht', heval⟩ := hc.makes he (hmakes.mono hx)
  obtain rfl := htypes'.unique ((hadds.types hoperands).of_type? fun v t hv => by
    rw [hx.type? (Circuit.lt_of_type? hv), hv])
  rw [hx.type? (Circuit.lt_of_type? htype), htype] at ht'
  cases ht'
  exact heval

theorem setName_adds (hv : b.circuit.type? v = some t) (name : String) :
    Adding (setName v name) b fun _ _ => True := by
  refine .look (typeOf_eq hv) ?_
  have hx : b.circuit.Extends (b.rename v name).circuit := by
    refine ⟨rfl, rfl, fun w y hy => ?_, fun i o ho => ho⟩
    obtain ⟨f, hget, htype, horigin⟩ := b.get?_values_rename v name w
    rw [hy] at hget
    exact ⟨f y, hget, htype y, horigin y⟩
  exact .of_eq rfl ⟨.of_operations hx (fun _ hb => hb.rename v name) rfl rfl, trivial⟩

theorem constant_adds {x : Bits} (h : t.bitWidth = x.width) :
    Adding (constant t x) b fun v b' => v = b.circuit.values.size ∧ b'.circuit.type? v = some t ∧
      b'.circuit.Makes (.constant x) [] v ∧ b'.circuit.Henceforth fun c e => c.meaning e v = x := by
  refine .congr (constant_eq h) ((addGate_adds .nil (.constant h)).mono fun v b' _ hv => ?_)
  obtain ⟨hnew, htype, hmakes, heval⟩ := hv
  exact ⟨hnew, htype, hmakes, heval.imp fun c e h => (Except.ok.inj h).symm⟩

theorem bitcast_adds (hv : b.circuit.type? v = some s) (h : s.bitWidth = t.bitWidth) :
    Adding (bitcast v t) b fun v' b' => b'.circuit.type? v' = some t ∧
      b'.circuit.Henceforth fun c e => c.meaning e v' = c.meaning e v := by
  refine .congr (bitcast_eq hv h) ?_
  refine (addGate_adds (.cons hv .nil) (.bitcast h)).mono fun v' b' _ hv' => ?_
  exact ⟨hv'.2.1, hv'.2.2.2.imp fun c e heval => (Except.ok.inj heval).symm⟩

theorem extract_adds (hv : b.circuit.type? v = some t) (ht : t.isSignless = true)
    (low width : Nat) (h : low + width ≤ t.bitWidth) :
    Adding (extract v low width) b fun v' b' => b'.circuit.type? v' = some (.bits width) ∧
      b'.circuit.Henceforth fun c e => c.meaning e v' = (c.meaning e v).slice low width := by
  refine .congr (extract_eq hv ht h) ?_
  refine (addGate_adds (.cons hv .nil) (.extract ht h)).mono fun v' b' _ hv' => ?_
  exact ⟨hv'.2.1, hv'.2.2.2.imp fun c e heval => (Except.ok.inj heval).symm⟩

theorem concat_adds {values : List Nat} {types : List HwType} (h : b.circuit.Types values types)
    (hsignless : ∀ t ∈ types, t.isSignless = true) :
    Adding (concat values) b fun v b' =>
      b'.circuit.type? v = some (.bits (total (types.map HwType.bitWidth))) ∧
        b'.circuit.Henceforth fun c e => c.meaning e v = .concat (values.map (c.meaning e)) := by
  refine .congr (concat_eq h hsignless) ?_
  refine (addGate_adds h (.concat hsignless)).mono fun v b' _ hv => ?_
  exact ⟨hv.2.1, hv.2.2.2.imp fun c e heval => (Except.ok.inj heval).symm⟩

section Indexed
variable {array index size : Nat} {element u : HwType}
variable (harray : b.circuit.type? array = some t) (ht : t.array? = some (element, size))
variable (hindex : b.circuit.type? index = some u) (hu : u.isSignless = true)
variable (hwidth : u.bitWidth = indexWidth size)
include harray ht hindex hu hwidth

theorem arraySlice_adds {count : Nat} (h : count ≤ size) :
    Adding (arraySlice array index count) b fun v b' =>
      b'.circuit.type? v = some (.array count element) ∧
        b'.circuit.Makes .arraySlice [array, index] v ∧ b'.circuit.Henceforth fun c e =>
          c.meaning e v = (c.meaning e array).slice
            ((c.meaning e index).lowNat * element.bitWidth) (element.bitWidth * count) := by
  refine .congr (arraySlice_eq harray ht hindex hu hwidth h) ?_
  refine (addGate_adds (.cons harray (.cons hindex .nil)) (.arraySlice ht h hu hwidth)).mono
    fun v b' _ hv => ⟨hv.2.1, hv.2.2.1, hv.2.2.2.imp fun c e heval => ?_⟩
  simp only [List.map_cons, List.map_nil, Gate.eval, HwType.elementWidth_of_array? ht,
    Except.ok.injEq] at heval
  exact heval.symm

theorem arrayGet_adds :
    Adding (arrayGet array index) b fun v b' => b'.circuit.type? v = some element ∧
      b'.circuit.Makes .arrayGet [array, index] v ∧ b'.circuit.Henceforth fun c e =>
        c.meaning e v = (c.meaning e array).slice
          ((c.meaning e index).lowNat * element.bitWidth) element.bitWidth := by
  refine .congr (arrayGet_eq harray ht hindex hu hwidth) ?_
  refine (addGate_adds (.cons harray (.cons hindex .nil)) (.arrayGet ht hu hwidth)).mono
    fun v b' _ hv => ⟨hv.2.1, hv.2.2.1, hv.2.2.2.imp fun c e heval => ?_⟩
  simp only [List.map_cons, List.map_nil, Gate.eval, HwType.elementWidth_of_array? ht,
    Except.ok.injEq] at heval
  exact heval.symm

end Indexed

theorem arrayConcat_adds {element : HwType} {arrays : List Nat} {types : List HwType} {size : Nat}
    (harrays : b.circuit.Types arrays types) (hjoined : element.Joined types size)
    (hne : types ≠ []) :
    Adding (arrayConcat arrays) b fun v b' => b'.circuit.type? v = some (.array size element) ∧
      b'.circuit.Henceforth fun c e =>
        c.meaning e v = .ofElements (arrays.map (c.meaning e)).reverse := by
  refine .congr (arrayConcat_eq harrays hjoined hne) ?_
  refine (addGate_adds harrays (.arrayConcat hjoined hne)).mono fun v b' _ hv => ?_
  exact ⟨hv.2.1, hv.2.2.2.imp fun c e heval => (Except.ok.inj heval).symm⟩

end Build
end ChannelCodec
