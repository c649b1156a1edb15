import ChannelCodec.Proofs.Circuit.Checks
import ChannelCodec.Proofs.Circuit.Sizes

/-! Building circuits under a fixed setting. Each construction step succeeds on operands of the
right types, keeps every value there is together with its meaning, and adds one with a known
meaning. Besides values only the messages that one region reports are followed: no other step
than an assertion changes them. -/
namespace ChannelCodec

namespace Circuit

/-- What an operation reports itself: its message, if it is an assertion that does not hold. -/
def failure (c : Circuit) (e : Setting) (o : Operation) : List String :=
  match o.kind, o.operands with
  | .assertion message, v :: _ => if (c.meaning e v).bit 0 then [] else [message]
  | _, _ => []

/-- What the assertions of a block report, without those in regions inside it. -/
def failures (c : Circuit) (e : Setting) (block : Block) : List String :=
  (c.operationsIn block).flatMap fun i =>
    match c.operations.get? i with
    | some o => c.failure e o
    | none => []

def guards (c : Circuit) (block : Block) : List Nat :=
  (c.operationsIn block).filter fun i =>
    match c.operations.get? i with
    | some o => o.kind.hasRegion
    | none => false

variable {c c' : Circuit} {e : Setting}

theorem Extends.failure (h : Extends c c') (hc : c.Straight e) {i : Nat} {o : Operation}
    (ho : c.operations.get? i = some o) : c'.failure e o = c.failure e o := by
  rcases hc.operation i o ho with ⟨_, _, hcomp⟩ | hobs
  · obtain ⟨gate, _, hk, _⟩ := hcomp.eval
    simp [Circuit.failure, hk]
  · obtain ⟨v, hops, hv⟩ := hobs.operand
    rcases hobs.kind with hk | hk | ⟨message, hk⟩ <;>
      simp [Circuit.failure, hk, hops, h.meaning hc hv]

section Append
variable {block : Block} {kind : OperationKind} {operands : List Nat} {types : List HwType}

theorem failures_append (hc : c.Straight e) (blk : Block) :
    (c.append block kind operands types).failures e blk =
      c.failures e blk ++ if block = blk then
        (c.append block kind operands types).failure e
          ⟨kind, operands, List.range' c.values.size types.length, block⟩ else [] := by
  unfold failures
  rw [operationsIn_append, List.flatMap_append]
  congr 1
  · apply List.flatMap_congr
    intro i hi
    obtain ⟨o, ho, _⟩ := mem_operationsIn.mp hi
    rw [get?_operations_append_of_lt (lt_of_get?_operations ho), ho]
    exact append_extends.failure hc ho
  · by_cases hb : block = blk
    · simp [hb, get?_operations_append_self]
    · simp [hb]

theorem guards_append (blk : Block) :
    (c.append block kind operands types).guards blk =
      c.guards blk ++ if block = blk ∧ kind.hasRegion then [c.operations.size] else [] := by
  unfold guards
  rw [operationsIn_append, List.filter_append]
  congr 1
  · apply List.filter_congr
    intro i hi
    obtain ⟨o, ho, _⟩ := mem_operationsIn.mp hi
    rw [get?_operations_append_of_lt (lt_of_get?_operations ho)]
  · by_cases hb : block = blk
    · simp [hb, get?_operations_append_self, List.filter_cons]
    · simp [hb]

end Append

end Circuit

def noCircuits (_ : String) (_ : List Port) : Prop := False

/-- The circuit of a builder has no instances, and runs in `e`. -/
structure Builder.Sound (b : Builder) (e : Setting) : Prop where
  wellTyped : b.WellTyped noCircuits
  sized : e.Sized noCircuits b.circuit

namespace Circuit
variable {c : Circuit} {e : Setting} (hc : c.WellTyped noCircuits) (he : e.Sized noCircuits c)
include hc he

private theorem WellTyped.computes_or_observes {i : Nat} {o : Operation}
    (ho : c.operations.get? i = some o) :
    (∃ v, v < c.values.size ∧ c.Computes e o v) ∨ c.Observes o := by
  cases hc.typed i o ho with
  | compute hkind _ _ hresults =>
    obtain ⟨v, hv, htype⟩ := hresults.singleton
    refine .inl ⟨v, lt_of_type? htype, hv, fun w hw => ?_, ?_⟩
    · exact hc.earlier i o ho w hw v (hv ▸ List.mem_singleton_self v)
    · cases hc.performs he ho with
      | compute hkind' _ heval => exact ⟨_, _, hkind', heval⟩
      | instantiate hkind' =>
        rw [hkind] at hkind'
        cases hkind'
      | observe hkind' => simp [hkind] at hkind'
  | instantiate _ hknown => exact hknown.elim
  | observe hkind hoperands hresults =>
    obtain ⟨v, hv, htype⟩ := hoperands.singleton
    exact .inr ⟨hresults, ⟨v, hv, lt_of_type? htype⟩, hkind⟩

private theorem WellTyped.straight : c.Straight e := by
  refine ⟨he.inputs.length_eq.symm, fun v hv => ?_, fun v x hx => ?_,
    fun i o ho => hc.computes_or_observes he ho, hc.region⟩
  · exact get?_of_origin? (hc.input v _ (List.getElem?_eq_getElem hv)).1
  · have horigin : c.origin? v = some x.origin := by rw [origin?, hx, Option.map_some]
    rcases hc.origin v (lt_of_get?_values hx) with ⟨hinput, hv⟩ | ⟨i, n, o, hresult, ho, hn⟩
    · exact .inl ⟨Option.some.inj (horigin.symm.trans hinput), hv⟩
    · refine .inr ⟨i, n, o, Option.some.inj (horigin.symm.trans hresult), ho, ?_⟩
      rcases hc.computes_or_observes he ho with ⟨w, -, hcomp⟩ | hobs
      · have hmem := List.mem_of_getElem? hn
        rw [hcomp.results, List.mem_singleton] at hmem
        rwa [hmem]
      · rw [hobs.results] at hn
        cases hn

end Circuit

namespace Builder.Sound
variable {b b' : Builder} {e : Setting}

theorem straight (h : b.Sound e) : b.circuit.Straight e := h.wellTyped.circuit.straight h.sized

theorem of_ports (h : b.Sound e) (hb : b'.WellTyped noCircuits)
    (hports : b'.circuit.ports = b.circuit.ports) : b'.Sound e := by
  refine ⟨hb, ⟨?_, fun _ _ _ _ hknown => hknown.elim⟩⟩
  have hinputs := h.sized.inputs
  rwa [Circuit.inputPorts, ← hports] at hinputs

theorem step (h : b.Sound e) (hstep : b.Step noCircuits b') : b'.Sound e :=
  h.of_ports (h.wellTyped.step hstep) hstep.keeps.1

end Builder.Sound

/-- `b'` comes from `b` by adding computations, and assertions in the region `r` of which those
that fail report `messages`. -/
structure Grows (e : Setting) (r : Nat) (messages : List String) (b b' : Builder) : Prop where
  before : b.Sound e
  after : b'.Sound e
  circuit : b.circuit.Extends b'.circuit
  block : b'.block = b.block
  guards : ∀ blk, b'.circuit.guards blk = b.circuit.guards blk
  failures : b'.circuit.failures e (.region r) = b.circuit.failures e (.region r) ++ messages
  elsewhere : ∀ blk, blk ≠ .region r → b'.circuit.failures e blk = b.circuit.failures e blk

namespace Grows
variable {e : Setting} {r : Nat} {messages messages' : List String} {b b' b'' : Builder}

theorem refl (hb : b.Sound e) : Grows e r [] b b :=
  ⟨hb, hb, .refl _, rfl, fun _ => rfl, (List.append_nil _).symm, fun _ _ => rfl⟩

theorem trans (h : Grows e r messages b b') (h' : Grows e r messages' b' b'') :
    Grows e r (messages ++ messages') b b'' where
  before := h.before
  after := h'.after
  circuit := h.circuit.trans h'.circuit
  block := h'.block.trans h.block
  guards blk := (h'.guards blk).trans (h.guards blk)
  failures := by rw [h'.failures, h.failures, List.append_assoc]
  elsewhere blk hblk := (h'.elsewhere blk hblk).trans (h.elsewhere blk hblk)

theorem failures_eq (h : Grows e r [] b b') (blk : Block) :
    b'.circuit.failures e blk = b.circuit.failures e blk := by
  by_cases hblk : blk = .region r
  · rw [hblk, h.failures, List.append_nil]
  · exact h.elsewhere blk hblk

end Grows

structure Holds (e : Setting) (b : Builder) (v : Nat) (t : HwType) (x : Bits) : Prop where
  type : b.circuit.type? v = some t
  meaning : b.circuit.meaning e v = x
  width : x.width = t.bitWidth

theorem Holds.lt {e : Setting} {b : Builder} {v : Nat} {t : HwType} {x : Bits}
    (h : Holds e b v t x) : v < b.circuit.values.size :=
  Circuit.lt_of_type? h.type

theorem Holds.of_sound {e : Setting} {b : Builder} {v : Nat} {t : HwType} {x : Bits}
    (hb : b.Sound e) (ht : b.circuit.type? v = some t) (hx : b.circuit.meaning e v = x) :
    Holds e b v t x :=
  ⟨ht, hx, hx ▸ hb.wellTyped.circuit.fits_meaning hb.sized ht⟩

theorem Holds.of_extends {e : Setting} {b b' : Builder} {v : Nat} {t : HwType} {x : Bits}
    (h : Holds e b v t x) (hb : b.Sound e) (hx : b.circuit.Extends b'.circuit) :
    Holds e b' v t x where
  type := by rw [hx.type? h.lt, h.type]
  meaning := by rw [hx.meaning hb.straight h.lt, h.meaning]
  width := h.width

theorem Holds.mono {e : Setting} {r : Nat} {messages : List String} {b b' : Builder} {v : Nat}
    {t : HwType} {x : Bits} (h : Holds e b v t x) (hg : Grows e r messages b b') :
    Holds e b' v t x :=
  h.of_extends hg.before hg.circuit

structure Signal where
  value : Nat
  type : HwType
  bits : Bits

def Signal.On (e : Setting) (b : Builder) (s : Signal) : Prop := Holds e b s.value s.type s.bits

/-- `m` succeeds on `b`; what it adds reports `messages` in the region `r`, and `post` holds of
what it returns. -/
def Builds {α : Type} (e : Setting) (r : Nat) (messages : List String) (m : Build α) (b : Builder)
    (post : α → Builder → Prop) : Prop :=
  Succeeds m b fun a b' => Grows e r messages b b' ∧ post a b'

namespace Builds
variable {α β : Type} {e : Setting} {r : Nat} {messages messages' : List String} {b : Builder}
variable {m : Build α} {f : α → Build β} {post : α → Builder → Prop} {post' : β → Builder → Prop}

theorem pure {a : α} (hb : b.Sound e) (h : post a b) : Builds e r [] (Pure.pure a) b post :=
  Succeeds.pure ⟨.refl hb, h⟩

theorem look {a : α} (h : m b = .ok a b) (hf : Builds e r messages (f a) b post') :
    Builds e r messages (m >>= f) b post' :=
  Succeeds.step h hf

theorem congr {m' : Build α} (hm : m b = m' b) (h : Builds e r messages m' b post) :
    Builds e r messages m b post :=
  Succeeds.congr hm h

theorem andThen (h : Builds e r messages m b post)
    (hf : ∀ a b', Grows e r messages b b' → post a b' → Builds e r messages' (f a) b' post') :
    Builds e r (messages ++ messages') (m >>= f) b post' :=
  Succeeds.bind h fun a b₁ h₁ =>
    (hf a b₁ h₁.1 h₁.2).mono fun _ _ h₂ => ⟨h₁.1.trans h₂.1, h₂.2⟩

theorem bind (h : Builds e r [] m b post)
    (hf : ∀ a b', Grows e r [] b b' → post a b' → Builds e r messages (f a) b' post') :
    Builds e r messages (m >>= f) b post' :=
  andThen h hf

theorem mono {post' : α → Builder → Prop} (h : Builds e r messages m b post)
    (hp : ∀ a b', Grows e r messages b b' → post a b' → post' a b') :
    Builds e r messages m b post' :=
  Succeeds.mono h fun a b' h' => ⟨h'.1, hp a b' h'.1 h'.2⟩

end Builds

end ChannelCodec
