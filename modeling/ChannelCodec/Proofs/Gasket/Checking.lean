import ChannelCodec.Proofs.Gasket.Slices

/-! The checks of a message. They stand in a region inside a region: what they compare is computed
there, their messages come in the order of the checks, and they come out only when the clock rises
while the message is valid. -/
namespace ChannelCodec

variable {e : Setting} {r : Nat} {messages : List String} {b b' : Builder}

/-- The region of the checks is the only one inside the region `edge`, which is the only one at the
top. -/
structure Checks.Ready (b : Builder) (c : Checks) (clock valid edge : Nat) : Prop where
  outer : b.circuit.operations.get? edge = some ⟨.always, [clock], [], .body⟩
  inner : b.circuit.operations.get? c.region = some ⟨.branch, [valid], [], .region edge⟩
  body : b.circuit.guards .body = [edge]
  around : b.circuit.guards (.region edge) = [c.region]
  within : b.circuit.guards (.region c.region) = []

namespace Checks
variable {c : Checks} {clock valid edge : Nat}

theorem Ready.mono (h : c.Ready b clock valid edge) (hg : Grows e r messages b b') :
    c.Ready b' clock valid edge :=
  ⟨hg.get?_operations h.outer, hg.get?_operations h.inner, (hg.guards _).trans h.body,
    (hg.guards _).trans h.around, (hg.guards _).trans h.within⟩

private theorem Ready.edge_ne (h : c.Ready b clock valid edge) : edge ≠ c.region := by
  rintro rfl
  have he := h.outer.symm.trans h.inner
  cases he

/-- The checks are the only assertions in the circuit, and those that fail report `messages`. -/
structure Reports (c : Checks) (e : Setting) (b : Builder) (clock valid edge : Nat)
    (messages : List String) : Prop where
  ready : c.Ready b clock valid edge
  inside : b.circuit.failures e (.region c.region) = messages
  outside : ∀ blk, blk ≠ .region c.region → b.circuit.failures e blk = []

theorem Reports.grow {more : List String} (h : c.Reports e b clock valid edge messages)
    (hg : Grows e c.region more b b') : c.Reports e b' clock valid edge (messages ++ more) :=
  ⟨h.ready.mono hg, by rw [hg.failures, h.inside],
    fun blk hblk => (hg.elsewhere blk hblk).trans (h.outside blk hblk)⟩

/-- The alarms of a circuit with checks are what these report, if the clock rises and the message
is valid. -/
theorem Reports.alarms (h : c.Reports e b clock valid edge messages) (hb : b.Sound e)
    {x y : Bits} (hclock : Holds e b clock .bit x) (hvalid : Holds e b valid .bit y) :
    b.circuit.body.flatMap (b.circuit.alarms e) =
      if x.bit 0 && y.bit 0 then messages else [] := by
  have hbody : b.circuit.failures e .body = [] := h.outside _ fun he => nomatch he
  have hedge : b.circuit.failures e (.region edge) = [] :=
    h.outside _ fun he => h.ready.edge_ne (Block.region.inj he)
  have houter := Circuit.alarms_of_guard hb.straight h.ready.outer rfl
  have hinner := Circuit.alarms_of_guard hb.straight h.ready.inner rfl
  rw [Circuit.flatMap_alarms_of_no_failures hedge, h.ready.around] at houter
  rw [Circuit.flatMap_alarms_of_no_guards h.ready.within, h.inside] at hinner
  rw [Circuit.body, Circuit.flatMap_alarms_of_no_failures hbody, h.ready.body]
  simp only [List.flatMap_cons, List.flatMap_nil, List.append_nil] at houter ⊢
  rw [houter, hinner, hclock.meaning, hvalid.meaning]
  cases x.bit 0 <;> cases y.bit 0 <;> rfl

end Checks

namespace Checks
open Build
variable {v clock valid : Nat} {t : HwType} {x y : Bits}

theorem under_eq (hblock : b.block = .body) (hclock : b.circuit.type? clock = some .bit)
    (hvalid : (b.opening .always clock).circuit.type? valid = some .bit) :
    under clock valid b = .ok ⟨(b.opening .always clock).circuit.operations.size⟩
      { (b.opening .always clock).opening .branch valid with block := .body } := by
  refine bind_eq (m := block) rfl (bind_eq (always_eq hclock) ?_)
  refine bind_eq (enter_region_eq Circuit.get?_operations_append_self rfl) ?_
  refine bind_eq (branch_eq hvalid) ?_
  rw [hblock]
  exact bind_eq (enter_body_eq _) rfl

theorem under_opens (hb : b.Sound e) (hblock : b.block = .body)
    (hguards : ∀ blk, b.circuit.guards blk = []) (hfail : ∀ blk, b.circuit.failures e blk = [])
    (hclock : Holds e b clock .bit x) (hvalid : Holds e b valid .bit y) :
    ∃ c b' edge, under clock valid b = .ok c b' ∧ b'.Sound e ∧ b'.block = .body ∧
      b.circuit.Extends b'.circuit ∧ c.Reports e b' clock valid edge [] := by
  let b₁ := b.opening .always clock
  let b₂ := b₁.opening .branch valid
  have hx₁ : b.circuit.Extends b₁.circuit := Circuit.append_extends
  have hx₂ : b₁.circuit.Extends b₂.circuit := Circuit.append_extends
  have hvalid₁ : b₁.circuit.type? valid = some .bit := (hx₁.type? hvalid.lt).trans hvalid.type
  have hb₁ : b₁.Sound e := hb.opening rfl hclock.type
  have hb₂ : b₂.Sound e := hb₁.opening rfl hvalid₁
  have hsize : b₁.circuit.operations.size = b.circuit.operations.size + 1 :=
    Circuit.size_operations_append
  have houter : b₁.circuit.operations.get? b.circuit.operations.size =
      some ⟨.always, [clock], [], .body⟩ := by
    rw [← hblock]
    exact Circuit.get?_operations_append_self
  have hopened : ∀ blk, b₂.circuit.guards blk =
      (if .body = blk then [b.circuit.operations.size] else []) ++
        if .region b.circuit.operations.size = blk then [b₁.circuit.operations.size] else [] := by
    intro blk
    rw [Builder.guards_opening rfl, Builder.guards_opening rfl, hguards, hblock, List.nil_append]
    rfl
  have hnone : ∀ blk, b₂.circuit.failures e blk = [] := by
    intro blk
    rw [Builder.failures_opening rfl hb₁, Builder.failures_opening rfl hb, hfail]
  refine ⟨_, _, b.circuit.operations.size, under_eq hblock hclock.type hvalid₁,
    hb₂.of_ports ⟨hb₂.wellTyped.circuit, fun _ howner => nomatch howner⟩ rfl, rfl, hx₁.trans hx₂,
    ⟨hx₂.operations _ _ houter, Circuit.get?_operations_append_self, ?_, ?_, ?_⟩, hnone _,
    fun blk _ => hnone blk⟩
  · refine (hopened .body).trans ?_
    simp
  · refine (hopened _).trans ?_
    simp [b₁]
  · have hother : b.circuit.operations.size ≠ b₁.circuit.operations.size := by omega
    refine (hopened (.region b₁.circuit.operations.size)).trans ?_
    simp [hother]

theorem require_builds {c : Checks} {edge : Nat} (hc : c.Ready b clock valid edge)
    (hb : b.Sound e) (hblock : b.block = .body) (hv : Holds e b v t x)
    (ht : (t.isInteger || t.isBitArray) = true) (predicate : Predicate) (expected : Nat)
    (what : String) :
    Builds e c.region
      (if predicate.holds (Ord.compare x.toNat (expected % 2 ^ t.bitWidth)) then []
        else [s!"{what} {predicate.text} {expected}"])
      (c.require v predicate expected what) b fun _ _ => True := by
  refine .look (typeOf_eq hv.type) ?_
  refine .look (require_eq ht _ b) ?_
  refine (cast_builds (u := .bits t.bitWidth) hb hv rfl).bind fun number b₁ hg₁ hn => ?_
  have hc₁ := hc.mono hg₁
  have hblock₁ : b₁.block = .body := hg₁.block.trans hblock
  -- The value is cast outside of the region; what it is compared with is made inside.
  let b₂ : Builder := { b₁ with block := .region c.region }
  have hb₂ : b₂.Sound e := by
    refine hg₁.after.of_ports ⟨hg₁.after.wellTyped.circuit, fun owner howner => ?_⟩ rfl
    cases howner
    exact Circuit.lt_of_get?_operations hc₁.inner
  have hn₂ : Holds e b₂ number (.bits t.bitWidth) x := ⟨hn.type, hn.meaning, hn.width⟩
  refine Succeeds.step (m := block) (a := b₁.block) rfl ?_
  refine .step (enter_region_eq hc₁.inner rfl) ?_
  refine Succeeds.bind (constantBits_builds (r := c.region) hb₂ t.bitWidth expected)
    ?_
  rintro bound b₃ ⟨hg₃, hbound⟩
  refine Succeeds.bind
    (compare_builds (r := c.region) hg₃.after (hn₂.mono hg₃) hbound.1 rfl predicate)
    ?_
  rintro holds b₄ ⟨hg₄, hh⟩
  have hblock₄ : b₄.block = .region c.region := hg₄.block.trans hg₃.block
  have hassert := assertion_builds hg₄.after hh hblock₄ s!"{what} {predicate.text} {expected}"
  rw [Bits.bit_ofBool, Bits.toNat_ofNat] at hassert
  refine Succeeds.bind hassert ?_
  rintro _ b₅ ⟨hg₅, _⟩
  have hwithin := Grows.within hg₁.after (hg₃.trans (hg₄.trans hg₅))
  rw [hblock₁] at hwithin ⊢
  exact .of_eq (enter_body_eq b₅) ⟨hwithin, trivial⟩

end Checks
end ChannelCodec
