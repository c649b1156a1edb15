import ChannelCodec.Proofs.Design.Growing
import ChannelCodec.Proofs.Gasket.Growing

/-! Widening and narrowing integers. An integer that is widened by its sign keeps its number, and
narrowing takes every widened integer back to the one that it came from. -/
namespace ChannelCodec.Build

/-- The integer `v` of `own` bits with copies of its topmost bit in front. -/
def widenBySign (v own width : Nat) : Build Nat := do signExtend (← cast v (.bits own)) width

def widenByZeros (v own width : Nat) : Build Nat := do
  let plain ← cast v (.bits own)
  concat [← zeros (width - own), plain]

variable {b : Builder} {v own width : Nat} {t : HwType} {sign : Signedness}

private theorem downcast_low (ht : t.int? = some (sign, own)) (v : Nat) {u : Nat} {s : HwType}
    (hu : b.circuit.type? u = some s) (hle : own ≤ s.bitWidth) :
    Adding (downcast u t) b fun v' b' => b'.circuit.type? v' = some t ∧
      b'.circuit.Henceforth fun c e =>
        (c.meaning e u).slice 0 own = c.meaning e v → c.meaning e v' = c.meaning e v :=
  (downcast_adds hu ht hle).mono fun _ _ _ hv' =>
    ⟨hv'.1, hv'.2.imp fun _ _ h hlow => h.trans hlow⟩

section Integer
variable (hv : b.circuit.type? v = some t) (ht : t.int? = some (sign, own))
include hv ht

theorem own_bits_adds : Adding (cast v (.bits own)) b fun plain b' =>
    b'.circuit.type? plain = some (.bits own) ∧ b'.circuit.Henceforth fun c e =>
      c.meaning e plain = c.meaning e v ∧ (c.meaning e v).width = own := by
  have hwidth := HwType.bitWidth_of_int? ht
  refine (cast_adds hv (hwidth.trans (HwType.bitWidth_bits own).symm)).mono fun plain b' hg hp => ?_
  have hown := Circuit.henceforth_width (hg.type? hv)
  rw [hwidth] at hown
  exact ⟨hp.1, hp.2.and hown⟩

theorem widenBySign_adds (hpos : 0 < own) (hle : own ≤ width) :
    Adding (widenBySign v own width) b fun wide b' =>
      b'.circuit.type? wide = some (.bits width) ∧ b'.circuit.Henceforth fun c e =>
        c.meaning e wide = .ofSigned width (c.meaning e v).signed ∧
          (c.meaning e v).width = own := by
  refine (own_bits_adds hv ht).bind fun plain b₁ _ hp => ?_
  refine (signExtend_adds hp.1 hpos hle).mono fun wide b₂ hg₂ hw => ⟨hw.1, ?_⟩
  refine ((hp.2.mono hg₂.circuit).and hw.2).imp fun c e h => ⟨?_, h.1.2⟩
  rw [h.2, h.1.1]

theorem widenBySign_low (hle : own ≤ width) :
    Adding (widenBySign v own width) b fun wide b' => ∃ s, b'.circuit.type? wide = some s ∧
      own ≤ s.bitWidth ∧ b'.circuit.Henceforth fun c e =>
        (c.meaning e wide).slice 0 own = c.meaning e v := by
  by_cases hpos : 0 < own
  · refine (widenBySign_adds hv ht hpos hle).mono fun wide b' _ hw => ⟨_, hw.1, hle, ?_⟩
    refine hw.2.imp fun c e h => ?_
    obtain ⟨hwide, hown⟩ := h
    rw [hwide, ← hown]
    exact Bits.slice_ofSigned_signed (hown ▸ hpos) (hown ▸ hle)
  · obtain rfl : own = 0 := by omega
    refine (own_bits_adds hv ht).bind fun plain b₁ _ hp => ?_
    have hstays : signExtend plain width b₁ = .ok plain b₁ := by
      have hstep : Succeeds (signExtend plain width) b₁ fun w b' => w = plain ∧ b' = b₁ := by
        refine .step (widthOf_eq hp.1) ?_
        rw [if_pos (.inl (HwType.bitWidth_bits 0))]
        exact .pure ⟨rfl, rfl⟩
      obtain ⟨w, b', hw, rfl, rfl⟩ := hstep
      exact hw
    refine .of_eq hstays ⟨.refl b₁, _, hp.1, Nat.zero_le _, hp.2.imp fun c e h => ?_⟩
    exact Bits.eq_of_width_zero rfl h.2

private theorem widenByZeros_low :
    Adding (widenByZeros v own width) b fun wide b' => ∃ s, b'.circuit.type? wide = some s ∧
      own ≤ s.bitWidth ∧ b'.circuit.Henceforth fun c e =>
        (c.meaning e wide).slice 0 own = c.meaning e v := by
  refine (own_bits_adds hv ht).bind fun plain b₁ _ hp => ?_
  refine (zeros_adds (width - own)).bind fun zeros b₂ hg₂ hz => ?_
  have htypes : b₂.circuit.Types [zeros, plain] [.bits (width - own), .bits own] :=
    .cons hz.1 (.cons (hg₂.type? hp.1) .nil)
  have hsignless : ∀ s ∈ [HwType.bits (width - own), .bits own], s.isSignless = true :=
    List.forall_mem_cons.mpr ⟨rfl, List.forall_mem_singleton.mpr rfl⟩
  refine (concat_adds htypes hsignless).mono fun wide b₃ hg₃ hw => ⟨_, hw.1, ?_, ?_⟩
  · rw [HwType.bitWidth_bits, List.map_cons, List.map_cons, total_cons, total_cons,
      HwType.bitWidth_bits, HwType.bitWidth_bits]
    omega
  · refine ((hp.2.mono (hg₂.circuit.trans hg₃.circuit)).and hw.2).imp fun c e h => ?_
    obtain ⟨⟨hplain, hown⟩, hwide⟩ := h
    rw [hwide, List.map_cons, List.map_cons, List.map_nil, Bits.concat_cons, Bits.concat_cons,
      Bits.concat_nil, Bits.append_zero, hplain, ← hown, Bits.slice_append_low]

/-- Widening by the sign, to as many bits or more, keeps the number that an integer with bits writes
in two's complement. Narrowing to the type of an integer gives exactly this integer of any value
that has it in its low bits, in particular of the integer widened by its sign or by zeros. -/
theorem widening_and_narrowing_keep_numbers (hle : own ≤ width) :
    (0 < own → Adding (widenBySign v own width) b fun wide b' =>
      b'.circuit.type? wide = some (.bits width) ∧ b'.circuit.InRuns fun value =>
        value wide = .ofSigned width (value v).signed ∧
          (value wide).signed = (value v).signed) ∧
    (∀ u s, b.circuit.type? u = some s → s.bitWidth = width →
      Adding (downcast u t) b fun v' b' => b'.circuit.type? v' = some t ∧
        b'.circuit.InRuns fun value =>
          (value u).slice 0 own = value v → value v' = value v) ∧
    ∀ widen ∈ [widenBySign v own width, widenByZeros v own width],
      Adding (do downcast (← widen) t) b fun v' b' => b'.circuit.type? v' = some t ∧
        b'.circuit.InRuns fun value => value v' = value v := by
  refine ⟨fun hpos => ?_, fun u s hu hs => ?_, fun widen hwiden => ?_⟩
  · refine (widenBySign_adds hv ht hpos hle).mono fun wide b' _ hw => ⟨hw.1, ?_⟩
    refine Circuit.Henceforth.inRuns (hw.2.imp fun c e h => ⟨h.1, ?_⟩)
    obtain ⟨hwide, hown⟩ := h
    obtain ⟨hlow, hhigh⟩ := Bits.signed_range (x := c.meaning e v) (hown ▸ hpos)
    rw [hwide, Bits.signed_ofSigned hlow hhigh (by omega)]
  · refine (downcast_low ht v hu (hs ▸ hle)).mono fun v' b' _ hv' => ⟨hv'.1, ?_⟩
    exact Circuit.Henceforth.inRuns hv'.2
  · have hlow : Adding widen b fun wide b' => ∃ s, b'.circuit.type? wide = some s ∧
        own ≤ s.bitWidth ∧ b'.circuit.Henceforth fun c e =>
          (c.meaning e wide).slice 0 own = c.meaning e v := by
      rcases List.mem_cons.mp hwiden with rfl | hwiden
      · exact widenBySign_low hv ht hle
      · rw [List.mem_singleton.mp hwiden]
        exact widenByZeros_low hv ht
    refine hlow.bind fun wide b₁ _ hw => ?_
    obtain ⟨s, hs, hwidth, hmeaning⟩ := hw
    refine (downcast_low ht v hs hwidth).mono fun v' b₂ hg₂ hv' => ⟨hv'.1, ?_⟩
    exact Circuit.Henceforth.inRuns (((hmeaning.mono hg₂.circuit).and hv'.2).imp
      fun c e h => h.2 h.1)

end Integer

/-! A circuit that widens a number of five bits to eight. -/

def widenPorts : List Port := [⟨.input, "x", .int .signed 5⟩, ⟨.output, "y", .bits 8⟩]

def widenStart : Circuit where
  name := "Widen"
  ports := widenPorts
  values := ⟨#[⟨.int .signed 5, .input 0, some "x"⟩]⟩
  names := .reserving ["x", "y"]

def widenCalls : List BuildCall :=
  [.bitcast 0 (.bits 5), .extract 1 4 1, .concat [2, 2, 2, 1], .output [3]]

def widenCircuit : Circuit where
  name := "Widen"
  ports := widenPorts
  values := ⟨#[⟨.int .signed 5, .input 0, some "x"⟩, ⟨.bits 5, .result 0 0, none⟩,
    ⟨.bits 1, .result 1 0, none⟩, ⟨.bits 8, .result 2 0, none⟩]⟩
  operations := ⟨#[⟨.compute .bitcast, [0], [1], .body⟩,
    ⟨.compute (.extract 4), [1], [2], .body⟩, ⟨.compute .concat, [2, 2, 2, 1], [3], .body⟩]⟩
  outputs := [3]
  names := .reserving ["x", "y"]

def widenDesign : Design := { circuits := [widenCircuit] }

private theorem wellBuilt_widenDesign : widenDesign.WellBuilt := by
  refine .of_single (⟨"Widen", widenPorts, widenStart, rfl, rfl⟩ : widenCircuit.BuiltBy widenCalls)
    ⟨[3], ?_⟩ ?_ rfl
  · exact List.getLast_mem (List.cons_ne_nil _ _)
  · simp [widenCalls, BuildCall.Respects]

theorem negativeThree_widened : ∃ r y, widenDesign.run "Widen" [("x", .ofNat 5 29)] = .ok r ∧
    r.outputs = [("y", y)] ∧ y = .ofNat 8 253 ∧ y.signed = -3 := by
  obtain ⟨hwiden, -, -⟩ := widening_and_narrowing_keep_numbers (b := { circuit := widenStart })
    (v := 0) (t := .int .signed 5) rfl rfl (show 5 ≤ 8 by decide)
  obtain ⟨wide, b', hwide, -, -, hruns⟩ := hwiden (by decide)
  cases hwide
  obtain ⟨r, hrun, houtputs, hinputs, hvalue, hsigned⟩ := hruns widenDesign "Widen" widenCircuit
    [("x", .ofNat 5 29)] [.ofNat 5 29] wellBuilt_widenDesign rfl
    ⟨rfl, rfl, fun _ x hx => ⟨x, hx, rfl, rfl⟩, fun _ _ ho => ho⟩ (.cons ⟨rfl, rfl⟩ .nil)
    (by decide)
  obtain ⟨hx, -⟩ := List.cons.inj hinputs
  rw [hx] at hvalue hsigned
  refine ⟨r, _, hrun, houtputs, hvalue.trans ?_, hsigned.trans ?_⟩
  · decide
  · decide

end ChannelCodec.Build
