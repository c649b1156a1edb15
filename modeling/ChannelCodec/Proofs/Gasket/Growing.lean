import ChannelCodec.Gasket.Slice
import ChannelCodec.Proofs.Circuit.Growing

/-! Casts, slices and concatenations in circuits that may still grow: what they return will always
mean the same bits. -/
namespace ChannelCodec

/-- The value `v` is read by `gate` out of an array of `size` elements, at the constant index `k`,
which is written out in the bits of an index. -/
def Circuit.ReadsAt (c : Circuit) (gate : Gate) (array size k v : Nat) : Prop :=
  ∃ position x, c.Makes (.constant x) [] position ∧ x.width = indexWidth size ∧ x.toNat = k ∧
    c.Makes gate [array, position] v

theorem Circuit.ReadsAt.mono {c c' : Circuit} {gate : Gate} {array size k v : Nat}
    (h : c.ReadsAt gate array size k v) (hx : c.Extends c') : c'.ReadsAt gate array size k v := by
  obtain ⟨position, x, hconstant, hwidth, hnumber, hreads⟩ := h
  exact ⟨position, x, hconstant.mono hx, hwidth, hnumber, hreads.mono hx⟩

namespace Build
variable {b : Builder}

section Values
variable {v : Nat} {s t element : HwType}

theorem label_adds (hv : b.circuit.type? v = some t) (name : String) :
    Adding (label v name) b fun _ _ => True := by
  unfold label
  by_cases h : name = ""
  · rw [if_neg (not_not.mpr h)]
    exact .pure trivial
  · rw [if_pos h]
    exact (setName_adds hv name).bind fun _ _ _ _ => .pure trivial

theorem constantBits_adds (width n : Nat) :
    Adding (constantBits width n) b fun v b' => v = b.circuit.values.size ∧
      b'.circuit.type? v = some (.bits width) ∧
        b'.circuit.Makes (.constant (.ofNat width n)) [] v ∧ b'.circuit.Henceforth fun c e =>
          c.meaning e v = .ofNat width n :=
  constant_adds (HwType.bitWidth_bits width)

theorem zeros_adds (width : Nat) :
    Adding (zeros width) b fun v b' => b'.circuit.type? v = some (.bits width) ∧
      b'.circuit.Henceforth fun c e => c.meaning e v = .zero width := by
  have hzero : Bits.ofNat width 0 = .zero width := Bits.ext rfl (Nat.zero_mod _)
  rw [← hzero]
  exact (constantBits_adds width 0).mono fun v b' _ hv => ⟨hv.2.1, hv.2.2.2⟩

theorem cast_adds (hv : b.circuit.type? v = some s) (h : s.bitWidth = t.bitWidth) :
    Adding (cast v t) b fun v' b' => b'.circuit.type? v' = some t ∧
      b'.circuit.Henceforth fun c e => c.meaning e v' = c.meaning e v := by
  refine .look (typeOf_eq hv) ?_
  by_cases hst : s = t
  · rw [if_pos hst]
    exact .pure ⟨hst ▸ hv, fun _ _ _ _ _ _ => rfl⟩
  · rw [if_neg hst]
    exact bitcast_adds hv h

theorem nextSlice_adds : Adding nextSlice b fun _ _ => True :=
  .of_eq rfl ⟨.of_operations (.refl _) (fun _ hb => ⟨hb.circuit, hb.block⟩) rfl rfl, trivial⟩

theorem rootSlice_adds {size : Nat} (hv : b.circuit.type? v = some t)
    (ht : t.array? = some (element, size)) :
    Adding (rootSlice v) b fun s _ => ∃ index, s = .root index v size := by
  refine .look (typeOf_eq hv) (.look (expect_eq ht _ b) ?_)
  exact nextSlice_adds.bind fun index _ _ _ => .pure ⟨index, rfl⟩

theorem castToArray_adds (hv : b.circuit.type? v = some t) {size : Nat}
    (h : t.bitWidth = element.bitWidth * size) :
    Adding (castToArray v element size) b fun s b' => s.size = size ∧
      b'.circuit.type? s.array = some (.array size element) ∧
        b'.circuit.Henceforth fun c e => c.meaning e s.array = c.meaning e v := by
  refine (cast_adds (t := .array size element) hv h).bind fun v' b₁ _ hv' => ?_
  refine (rootSlice_adds hv'.1 rfl).mono fun s b₂ hg₂ hs => ?_
  obtain ⟨index, rfl⟩ := hs
  exact ⟨rfl, hg₂.type? hv'.1, hv'.2.mono hg₂.circuit⟩

theorem castToBits_adds (hv : b.circuit.type? v = some t) :
    Adding (castToBits v) b fun s b' =>
      b'.circuit.type? s.array = some (.bitArray t.bitWidth) ∧
        b'.circuit.Henceforth fun c e => c.meaning e s.array = c.meaning e v := by
  refine .look (widthOf_eq hv) ?_
  refine (cast_adds hv (HwType.bitWidth_bitArray _).symm).bind fun v' b₁ _ hv' => ?_
  refine (rootSlice_adds hv'.1 (HwType.array?_bitArray _)).mono fun s b₂ hg₂ hs => ?_
  obtain ⟨index, rfl⟩ := hs
  exact ⟨hg₂.type? hv'.1, hv'.2.mono hg₂.circuit⟩

theorem padding_adds (size : Nat) :
    Adding (padding size) b fun s b' => b'.circuit.type? s.array = some (.bitArray size) ∧
      b'.circuit.Henceforth fun c e => c.meaning e s.array = .zero size := by
  refine (zeros_adds size).bind fun v b₁ _ hv => ?_
  refine (castToBits_adds hv.1).mono fun s b₂ hg₂ hs => ⟨hs.1, ?_⟩
  refine (hs.2.and (hv.2.mono hg₂.circuit)).imp fun c e h => ?_
  rw [h.1, h.2]

theorem castAll_adds {vs : List Nat} {types : List HwType} (h : b.circuit.Types vs types) :
    Adding (vs.mapM castToBits) b fun slices b' =>
      b'.circuit.Types (slices.map Slice.array) (types.map fun t => .bitArray t.bitWidth) ∧
        b'.circuit.Henceforth fun c e =>
          (slices.map Slice.array).map (c.meaning e) = vs.map (c.meaning e) := by
  induction vs generalizing b types with
  | nil =>
    obtain rfl := List.forall₂_nil_left_iff.mp h
    exact .pure ⟨.nil, fun _ _ _ _ _ _ => rfl⟩
  | cons v vs ih =>
    obtain ⟨t, types, hv, hvs, rfl⟩ := List.forall₂_cons_left_iff.mp h
    rw [List.mapM_cons]
    refine (castToBits_adds hv).bind fun s b₁ hg₁ hs => ?_
    refine (ih (hg₁.types hvs)).bind fun slices b₂ hg₂ hslices => .pure ⟨?_, ?_⟩
    · exact .cons (hg₂.type? hs.1) hslices.1
    · refine ((hs.2.mono hg₂.circuit).and hslices.2).imp fun c e h => ?_
      simp only [List.map_cons, h.1, h.2]

private theorem joined_bitArrays (widths : List Nat) :
    HwType.bit.Joined (widths.map HwType.bitArray) (total widths) := by
  induction widths with
  | nil => exact .nil
  | cons width widths ih => exact .cons (HwType.array?_bitArray width) ih

theorem pack_adds {vs : List Nat} {types : List HwType} (h : b.circuit.Types vs types)
    (hne : vs ≠ []) :
    Adding (pack vs) b fun v b' =>
      b'.circuit.type? v = some (.bitArray (total (types.map HwType.bitWidth))) ∧
        b'.circuit.Henceforth fun c e => c.meaning e v = .ofElements (vs.map (c.meaning e)) := by
  refine .look (require_eq hne _ b) ?_
  refine (castAll_adds (List.rel_reverse h)).bind fun slices b₁ hg₁ hslices => ?_
  have hjoined : HwType.bit.Joined (types.reverse.map fun t => .bitArray t.bitWidth)
      (total (types.map HwType.bitWidth)) := by
    rw [← total_reverse, ← List.map_reverse]
    have hwidths := joined_bitArrays (types.reverse.map HwType.bitWidth)
    rwa [List.map_map] at hwidths
  have hsome : types.reverse.map (fun t => HwType.bitArray t.bitWidth) ≠ [] := by
    rintro hnil
    obtain rfl : types = [] := by simpa using hnil
    exact hne (List.forall₂_nil_right_iff.mp h)
  refine (arrayConcat_adds hslices.1 hjoined hsome).mono fun v b₂ hg₂ hv => ⟨hv.1, ?_⟩
  refine (hv.2.and (hslices.2.mono hg₂.circuit)).imp fun c e h => ?_
  rw [h.1, h.2, List.map_reverse, List.reverse_reverse]

theorem downcast_adds (hv : b.circuit.type? v = some s) {sign : Signedness} {width : Nat}
    (ht : t.int? = some (sign, width)) (h : width ≤ s.bitWidth) :
    Adding (downcast v t) b fun v' b' => b'.circuit.type? v' = some t ∧
      b'.circuit.Henceforth fun c e => c.meaning e v' = (c.meaning e v).slice 0 width := by
  have hwidth : (HwType.bits width).bitWidth = t.bitWidth := (HwType.bitWidth_of_int? ht).symm
  refine .look (expect_eq ht _ b) (.look (widthOf_eq hv) ?_)
  refine (cast_adds hv (HwType.bitWidth_bits _).symm).bind fun plain b₁ hg₁ hp => ?_
  dsimp only
  by_cases hs : (t.isSigned && decide (1 < width)) = true
  · have hone : 1 < width := by
      simp only [Bool.and_eq_true, decide_eq_true_eq] at hs
      exact hs.2
    rw [if_pos hs]
    refine (extract_adds hp.1 rfl 0 (width - 1)
      (by rw [HwType.bitWidth_bits]; omega)).bind fun magnitude b₂ hg₂ hm => ?_
    refine (extract_adds (hg₂.type? hp.1) rfl (width - 1) 1
      (by rw [HwType.bitWidth_bits]; omega)).bind fun top b₃ hg₃ htop => ?_
    have htypes : b₃.circuit.Types [top, magnitude] [.bits 1, .bits (width - 1)] :=
      .cons htop.1 (.cons (hg₃.type? hm.1) .nil)
    refine (concat_adds htypes (by simp [HwType.bits, HwType.isSignless, HwType.int?,
      HwType.canonical])).bind fun low b₄ hg₄ hl => ?_
    have htotal : 1 + (width - 1) = width := by omega
    have hlow : b₄.circuit.type? low = some (.bits width) := by simpa [htotal] using hl.1
    refine (cast_adds hlow hwidth).mono fun v' b₅ hg₅ hv' => ⟨hv'.1, ?_⟩
    have hg₃₅ := hg₄.circuit.trans hg₅.circuit
    have hparts := ((hp.2.mono (hg₂.circuit.trans (hg₃.circuit.trans hg₃₅))).and
      (hm.2.mono (hg₃.circuit.trans hg₃₅))).and (htop.2.mono hg₃₅)
    refine (hparts.and ((hl.2.mono hg₅.circuit).and hv'.2)).imp fun c e h => ?_
    obtain ⟨⟨⟨hplain, hmagnitude⟩, htop⟩, hlow, hcast⟩ := h
    -- The sign bit lies right above the magnitude.
    have hjoin := Bits.slice_above_slice (c.meaning e plain) 0 (width - 1) 1
    rw [Nat.zero_add, htotal] at hjoin
    rw [hcast, hlow, List.map_cons, List.map_cons, List.map_nil, Bits.concat_cons,
      Bits.concat_cons, Bits.concat_nil, Bits.append_zero, htop, hmagnitude, hjoin, hplain]
  · rw [if_neg hs]
    refine (extract_adds hp.1 rfl 0 width
      (by rw [HwType.bitWidth_bits, Nat.zero_add]; exact h)).bind fun low b₂ hg₂ hl => ?_
    refine (cast_adds hl.1 hwidth).mono fun v' b₃ hg₃ hv' => ⟨hv'.1, ?_⟩
    refine ((hp.2.mono (hg₂.circuit.trans hg₃.circuit)).and
      ((hl.2.mono hg₃.circuit).and hv'.2)).imp fun c e h => ?_
    rw [h.2.2, h.2.1, h.1]

theorem signExtend_adds {own width : Nat} (hv : b.circuit.type? v = some (.bits own))
    (hpos : 0 < own) (hle : own ≤ width) :
    Adding (signExtend v width) b fun v' b' => b'.circuit.type? v' = some (.bits width) ∧
      b'.circuit.Henceforth fun c e =>
        c.meaning e v' = .ofSigned width (c.meaning e v).signed := by
  have hextended : ∀ x : Bits, x.width = own → Bits.concat
      (List.replicate (width - own) (x.slice (own - 1) 1) ++ [x]) = .ofSigned width x.signed := by
    rintro x rfl
    exact Bits.sign_copies_eq_ofSigned hpos hle
  have hown : ∀ {b' : Builder}, b.Adds b' → b'.circuit.Henceforth fun c e =>
      (c.meaning e v).width = own := by
    intro b' hg
    have hwidth := Circuit.henceforth_width (hg.type? hv)
    rwa [HwType.bitWidth_bits] at hwidth
  refine .look (widthOf_eq hv) ?_
  rw [HwType.bitWidth_bits]
  by_cases hw : width ≤ own
  · obtain rfl := Nat.le_antisymm hle hw
    rw [if_pos (.inr hw)]
    refine .pure ⟨hv, (hown (.refl b)).imp fun c e hwidth => ?_⟩
    rw [← hextended _ hwidth, Nat.sub_self, List.replicate_zero, List.nil_append,
      Bits.concat_cons, Bits.concat_nil, Bits.append_zero]
  · rw [if_neg (by omega)]
    refine (extract_adds hv rfl (own - 1) 1
      (by rw [HwType.bitWidth_bits]; omega)).bind fun top b₁ hg₁ htop => ?_
    have htypes : b₁.circuit.Types (List.replicate (width - own) top ++ [v])
        (List.replicate (width - own) (.bits 1) ++ [.bits own]) :=
      List.rel_append (Circuit.types_replicate htop.1 _) (.cons (hg₁.type? hv) .nil)
    refine (concat_adds htypes ?_).mono fun v' b₂ hg₂ hv' => ⟨?_, ?_⟩
    · intro t ht
      rcases List.mem_append.mp ht with ht | ht
      · rw [List.eq_of_mem_replicate ht]
        rfl
      · rw [List.mem_singleton.mp ht]
        rfl
    · have htotal : width - own + own = width := Nat.sub_add_cancel hle
      simpa [htotal] using hv'.1
    · refine ((htop.2.mono hg₂.circuit).and ((hown (hg₁.trans hg₂)).and hv'.2)).imp
        fun c e h => ?_
      obtain ⟨htop, hwidth, hmeaning⟩ := h
      rw [hmeaning, List.map_append, List.map_replicate, List.map_cons, List.map_nil, htop,
        hextended _ hwidth]

end Values

section Parts
variable {s : Slice} {t u element : HwType} {position low size k : Nat}

theorem toNat_index (hk : k < size) : (Bits.ofNat (indexWidth size) k).toNat = k := by
  rw [Bits.toNat_ofNat, Nat.mod_eq_of_lt (lt_two_pow_indexWidth hk)]

variable (harray : b.circuit.type? s.array = some t) (ht : t.array? = some (element, s.size))
include harray ht

theorem cut_adds (hp : b.circuit.type? position = some u) (hu : u.isSignless = true)
    (hwidth : u.bitWidth = indexWidth s.size) (hle : size ≤ s.size) (offset : Option Nat) :
    Adding (cut s position offset size) b fun s' b' =>
      (∃ index array, s' = .part index array size s offset) ∧
        b'.circuit.type? s'.array = some (.array size element) ∧
        b'.circuit.Makes .arraySlice [s.array, position] s'.array ∧
        b'.circuit.Henceforth fun c e => c.meaning e s'.array = (c.meaning e s.array).slice
          ((c.meaning e position).lowNat * element.bitWidth) (element.bitWidth * size) := by
  refine (arraySlice_adds harray ht hp hu hwidth hle).bind fun array b₁ _ ha => ?_
  refine nextSlice_adds.bind fun index b₂ hg₂ _ => ?_
  exact .pure ⟨⟨index, array, rfl⟩, hg₂.type? ha.1, ha.2.1.mono hg₂.circuit,
    ha.2.2.mono hg₂.circuit⟩

theorem slice_adds (hle : low + size ≤ s.size) :
    Adding (slice s low size) b fun s' b' =>
      (∃ index array, s' = .part index array size s (some low)) ∧
        b'.circuit.type? s'.array = some (.array size element) ∧
        (0 < size → b'.circuit.ReadsAt .arraySlice s.array s.size low s'.array) ∧
        b.circuit.values.size < b'.circuit.values.size ∧
        b'.circuit.Henceforth fun c e => c.meaning e s'.array =
          (c.meaning e s.array).slice (low % 2 ^ (64 : Nat) * element.bitWidth)
            (element.bitWidth * size) := by
  refine .look (require_eq hle _ b) ?_
  refine (constantBits_adds (indexWidth s.size) low).bind fun position b₁ hg₁ hp => ?_
  obtain ⟨rfl, hposition, hconstant, hnumber⟩ := hp
  refine (cut_adds (hg₁.type? harray) ht hposition rfl rfl (by omega) _).mono
    fun s' b₂ hg₂ hs' => ?_
  obtain ⟨hpart, htype, hmakes, hmeaning⟩ := hs'
  refine ⟨hpart, htype, fun hpos => ?_, Circuit.lt_of_type? (hg₂.type? hposition), ?_⟩
  · exact ⟨_, _, hconstant.mono hg₂.circuit, rfl, toNat_index (by omega), hmakes⟩
  · refine ((hnumber.mono hg₂.circuit).and hmeaning).imp fun c e h => ?_
    obtain ⟨hnumber, hcut⟩ := h
    rw [hcut, hnumber]
    obtain rfl | hpos := Nat.eq_zero_or_pos size
    · exact Bits.eq_of_width_zero (Nat.mul_zero _) (Nat.mul_zero _)
    · rw [Bits.lowNat_eq, toNat_index (by omega)]

theorem element_adds (hk : k < s.size) :
    Adding (Build.element s k) b fun x b' => b'.circuit.type? x = some element ∧
      b'.circuit.ReadsAt .arrayGet s.array s.size k x ∧
        (k < 2 ^ (64 : Nat) → b'.circuit.Henceforth fun c e => c.meaning e x =
          (c.meaning e s.array).slice (k * element.bitWidth) element.bitWidth) := by
  refine (constantBits_adds (indexWidth s.size) k).bind fun position b₁ hg₁ hp => ?_
  obtain ⟨-, hposition, hconstant, hnumber⟩ := hp
  refine (arrayGet_adds (hg₁.type? harray) ht hposition rfl rfl).mono fun x b₂ hg₂ hx => ?_
  obtain ⟨htype, hmakes, hmeaning⟩ := hx
  refine ⟨htype, ⟨position, _, hconstant.mono hg₂.circuit, rfl, toNat_index hk, hmakes⟩,
    fun h64 => ?_⟩
  refine ((hnumber.mono hg₂.circuit).and hmeaning).imp fun c e h => ?_
  rw [h.2, h.1, Bits.lowNat_eq, toNat_index hk, Nat.mod_eq_of_lt h64]

end Parts

end Build
end ChannelCodec
