import ChannelCodec.Proofs.Circuit.Guards
import ChannelCodec.Proofs.Circuit.Steps
import ChannelCodec.Proofs.Gasket.Growing

/-! Casts, slices and concatenations under a fixed setting. A slice of an array means a slice of
what the array means; its offset in the origin is the sum of the offsets on the way. -/
namespace ChannelCodec

def Slice.On (e : Setting) (b : Builder) (s : Slice) (element : HwType) (x : Bits) : Prop :=
  ∃ t, t.array? = some (element, s.size) ∧ Holds e b s.array t x

variable {e : Setting} {r : Nat} {messages : List String} {b b' : Builder}
variable {v : Nat} {s : Slice} {t u element : HwType} {x y : Bits}

theorem Slice.On.mono (h : s.On e b element x) (hg : Grows e r messages b b') :
    s.On e b' element x := by
  obtain ⟨t, ht, hv⟩ := h
  exact ⟨t, ht, hv.mono hg⟩

theorem Slice.On.width (h : s.On e b element x) : x.width = element.bitWidth * s.size := by
  obtain ⟨t, ht, hv⟩ := h
  rw [hv.width, HwType.bitWidth_of_array? ht]

namespace Build

theorem label_builds (hb : b.Sound e) (hv : Holds e b v t x) (name : String) :
    Builds e r [] (label v name) b fun _ _ => True :=
  (label_adds hv.type name).builds hb

theorem labeled_builds (hb : b.Sound e) (hv : Holds e b v t x) (name : String) :
    Builds e r [] (labeled v name) b fun v' _ => v' = v :=
  (label_builds hb hv name).bind fun _ _ hg _ => .pure hg.after rfl

theorem labeledSlice_builds (hb : b.Sound e) (hs : s.On e b element x) (name : String) :
    Builds e r [] (labeledSlice s name) b fun s' _ => s' = s := by
  obtain ⟨t, _, hv⟩ := hs
  exact (label_builds hb hv name).bind fun _ _ hg _ => .pure hg.after rfl

theorem zeros_builds (hb : b.Sound e) (width : Nat) :
    Builds e r [] (zeros width) b fun v b' => Holds e b' v (.bits width) (.zero width) :=
  (zeros_adds width).holds hb fun _ _ => rfl

theorem cast_builds (hb : b.Sound e) (hv : Holds e b v t x) (h : t.bitWidth = u.bitWidth) :
    Builds e r [] (cast v u) b fun v' b' => Holds e b' v' u x :=
  (cast_adds hv.type h).holds hb fun _ hg => (hv.mono hg).meaning

theorem rootSlice_builds (hb : b.Sound e) (hv : Holds e b v t x) {size : Nat}
    (ht : t.array? = some (element, size)) :
    Builds e r [] (rootSlice v) b fun s _ => ∃ index, s = .root index v size :=
  (rootSlice_adds hv.type ht).builds hb

theorem castToArray_builds (hb : b.Sound e) (hv : Holds e b v t x) {size : Nat}
    (h : t.bitWidth = element.bitWidth * size) :
    Builds e r [] (castToArray v element size) b fun s b' =>
      s.size = size ∧ Holds e b' s.array (.array size element) x := by
  refine ((castToArray_adds hv.type h).builds hb).mono fun s b' hg hs => ⟨hs.1, ?_⟩
  exact .of_sound hg.after hs.2.1 ((hs.2.2.now hg.after).trans (hv.mono hg).meaning)

theorem downcast_builds (hb : b.Sound e) (hv : Holds e b v t x) {sign : Signedness} {width : Nat}
    (hu : u.int? = some (sign, width)) (h : width ≤ t.bitWidth) :
    Builds e r [] (downcast v u) b fun v' b' => Holds e b' v' u (x.slice 0 width) :=
  (downcast_adds hv.type hu h).holds hb fun _ hg => by rw [(hv.mono hg).meaning]

theorem signExtend_builds (hb : b.Sound e) {own : Nat} (hv : Holds e b v (.bits own) x)
    (hpos : 0 < own) (h64 : own ≤ 64) {width : Nat} (hle : own ≤ width) :
    Builds e r [] (signExtend v width) b fun v' b' =>
      Holds e b' v' (.bits width) (.ofInt width x.lowInt) := by
  obtain rfl : x.width = own := hv.width
  rw [← Bits.concat_sign_copies hpos h64 hle, Bits.sign_copies_eq_ofSigned hpos hle]
  exact (signExtend_adds hv.type hpos hle).holds hb fun _ hg => by rw [(hv.mono hg).meaning]

theorem pack_builds (hb : b.Sound e) {items : List Signal} (hne : items ≠ [])
    (h : ∀ s ∈ items, s.On e b) :
    Builds e r [] (pack (items.map (·.value))) b fun v b' =>
      Holds e b' v (.bitArray (total (items.map (·.type.bitWidth))))
        (.ofElements (items.map (·.bits))) := by
  have hadds := pack_adds (types_of_on h) (mt List.map_eq_nil_iff.mp hne)
  rw [List.map_map] at hadds
  refine hadds.holds hb fun _ hg => ?_
  rw [meanings_of_on fun s hs => (h s hs).mono hg]

theorem cut_builds (hb : b.Sound e) (hs : s.On e b element x) {position : Nat}
    (hp : Holds e b position t y) (ht : t.isSignless = true) (hw : t.bitWidth = indexWidth s.size)
    {size : Nat} (hle : size ≤ s.size) (offset : Option Nat) :
    Builds e r [] (cut s position offset size) b fun s' b' =>
      Holds e b' s'.array (.array size element)
        (x.slice (y.lowNat * element.bitWidth) (element.bitWidth * size)) := by
  obtain ⟨u, hu, hv⟩ := hs
  refine ((cut_adds hv.type hu hp.type ht hw hle offset).mono fun _ _ _ h =>
    ⟨h.2.1, h.2.2.2⟩).holds hb fun _ hg => ?_
  rw [(hv.mono hg).meaning, (hp.mono hg).meaning]

theorem slice_builds (hb : b.Sound e) (hs : s.On e b element x) {low size : Nat}
    (hle : low + size ≤ s.size) :
    Builds e r [] (slice s low size) b fun s' b' =>
      (∃ index array, s' = .part index array size s (some low)) ∧
        b.circuit.values.size < b'.circuit.values.size ∧
        Holds e b' s'.array (.array size element)
          (x.slice (low % 2 ^ (64 : Nat) * element.bitWidth) (element.bitWidth * size)) := by
  obtain ⟨u, hu, hv⟩ := hs
  refine ((slice_adds hv.type hu hle).builds hb).mono fun s' b' hg hs' => ?_
  obtain ⟨hpart, htype, -, hgrow, hmeaning⟩ := hs'
  refine ⟨hpart, hgrow, .of_sound hg.after htype ?_⟩
  rw [hmeaning.now hg.after, (hv.mono hg).meaning]

/-- A number is cut or filled up to `wanted` bits, on the way to what comes next. -/
theorem resized_builds {α : Type} {next : Nat → Build α} {post : α → Builder → Prop}
    (hb : b.Sound e) {low own : Nat} (wanted : Nat) (hl : Holds e b low (.bits own) y)
    (hnext : ∀ v' b' z, Grows e r [] b b' → Holds e b' v' (.bits wanted) z →
      z.toNat = y.toNat % 2 ^ wanted → Builds e r [] (next v') b' post) :
    Builds e r [] (do
      let position ←
        if wanted < own then extract low 0 wanted
        else if own < wanted then do
          let zeros ← zeros (wanted - own)
          concat [zeros, low]
        else pure low
      next position) b post := by
  have hy : y.toNat < 2 ^ own := by
    have hlt := y.toNat_lt
    rwa [hl.width, HwType.bitWidth_bits] at hlt
  by_cases hwide : wanted < own
  · rw [if_pos hwide]
    refine (extract_builds hb hl rfl
      (by rw [HwType.bitWidth_bits, Nat.zero_add]; omega)).bind fun position b₁ hg₁ hp => ?_
    exact hnext position b₁ _ hg₁ hp (by rw [Bits.toNat_slice, Nat.pow_zero, Nat.div_one])
  · rw [if_neg hwide]
    have hfits : y.toNat % 2 ^ wanted = y.toNat :=
      Nat.mod_eq_of_lt
        (Nat.lt_of_lt_of_le hy (Nat.pow_le_pow_right (by decide) (Nat.le_of_not_lt hwide)))
    by_cases hnarrow : own < wanted
    · rw [if_pos hnarrow]
      refine (zeros_builds hb (wanted - own)).bind fun zeros b₁ hg₁ hz => ?_
      have hon : ∀ s' ∈ ([⟨zeros, .bits (wanted - own), .zero (wanted - own)⟩,
          ⟨low, .bits own, y⟩] : List Signal), s'.On e b₁ ∧ s'.type.isSignless = true := by
        rintro _ (_ | ⟨_, _ | ⟨_, ⟨⟩⟩⟩)
        · exact ⟨hz, rfl⟩
        · exact ⟨hl.mono hg₁, rfl⟩
      refine Builds.bind (concat_builds hg₁.after hon) fun position b₂ hg₂ hp => ?_
      have htotal : wanted - own + own = wanted := Nat.sub_add_cancel (Nat.le_of_lt hnarrow)
      simp only [List.map_cons, List.map_nil, total_cons, total_nil, HwType.bitWidth_bits,
        Nat.add_zero, htotal, Bits.concat_cons, Bits.concat_nil, Bits.append_zero] at hp
      refine hnext position b₂ _ (hg₁.trans hg₂) hp ?_
      rw [Bits.toNat_append, Bits.toNat_zero, Nat.zero_mul, Nat.zero_add, hfits]
    · rw [if_neg hnarrow]
      have he : own = wanted := by omega
      exact hnext low b y (.refl hb) (he ▸ hl) hfits.symm

/-- A slice from a computed element on, whose number is cut to the width of an index. -/
theorem sliceAt_builds (hb : b.Sound e) (hs : s.On e b element x) {low own : Nat}
    (hl : Holds e b low (.bits own) y) (h64 : own ≤ 64) {size : Nat} (hle : size ≤ s.size) :
    Builds e r [] (sliceAt s low size) b fun s' b' =>
      Holds e b' s'.array (.array size element)
        (x.slice (y.toNat % 2 ^ indexWidth s.size * element.bitWidth)
          (element.bitWidth * size)) := by
  have hy : y.toNat < 2 ^ (64 : Nat) := by
    have hlt := y.toNat_lt
    rw [hl.width, HwType.bitWidth_bits] at hlt
    exact Nat.lt_of_lt_of_le hlt (Nat.pow_le_pow_right (by decide) h64)
  refine .look (widthOf_eq hl.type) ?_
  dsimp only
  rw [HwType.bitWidth_bits]
  refine resized_builds hb _ hl fun position b₁ z hg₁ hz hzy => ?_
  have hlow : z.lowNat = y.toNat % 2 ^ indexWidth s.size := by
    have hmod : y.toNat % 2 ^ indexWidth s.size ≤ y.toNat := Nat.mod_le _ _
    rw [Bits.lowNat_of_lt (by omega), hzy]
  rw [← hlow]
  exact cut_builds hg₁.after (hs.mono hg₁) hz rfl rfl hle none

theorem element_builds (hb : b.Sound e) (hs : s.On e b element x) {k : Nat} (hk : k < s.size)
    (h64 : k < 2 ^ (64 : Nat)) :
    Builds e r [] (Build.element s k) b fun v b' =>
      Holds e b' v element (x.slice (k * element.bitWidth) element.bitWidth) := by
  obtain ⟨u, hu, hv⟩ := hs
  refine ((element_adds hv.type hu hk).mono fun _ _ _ h => ⟨h.1, h.2.2 h64⟩).holds hb
    fun _ hg => ?_
  rw [(hv.mono hg).meaning]

end Build
end ChannelCodec
