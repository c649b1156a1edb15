import ChannelCodec.Proofs.Circuit.Growing

/-! The construction steps one by one: each succeeds on operands that it accepts, and the value it
adds means what its gate makes of the meanings of the operands. -/
namespace ChannelCodec

section Signals
variable {e : Setting} {b : Builder} {items : List Signal}

theorem types_of_on (h : ∀ s ∈ items, s.On e b) :
    b.circuit.Types (items.map (·.value)) (items.map (·.type)) :=
  List.forall₂_map_left_iff.mpr (List.forall₂_map_right_iff.mpr
    (List.forall₂_same.mpr fun s hs => (h s hs).type))

theorem meanings_of_on (h : ∀ s ∈ items, s.On e b) :
    (items.map (·.value)).map (b.circuit.meaning e) = items.map (·.bits) := by
  rw [List.map_map]
  exact List.map_congr_left fun s hs => (h s hs).meaning

end Signals

namespace Build
variable {e : Setting} {r : Nat} {b : Builder}

theorem addGate_builds (hb : b.Sound e) (items : List Signal) (h : ∀ s ∈ items, s.On e b)
    {gate : Gate} {t : HwType} {y : Bits} (hgate : gate.Typed (items.map (·.type)) t)
    (heval : gate.eval t.bitWidth (items.map (·.type)) (items.map (·.bits)) = .ok y) :
    Builds e r [] (addGate gate (items.map (·.value)) t) b fun v b' => Holds e b' v t y := by
  refine ((addGate_adds (types_of_on h) hgate).builds hb).mono fun v b' hg hv => ?_
  obtain ⟨-, htype, -, hmeaning⟩ := hv
  have hnow := hmeaning.now hg.after
  rw [meanings_of_on fun s hs => (h s hs).mono hg, heval] at hnow
  exact .of_sound hg.after htype (Except.ok.inj hnow).symm

variable {v w : Nat} {s t : HwType} {x y : Bits}

theorem constant_builds (hb : b.Sound e) (h : t.bitWidth = x.width) :
    Builds e r [] (constant t x) b fun v b' =>
      Holds e b' v t x ∧ b.circuit.values.size < b'.circuit.values.size := by
  refine ((constant_adds h).builds hb).mono fun v b' hg hv => ?_
  obtain ⟨rfl, htype, -, hmeaning⟩ := hv
  exact ⟨.of_sound hg.after htype (hmeaning.now hg.after), Circuit.lt_of_type? htype⟩

theorem constantBits_builds (hb : b.Sound e) (width n : Nat) :
    Builds e r [] (constantBits width n) b fun v b' =>
      Holds e b' v (.bits width) (.ofNat width n) ∧
        b.circuit.values.size < b'.circuit.values.size :=
  constant_builds hb rfl

theorem extract_builds (hb : b.Sound e) (hv : Holds e b v t x) (ht : t.isSignless = true)
    {low width : Nat} (h : low + width ≤ t.bitWidth) :
    Builds e r [] (extract v low width) b fun v' b' =>
      Holds e b' v' (.bits width) (x.slice low width) :=
  (extract_adds hv.type ht low width h).holds hb fun _ hg => by rw [(hv.mono hg).meaning]

theorem concat_builds (hb : b.Sound e) {items : List Signal}
    (h : ∀ s ∈ items, s.On e b ∧ s.type.isSignless = true) :
    Builds e r [] (concat (items.map (·.value))) b fun v b' =>
      Holds e b' v (.bits (total (items.map (·.type.bitWidth))))
        (.concat (items.map (·.bits))) := by
  have hon : ∀ s ∈ items, s.On e b := fun s hs => (h s hs).1
  have hsignless : ∀ t ∈ items.map (·.type), t.isSignless = true :=
    List.forall_mem_map.mpr fun s hs => (h s hs).2
  have hadds := concat_adds (types_of_on hon) hsignless
  rw [List.map_map] at hadds
  refine hadds.holds hb fun _ hg => ?_
  rw [meanings_of_on fun s hs => (hon s hs).mono hg]

section Pair
variable (hb : b.Sound e) (hv : Holds e b v t x) (hw : Holds e b w t y)
variable (ht : t.isSignless = true)
include hb hv hw ht

theorem add_builds :
    Builds e r [] (add v w) b fun v' b' =>
      Holds e b' v' t (.ofNat t.bitWidth (x.toNat + y.toNat)) := by
  have hon : ∀ s ∈ ([⟨v, t, x⟩, ⟨w, t, y⟩] : List Signal), s.On e b :=
    List.forall_mem_cons.mpr ⟨hv, List.forall_mem_singleton.mpr hw⟩
  refine .congr (add_eq hv.type hw.type ht) ?_
  refine addGate_builds hb _ hon (.add ht) ?_
  have hwidth : x.width = y.width := hv.width.trans hw.width.symm
  unfold Gate.eval
  simp [Bits.add?_eq hwidth, hv.width]

theorem compare_builds (predicate : Predicate) :
    Builds e r [] (compare predicate v w) b fun v' b' =>
      Holds e b' v' .bit (.ofBool (predicate.holds (Ord.compare x.toNat y.toNat))) := by
  have hon : ∀ s ∈ ([⟨v, t, x⟩, ⟨w, t, y⟩] : List Signal), s.On e b :=
    List.forall_mem_cons.mpr ⟨hv, List.forall_mem_singleton.mpr hw⟩
  refine .congr (compare_eq hv.type hw.type ht predicate) ?_
  refine addGate_builds hb _ hon (.compare predicate ht) ?_
  have hwidth : x.width = y.width := hv.width.trans hw.width.symm
  unfold Gate.eval
  simp [Bits.compare?_eq hwidth]

end Pair

theorem arrayCreate_builds (hb : b.Sound e) {element : HwType} {items : List Signal}
    (hne : items ≠ []) (h : ∀ s ∈ items, s.On e b ∧ s.type = element) :
    Builds e r [] (arrayCreate (items.map (·.value))) b fun v b' =>
      Holds e b' v (.array items.length element) (.ofElements (items.map (·.bits))) := by
  have hon : ∀ s ∈ items, s.On e b := fun s hs => (h s hs).1
  have hsame : ∀ t ∈ items.map (·.type), t = element :=
    List.forall_mem_map.mpr fun s hs => (h s hs).2
  have hsome : items.map (·.type) ≠ [] := mt List.map_eq_nil_iff.mp hne
  rw [← List.length_map (f := fun s : Signal => s.type)]
  refine .congr (arrayCreate_eq (types_of_on hon) hsame hsome) ?_
  exact addGate_builds hb items hon (.arrayCreate hsame hsome) rfl

theorem structExtract_builds (hb : b.Sound e) (hv : Holds e b v t x) {field : String}
    {low : Nat} {type : HwType} (ht : t.fieldPlace? field = some (low, type)) :
    Builds e r [] (structExtract v field) b fun v' b' =>
      Holds e b' v' type (x.slice low type.bitWidth) := by
  have hon : ∀ s ∈ ([⟨v, t, x⟩] : List Signal), s.On e b := List.forall_mem_singleton.mpr hv
  have htype : t.fieldType? field = some type := by
    rw [HwType.fieldType?, ht]
    rfl
  refine .congr (structExtract_eq hv.type htype) ?_
  refine addGate_builds hb _ hon (.structExtract htype) ?_
  unfold Gate.eval
  simp [HwType.fieldRange, ht]

theorem structCreate_builds (hb : b.Sound e) {fields : List (Field HwType)}
    (hstruct : t.struct? = some fields) {items : List Signal} (h : ∀ s ∈ items, s.On e b)
    (ht : fields.map (·.type) = items.map (·.type)) :
    Builds e r [] (structCreate t (items.map (·.value))) b fun v b' =>
      Holds e b' v t (.concat (items.map (·.bits))) := by
  have hgate : Gate.structCreate.Typed (items.map (·.type)) t := ht ▸ .structCreate hstruct
  refine .congr (structCreate_eq hstruct (ht ▸ types_of_on h)) ?_
  exact addGate_builds hb items h hgate rfl

end Build
end ChannelCodec
