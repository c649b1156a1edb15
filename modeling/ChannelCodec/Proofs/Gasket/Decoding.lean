import ChannelCodec.Gasket.Decoder
import ChannelCodec.Proofs.Gasket.Checking
import ChannelCodec.Proofs.Message.Readout

/-! The circuits that decode. Whatever the message is, each step succeeds; it reads what the report
says, and its checks complain as the report says. Slices of the message at known places have their
places cut to 64 bits, which is undone once all places are known to be that small. -/
namespace ChannelCodec
namespace Decoder
open Build

variable {e : Setting} {r : Nat} {b : Builder} {s : Slice} {t : HwType} {x : Bits}

theorem slice_bits_builds (hb : b.Sound e) (hs : s.On e b .bit x) (low size : Nat)
    (hle : low + size ≤ s.size) :
    Builds e r [] (slice s low size) b fun s' b' =>
      (∃ index array, s' = .part index array size s (some low)) ∧
        b.circuit.values.size < b'.circuit.values.size ∧
        Holds e b' s'.array (.bitArray size) (x.slice (low % 2 ^ (64 : Nat)) size) := by
  refine (slice_builds hb hs hle).mono ?_
  rintro s' b' _ ⟨hpart, hsize, hs'⟩
  refine ⟨hpart, hsize, ?_⟩
  rw [HwType.bitWidth_bit, Nat.mul_one, Nat.one_mul] at hs'
  exact hs'

theorem on_bitArray {array size : Nat} (h : Holds e b array (.bitArray size) x) (index : Nat)
    (parent : Slice) (offset : Option Nat) :
    (Slice.part index array size parent offset).On e b .bit x :=
  ⟨_, rfl, h⟩

theorem cutInteger_builds (hb : b.Sound e) (hs : s.On e b .bit x) (low size : Nat)
    (hle : low + size ≤ s.size) (name : String) :
    Builds e r [] (cutInteger s low size name) b fun v b' =>
      Holds e b' v (.bits size) (x.slice (low % 2 ^ (64 : Nat)) size) := by
  refine (slice_bits_builds hb hs low size hle).bind ?_
  rintro bits b₁ hg₁ ⟨_, _, hbits⟩
  refine (cast_builds (u := .bits size) hg₁.after hbits (HwType.bitWidth_bitArray size)).bind
    fun number b₂ hg₂ hn => ?_
  refine (labeled_builds hg₂.after hn name).mono fun v b₃ hg₃ hv => ?_
  rw [hv]
  exact hn.mono hg₃

theorem decodeElements_builds {wire : WireType} {element : HwType} {name : String} (ks : List Nat)
    (hb : b.Sound e) (hs : s.On e b (.bits wire.bits) x) (hitem : element.Scalar wire)
    (hks : ∀ k ∈ ks, k < s.size) (h64 : s.size ≤ 2 ^ (64 : Nat)) :
    Builds e r [] (decodeElements s name element ks) b fun vs b' => ∃ items : List Signal,
      vs = items.map (·.value) ∧ (∀ i ∈ items, i.On e b' ∧ i.type = element) ∧
        items.map (·.bits) = ks.map fun k => x.slice (k * wire.bits) element.bitWidth := by
  induction ks generalizing b with
  | nil => exact .pure hb ⟨[], rfl, by simp, rfl⟩
  | cons k ks ih =>
    have hk := hks k List.mem_cons_self
    have hroom := hitem.room.2.1
    obtain ⟨sign, width, hint, _⟩ := hitem
    have hwidth : element.bitWidth = width := HwType.bitWidth_of_int? hint
    rw [decodeElements]
    refine (element_builds hb hs hk (Nat.lt_of_lt_of_le hk h64)).bind fun raw b₁ hg₁ hraw => ?_
    refine (label_builds hg₁.after hraw _).bind fun _ b₂ hg₂ _ => ?_
    refine (downcast_builds hg₂.after (hraw.mono hg₂) hint (by
      rw [HwType.bitWidth_bits, ← hwidth]
      exact hroom)).bind fun item b₃ hg₃ hi => ?_
    refine (label_builds hg₃.after hi _).bind fun _ b₄ hg₄ _ => ?_
    refine (ih hg₄.after (hs.mono (hg₁.trans (hg₂.trans (hg₃.trans hg₄))))
      fun j hj => hks j (List.mem_cons_of_mem k hj)).bind
      ?_
    rintro vs b₅ hg₅ ⟨items, hvs, hon, hbits⟩
    rw [HwType.bitWidth_bits, Bits.slice_slice _ (by omega), Nat.add_zero, ← hwidth] at hi
    refine .pure hg₅.after ⟨⟨item, element, x.slice (k * wire.bits) element.bitWidth⟩ :: items,
      ?_, ?_, ?_⟩
    · rw [hvs, List.map_cons]
    · rw [List.forall_mem_cons]
      exact ⟨⟨hi.mono (hg₄.trans hg₅), rfl⟩, hon⟩
    · rw [List.map_cons, List.map_cons, hbits]

theorem requireEq_builds {c : Checks} {clock valid edge v width expected found : Nat}
    (hc : c.Ready b clock valid edge) (hb : b.Sound e) (hblock : b.block = .body)
    (ht : (t.isInteger || t.isBitArray) = true) (hv : Holds e b v t x)
    (hwidth : t.bitWidth = width) (hfound : expected % 2 ^ width = found) (what : String) :
    Builds e c.region (complaint (x.toNat = found) what .eq expected)
      (c.requireEq v expected what) b fun _ _ => True := by
  have hbuild := Checks.require_builds hc hb hblock hv ht .eq expected what
  rw [hwidth, hfound] at hbuild
  have hholds : (Predicate.eq.holds (Ord.compare x.toNat found) = true) = (x.toNat = found) := by
    simp [Predicate.holds]
  simp only [hholds] at hbuild
  exact hbuild

theorem requireAtMost_builds {c : Checks} {clock valid edge v width expected : Nat}
    (hc : c.Ready b clock valid edge) (hb : b.Sound e) (hblock : b.block = .body)
    (ht : (t.isInteger || t.isBitArray) = true) (hv : Holds e b v t x)
    (hwidth : t.bitWidth = width) (hexpected : expected < 2 ^ width) (what : String) :
    Builds e c.region (complaint (x.toNat ≤ expected) what .ule expected)
      (c.require v .ule expected what) b fun _ _ => True := by
  have hbuild := Checks.require_builds hc hb hblock hv ht .ule expected what
  rw [hwidth, Nat.mod_eq_of_lt hexpected] at hbuild
  have hholds : (Predicate.ule.holds (Ord.compare x.toNat expected) = true) =
      (x.toNat ≤ expected) := by
    simp [Predicate.holds, Nat.compare_ne_gt]
  simp only [hholds] at hbuild
  exact hbuild

/-- The start of a list, from the offset in its pointer at bit `place`, on the way to what comes
next. -/
theorem start_builds {α : Type} {f : Nat → Build α} {post : α → Builder → Prop} {offset place : Nat}
    (hb : b.Sound e) (hoffset : Holds e b offset (.bits 30) x)
    (hf : ∀ v b' y, Grows e r [] b b' → Holds e b' v (.bits 36) y →
      y.toNat = (x.toNat * 64 + place + 64) % 2 ^ (36 : Nat) → Builds e r [] (f v) b' post) :
    Builds e r [] (do
      let zeros ← zeros 6
      let scaled ← concat [offset, zeros]
      let base ← constantBits 36 (place + 64)
      let start ← add scaled base
      f start) b post := by
  refine (zeros_builds hb 6).bind fun zeros b₁ hg₁ hz => ?_
  have hon : ∀ s ∈ ([⟨offset, .bits 30, x⟩, ⟨zeros, .bits 6, .zero 6⟩] : List Signal),
      s.On e b₁ ∧ s.type.isSignless = true := by
    rintro _ (_ | ⟨_, _ | ⟨_, ⟨⟩⟩⟩)
    · exact ⟨hoffset.mono hg₁, rfl⟩
    · exact ⟨hz, rfl⟩
  refine Builds.bind (concat_builds hg₁.after hon) fun scaled b₂ hg₂ hs => ?_
  have hs : Holds e b₂ scaled (.bits 36) (Bits.append x (.append (.zero 6) (.zero 0))) := hs
  refine (constantBits_builds hg₂.after 36 (place + 64)).bind fun base b₃ hg₃ hbase => ?_
  refine (add_builds hg₃.after (hs.mono hg₃) hbase.1 rfl).bind fun start b₄ hg₄ hstart => ?_
  refine hf start b₄ _ (hg₁.trans (hg₂.trans (hg₃.trans hg₄))) hstart ?_
  simp only [Bits.toNat_ofNat, Bits.toNat_append, Bits.append_zero, Bits.toNat_zero,
    Bits.width_zero, HwType.bitWidth_bits]
  omega

theorem elements_builds {wire : WireType} {element : HwType} {length v : Nat} {name : String}
    (hb : b.Sound e) (hv : Holds e b v (.bitArray (length * wire.bits)) x)
    (harray : t.array? = some (element, length)) (hitem : element.Scalar wire) (hpos : 0 < length)
    (hle : length ≤ maxListLength) :
    Builds e r [] (do
        let list ← castToArray v (.bits wire.bits) length
        if (← typeOf list.array) = t.canonical then return list.array
        else arrayCreate (← decodeElements list name element (List.range length))) b
      fun v' b' => Holds e b' v' t.canonical
        (.ofElements ((List.range length).map fun k =>
          x.slice (k * wire.bits) element.bitWidth)) := by
  have hcanonical := HwType.canonical_of_array? harray
  have hwidth : (HwType.bitArray (length * wire.bits)).bitWidth =
      (HwType.bits wire.bits).bitWidth * length := by
    rw [HwType.bitWidth_bitArray, HwType.bitWidth_bits, Nat.mul_comm]
  refine (castToArray_builds hb hv hwidth).bind ?_
  rintro list b₁ hg₁ ⟨hsize, hl⟩
  refine .look (typeOf_eq hl.type) ?_
  -- The list is the array already if the elements are as wide as in the message and signless.
  by_cases htype : HwType.array length (.bits wire.bits) = t.canonical
  · rw [if_pos htype]
    have helement : element = .bits wire.bits := by
      rw [hcanonical] at htype
      injection htype with _ he
      exact he.symm
    have hbits : element.bitWidth = wire.bits := by rw [helement, HwType.bitWidth_bits]
    have hwhole : Bits.ofElements ((List.range length).map fun k =>
        x.slice (k * wire.bits) element.bitWidth) = x := by
      rw [hbits]
      refine Bits.ofElements_elements ?_
      rw [hv.width, hwidth, HwType.bitWidth_bits]
    rw [hwhole]
    exact .pure hg₁.after (htype ▸ hl)
  · rw [if_neg htype]
    have hlist : list.On e b₁ (.bits wire.bits) x := ⟨_, by rw [hsize]; rfl, hl⟩
    have hsmall : length ≤ 2 ^ (64 : Nat) := Nat.le_trans hle (by decide)
    refine (decodeElements_builds (List.range length) hg₁.after hlist hitem
      (fun k hk => hsize ▸ List.mem_range.mp hk) (hsize ▸ hsmall)).bind
      ?_
    rintro vs b₂ hg₂ ⟨items, hvs, hon, hbits⟩
    have hlength : items.length = length := by
      rw [← List.length_map (f := fun s : Signal => s.bits), hbits, List.length_map,
        List.length_range]
    have hne : items ≠ [] := by
      rintro rfl
      exact absurd hlength.symm (Nat.ne_of_gt hpos)
    rw [hvs]
    refine (arrayCreate_builds hg₂.after hne hon).mono fun v' b₃ _ hv' => ?_
    rw [hlength, hbits, ← hcanonical] at hv'
    exact hv'

/-- The sections that a message with the struct `node` has mean `data` and `pointers`, and the
pointer section is cut out of the whole message. -/
structure Frame.On (e : Setting) (b : Builder) (frame : Frame) (clock valid edge : Nat)
    (node : StructNode) (message data pointers : Bits) : Prop where
  ready : frame.checks.Ready b clock valid edge
  block : b.block = .body
  data : 0 < node.dataWords → ∃ s, frame.data = some s ∧ s.size = node.dataWords * 64 ∧
    s.On e b .bit data
  pointers : 0 < node.pointers → ∃ s, frame.pointers = some s ∧ s.size = node.pointers * 64 ∧
    s.On e b .bit pointers ∧ s.offset? = some (MessageSchema.pointerStart node) ∧
    s.origin.On e b .bit message ∧ s.origin.size = message.width

variable {frame : Frame} {clock valid edge : Nat} {node : StructNode} {m data pointers : Bits}
variable {b' : Builder} {messages : List String}

theorem Frame.On.mono (h : frame.On e b clock valid edge node m data pointers)
    (hg : Grows e r messages b b') : frame.On e b' clock valid edge node m data pointers := by
  refine ⟨h.ready.mono hg, hg.block.trans h.block, fun hpos => ?_, fun hpos => ?_⟩
  · obtain ⟨s, hs, hsize, hon⟩ := h.data hpos
    exact ⟨s, hs, hsize, hon.mono hg⟩
  · obtain ⟨s, hs, hsize, hon, hoffset, horigin, hwidth⟩ := h.pointers hpos
    exact ⟨s, hs, hsize, hon.mono hg, hoffset, horigin.mono hg, hwidth⟩

theorem promised_eq {α : Type} {o : Option α} {a : α} (h : o = some a) (detail : String)
    (b : Builder) : promised o detail b = .ok a b := by
  rw [h]
  rfl

/-- The parts of a list pointer are cut out and checked, on the way to what comes next. -/
theorem listPointer_builds {α : Type} {next : Nat → Build α} {post : α → Builder → Prop}
    {word : Bits} (hb : b.Sound e) (hframe : frame.On e b clock valid edge node m data pointers)
    (hs : s.On e b .bit word) (hsize : s.size = 64) (name : String) (wire : WireType)
    {length : Nat} (hlength : length < 2 ^ (29 : Nat))
    (hnext : ∀ offset b' messages, Grows e frame.checks.region messages b b' →
      Holds e b' offset (.bits 30) (word.slice 2 30) →
      Builds e frame.checks.region [] (next offset) b' post) :
    Builds e frame.checks.region (listComplaints name wire length word) (do
      let tag ← slice s 0 2
      let offset ← cutInteger s 2 30 (name ++ "_offset")
      let elementSize ← slice s 32 3
      let count ← slice s 35 29
      frame.checks.requireEq tag.array PointerKind.list.tag s!"{name}: list pointer tag"
      frame.checks.requireEq elementSize.array wire.elementSize.code s!"{name}: element size"
      frame.checks.require count.array .ule length s!"{name}: list length"
      next offset) b post := by
  have hcode : wire.elementSize.code % 2 ^ (3 : Nat) = wire.elementSize.code := by
    cases wire.elementSize <;> rfl
  rw [← List.append_nil (listComplaints name wire length word), listComplaints, List.append_assoc,
    List.append_assoc]
  refine (slice_bits_builds hb hs 0 2 (by omega)).bind ?_
  rintro tag b₁ hg₁ ⟨_, _, htag⟩
  refine (cutInteger_builds hg₁.after (hs.mono hg₁) 2 30 (by omega) _).bind
    fun offset b₂ hg₂ hoffset => ?_
  have hg₁₂ := hg₁.trans hg₂
  refine (slice_bits_builds hg₂.after (hs.mono hg₁₂) 32 3 (by omega)).bind ?_
  rintro size b₃ hg₃ ⟨_, _, hsize₃⟩
  have hg₁₃ := hg₁₂.trans hg₃
  refine (slice_bits_builds hg₃.after (hs.mono hg₁₃) 35 29 (by omega)).bind ?_
  rintro count b₄ hg₄ ⟨_, _, hcount⟩
  have hg₂₄ := hg₂.trans (hg₃.trans hg₄)
  -- The four parts are cut out before the first check; what the checks add comes behind them.
  have hframe₄ := hframe.mono (hg₁.trans hg₂₄)
  refine (requireEq_builds hframe₄.ready hg₄.after hframe₄.block rfl (htag.mono hg₂₄) rfl rfl
    _).andThen fun _ b₅ hg₅ _ => ?_
  have hframe₅ := hframe₄.mono hg₅
  refine (requireEq_builds hframe₅.ready hg₅.after hframe₅.block rfl (hsize₃.mono (hg₄.trans hg₅))
    rfl hcode _).andThen fun _ b₆ hg₆ _ => ?_
  have hframe₆ := hframe₅.mono hg₆
  refine (requireAtMost_builds hframe₆.ready hg₆.after hframe₆.block rfl
    (hcount.mono (hg₅.trans hg₆)) rfl hlength _).andThen fun _ b₇ hg₇ _ => ?_
  have hg₃₇ := hg₃.trans (hg₄.trans (hg₅.trans (hg₆.trans hg₇)))
  exact hnext offset b₇ _ (hg₁₂.trans hg₃₇) (hoffset.mono hg₃₇)

theorem payload_builds {wire : WireType} {element : HwType} {length offset place : Nat}
    {word : Bits} (hb : b.Sound e) (hplace : s.offset? = some place)
    (hoffset : Holds e b offset (.bits 30) (word.slice 2 30)) (horigin : s.origin.On e b .bit m)
    (hsize : s.origin.size = m.width) (hroom : length * wire.bits ≤ m.width)
    (harray : t.array? = some (element, length)) (hitem : element.Scalar wire)
    (hpos : 0 < length) (hle : length ≤ maxListLength) (name detail : String) :
    Builds e r [] (do
      let place ← promised s.offset? detail
      let zeros ← zeros 6
      let scaled ← concat [offset, zeros]
      let base ← constantBits 36 (place + 64)
      let start ← add scaled base
      label start (name ++ "_listOffset")
      let payload ← sliceAt s.origin start (length * wire.bits)
      let list ← castToArray payload.array (.bits wire.bits) length
      if (← typeOf list.array) = t.canonical then return list.array
      else arrayCreate (← decodeElements list name element (List.range length))) b
      fun v b' => Holds e b' v t.canonical
        (readElements wire element length (listStart m.width place word) m) := by
  refine .look (promised_eq hplace _ b) ?_
  refine start_builds hb hoffset fun start b₁ y hg₁ hstart hy => ?_
  refine (label_builds hg₁.after hstart _).bind fun _ b₂ hg₂ _ => ?_
  refine (sliceAt_builds hg₂.after (horigin.mono (hg₁.trans hg₂)) (hstart.mono hg₂) (by decide)
    (hsize ▸ hroom)).bind fun payload b₃ hg₃ hpayload => ?_
  rw [HwType.bitWidth_bit, Nat.mul_one, Nat.one_mul, hsize, hy] at hpayload
  rw [readElements_eq_slices hitem.room.2.1]
  exact elements_builds hg₃.after hpayload harray hitem hpos hle

/-- A list is read where its pointer says, and complained of as its pointer deserves. -/
theorem decodeList_builds {f : NodeField} {wire : WireType} {element : HwType} {length : Nat}
    {word : Bits} (hb : b.Sound e) (hframe : frame.On e b clock valid edge node m data pointers)
    (harray : t.array? = some (element, length)) (hitem : element.Scalar wire) (hpos : 0 < length)
    (hle : length ≤ maxListLength) (hslot : f.bitOffset + 64 ≤ node.pointers * 64)
    (hroom : length * wire.bits ≤ m.width)
    (hword : word = pointers.slice (f.bitOffset % 2 ^ (64 : Nat)) 64) :
    Builds e frame.checks.region (listComplaints f.name wire length word)
      (decodeList frame t f wire) b fun v b' => b.circuit.values.size < b'.circuit.values.size ∧
        Holds e b' v t.canonical (readElements wire element length
          (listStart m.width (MessageSchema.pointerStart node + f.bitOffset) word) m) := by
  obtain ⟨s, hs, hsize, hon, hoffset, horigin, hwidth⟩ := hframe.pointers (by omega)
  have hlength : length < 2 ^ (29 : Nat) := by
    rw [maxListLength] at hle
    omega
  refine .look (promised_eq harray _ b) ?_
  refine .look (promised_eq hs _ b) ?_
  refine (slice_bits_builds hb hon _ _ (by omega)).bind ?_
  rintro pointer b₁ hg₁ ⟨⟨index, array, rfl⟩, hgrow, hp⟩
  rw [← hword] at hp
  refine (label_builds hg₁.after hp _).bind fun _ b₂ hg₂ _ => ?_
  have hpointer := on_bitArray (hp.mono hg₂) index s (some f.bitOffset)
  have hplace : (Slice.part index array 64 s (some f.bitOffset)).offset? =
      some (MessageSchema.pointerStart node + f.bitOffset) := by
    rw [Slice.offset?, hoffset, Nat.add_comm]
    rfl
  refine listPointer_builds hg₂.after (hframe.mono (hg₁.trans hg₂)) hpointer rfl f.name wire
    hlength fun offset b₃ _ hg₃ ho => ?_
  have hgrow₃ := Nat.lt_of_lt_of_le hgrow (hg₂.trans hg₃).size_le
  -- Elements without bits are not looked for in the message.
  by_cases hzero : wire.bits = 0
  · have helement : element.bitWidth = 0 := by
      have hroom := hitem.room.2.1
      omega
    have hnone : t.canonical.bitWidth = (Bits.zero 0).width := by
      rw [HwType.bitWidth_canonical, HwType.bitWidth_of_array? harray, helement, Nat.zero_mul]
      rfl
    rw [if_pos hzero, readElements_of_width_zero helement]
    refine (constant_builds hg₃.after hnone).mono ?_
    rintro v b₄ hg₄ ⟨hv, _⟩
    exact ⟨Nat.lt_of_lt_of_le hgrow₃ hg₄.size_le, hv⟩
  · rw [if_neg hzero]
    refine (payload_builds hg₃.after hplace ho (horigin.mono ((hg₁.trans hg₂).trans hg₃)) hwidth
      hroom harray hitem hpos hle f.name _).mono fun v b₄ hg₄ hv => ⟨?_, hv⟩
    exact Nat.lt_of_lt_of_le hgrow₃ hg₄.size_le

def sectionValue (node : StructNode) (f : NodeField) (t : HwType) (m data pointers : Bits) : Bits :=
  match f.type.element?, t.array? with
  | some item, some (element, length) =>
    readElements item element length (listStart m.width (MessageSchema.pointerStart node +
      f.bitOffset) (pointers.slice (f.bitOffset % 2 ^ (64 : Nat)) 64)) m
  | _, _ => data.slice (f.bitOffset % 2 ^ (64 : Nat)) t.bitWidth

def sectionComplaints (f : NodeField) (t : HwType) (pointers : Bits) : List String :=
  match f.type.element?, t.array? with
  | some item, some (_, length) =>
    listComplaints f.name item length (pointers.slice (f.bitOffset % 2 ^ (64 : Nat)) 64)
  | _, _ => []

/-- The slot of a field lies in its section, and its list has room in a message. -/
structure Fits (node : StructNode) (f : NodeField) (t : HwType) (m : Bits) : Prop where
  carried : t.Carried f.type
  slot : 0 < f.type.bits →
    f.bitOffset + f.type.bits ≤ (if f.type.isPointer then node.pointers else node.dataWords) * 64
  payload : 64 * MessageSchema.payloadWords f.type t ≤ m.width

section Field
variable {f : NodeField}

theorem sectionValue_of_scalar (h : f.type.element? = none) :
    sectionValue node f t m data pointers =
      data.slice (f.bitOffset % 2 ^ (64 : Nat)) t.bitWidth := by
  rw [sectionValue, h]

theorem sectionComplaints_of_scalar (h : f.type.element? = none) :
    sectionComplaints f t pointers = [] := by
  rw [sectionComplaints, h]

section List
variable {wire : WireType} {element : HwType} {length : Nat}
variable (h : f.type.element? = some wire) (ht : t.array? = some (element, length))
include h ht

theorem sectionValue_of_list : sectionValue node f t m data pointers =
    readElements wire element length (listStart m.width (MessageSchema.pointerStart node +
      f.bitOffset) (pointers.slice (f.bitOffset % 2 ^ (64 : Nat)) 64)) m := by
  rw [sectionValue, h, ht]

theorem sectionComplaints_of_list : sectionComplaints f t pointers =
    listComplaints f.name wire length (pointers.slice (f.bitOffset % 2 ^ (64 : Nat)) 64) := by
  rw [sectionComplaints, h, ht]

end List

theorem fieldLabel_builds {v old : Nat} (hb : b.Sound e) (hgrow : old < b.circuit.values.size)
    (hv : Holds e b v t x) (name : String) :
    Builds e r [] (labeled v name) b fun v' b' =>
      old < b'.circuit.values.size ∧ Holds e b' v' t x := by
  refine (labeled_builds hb hv name).mono fun v' b' hg he => ?_
  rw [he]
  exact ⟨Nat.lt_of_lt_of_le hgrow hg.size_le, hv.mono hg⟩

theorem voidField_builds (hb : b.Sound e) (ht : t.bitWidth = 0) (name : String) :
    Builds e r [] (do
      let value ← constant t (.zero 0)
      labeled value name) b fun v b' => b.circuit.values.size < b'.circuit.values.size ∧
        Holds e b' v t (.zero 0) := by
  refine (constant_builds hb ht).bind ?_
  rintro v b₁ hg₁ ⟨hv, hgrow⟩
  exact fieldLabel_builds hg₁.after hgrow hv name

theorem dataField_builds (hb : b.Sound e)
    (hframe : frame.On e b clock valid edge node m data pointers) (hpos : 0 < t.bitWidth)
    (hslot : f.bitOffset + t.bitWidth ≤ node.dataWords * 64) (detail : String) :
    Builds e r [] (do
      let data ← promised frame.data detail
      let bits ← slice data f.bitOffset t.bitWidth
      label bits.array (f.name ++ "_bits")
      let value ← cast bits.array t
      labeled value (f.name ++ "Value")) b fun v b' =>
        b.circuit.values.size < b'.circuit.values.size ∧
          Holds e b' v t (data.slice (f.bitOffset % 2 ^ (64 : Nat)) t.bitWidth) := by
  obtain ⟨s, hs, hsize, hon⟩ := hframe.data (by omega)
  refine .look (promised_eq hs _ b) ?_
  refine (slice_bits_builds hb hon _ _ (by omega)).bind ?_
  rintro bits b₁ hg₁ ⟨_, hgrow, hbits⟩
  refine (label_builds hg₁.after hbits _).bind fun _ b₂ hg₂ _ => ?_
  refine (cast_builds (u := t) hg₂.after (hbits.mono hg₂) (HwType.bitWidth_bitArray _)).bind
    fun v b₃ hg₃ hv => ?_
  exact fieldLabel_builds hg₃.after (Nat.lt_of_lt_of_le hgrow (hg₂.trans hg₃).size_le) hv _

theorem listField_builds {item : WireType} {element : HwType} {length : Nat} (hb : b.Sound e)
    (hframe : frame.On e b clock valid edge node m data pointers) (hf : Fits node f t m)
    (hw : f.type = .list item) (harray : t.array? = some (element, length))
    (hitem : element.Scalar item) (hpos : 0 < length) (hle : length ≤ maxListLength) :
    Builds e frame.checks.region (sectionComplaints f t pointers) (do
      let list ← decodeList frame t f item
      let value ← cast list t
      labeled value (f.name ++ "Value")) b fun v b' =>
        b.circuit.values.size < b'.circuit.values.size ∧
          Holds e b' v t (sectionValue node f t m data pointers) := by
  have hslot := hf.slot
  have hpayload := hf.payload
  have helement : f.type.element? = some item := by rw [hw, WireType.element?]
  rw [hw] at hslot hpayload
  rw [MessageSchema.payloadWords_of_list harray] at hpayload
  have hroom : length * item.bits ≤ m.width := by
    have hwords := le_wordsFor (item.bits * length)
    rw [Nat.mul_comm length]
    omega
  rw [sectionValue_of_list helement harray, sectionComplaints_of_list helement harray,
    ← List.append_nil (listComplaints _ _ _ _)]
  refine (decodeList_builds hb hframe harray hitem hpos hle (hslot (Nat.succ_pos 63)) hroom
    rfl).andThen ?_
  rintro list b₁ hg₁ ⟨hgrow, hl⟩
  refine (cast_builds (u := t) hg₁.after hl (HwType.bitWidth_canonical t)).bind
    fun v b₂ hg₂ hv => ?_
  exact fieldLabel_builds hg₂.after (Nat.lt_of_lt_of_le hgrow hg₂.size_le) hv _

theorem decodeField_builds (hb : b.Sound e)
    (hframe : frame.On e b clock valid edge node m data pointers) (hf : Fits node f t m) :
    Builds e frame.checks.region (sectionComplaints f t pointers) (decodeField frame t f) b
      fun v b' => b.circuit.values.size < b'.circuit.values.size ∧
        Holds e b' v t (sectionValue node f t m data pointers) := by
  have hslot := hf.slot
  have hcarried := hf.carried
  unfold decodeField
  generalize hw : f.type = wire at hslot hcarried ⊢
  cases hcarried with
  | scalar h =>
    have hnone : f.type.element? = none := hw ▸ h.element?_eq_none
    have hdata := h.isPointer_eq_false
    obtain ⟨_, hroom, hvoid⟩ := h.room
    rw [sectionValue_of_scalar hnone, sectionComplaints_of_scalar hnone]
    -- All scalars but `void` have a slot in the data section.
    have hsection : wire ≠ .void →
        0 < t.bitWidth ∧ f.bitOffset + t.bitWidth ≤ node.dataWords * 64 := by
      intro hwire
      have hpos : 0 < t.bitWidth := hvoid.resolve_left hwire
      have hslot := hslot (by omega)
      rw [hdata, if_neg Bool.false_ne_true] at hslot
      omega
    cases wire with
    | void =>
      have hwidth : t.bitWidth = 0 := Nat.le_zero.mp hroom
      rw [hwidth, Bits.slice_zero_width]
      exact voidField_builds hb hwidth _
    | list element => cases h.element?_eq_none
    | bool | int w | uint w =>
      obtain ⟨hpos, hslot⟩ := hsection (by rintro ⟨⟩)
      exact dataField_builds hb hframe hpos hslot _
  | list harray hitem hpos hle => exact listField_builds hb hframe hf hw harray hitem hpos hle

end Field

theorem decodeFields_builds {schema : MessageSchema} {slots : List (NodeField × Field HwType)}
    (hb : b.Sound e) (hframe : frame.On e b clock valid edge node m data pointers)
    (hslots : ∀ p ∈ slots, schema.fieldOf p.1 = some p.2 ∧ Fits node p.1 p.2.type m) :
    Builds e frame.checks.region
      (slots.flatMap fun p => sectionComplaints p.1 p.2.type pointers)
      (decodeFields frame schema (slots.map (·.1))) b fun vs b' => ∃ items : List Signal,
        vs = items.map (·.value) ∧ (∀ i ∈ items, i.On e b') ∧
          items.map (·.type) = slots.map (·.2.type) ∧
          items.map (·.bits) =
            slots.map (fun p => sectionValue node p.1 p.2.type m data pointers) ∧
          b.circuit.values.size + slots.length ≤ b'.circuit.values.size := by
  induction slots generalizing b with
  | nil => exact .pure hb ⟨[], rfl, by simp, rfl, rfl, Nat.le_refl _⟩
  | cons p slots ih =>
    obtain ⟨hfield, hfits⟩ := hslots p List.mem_cons_self
    rw [List.flatMap_cons, List.map_cons, decodeFields]
    refine .look (expect_eq hfield _ b) ?_
    refine (decodeField_builds hb hframe hfits).andThen ?_
    rintro v b₁ hg₁ ⟨hgrow, hv⟩
    rw [← List.append_nil (List.flatMap _ slots)]
    refine (ih hg₁.after (hframe.mono hg₁) fun q hq => hslots q (List.mem_cons_of_mem p hq)).andThen
      ?_
    rintro vs b₂ hg₂ ⟨items, hvs, hon, htypes, hbits, hsize⟩
    refine .pure hg₂.after ⟨⟨v, p.2.type, sectionValue node p.1 p.2.type m data pointers⟩ :: items,
      ?_, ?_, ?_, ?_, ?_⟩
    · rw [hvs, List.map_cons]
    · rw [List.forall_mem_cons]
      exact ⟨hv.mono hg₂, hon⟩
    · rw [List.map_cons, List.map_cons, htypes]
    · rw [List.map_cons, List.map_cons, hbits]
    · rw [List.length_cons]
      omega

end Decoder
end ChannelCodec
