import ChannelCodec.Gasket.Decoder
import ChannelCodec.Gasket.Encoder
import ChannelCodec.Proofs.Circuit.Labels

/-! Names in encoders and decoders. Both name only what gates give them, after fields of the message
or with words of their own, so all names start with a letter, whatever the fields are called. -/
namespace ChannelCodec
variable {inputs : List Port}

namespace Build

theorem input_inspects (name : String) : Inspects (input name) :=
  circuit_inspects.bind fun _ => expect_inspects _ _

theorem block_inspects : Inspects block := fun b => .inl ⟨b.block, rfl⟩

theorem widthOf_inspects (v : Nat) : Inspects (widthOf v) :=
  (typeOf_inspects v).bind fun _ => .pure _

theorem nextSlice_keeps : Keeps inputs nextSlice fun _ => True := by
  intro b hb _ b' h
  cases h
  have hb' := hb.orderly
  exact ⟨⟨⟨⟨hb'.typed.circuit, hb'.typed.block⟩, hb'.named, hb'.housed, hb'.block⟩,
    hb.inputPorts, hb.labels, hb.outputs⟩, trivial⟩

theorem constantBits_keeps (width n : Nat) :
    Keeps inputs (constantBits width n) (inputs.length ≤ ·) :=
  gate_keeps fun _ => constant_gains _ _

theorem cast_keeps (v : Nat) (t : HwType) :
    Keeps inputs (cast v t) fun w => inputs.length ≤ v → inputs.length ≤ w := by
  refine .read (typeOf_inspects v) fun s => ?_
  split
  · exact .pure id
  · exact (gate_keeps fun _ => bitcast_gains v t).mono fun _ hw _ => hw

theorem rootSlice_keeps (v : Nat) : Keeps inputs (rootSlice v) fun s => s.array = v := by
  refine .read (typeOf_inspects v) fun t => .read (expect_inspects _ _) fun _ => ?_
  exact nextSlice_keeps.bind fun _ _ => .pure rfl

theorem castToBits_keeps (v : Nat) : Keeps inputs (castToBits v) fun _ => True := by
  refine .read (widthOf_inspects v) fun width => (cast_keeps v _).bind fun w _ => ?_
  exact (rootSlice_keeps w).mono fun _ _ => trivial

theorem castToArray_keeps (v : Nat) (element : HwType) (size : Nat) :
    Keeps inputs (castToArray v element size) fun s =>
      inputs.length ≤ v → inputs.length ≤ s.array := by
  refine (cast_keeps v _).bind fun w hw => (rootSlice_keeps w).mono fun s hs hv => ?_
  rw [hs]
  exact hw hv

theorem padding_keeps (bits : Nat) : Keeps inputs (padding bits) fun _ => True :=
  (constantBits_keeps bits 0).bind fun zeros _ => castToBits_keeps zeros

theorem downcast_keeps (v : Nat) (t : HwType) :
    Keeps inputs (downcast v t) (inputs.length ≤ ·) := by
  have hlow : ∀ {low}, inputs.length ≤ low → Keeps inputs (cast low t) (inputs.length ≤ ·) :=
    fun {low} hlow => (cast_keeps low t).mono fun _ h => h hlow
  refine .read (expect_inspects _ _) fun p => .read (widthOf_inspects v) fun own => ?_
  refine (cast_keeps v _).bind fun plain _ => ?_
  dsimp only
  split
  · refine (gate_keeps fun _ => extract_gains plain 0 _).bind fun magnitude _ => ?_
    refine (gate_keeps fun _ => extract_gains plain _ 1).bind fun sign _ => ?_
    exact (gate_keeps fun _ => concat_gains _).bind fun _ h => hlow h
  · exact (gate_keeps fun _ => extract_gains plain 0 _).bind fun _ h => hlow h

theorem signExtend_keeps (v width : Nat) : Keeps inputs (signExtend v width) fun _ => True := by
  refine .read (widthOf_inspects v) fun own => ?_
  split
  · exact .pure trivial
  · refine (gate_keeps fun _ => extract_gains v _ 1).bind fun sign _ => ?_
    exact (gate_keeps fun _ => concat_gains _).mono fun _ _ => trivial

theorem pack_keeps (vs : List Nat) : Keeps inputs (pack vs) (inputs.length ≤ ·) := by
  refine .read (require_inspects _ _) fun _ => ?_
  refine (Keeps.mapM fun v _ => castToBits_keeps v).bind fun parts _ => ?_
  exact gate_keeps fun _ => arrayConcat_gains _

theorem cut_keeps (s : Slice) (position : Nat) (offset : Option Nat) (size : Nat) :
    Keeps inputs (cut s position offset size) fun s' => inputs.length ≤ s'.array := by
  refine (gate_keeps fun _ => arraySlice_gains _ _ _).bind fun array harray => ?_
  exact nextSlice_keeps.bind fun _ _ => .pure harray

theorem slice_keeps (s : Slice) (low size : Nat) :
    Keeps inputs (slice s low size) fun s' => inputs.length ≤ s'.array := by
  refine .read (require_inspects _ _) fun _ => ?_
  exact (constantBits_keeps _ low).bind fun position _ => cut_keeps s position _ size

theorem sliceAt_keeps (s : Slice) (low size : Nat) :
    Keeps inputs (sliceAt s low size) fun s' => inputs.length ≤ s'.array := by
  refine .read (widthOf_inspects low) fun own => ?_
  dsimp only
  split
  · refine (gate_keeps fun _ => extract_gains low 0 _).bind fun position _ => ?_
    exact cut_keeps s position _ _
  · split
    · refine (constantBits_keeps _ 0).bind fun zeros _ => ?_
      exact (gate_keeps fun _ => concat_gains _).bind fun position _ => cut_keeps s position _ _
    · exact cut_keeps s low _ _

theorem element_keeps (s : Slice) (k : Nat) :
    Keeps inputs (Build.element s k) (inputs.length ≤ ·) :=
  (constantBits_keeps _ k).bind fun _ _ => gate_keeps fun _ => arrayGet_gains _ _

section Label
variable {name : String} (hname : startsWith isAsciiLetter name = true)
include hname

theorem label_keeps {v : Nat} (hv : inputs.length ≤ v) :
    Keeps inputs (label v name) fun _ => True := by
  unfold label
  split
  · exact (setName_keeps hv hname).bind fun _ _ => .pure trivial
  · exact .pure trivial

theorem labeled_keeps {v : Nat} (hv : inputs.length ≤ v) :
    Keeps inputs (labeled v name) (inputs.length ≤ ·) :=
  (label_keeps hname hv).bind fun _ _ => .pure hv

theorem labeledSlice_keeps {s : Slice} (hs : inputs.length ≤ s.array) :
    Keeps inputs (labeledSlice s name) fun _ => True :=
  (label_keeps hname hs).bind fun _ _ => .pure trivial

end Label
end Build

open Build

namespace Checks

theorem under_keeps (clock valid : Nat) :
    Keeps inputs (Checks.under clock valid) fun _ => True := by
  refine .read block_inspects fun before => ?_
  refine (observe_keeps (.inl rfl) clock _).bind fun edge _ => (enter_keeps _).bind fun _ _ => ?_
  refine (observe_keeps (.inr (.inl rfl)) valid _).bind fun region _ => ?_
  exact (enter_keeps before).bind fun _ _ => .pure trivial

theorem require_keeps (c : Checks) (v : Nat) (predicate : Predicate) (expected : Nat)
    (what : String) : Keeps inputs (c.require v predicate expected what) fun _ => True := by
  refine .read (typeOf_inspects v) fun type => .read (require_inspects _ _) fun _ => ?_
  refine (cast_keeps v _).bind fun number _ => .read block_inspects fun before => ?_
  refine (enter_keeps _).bind fun _ _ => (constantBits_keeps _ expected).bind fun bound _ => ?_
  refine (gate_keeps fun _ => compare_gains predicate number bound).bind fun holds _ => ?_
  refine (observe_keeps (.inr (.inr ⟨_, rfl⟩)) holds _).bind fun _ _ => ?_
  exact enter_keeps before

end Checks

namespace Segment

theorem insert_keeps (s : Segment) (start value : Nat) :
    Keeps inputs (s.insert start value) fun _ => True := by
  refine .read (widthOf_inspects value) fun width => ?_
  split
  · exact .pure trivial
  · refine .read (require_inspects _ _) fun _ => ?_
    dsimp only
    split
    · exact .read (require_inspects _ _) fun _ => .pure trivial
    · exact .pure trivial

theorem parts_keeps (size reached : Nat) (placed : List Placed) :
    Keeps inputs (parts size reached placed) fun _ => True := by
  induction placed generalizing reached with
  | nil =>
    unfold parts
    split
    · exact (padding_keeps _).bind fun _ _ => .pure trivial
    · exact .pure trivial
  | cons p placed ih =>
    unfold parts
    split
    · refine (padding_keeps _).bind fun gap _ => ?_
      exact (ih p.stop).bind fun _ _ => .pure trivial
    · exact (ih p.stop).bind fun _ _ => .pure trivial

theorem finish_keeps (s : Segment) : Keeps inputs s.finish fun _ => True :=
  (parts_keeps s.size 0 s.placed).bind fun vs _ => (pack_keeps vs).mono fun _ _ => trivial

end Segment

namespace Encoder

theorem encode_keeps (wire : WireType) (start value : Nat) (s : Segment) :
    Keeps inputs (encode wire start value s) fun _ => True := by
  have hscalar : ∀ (bits start value : Nat) (s : Segment), Keeps inputs (do
      let type ← typeOf value
      let number ← cast value (.bits type.bitWidth)
      let number ← if type.isSigned then signExtend number bits else pure number
      s.insert start number) fun _ => True := by
    intro bits start value s
    refine .read (typeOf_inspects value) fun type => (cast_keeps value _).bind fun number _ => ?_
    dsimp only
    split
    · exact (signExtend_keeps number bits).bind fun _ _ => s.insert_keeps start _
    · exact s.insert_keeps start number
  induction wire generalizing start value s with
  | void => exact .pure trivial
  | bool => exact hscalar _ start value s
  | int width => exact hscalar _ start value s
  | uint width => exact hscalar _ start value s
  | list element ih =>
    refine .read (typeOf_inspects value) fun type => .read (expect_inspects _ _) fun p => ?_
    refine (rootSlice_keeps value).bind fun array _ => ?_
    refine (Keeps.foldlM (fun s k _ => ?_) _).bind fun s _ => ?_
    · exact (element_keeps array k).bind fun item _ => ih _ item s
    · refine (constantBits_keeps 2 _).bind fun tag _ => ?_
      refine (constantBits_keeps 30 _).bind fun offset _ => ?_
      refine (constantBits_keeps 3 _).bind fun size _ => ?_
      refine (constantBits_keeps 29 _).bind fun count _ => ?_
      exact (pack_keeps _).bind fun pointer _ => s.insert_keeps start pointer

theorem encodeFields_keeps (data pointers : Nat) (values : List Nat) (fields : List NodeField)
    (s : Segment) : Keeps inputs (encodeFields data pointers values fields s) fun _ => True := by
  induction fields generalizing s with
  | nil => exact .pure trivial
  | cons f fields ih =>
    refine .read (expect_inspects _ _) fun value => ?_
    exact (encode_keeps _ _ value s).bind fun s' _ => ih s'

theorem encodeStruct_keeps (start : Nat) (node : StructNode) (values : List Nat) (s : Segment) :
    Keeps inputs (encodeStruct start node values s) fun _ => True := by
  refine (constantBits_keeps 2 _).bind fun tag _ => ?_
  refine (constantBits_keeps 30 _).bind fun offset _ => ?_
  refine (constantBits_keeps 16 _).bind fun dataWords _ => ?_
  refine (constantBits_keeps 16 _).bind fun pointers _ => (pack_keeps _).bind fun pointer hp => ?_
  refine (encodeFields_keeps _ _ values node.fields _).bind fun s' _ => ?_
  exact (labeled_keeps (by decide) hp).bind fun _ _ => .pure trivial

theorem encodeMessage_keeps (size : Nat) (node : StructNode) (values : List Nat) :
    Keeps inputs (encodeMessage size node values) fun _ => True := by
  refine (encodeStruct_keeps _ node values _).bind fun p _ => ?_
  exact (p.2.insert_keeps _ p.1).bind fun s _ => s.finish_keeps

theorem fieldValues_keeps {type : HwType} (hletters : ∀ fields, type.struct? = some fields →
      ∀ f ∈ fields, startsWith isAsciiLetter f.name = true) (value : Nat) :
    Keeps inputs (fieldValues type value) fun _ => True := by
  unfold fieldValues
  cases hstruct : type.struct? with
  | none => exact .pure trivial
  | some fields =>
    refine .mapM fun f hf => ?_
    refine (gate_keeps fun _ => structExtract_gains value f.name).bind fun field hfield => ?_
    exact (labeled_keeps (hletters fields hstruct f hf) hfield).mono fun _ _ => trivial

end Encoder

namespace Decoder

theorem promised_inspects {α : Type} (a : Option α) (detail : String) :
    Inspects (promised a detail) := by
  unfold promised
  split
  · exact .pure _
  · exact fun _ => .inr ⟨_, rfl⟩

theorem cutInteger_keeps (s : Slice) (low size : Nat) {name : String}
    (hname : startsWith isAsciiLetter name = true) :
    Keeps inputs (cutInteger s low size name) (inputs.length ≤ ·) := by
  refine (slice_keeps s low size).bind fun bits hbits => (cast_keeps _ _).bind fun number hn => ?_
  exact labeled_keeps hname (hn hbits)

theorem decodeElements_keeps (list : Slice) {name : String}
    (hname : startsWith isAsciiLetter name = true) (element : HwType) (items : List Nat) :
    Keeps inputs (decodeElements list name element items) fun _ => True := by
  induction items with
  | nil => exact .pure trivial
  | cons k items ih =>
    refine (element_keeps list k).bind fun item hitem => ?_
    refine (label_keeps (startsWith_append hname _) hitem).bind fun _ _ => ?_
    refine (downcast_keeps item element).bind fun item' hitem' => ?_
    refine (label_keeps (startsWith_append hname _) hitem').bind fun _ _ => ?_
    exact ih.bind fun _ _ => .pure trivial

theorem decodeList_keeps (frame : Frame) (type : HwType) {f : NodeField}
    (hname : startsWith isAsciiLetter f.name = true) (element : WireType) :
    Keeps inputs (decodeList frame type f element) (inputs.length ≤ ·) := by
  refine .read (promised_inspects _ _) fun p => .read (promised_inspects _ _) fun pointers => ?_
  refine (slice_keeps pointers _ 64).bind fun pointer hp => ?_
  refine (label_keeps (startsWith_append hname _) hp).bind fun _ _ => ?_
  refine (slice_keeps pointer 0 2).bind fun tag _ => ?_
  refine (cutInteger_keeps pointer 2 30 (startsWith_append hname _)).bind fun offset _ => ?_
  refine (slice_keeps pointer 32 3).bind fun elementSize _ => ?_
  refine (slice_keeps pointer 35 29).bind fun count _ => ?_
  refine (frame.checks.require_keeps _ _ _ _).bind fun _ _ => ?_
  refine (frame.checks.require_keeps _ _ _ _).bind fun _ _ => ?_
  refine (frame.checks.require_keeps _ _ _ _).bind fun _ _ => ?_
  split
  · exact gate_keeps fun _ => constant_gains _ _
  · refine .read (promised_inspects _ _) fun place => ?_
    refine (constantBits_keeps 6 0).bind fun zeros _ => ?_
    refine (gate_keeps fun _ => concat_gains _).bind fun scaled _ => ?_
    refine (constantBits_keeps 36 _).bind fun base _ => ?_
    refine (gate_keeps fun _ => add_gains scaled base).bind fun start hstart => ?_
    refine (label_keeps (startsWith_append hname _) hstart).bind fun _ _ => ?_
    refine (sliceAt_keeps _ start _).bind fun payload hpayload => ?_
    refine (castToArray_keeps _ _ _).bind fun list hlist => .read (typeOf_inspects _) fun t => ?_
    split
    · exact .pure (hlist hpayload)
    · refine (decodeElements_keeps list hname _ _).bind fun items _ => ?_
      exact gate_keeps fun _ => arrayCreate_gains items

theorem decodeField_keeps (frame : Frame) (type : HwType) {f : NodeField}
    (hname : startsWith isAsciiLetter f.name = true) :
    Keeps inputs (decodeField frame type f) fun _ => True := by
  have hlabeled : ∀ {v}, inputs.length ≤ v →
      Keeps inputs (labeled v (f.name ++ "Value")) fun _ => True := fun hv =>
    (labeled_keeps (startsWith_append hname _) hv).mono fun _ _ => trivial
  have hscalar : Keeps inputs (do
      let data ← promised frame.data s!"field `{f.name}' has no data section to live in"
      let bits ← slice data f.bitOffset type.bitWidth
      label bits.array (f.name ++ "_bits")
      let value ← cast bits.array type
      labeled value (f.name ++ "Value")) fun _ => True := by
    refine .read (promised_inspects _ _) fun data => ?_
    refine (slice_keeps data _ _).bind fun bits hbits => ?_
    refine (label_keeps (startsWith_append hname _) hbits).bind fun _ _ => ?_
    exact (cast_keeps _ type).bind fun value hvalue => hlabeled (hvalue hbits)
  unfold decodeField
  split
  · exact (gate_keeps fun _ => constant_gains _ _).bind fun _ hv => hlabeled hv
  · refine (decodeList_keeps frame type hname _).bind fun list hlist => ?_
    exact (cast_keeps list type).bind fun value hvalue => hlabeled (hvalue hlist)
  · exact hscalar

theorem decodeFields_keeps (frame : Frame) (s : MessageSchema) {fields : List NodeField}
    (hnames : ∀ f ∈ fields, startsWith isAsciiLetter f.name = true) :
    Keeps inputs (decodeFields frame s fields) fun _ => True := by
  induction fields with
  | nil => exact .pure trivial
  | cons f fields ih =>
    rw [List.forall_mem_cons] at hnames
    refine .read (expect_inspects _ _) fun hw => ?_
    refine (decodeField_keeps frame hw.type hnames.1).bind fun value _ => ?_
    exact (ih hnames.2).bind fun _ _ => .pure trivial

theorem cutSection_keeps (message : Slice) (low words : Nat) {name : String}
    (hname : startsWith isAsciiLetter name = true) :
    Keeps inputs (cutSection message low words name) fun _ => True := by
  unfold cutSection
  split
  · exact .pure trivial
  · refine (slice_keeps message low _).bind fun s hs => ?_
    exact (labeledSlice_keeps hname hs).bind fun _ _ => .pure trivial

theorem checkRoot_keeps (checks : Checks) (message : Slice) (node : StructNode) :
    Keeps inputs (checkRoot checks message node) fun _ => True := by
  refine (slice_keeps message 0 64).bind fun pointer hp => ?_
  refine (label_keeps (by decide) hp).bind fun _ _ => ?_
  refine (slice_keeps pointer 0 32).bind fun typeAndOffset ht => ?_
  refine (label_keeps (by decide) ht).bind fun _ _ => ?_
  refine (checks.require_keeps _ _ _ _).bind fun _ _ => ?_
  refine (cutInteger_keeps pointer 32 16 (by decide)).bind fun dataWords _ => ?_
  refine (checks.require_keeps _ _ _ _).bind fun _ _ => ?_
  refine (cutInteger_keeps pointer 48 16 (by decide)).bind fun pointers _ => ?_
  exact checks.require_keeps _ _ _ _

theorem decodeMessage_keeps (s : MessageSchema) {node : StructNode}
    (hnames : ∀ f ∈ node.fields, startsWith isAsciiLetter f.name = true) :
    Keeps inputs (decodeMessage s node) fun _ => True := by
  refine .read (input_inspects _) fun clock => .read (input_inspects _) fun valid => ?_
  refine .read (input_inspects _) fun v => (rootSlice_keeps v).bind fun message _ => ?_
  refine (Checks.under_keeps clock valid).bind fun checks _ => ?_
  refine (checkRoot_keeps checks message node).bind fun _ _ => ?_
  refine (cutSection_keeps message _ _ (by decide)).bind fun data _ => ?_
  refine (cutSection_keeps message _ _ (by decide)).bind fun pointers _ => ?_
  refine (decodeFields_keeps _ s hnames).bind fun values _ => ?_
  split
  · exact (gate_keeps fun _ => structCreate_gains _ _).mono fun _ _ => trivial
  · exact (cast_keeps _ _).mono fun _ _ => trivial
  · exact .throw _

end Decoder
end ChannelCodec
