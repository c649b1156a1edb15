import ChannelCodec.Proofs.Message.Pointers

/-! Messages that decoders accept. A list pointer is checked for what it says of the list, but not
for where it leads. So a decoder that accepts a message reads what a reader of the wire format reads
only when the pointers lead into the message, and when nothing lies behind lists that are shorter
than their arrays. -/
namespace ChannelCodec

/-- The array `x` has the low bits of the elements that lie in a message from word `start` on. -/
def TakenFrom (item : WireType) (element : HwType) (length start : Nat) (m x : Bits) : Prop :=
  ∀ k < length, x.slice (k * element.bitWidth) element.bitWidth =
    m.slice (64 * start + k * item.bits) element.bitWidth

private theorem takenFrom_readElements (item : WireType) (element : HwType) (length start : Nat)
    (m : Bits) :
    TakenFrom item element length start m
      (readElements item element length (64 * start) m) := by
  intro k hk
  have hk : k < ((List.range length).map fun k =>
      m.slice (64 * start + k * item.bits) element.bitWidth).length := by
    rwa [List.length_map, List.length_range]
  rw [readElements, Bits.slice_ofElements _ hk, List.getElem_map, List.getElem_range]
  intro x hx
  obtain ⟨k, _, rfl⟩ := List.mem_map.mp hx
  rfl

/-- A list is read from the word on to which its pointer leads, if that lies in the message: the
distance is added modulo `2 ^ 36`, which is right for negative distances too. -/
theorem listStart_eq {size place start : Nat} {word : Bits} (hplace : place % 64 = 0)
    (hstart : ((place / 64 : Nat) : Int) + 1 + (word.slice 2 30).lowInt = start)
    (hinside : 64 * start < size) (hsmall : 64 * start < 2 ^ (36 : Nat)) :
    listStart size place word = 64 * start := by
  have hlt : (word.slice 2 30).toNat < 2 * 2 ^ (29 : Nat) := (word.slice 2 30).toNat_lt
  have hsigned : (word.slice 2 30).lowInt =
      Int.bmod (word.slice 2 30).toNat (2 * 2 ^ (29 : Nat)) := Bits.lowInt_eq _
  rw [hsigned, Bits.bmod_of_lt hlt] at hstart
  have hsum : ((word.slice 2 30).toNat * 64 + place + 64) % 2 ^ (36 : Nat) = 64 * start := by
    split at hstart
    · omega
    · omega
  rw [listStart, hsum, Nat.mod_eq_of_lt (lt_two_pow_indexWidth hinside)]

namespace FieldReport

def declaredLength (f : FieldReport) (m : Bits) : Nat := ((f.word m).slice 35 29).toNat

/-- The word to which the pointer of a list leads. The distance, from the end of the pointer, has a
sign. -/
def listWord (f : FieldReport) (m : Bits) : Int :=
  (f.messageOffset / 64 : Nat) + 1 + ((f.word m).slice 2 30).lowInt

/-- The pointer of a list describes the expected elements, and not too many of them. -/
structure DescribesList (f : FieldReport) (item : WireType) (length : Nat) (m : Bits) : Prop where
  tag : ((f.word m).slice 0 2).toNat = PointerKind.list.tag
  size : ((f.word m).slice 32 3).toNat = item.elementSize.code
  fits : f.declaredLength m ≤ length

/-- The array `x` is what a reader of the wire format makes of a list: the elements that its pointer
describes lie in the message and come first, and the others are zero. -/
structure ReadsList (f : FieldReport) (item : WireType) (element : HwType) (length : Nat)
    (m x : Bits) : Prop where
  inside : 0 ≤ f.listWord m ∧ 64 * f.listWord m + f.declaredLength m * item.bits ≤ m.width
  described : ∀ k < f.declaredLength m, x.slice (k * element.bitWidth) element.bitWidth =
    m.slice (64 * (f.listWord m).toNat + k * item.bits) element.bitWidth
  others : ∀ k, f.declaredLength m ≤ k → k < length →
    x.slice (k * element.bitWidth) element.bitWidth = .zero element.bitWidth

variable {f : FieldReport} {item : WireType} {element : HwType} {length start : Nat} {m : Bits}

private theorem width_read (h : f.hwType.Carried f.wireType) :
    (f.read m).width = f.hwType.bitWidth := by
  generalize hwire : f.wireType = wire at h
  cases h with
  | scalar hscalar =>
    rw [read_of_scalar (hwire ▸ hscalar.element?_eq_none)]
    rfl
  | list harray =>
    rw [read_of_list (congrArg WireType.element? hwire) harray, HwType.bitWidth_of_array? harray]
    exact width_readElements _ _ _ _ _

private theorem complaints_eq_nil :
    f.complaints m = [] ↔ ∀ item element length, f.wireType = .list item →
    f.hwType.array? = some (element, length) → f.DescribesList item length m := by
  rw [complaints]
  cases hwire : f.wireType with
  | void | bool | int | uint =>
    refine iff_of_true rfl fun item element length hlist => ?_
    cases hlist
  | list item =>
    cases harray : f.hwType.array? with
    | none =>
      refine iff_of_true rfl fun item element length _ hfound => ?_
      cases hfound
    | some array =>
      rw [WireType.element?]
      refine listComplaints_eq_nil.trans ⟨?_, fun h => ?_⟩
      · rintro ⟨htag, hsize, hfits⟩ _ _ _ hitem hfound
        cases hitem
        cases hfound
        exact ⟨htag, hsize, hfits⟩
      · obtain ⟨htag, hsize, hfits⟩ := h item array.1 array.2 rfl rfl
        exact ⟨htag, hsize, hfits⟩

/-- All elements of an array are read from where the pointer leads, those that the pointer does not
describe among them. -/
theorem read_takenFrom (hwire : f.wireType = .list item)
    (harray : f.hwType.array? = some (element, length)) (hplace : f.messageOffset % 64 = 0)
    (hstart : f.listWord m = start) (hinside : 64 * start < m.width)
    (hsmall : 64 * start < 2 ^ (36 : Nat)) :
    TakenFrom item element length start m (f.read m) := by
  rw [read_of_list (congrArg WireType.element? hwire) harray,
    listStart_eq hplace hstart hinside hsmall]
  exact takenFrom_readElements item element length start m

/-- What is read is what the wire format has when the described elements end in the message and the
bits behind them, up to the length of the array, are zero. -/
theorem readsList_iff {x : Bits} (hstart : f.listWord m = start)
    (hfits : f.declaredLength m ≤ length) (hx : TakenFrom item element length start m x) :
    f.ReadsList item element length m x ↔
      64 * start + f.declaredLength m * item.bits ≤ m.width ∧
        ∀ k, f.declaredLength m ≤ k → k < length →
          m.slice (64 * start + k * item.bits) element.bitWidth = .zero element.bitWidth := by
  constructor
  · rintro ⟨⟨-, hinside⟩, -, hothers⟩
    refine ⟨by omega, fun k hle hlt => ?_⟩
    rw [← hx k hlt]
    exact hothers k hle hlt
  · rintro ⟨hinside, hzero⟩
    refine ⟨⟨by omega, by omega⟩, fun k hk => ?_, fun k hle hlt => ?_⟩
    · rw [hx k (by omega), hstart, Int.toNat_natCast]
    · rw [hx k hlt]
      exact hzero k hle hlt

end FieldReport

/-- All that a decoder checks of a message: the root pointer, and what list pointers say of their
lists. -/
structure MessageReport.Accepts (r : MessageReport) (m : Bits) : Prop where
  root : (m.slice 0 32).toNat = r.rootOffset * 4 + PointerKind.struct.tag
  dataWords : (m.slice 32 16).toNat = r.dataWords % 2 ^ (16 : Nat)
  pointers : (m.slice 48 16).toNat = r.pointers % 2 ^ (16 : Nat)
  lists : ∀ f ∈ r.fields, ∀ item element length, f.wireType = .list item →
    f.hwType.array? = some (element, length) → f.DescribesList item length m

theorem MessageReport.complaints_eq_nil {r : MessageReport} {m : Bits} :
    r.complaints m = [] ↔ r.Accepts m := by
  rw [complaints, List.append_eq_nil_iff, rootComplaints_eq_nil, List.flatMap_eq_nil_iff]
  constructor
  · rintro ⟨⟨hroot, hdata, hpointers⟩, hlists⟩
    exact ⟨hroot, hdata, hpointers, fun f hf => FieldReport.complaints_eq_nil.mp (hlists f hf)⟩
  · rintro ⟨hroot, hdata, hpointers, hlists⟩
    exact ⟨⟨hroot, hdata, hpointers⟩, fun f hf => FieldReport.complaints_eq_nil.mpr (hlists f hf)⟩

namespace MessageSchema

private theorem unpacked_read {s : MessageSchema} (h : s.checkSupported = .ok ()) (m : Bits) :
    HwType.unpacked s.fields (s.layout.read m) = s.layout.fields.map (·.read m) := by
  refine HwType.unpacked_concat ?_
  rw [layout, List.map_map, List.map_map, ← map_snd_slots, List.map_map]
  exact List.map_congr_left fun q hq => FieldReport.width_read (carried_slot h hq)

/-- The decoder of a supported type accepts a message when its root pointer is the expected one and
its list pointers describe the expected elements, not too many of them, and whatever else it holds.
The array of an accepted list is taken from the word on to which the pointer leads, if that lies in
the message. This is what a reader of the wire format reads exactly when the described elements end
in the message and no set bits lie behind them where the array has more elements. -/
theorem accepted_lists_read {t : HwType} (ht : t.Written) (h : (of t).checkSupported = .ok ())
    (hid : (of t).id ≠ ownSchemaId) :
    ∃ r c, (of t).report = .ok r ∧ (of t).size = .ok r.size ∧ (of t).decoder = .ok c ∧
      (r.structEnd ≤ 2 ^ (64 : Nat) → ∀ m : Bits, m.width = r.size →
        ∃ (x : Bits) (violations : List Violation),
          (∀ d : Design, d.find? c.name = some c →
            d.run c.name [("clk", .ofBool true), ("valid", .ofBool true), ("encodedInput", m)] =
              .ok ⟨[("decoded", x)], violations⟩) ∧
          (violations = [] ↔ r.Accepts m) ∧
          (violations = [] → ∀ (k : Nat) (f : FieldReport) (item : WireType) (element : HwType)
            (length : Nat), r.fields[k]? = some f → f.wireType = .list item →
              f.hwType.array? = some (element, length) → ∃ y,
                (HwType.unpacked (of t).fields x)[k]? = some y ∧ ∀ start : Nat,
                  f.listWord m = start → 64 * start < m.width → 64 * start < 2 ^ (36 : Nat) →
                    TakenFrom item element length start m y ∧
                    (f.ReadsList item element length m y ↔
                      64 * start + f.declaredLength m * item.bits ≤ m.width ∧
                        ∀ j, f.declaredLength m ≤ j → j < length →
                          m.slice (64 * start + j * item.bits) element.bitWidth =
                            .zero element.bitWidth))) := by
  obtain ⟨c, hc, -, hreads⟩ := decoder_reads ht h hid
  refine ⟨(of t).layout, c, report_eq ht h hid, size_eq ht h hid, hc, fun hstruct m hm => ?_⟩
  have haccepts : ((of t).layout.complaints m).map
      (fun message => (⟨[c.name], message⟩ : Violation)) = [] ↔ (of t).layout.Accepts m :=
    List.map_eq_nil_iff.trans MessageReport.complaints_eq_nil
  refine ⟨(of t).layout.read m, _, fun d hd => ?_, haccepts, fun hnone => ?_⟩
  · rw [hreads hstruct _ _ m rfl rfl hm d hd]
    rfl
  intro k f item element length hf hwire harray
  have hlist := (haccepts.mp hnone).lists f (List.mem_of_getElem? hf) item element length hwire
    harray
  have hplace := messageOffset_layout hf (by rw [hwire]; rfl)
  refine ⟨f.read m, ?_, fun start hstart hinside hsmall => ?_⟩
  · rw [unpacked_read h, List.getElem?_map, hf]
    rfl
  · have htaken := f.read_takenFrom hwire harray (by omega) hstart hinside hsmall
    exact ⟨htaken, f.readsList_iff hstart hlist.fits htaken⟩

def shortMessage : Bits := .ofWords [0x0001000100000000, 5, 0x0000001300000001, 0xFFFF0007]

theorem mixedType_short_list_read : ∃ r c f x y, (of mixedType).report = .ok r ∧
    (of mixedType).decoder = .ok c ∧
      ({ circuits := [c] } : Design).run c.name [("clk", .ofBool true), ("valid", .ofBool true),
        ("encodedInput", shortMessage)] = .ok ⟨[("decoded", x)], []⟩ ∧
      r.fields[1]? = some f ∧ (HwType.unpacked (of mixedType).fields x)[1]? = some y ∧
      f.declaredLength shortMessage = 2 ∧
      f.ReadsList (.int .w16) (.int .signed 12) 3 shortMessage y := by
  obtain ⟨r, c, hr, -, hc, hreads⟩ :=
    accepted_lists_read written_mixedType checkSupported_mixedType id_mixedType
  have hlayout := eq_of_report_mixedType hr
  rw [layout_mixedType] at hlayout
  subst hlayout
  obtain ⟨x, violations, hruns, haccepts, hlists⟩ :=
    hreads (by decide) shortMessage (by decide +kernel)
  have hnone : violations = [] :=
    haccepts.mpr (MessageReport.complaints_eq_nil.mp (by decide +kernel))
  subst hnone
  obtain ⟨y, hy, hread⟩ := hlists rfl 1 _ _ _ _ rfl rfl rfl
  refine ⟨_, c, _, x, y, hr, hc, hruns _ (by simp [Design.find?]), rfl, hy, by decide +kernel, ?_⟩
  refine (hread 3 (by decide +kernel) (by decide +kernel) (by decide)).2.mpr
    ⟨by decide +kernel, fun j hle hlt => ?_⟩
  have hlength : 2 ≤ j := Nat.le_trans (Nat.le_of_eq (by decide +kernel)) hle
  have hj : j = 2 := Nat.le_antisymm (Nat.le_of_lt_succ hlt) hlength
  subst hj
  decide +kernel

def shorts : HwType := .array 4 (.int .unsigned 16)

private theorem layout_shorts : (of shorts).layout = {
    name := (of shorts).name, id := (of shorts).id, hwType := shorts, size := 192
    dataWords := 0, pointers := 1
    fields := [⟨"l", shorts, .list (.uint .w16), .pointer, 0, 64, 1⟩] } := by
  rw [layout, slots, StructSource.compiled, byOrdinal_source]
  rfl

/-- A message whose list pointer leads to a word behind its end. -/
def farMessage : Bits := .ofWords [0x0001000000000000, 0x0000002300000015, 0x0004000300020001]

/-- A message whose list has two elements, with bits of something else behind them. -/
def staleMessage : Bits := .ofWords [0x0001000000000000, 0x0000001300000001, 0x0004000300020001]

/-- A decoder accepts pointers that lead out of the message, and takes what lies behind a list for
elements of it. -/
theorem shorts_misread : shorts.Written ∧ (of shorts).checkSupported = .ok () ∧
    (of shorts).id ≠ ownSchemaId ∧ ∃ r c f, (of shorts).report = .ok r ∧
      (of shorts).decoder = .ok c ∧ r.fields = [f] ∧
      ∀ m ∈ [farMessage, staleMessage], ∃ x,
        ({ circuits := [c] } : Design).run c.name [("clk", .ofBool true), ("valid", .ofBool true),
          ("encodedInput", m)] = .ok ⟨[("decoded", x)], []⟩ ∧
        ¬ f.ReadsList (.uint .w16) (.int .unsigned 16) 4 m x := by
  have ht : shorts.Written := ⟨"!hw.array<4xui16>", by decide +kernel, by decide +kernel⟩
  have h : (of shorts).checkSupported = .ok () := by decide +kernel
  have hid : (of shorts).id ≠ ownSchemaId := by decide +kernel
  obtain ⟨c, hc, -, hreads⟩ := decoder_reads ht h hid
  have hruns : ∀ m x : Bits, m.width = 192 → (of shorts).layout.read m = x →
      (of shorts).layout.complaints m = [] →
        ({ circuits := [c] } : Design).run c.name [("clk", .ofBool true), ("valid", .ofBool true),
          ("encodedInput", m)] = .ok ⟨[("decoded", x)], []⟩ := by
    intro m x hm hread hnone
    have hstruct : (of shorts).layout.structEnd ≤ 2 ^ (64 : Nat) := by
      rw [layout_shorts]
      decide
    rw [hreads hstruct _ _ m rfl rfl (by rw [layout_shorts]; exact hm) _ (by simp [Design.find?]),
      hread, hnone, ite_self]
    rfl
  have hreport := report_eq ht h hid
  rw [layout_shorts] at hreport hruns
  refine ⟨ht, h, hid, _, c, _, hreport, hc, rfl, ?_⟩
  rw [List.forall_mem_cons, List.forall_mem_singleton]
  constructor
  · refine ⟨.zero 64, hruns _ _ (by decide +kernel) (by decide +kernel) (by decide +kernel),
      fun hread => ?_⟩
    exact absurd hread.inside (by decide +kernel)
  · refine ⟨.ofNat 64 0x0004000300020001, hruns _ _ (by decide +kernel) (by decide +kernel)
      (by decide +kernel), fun hread => ?_⟩
    exact absurd (hread.others 2 (by decide +kernel) (by decide)) (by decide +kernel)

end MessageSchema
end ChannelCodec
