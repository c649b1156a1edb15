import ChannelCodec.Proofs.Bits.Pieces
import ChannelCodec.Proofs.Bits.Signs
import ChannelCodec.Proofs.Message.Layout

/-! The wire format. A message is described by the pieces that lie in it: the pointer to its
struct, a piece for each field, and the elements of the lists behind the struct. The description
takes all positions from the report of the message. -/
namespace ChannelCodec

/-- The value `x` of an integer type in `width` bits, with its sign in front if it has one, and
zeros otherwise. -/
def HwType.extended (t : HwType) (width : Nat) (x : Bits) : Bits :=
  if t.isSigned then .ofInt width x.lowInt else .ofNat width x.toNat

@[simp] theorem HwType.width_extended (t : HwType) (width : Nat) (x : Bits) :
    (t.extended width x).width = width := by
  unfold extended
  split
  · exact Bits.width_ofInt width _
  · rfl

/-- The word of a pointer to a struct that starts `offset` words behind the pointer. -/
def structPointer (offset dataWords pointers : Nat) : Bits :=
  .ofNat 64 (PointerKind.struct.tag + 2 ^ (2 : Nat) * offset + 2 ^ (32 : Nat) * dataWords +
    2 ^ (48 : Nat) * pointers)

/-- The word of a pointer to a list that starts `offset` words behind the pointer. -/
def listPointer (offset : Nat) (size : ElementSize) (length : Nat) : Bits :=
  .ofNat 64 (PointerKind.list.tag + 2 ^ (2 : Nat) * offset + 2 ^ (32 : Nat) * size.code +
    2 ^ (35 : Nat) * length)

def elementPiece (wire : WireType) (element : HwType) (start : Nat) (x : Bits) (k : Nat) : Piece :=
  ⟨start + k * wire.bits,
    element.extended wire.bits (x.slice (k * element.bitWidth) element.bitWidth)⟩

def elementPieces (wire : WireType) (element : HwType) (length start : Nat) (x : Bits) :
    List Piece :=
  (List.range length).map (elementPiece wire element start x)

def wordsBetween (pointer start : Nat) : Nat := (start - (pointer + 64)) / 64

/-- What the value `x` of type `t` leaves in a message, as a field at bit `start` whose list
starts at bit `list`. -/
def WireType.pieces (wire : WireType) (t : HwType) (start list : Nat) (x : Bits) : List Piece :=
  match wire.element?, t.array? with
  | some item, some (element, length) =>
    ⟨start, listPointer (wordsBetween start list) item.elementSize length⟩ ::
      elementPieces item element length list x
  | _, _ => [⟨start, t.extended wire.bits x⟩]

def FieldReport.pieces (f : FieldReport) (list : Nat) (x : Bits) : List Piece :=
  f.wireType.pieces f.hwType f.messageOffset list x

/-- Fields with the bits at which their lists start, one behind the other from bit `start` on. -/
def withLists (start : Nat) : List FieldReport → List (FieldReport × Nat)
  | [] => []
  | f :: fields => (f, start) :: withLists (start + 64 * f.payloadWords) fields

theorem withLists_place {start : Nat} {fields : List FieldReport} {p : FieldReport × Nat}
    (hp : p ∈ withLists start fields) : p.1 ∈ fields ∧ ∃ words, p.2 = start + 64 * words ∧
      words + p.1.payloadWords ≤ total (fields.map (·.payloadWords)) := by
  induction fields generalizing start with
  | nil => cases hp
  | cons f fields ih =>
    rw [withLists] at hp
    rw [List.map_cons, total_cons]
    rcases List.mem_cons.mp hp with rfl | hp
    · refine ⟨List.mem_cons_self, 0, rfl, ?_⟩
      rw [Nat.zero_add]
      exact Nat.le_add_right _ _
    · obtain ⟨hmem, words, hplace, hle⟩ := ih hp
      exact ⟨List.mem_cons_of_mem f hmem, f.payloadWords + words, by omega, by omega⟩

def fieldPieces (start : Nat) (fields : List (FieldReport × Bits)) : List Piece :=
  ((withLists start (fields.map (·.1))).zip (fields.map (·.2))).flatMap fun p =>
    p.1.1.pieces p.1.2 p.2

@[simp] theorem fieldPieces_cons (start : Nat) (f : FieldReport) (x : Bits)
    (fields : List (FieldReport × Bits)) :
    fieldPieces start ((f, x) :: fields) =
      f.pieces start x ++ fieldPieces (start + 64 * f.payloadWords) fields := rfl

namespace MessageReport

/-- The end of the struct, where the first list starts. -/
def structEnd (r : MessageReport) : Nat := 64 * (1 + r.dataWords + r.pointers)

/-- The offset in the root pointer: the struct lies right behind it, or on it when it is empty. -/
def rootOffset (r : MessageReport) : Nat :=
  if r.dataWords + r.pointers = 0 then emptyStructOffset else 0

def places (r : MessageReport) : List (FieldReport × Nat) := withLists r.structEnd r.fields

/-- The message that carries the given values of its fields. -/
def image (r : MessageReport) (values : List Bits) : List Piece :=
  ⟨0, structPointer r.rootOffset r.dataWords r.pointers⟩ ::
    fieldPieces r.structEnd (r.fields.zip values)

end MessageReport

theorem HwType.Scalar.element?_eq_none {t : HwType} {wire : WireType} (h : t.Scalar wire) :
    wire.element? = none := by
  obtain ⟨sign, width, _, _, rfl⟩ := h
  unfold HwType.wireInteger
  repeat' split
  all_goals rfl

theorem HwType.Scalar.isPointer_eq_false {t : HwType} {wire : WireType} (h : t.Scalar wire) :
    wire.isPointer = false := by
  have hnone := h.element?_eq_none
  cases wire with
  | list element => cases hnone
  | _ => rfl

theorem WireType.pieces_of_scalar {wire : WireType} (h : wire.element? = none) (t : HwType)
    (start list : Nat) (x : Bits) :
    wire.pieces t start list x = [⟨start, t.extended wire.bits x⟩] := by
  rw [WireType.pieces, h]

theorem WireType.pieces_of_list {t element : HwType} {length : Nat}
    (h : t.array? = some (element, length)) (item : WireType) (start list : Nat) (x : Bits) :
    (WireType.list item).pieces t start list x =
      ⟨start, listPointer (wordsBetween start list) item.elementSize length⟩ ::
        elementPieces item element length list x := by
  rw [WireType.pieces, WireType.element?, h]

def Piece.span (p : Piece) : Span := ⟨p.start, p.bits.width⟩

theorem Piece.pairwise_apart {pieces : List Piece} {size : Nat}
    (h : ∀ i, coverage (pieces.map Piece.span) i ≤ within 0 size i) :
    pieces.Pairwise Piece.Apart := by
  have hspans := pairwise_of_coverage_le_one fun i =>
    Nat.le_trans (h i) (by unfold within; split <;> omega)
  rw [List.pairwise_map] at hspans
  refine hspans.imp fun {p q} hpq i hp hq => ?_
  have hcovers : ∀ r : Piece, r.span.covers i = true ↔ r.Covers i := fun r => by
    rw [Span.covers, Bool.and_eq_true, decide_eq_true_eq, decide_eq_true_eq]
    rfl
  have hnot := hpq i ((hcovers p).mpr hp)
  rw [(hcovers q).mpr hq] at hnot
  exact Bool.noConfusion hnot

theorem Piece.stop_le {pieces : List Piece} {size : Nat}
    (h : ∀ i, coverage (pieces.map Piece.span) i ≤ within 0 size i) {p : Piece}
    (hp : p ∈ pieces) (hpos : 0 < p.bits.width) : p.stop ≤ size :=
  (le_of_coverage h (List.mem_map_of_mem hp) hpos).2

private theorem coverage_elementPieces (wire : WireType) (element : HwType) (length start : Nat)
    (x : Bits) (i : Nat) : coverage ((elementPieces wire element length start x).map Piece.span) i =
      within start (start + length * wire.bits) i := by
  induction length with
  | zero => rw [Nat.zero_mul, Nat.add_zero, within_self]; rfl
  | succ n ih =>
    have hsucc : elementPieces wire element (n + 1) start x =
        elementPieces wire element n start x ++ [elementPiece wire element start x n] := by
      rw [elementPieces, List.range_succ, List.map_append]
      rfl
    have hsplit := within_split start (start + n * wire.bits)
      (start + n * wire.bits + wire.bits) (by omega) (by omega) i
    rw [hsucc, List.map_append, coverage_append, ih, List.map_singleton, Piece.span, coverage_cons,
      elementPiece, HwType.width_extended, coverage_nil, Nat.add_zero, Nat.succ_mul,
      ← Nat.add_assoc, hsplit]

private theorem within_mono {low high high' : Nat} (h : high ≤ high') (i : Nat) :
    within low high i ≤ within low high' i := by
  unfold within
  split <;> split <;> omega

theorem MessageSchema.payloadWords_of_scalar {wire : WireType} (h : wire.element? = none)
    (t : HwType) : MessageSchema.payloadWords wire t = 0 := by
  rw [MessageSchema.payloadWords, h]

theorem MessageSchema.payloadWords_of_list {t element : HwType} {length : Nat}
    (h : t.array? = some (element, length)) (item : WireType) :
    MessageSchema.payloadWords (.list item) t = wordsFor (item.bits * length) := by
  rw [MessageSchema.payloadWords, WireType.element?, h]

/-- A field covers its slot and, if it has a list, bits in the words of that. -/
theorem coverage_pieces {t : HwType} {wire : WireType} (h : t.Carried wire) (start list : Nat)
    (x : Bits) (i : Nat) : coverage ((wire.pieces t start list x).map Piece.span) i ≤
      within start (start + wire.bits) i +
        within list (list + 64 * MessageSchema.payloadWords wire t) i := by
  cases h with
  | scalar h =>
    rw [WireType.pieces_of_scalar h.element?_eq_none, List.map_singleton, Piece.span, coverage_cons,
      HwType.width_extended, coverage_nil]
    exact Nat.le_add_right _ _
  | @list element length item harray hitem =>
    have hle := le_wordsFor (item.bits * length)
    rw [WireType.pieces_of_list harray, List.map_cons, Piece.span, coverage_cons,
      coverage_elementPieces, MessageSchema.payloadWords_of_list harray]
    refine Nat.add_le_add_left (within_mono ?_ i) _
    rw [Nat.mul_comm length]
    omega

private theorem coverage_fieldPieces (start : Nat) {fields : List (FieldReport × Bits)}
    (h : ∀ p ∈ fields, p.1.hwType.Carried p.1.wireType ∧
      p.1.payloadWords = MessageSchema.payloadWords p.1.wireType p.1.hwType) (i : Nat) :
    coverage ((fieldPieces start fields).map Piece.span) i ≤
      coverage (fields.map fun p => ⟨p.1.messageOffset, p.1.wireType.bits⟩) i +
        within start (start + 64 * total (fields.map (·.1.payloadWords))) i := by
  induction fields generalizing start with
  | nil => exact Nat.zero_le _
  | cons p fields ih =>
    obtain ⟨f, x⟩ := p
    have hmem := h (f, x) List.mem_cons_self
    dsimp only at hmem
    obtain ⟨hcarried, hwords⟩ := hmem
    have hfield := coverage_pieces hcarried f.messageOffset start x i
    have hrest := ih (start + 64 * f.payloadWords)
      fun q hq => h q (List.mem_cons_of_mem _ hq)
    have hsplit := within_split start (start + 64 * f.payloadWords)
      (start + 64 * (f.payloadWords + total (fields.map (·.1.payloadWords))))
      (by omega) (by omega) i
    have hend : start + 64 * (f.payloadWords + total (fields.map (·.1.payloadWords))) =
        start + 64 * f.payloadWords + 64 * total (fields.map (·.1.payloadWords)) := by omega
    rw [← hwords] at hfield
    rw [hend] at hsplit
    rw [fieldPieces_cons, List.map_append, coverage_append, FieldReport.pieces, List.map_cons,
      coverage_cons, List.map_cons, total_cons, hend]
    dsimp only
    omega

namespace MessageSchema

theorem structEnd_layout (s : MessageSchema) : s.layout.structEnd =
    64 + (s.source.compiled.dataWords + s.source.compiled.pointers) * 64 := by
  have hstruct : s.layout.structEnd =
      64 * (1 + s.source.compiled.dataWords + s.source.compiled.pointers) := rfl
  omega

theorem rootOffset_layout (s : MessageSchema) :
    s.layout.rootOffset = if s.source.compiled.isEmpty then emptyStructOffset else 0 := by
  simp only [StructNode.isEmpty, MessageReport.rootOffset, decide_eq_true_eq]
  rfl

theorem map_fst_zip_layout {s : MessageSchema} {values : List Bits}
    (hvalues : values.length = s.fields.length) :
    (s.layout.fields.zip values).map (·.1) = s.layout.fields :=
  List.map_fst_zip (Nat.le_of_eq (s.length_layout_fields.trans hvalues.symm))

private theorem map_zip_layout {α : Type} {s : MessageSchema} {values : List Bits}
    (hvalues : values.length = s.fields.length) (f : FieldReport → α) :
    (s.layout.fields.zip values).map (fun p => f p.1) = s.layout.fields.map f := by
  rw [← map_fst_zip_layout hvalues, List.map_map, map_fst_zip_layout hvalues]
  rfl

theorem coverage_message {s : MessageSchema} (h : s.checkSupported = .ok ()) {root : Bits}
    (hroot : root.width = 64) {values : List Bits} (hvalues : values.length = s.fields.length)
    (i : Nat) :
    coverage ((⟨0, root⟩ :: fieldPieces s.layout.structEnd (s.layout.fields.zip values)).map
      Piece.span) i ≤ within 0 s.layout.size i := by
  have hslots : (s.layout.fields.zip values).map
      (fun p => (⟨p.1.messageOffset, p.1.wireType.bits⟩ : Span)) =
      s.source.compiled.fields.map (NodeField.slot dataStart (pointerStart s.source.compiled)) := by
    rw [map_zip_layout hvalues fun f => (⟨f.messageOffset, f.wireType.bits⟩ : Span), layout,
      ← map_fst_slots, List.map_map, List.map_map]
    refine List.map_congr_left fun p _ => ?_
    simp only [Function.comp_apply, messageOffset_fieldReport, NodeField.slot]
    rfl
  have hcarried : ∀ p ∈ s.layout.fields.zip values, p.1.hwType.Carried p.1.wireType ∧
      p.1.payloadWords = payloadWords p.1.wireType p.1.hwType := by
    intro p hp
    obtain ⟨q, hq, he⟩ := List.mem_map.mp (List.of_mem_zip hp).1
    rw [← he]
    exact ⟨carried_slot h hq, rfl⟩
  have hfields := coverage_fieldPieces s.layout.structEnd hcarried i
  have hsection := (s.coverage_slots i).2
  have hwords : (s.layout.fields.zip values).map (·.1.payloadWords) =
      s.layout.fields.map (·.payloadWords) := map_zip_layout hvalues (·.payloadWords)
  have hend : s.layout.structEnd + 64 * total (s.layout.fields.map (·.payloadWords)) =
      s.layout.size := by
    rw [size_layout, MessageReport.structEnd, ← Nat.mul_add]
  have hstruct : 64 * (1 + s.source.compiled.dataWords + s.source.compiled.pointers) =
      s.layout.structEnd := rfl
  have hword : 64 ≤ s.layout.structEnd := by
    rw [MessageReport.structEnd]
    omega
  -- Root pointer, sections and lists are three ranges, one behind the other.
  have hsplit := within_split 0 64 s.layout.structEnd (by omega)
    hword i
  have hsplit' := within_split 0 s.layout.structEnd s.layout.size
    (by omega) (by omega) i
  rw [hslots, hwords, hend] at hfields
  rw [hstruct] at hsection
  rw [List.map_cons, Piece.span, coverage_cons, hroot, Nat.zero_add]
  dsimp only
  omega

end MessageSchema
end ChannelCodec
