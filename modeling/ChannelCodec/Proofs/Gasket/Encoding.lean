import ChannelCodec.Gasket.Encoder
import ChannelCodec.Proofs.Gasket.Assembly
import ChannelCodec.Proofs.Message.WireFormat

/-! The circuits that encode. Each field adds its pieces to the segment, and nothing else; that
all pieces of a message are apart is known from its layout, so that no step fails. -/
namespace ChannelCodec

private theorem structPointer_eq {offset : Nat} (ho : offset < 2 ^ (30 : Nat))
    (dataWords pointers : Nat) :
    Bits.ofElements [.ofNat 2 PointerKind.struct.tag, .ofNat 30 offset, .ofNat 16 dataWords,
      .ofNat 16 pointers] =
        structPointer offset (dataWords % 2 ^ (16 : Nat)) (pointers % 2 ^ (16 : Nat)) := by
  ext
  · rw [Bits.width_ofElements, structPointer]
    rfl
  · simp only [Bits.ofElements_cons, Bits.ofElements_nil, Bits.zero_append, Bits.toNat_append,
      Bits.toNat_ofNat, Bits.width_ofNat, structPointer, PointerKind.tag]
    omega

private theorem listPointer_eq (offset : Nat) (size : ElementSize) (length : Nat) :
    Bits.ofElements [.ofNat 2 PointerKind.list.tag, .ofNat 30 offset, .ofNat 3 size.code,
      .ofNat 29 length] = listPointer (offset % 2 ^ (30 : Nat)) size length := by
  have hcode : size.code < 2 ^ (3 : Nat) := by cases size <;> decide
  ext
  · rw [Bits.width_ofElements, listPointer]
    rfl
  · simp only [Bits.ofElements_cons, Bits.ofElements_nil, Bits.zero_append, Bits.toNat_append,
      Bits.toNat_ofNat, Bits.width_ofNat, listPointer, PointerKind.tag]
    omega

/-- What the circuits leave of the value `x` in a message. It is what the wire format asks for, but
for the distance to a list, of which there are only the bits it has in a pointer. -/
def WireType.packed (wire : WireType) (t : HwType) (start list : Nat) (x : Bits) : List Piece :=
  match wire.element?, t.array? with
  | some item, some (element, length) =>
    ⟨start, listPointer (wordsBetween start list % 2 ^ (30 : Nat)) item.elementSize length⟩ ::
      elementPieces item element length list x
  | _, _ => [⟨start, t.extended wire.bits x⟩]

def packedFields (start : Nat) (fields : List (FieldReport × Bits)) : List Piece :=
  ((withLists start (fields.map (·.1))).zip (fields.map (·.2))).flatMap fun p =>
    p.1.1.wireType.packed p.1.1.hwType p.1.1.messageOffset p.1.2 p.2

@[simp] theorem packedFields_cons (start : Nat) (f : FieldReport) (x : Bits)
    (fields : List (FieldReport × Bits)) :
    packedFields start ((f, x) :: fields) =
      f.wireType.packed f.hwType f.messageOffset start x ++
        packedFields (start + 64 * f.payloadWords) fields := rfl

namespace WireType

variable {wire : WireType} {t : HwType} {start list : Nat} {x : Bits}

private theorem packed_of_scalar (h : wire.element? = none) :
    wire.packed t start list x = [⟨start, t.extended wire.bits x⟩] := by
  rw [packed, h]

theorem packed_of_list {element : HwType} {length : Nat} (h : t.array? = some (element, length))
    (item : WireType) :
    (WireType.list item).packed t start list x =
      ⟨start, listPointer (wordsBetween start list % 2 ^ (30 : Nat)) item.elementSize length⟩ ::
        elementPieces item element length list x := by
  rw [packed, element?, h]

/-- Cutting a distance moves nothing. -/
theorem span_packed :
    (wire.packed t start list x).map Piece.span = (wire.pieces t start list x).map Piece.span := by
  cases wire with
  | list item =>
    unfold packed pieces
    cases t.array? <;> rfl
  | _ => rfl

private theorem packed_eq_pieces
    (h : wire.isPointer = true → wordsBetween start list < 2 ^ (30 : Nat)) :
    wire.packed t start list x = wire.pieces t start list x := by
  cases wire with
  | list item =>
    unfold packed pieces
    cases t.array? with
    | none => rfl
    | some array => simp only [element?, Nat.mod_eq_of_lt (h rfl)]
  | _ => rfl

end WireType

private theorem span_packedFields (start : Nat) (fields : List (FieldReport × Bits)) :
    (packedFields start fields).map Piece.span = (fieldPieces start fields).map Piece.span := by
  induction fields generalizing start with
  | nil => rfl
  | cons p fields ih =>
    obtain ⟨f, x⟩ := p
    rw [packedFields_cons, fieldPieces_cons, List.map_append, List.map_append, ih,
      WireType.span_packed, FieldReport.pieces]

theorem packedFields_eq_fieldPieces {start : Nat} {fields : List (FieldReport × Bits)}
    (h : ∀ p ∈ withLists start (fields.map (·.1)), p.1.wireType.isPointer = true →
      wordsBetween p.1.messageOffset p.2 < 2 ^ (30 : Nat)) :
    packedFields start fields = fieldPieces start fields := by
  induction fields generalizing start with
  | nil => rfl
  | cons p fields ih =>
    obtain ⟨f, x⟩ := p
    rw [List.map_cons, withLists, List.forall_mem_cons] at h
    rw [packedFields_cons, fieldPieces_cons, ih h.2, WireType.packed_eq_pieces h.1,
      FieldReport.pieces]

namespace Encoder
open Build

variable {e : Setting} {r : Nat} {b : Builder} {s : Segment} {done : List Piece} {v : Nat}
variable {t : HwType} {wire : WireType} {start : Nat} {x : Bits}

/-- Packing four constants into a pointer, on the way to what comes next. -/
theorem pointer_builds {α : Type} {f : Nat → Build α} {post : α → Builder → Prop}
    {w₁ n₁ w₂ n₂ w₃ n₃ w₄ n₄ : Nat} (hb : b.Sound e)
    (hf : ∀ v b', Grows e r [] b b' → ChannelCodec.Holds e b' v (.bitArray (w₁ + (w₂ + (w₃ + w₄))))
      (.ofElements [.ofNat w₁ n₁, .ofNat w₂ n₂, .ofNat w₃ n₃, .ofNat w₄ n₄]) →
      Builds e r [] (f v) b' post) :
    Builds e r [] (do
      let first ← constantBits w₁ n₁
      let second ← constantBits w₂ n₂
      let third ← constantBits w₃ n₃
      let fourth ← constantBits w₄ n₄
      let pointer ← pack [first, second, third, fourth]
      f pointer) b post := by
  refine (constantBits_builds hb w₁ n₁).bind fun v₁ b₁ hg₁ h₁ => ?_
  refine (constantBits_builds hg₁.after w₂ n₂).bind fun v₂ b₂ hg₂ h₂ => ?_
  refine (constantBits_builds hg₂.after w₃ n₃).bind fun v₃ b₃ hg₃ h₃ => ?_
  refine (constantBits_builds hg₃.after w₄ n₄).bind fun v₄ b₄ hg₄ h₄ => ?_
  have hon : ∀ s ∈ ([⟨v₁, .bits w₁, .ofNat w₁ n₁⟩, ⟨v₂, .bits w₂, .ofNat w₂ n₂⟩,
      ⟨v₃, .bits w₃, .ofNat w₃ n₃⟩, ⟨v₄, .bits w₄, .ofNat w₄ n₄⟩] : List Signal), s.On e b₄ := by
    rintro _ (_ | ⟨_, _ | ⟨_, _ | ⟨_, _ | ⟨_, ⟨⟩⟩⟩⟩⟩)
    · exact h₁.1.mono (hg₂.trans (hg₃.trans hg₄))
    · exact h₂.1.mono (hg₃.trans hg₄)
    · exact h₃.1.mono hg₄
    · exact h₄.1
  refine Builds.bind (pack_builds hg₄.after (List.cons_ne_nil _ _) hon) fun v b₅ hg₅ hv => ?_
  exact hf v b₅ (hg₁.trans (hg₂.trans (hg₃.trans (hg₄.trans hg₅)))) hv

/-- The bits of a scalar, with copies of its sign above them if it has one, are those of its piece
up to zeros. They are made on the way to what comes next. -/
theorem signed_builds {α : Type} {next : Nat → Build α} {post : α → Builder → Prop}
    (hb : b.Sound e) (hv : ChannelCodec.Holds e b v (.bits t.bitWidth) x) (h : t.Scalar wire)
    (hpos : 0 < t.bitWidth)
    (hnext : ∀ v' b' u y, Grows e r [] b b' → ChannelCodec.Holds e b' v' u y → 0 < y.width →
      y.width ≤ wire.bits → t.extended wire.bits x = .ofNat wire.bits y.toNat →
      Builds e r [] (next v') b' post) :
    Builds e r [] (do
      let bits ← if t.isSigned then signExtend v wire.bits else pure v
      next bits) b post := by
  obtain ⟨h64, hroom, _⟩ := h.room
  have hwidth : x.width = t.bitWidth := hv.width
  by_cases hsigned : t.isSigned = true
  · rw [if_pos hsigned]
    refine (signExtend_builds hb hv hpos h64 hroom).bind fun v' b' hg hv' => ?_
    have hwidth' : (Bits.ofInt wire.bits x.lowInt).width = wire.bits := Bits.width_ofInt _ _
    have hsame := (Bits.ofNat_toNat (.ofInt wire.bits x.lowInt)).symm
    rw [hwidth'] at hsame
    refine hnext v' b' _ _ hg hv' (by omega) (Nat.le_of_eq hwidth') ?_
    rwa [HwType.extended, if_pos hsigned]
  · rw [if_neg hsigned]
    refine hnext v b _ _ (.refl hb) hv (by omega) (by omega) ?_
    rw [HwType.extended, if_neg hsigned]

theorem encode_scalar_builds (hb : b.Sound e) (hs : s.Holds e b done)
    (hv : ChannelCodec.Holds e b v t x) (h : t.Scalar wire)
    (hfits : 0 < wire.bits → start + wire.bits ≤ s.size)
    (hapart : ∀ q ∈ done, Piece.Apart ⟨start, t.extended wire.bits x⟩ q) :
    Builds e r [] (encode wire start v s) b fun s' b' =>
      s'.Holds e b' (⟨start, t.extended wire.bits x⟩ :: done) ∧ s'.size = s.size ∧
        s'.allocated = s.allocated := by
  obtain ⟨_, hroom, hvoid⟩ := h.room
  by_cases hwire : wire = .void
  · subst hwire
    exact .pure hb ⟨hs.cons_of_width_zero (HwType.width_extended t 0 x), rfl, rfl⟩
  · have hpos : 0 < t.bitWidth := hvoid.resolve_left hwire
    have hstep : encode wire start v s = (do
        let type ← typeOf v
        let bits ← cast v (.bits type.bitWidth)
        let bits ← if type.isSigned then signExtend bits wire.bits else pure bits
        s.insert start bits) := by
      cases wire with
      | void => exact absurd rfl hwire
      | list element => cases h.element?_eq_none
      | bool | int w | uint w => rfl
    have hwidth := HwType.width_extended t wire.bits x
    rw [hstep]
    refine .look (typeOf_eq hv.type) ?_
    refine (cast_builds (u := .bits t.bitWidth) hb hv rfl).bind fun bits b₁ hg₁ hbits => ?_
    refine signed_builds hg₁.after hbits h hpos fun bits' b₂ u y hg₂ hy hypos hyle hsame => ?_
    refine Segment.insert_builds (p := ⟨start, t.extended wire.bits x⟩) hg₂.after
      (hs.mono (hg₁.trans hg₂)) hy hypos ?_ ?_ ?_ hapart
    · rwa [hwidth]
    · rwa [hwidth]
    · rw [Piece.stop, hwidth]
      exact hfits (by omega)

theorem encode_elements_builds {array : Slice} {element : HwType} {list : Nat} (ks : List Nat)
    (hb : b.Sound e) (hs : s.Holds e b done) (harray : array.On e b element x)
    (hitem : element.Scalar wire) (hks : ∀ k ∈ ks, k < array.size)
    (h64 : array.size ≤ 2 ^ (64 : Nat))
    (hfits : ∀ k ∈ ks, 0 < wire.bits → list + k * wire.bits + wire.bits ≤ s.size)
    (hapart : (ks.map (elementPiece wire element list x) ++ done).Pairwise Piece.Apart) :
    Builds e r [] (ks.foldlM (fun s k => do
        let item ← Build.element array k
        encode wire (list + k * wire.bits) item s) s) b fun s' b' =>
      s'.Holds e b' (ks.map (elementPiece wire element list x) ++ done) ∧ s'.size = s.size ∧
        s'.allocated = s.allocated := by
  induction ks generalizing b s done with
  | nil => exact .pure hb ⟨hs, rfl, rfl⟩
  | cons k ks ih =>
    rw [List.map_cons, List.cons_append] at hapart
    have hfirst := List.pairwise_cons.mp hapart
    have hk := hks k List.mem_cons_self
    rw [List.foldlM_cons]
    refine Builds.bind (?_ : Builds e r [] _ b fun s' b' => s'.Holds e b'
      (elementPiece wire element list x k :: done) ∧ s'.size = s.size ∧
        s'.allocated = s.allocated) fun s₁ b₁ hg₁ h₁ => ?_
    · refine (element_builds hb harray hk (Nat.lt_of_lt_of_le hk h64)).bind fun item b₁ hg₁ hi => ?_
      exact encode_scalar_builds hg₁.after (hs.mono hg₁) hi hitem (hfits k List.mem_cons_self)
        fun q hq => hfirst.1 q (List.mem_append_right _ hq)
    · obtain ⟨hs₁, hsize₁, halloc₁⟩ := h₁
      have hperm : (elementPiece wire element list x k :: (ks.map (elementPiece wire element list x)
          ++ done)).Perm (ks.map (elementPiece wire element list x) ++
            elementPiece wire element list x k :: done) := List.perm_middle.symm
      refine (ih hg₁.after hs₁ (harray.mono hg₁) (fun j hj => hks j (List.mem_cons_of_mem k hj))
        (fun j hj => ?_) (hperm.pairwise hapart Piece.Apart.symm)).mono ?_
      · rw [hsize₁]
        exact hfits j (List.mem_cons_of_mem k hj)
      · rintro s₂ b₂ _ ⟨hs₂, hsize₂, halloc₂⟩
        exact ⟨hs₂.of_perm hperm.symm, hsize₂.trans hsize₁, halloc₂.trans halloc₁⟩

/-- A list leaves the pieces of its elements in words of its own, and then that of its pointer. -/
theorem encode_list_builds {item : WireType} {element : HwType} {length : Nat} (hb : b.Sound e)
    (hs : s.Holds e b done) (hv : ChannelCodec.Holds e b v t x)
    (harray : t.array? = some (element, length)) (hitem : element.Scalar item)
    (hle : length ≤ maxListLength)
    (hfits : ∀ p ∈ (WireType.list item).packed t start s.allocated x, 0 < p.bits.width →
      p.stop ≤ s.size)
    (hapart : ((WireType.list item).packed t start s.allocated x ++ done).Pairwise Piece.Apart) :
    Builds e r [] (encode (.list item) start v s) b fun s' b' =>
      s'.Holds e b' ((WireType.list item).packed t start s.allocated x ++ done) ∧
        s'.size = s.size ∧ s'.allocated = s.allocated + 64 * wordsFor (item.bits * length) := by
  rw [WireType.packed_of_list harray] at hfits hapart ⊢
  rw [List.cons_append] at hapart ⊢
  obtain ⟨hpointer, hrest⟩ := List.pairwise_cons.mp hapart
  obtain ⟨hfit, hfits⟩ := List.forall_mem_cons.mp hfits
  -- The elements are encoded from the last to the first.
  have hreverse : ((List.range length).reverse.map
      (elementPiece item element s.allocated x) ++ done).Perm
      (elementPieces item element length s.allocated x ++ done) :=
    ((List.reverse_perm _).map _).append_right done
  refine .look (typeOf_eq hv.type) ?_
  refine .look (expect_eq harray _ b) ?_
  refine (rootSlice_builds hb hv harray).bind ?_
  rintro _ b₁ hg₁ ⟨index, rfl⟩
  have hon : (Slice.root index v length).On e b₁ element x := ⟨t, harray, hv.mono hg₁⟩
  refine (encode_elements_builds (s := (s.alloc (wordsFor (item.bits * length) * 64)).2) _
    hg₁.after ((hs.mono hg₁).alloc _) hon hitem (fun k hk => ?_) (Nat.le_trans hle (by decide))
    (fun k hk hbits => ?_) (hreverse.symm.pairwise hrest Piece.Apart.symm)).bind ?_
  · exact List.mem_range.mp (List.mem_reverse.mp hk)
  · have hfit := hfits _ (List.mem_map_of_mem (List.mem_reverse.mp hk))
    rw [elementPiece, Piece.stop, HwType.width_extended] at hfit
    exact hfit hbits
  · rintro s₂ b₂ hg₂ ⟨hs₂, hsize₂, halloc₂⟩
    refine pointer_builds hg₂.after fun pointer b₃ hg₃ hp => ?_
    have hpacked := listPointer_eq (wordsBetween start s.allocated) item.elementSize length
    rw [wordsBetween, ← Nat.sub_sub] at hpacked
    rw [hpacked] at hp
    have hs₃ := (hs₂.of_perm hreverse).mono hg₃
    refine (Segment.insert_builds (p := ⟨start, listPointer
      (wordsBetween start s.allocated % 2 ^ (30 : Nat)) item.elementSize length⟩)
      hg₃.after hs₃ hp (Nat.succ_pos 63) (Nat.le_refl 64) (Bits.ofNat_toNat _).symm ?_
      hpointer).mono ?_
    · rw [hsize₂]
      exact hfit (Nat.succ_pos 63)
    · rintro s₄ b₄ _ ⟨hs₄, hsize₄, halloc₄⟩
      refine ⟨hs₄, hsize₄.trans hsize₂, ?_⟩
      rw [halloc₄, halloc₂, Nat.mul_comm 64]
      rfl

/-- A field leaves its pieces, and takes the words of its list. -/
theorem encode_builds (hb : b.Sound e) (hs : s.Holds e b done)
    (hv : ChannelCodec.Holds e b v t x) (h : t.Carried wire)
    (hfits : ∀ p ∈ wire.packed t start s.allocated x, 0 < p.bits.width → p.stop ≤ s.size)
    (hapart : (wire.packed t start s.allocated x ++ done).Pairwise Piece.Apart) :
    Builds e r [] (encode wire start v s) b fun s' b' =>
      s'.Holds e b' (wire.packed t start s.allocated x ++ done) ∧ s'.size = s.size ∧
        s'.allocated = s.allocated + 64 * MessageSchema.payloadWords wire t := by
  cases h with
  | scalar h =>
    rw [WireType.packed_of_scalar h.element?_eq_none] at hfits hapart ⊢
    rw [List.singleton_append] at hapart ⊢
    have hfit := hfits _ List.mem_cons_self
    rw [Piece.stop, HwType.width_extended] at hfit
    rw [MessageSchema.payloadWords_of_scalar h.element?_eq_none]
    exact encode_scalar_builds hb hs hv h hfit (List.pairwise_cons.mp hapart).1
  | list harray hitem _ hle =>
    rw [MessageSchema.payloadWords_of_list harray]
    exact encode_list_builds hb hs hv harray hitem hle hfits hapart

/-- The reports of fields, each with the bits of the signal that holds its value. -/
def reported (node : StructNode) (entries : List ((NodeField × Field HwType) × Signal)) :
    List (FieldReport × Bits) :=
  entries.map (Prod.map (fun p => MessageSchema.fieldReport node p.1 p.2) (·.bits))

theorem encodeFields_builds {node : StructNode} {values : List Nat}
    {entries : List ((NodeField × Field HwType) × Signal)} (hb : b.Sound e)
    (hs : s.Holds e b done)
    (hentries : ∀ p ∈ entries, values[p.1.1.codeOrder]? = some p.2.value ∧ p.2.On e b ∧
      p.2.type = p.1.2.type ∧ p.1.2.type.Carried p.1.1.type)
    (hfits : ∀ p ∈ packedFields s.allocated (reported node entries), 0 < p.bits.width →
      p.stop ≤ s.size)
    (hapart : (packedFields s.allocated (reported node entries) ++ done).Pairwise Piece.Apart) :
    Builds e r [] (encodeFields MessageSchema.dataStart (MessageSchema.pointerStart node) values
      (entries.map (·.1.1)) s) b fun s' b' =>
        s'.Holds e b' (packedFields s.allocated (reported node entries) ++ done) ∧
          s'.size = s.size := by
  induction entries generalizing b s done with
  | nil => exact .pure hb ⟨hs, rfl⟩
  | cons p entries ih =>
    obtain ⟨⟨f, hw⟩, item⟩ := p
    have hentry := hentries _ List.mem_cons_self
    dsimp only at hentry
    obtain ⟨hvalue, hon, htype, hcarried⟩ := hentry
    let report := MessageSchema.fieldReport node f hw
    have hcons : reported node (((f, hw), item) :: entries) =
      (report, item.bits) :: reported node entries := rfl
    have hpieces : report.wireType.packed report.hwType report.messageOffset s.allocated
        item.bits = f.type.packed item.type ((if f.type.isPointer then
          MessageSchema.pointerStart node else MessageSchema.dataStart) + f.bitOffset)
          s.allocated item.bits := by
      rw [MessageSchema.messageOffset_fieldReport, htype]
      rfl
    have hwords : report.payloadWords = MessageSchema.payloadWords f.type item.type := by
      rw [htype]
      rfl
    rw [hcons, packedFields_cons] at hfits hapart ⊢
    -- Pieces come into the segment last first, while the report has them in field order.
    have hperm : ((report.wireType.packed report.hwType report.messageOffset s.allocated
        item.bits ++ packedFields (s.allocated + 64 * report.payloadWords)
          (reported node entries)) ++ done).Perm
        (packedFields (s.allocated + 64 * report.payloadWords) (reported node entries) ++
          (report.wireType.packed report.hwType report.messageOffset s.allocated item.bits ++
            done)) := by
      rw [List.append_assoc]
      exact List.perm_append_comm_assoc _ _ _
    have hrest := hperm.pairwise hapart Piece.Apart.symm
    rw [List.map_cons]
    refine .look (expect_eq hvalue _ b) ?_
    have hcarried : item.type.Carried f.type := htype ▸ hcarried
    refine (encode_builds hb hs hon hcarried ?_ ?_).bind fun s₁ b₁ hg₁ h₁ => ?_
    · rw [← hpieces]
      exact fun q hq => hfits q (List.mem_append_left _ hq)
    · rw [← hpieces]
      exact (List.pairwise_append.mp hrest).2.1
    · obtain ⟨hs₁, hsize₁, halloc₁⟩ := h₁
      rw [← hpieces] at hs₁
      rw [← hwords] at halloc₁
      refine (ih hg₁.after hs₁ (fun q hq => ?_) ?_ ?_).mono ?_
      · obtain ⟨hvalue, hon, hrest⟩ := hentries q (List.mem_cons_of_mem _ hq)
        exact ⟨hvalue, hon.mono hg₁, hrest⟩
      · rw [halloc₁, hsize₁]
        exact fun q hq => hfits q (List.mem_append_right _ hq)
      · rw [halloc₁]
        exact hrest
      · rintro s₂ b₂ _ ⟨hs₂, hsize₂⟩
        rw [halloc₁] at hs₂
        exact ⟨hs₂.of_perm hperm.symm, hsize₂.trans hsize₁⟩

theorem encodeStruct_builds {node : StructNode} {values : List Nat}
    {entries : List ((NodeField × Field HwType) × Signal)} (hb : b.Sound e)
    (hs : s.Holds e b []) (hstart : s.allocated = 64)
    (hnode : entries.map (·.1.1) = node.fields)
    (hentries : ∀ p ∈ entries, values[p.1.1.codeOrder]? = some p.2.value ∧ p.2.On e b ∧
      p.2.type = p.1.2.type ∧ p.1.2.type.Carried p.1.1.type)
    {stop : Nat} (hstop : stop = 64 + (node.dataWords + node.pointers) * 64)
    (hfits : ∀ p ∈ packedFields stop (reported node entries), 0 < p.bits.width → p.stop ≤ s.size)
    (hapart : (packedFields stop (reported node entries)).Pairwise Piece.Apart) :
    Builds e r [] (encodeStruct 0 node values s) b fun p b' =>
      ChannelCodec.Holds e b' p.1 (.bitArray 64)
        (structPointer (if node.isEmpty then emptyStructOffset else 0)
          (node.dataWords % 2 ^ (16 : Nat)) (node.pointers % 2 ^ (16 : Nat))) ∧
        p.2.Holds e b' (packedFields stop (reported node entries)) ∧ p.2.size = s.size := by
  have halloc : s.alloc ((node.dataWords + node.pointers) * 64) =
      (64, { s with allocated := stop }) := by
    rw [Segment.alloc, hstart, hstop]
  have hoffset : (if node.isEmpty then emptyStructOffset else (64 - 0) / 64 - 1) <
      2 ^ (30 : Nat) := by
    split <;> decide
  have hs' := hs.alloc ((node.dataWords + node.pointers) * 64)
  rw [halloc] at hs'
  unfold encodeStruct
  rw [halloc]
  dsimp only
  refine pointer_builds hb fun pointer b₁ hg₁ hp => ?_
  rw [structPointer_eq hoffset] at hp
  rw [← hnode]
  refine (encodeFields_builds hg₁.after (hs'.mono hg₁)
    (fun p hp => ?_) hfits ?_).bind ?_
  · obtain ⟨hvalue, hon, hrest⟩ := hentries p hp
    exact ⟨hvalue, hon.mono hg₁, hrest⟩
  · rw [List.append_nil]
    exact hapart
  · rintro s₂ b₂ hg₂ ⟨hs₂, hsize₂⟩
    rw [List.append_nil] at hs₂
    refine (labeled_builds hg₂.after (hp.mono hg₂) "structPointer").bind fun v b₃ hg₃ hv => ?_
    subst hv
    exact .pure hg₃.after ⟨hp.mono (hg₂.trans hg₃), hs₂.mono hg₃, hsize₂⟩

def rootPointer (r : MessageReport) : Bits :=
  structPointer r.rootOffset (r.dataWords % 2 ^ (16 : Nat)) (r.pointers % 2 ^ (16 : Nat))

theorem entry_of_slots {m : MessageSchema} (h : m.checkSupported = .ok ()) {items : List Signal}
    (hon : ∀ s ∈ items, s.On e b) (htypes : items.map (·.type) = m.fields.map (·.type)) :
    ∀ p ∈ m.slots.zip items, (items.map (·.value))[p.1.1.codeOrder]? = some p.2.value ∧
      p.2.On e b ∧ p.2.type = p.1.2.type ∧ p.1.2.type.Carried p.1.1.type := by
  intro p hp
  obtain ⟨k, hk⟩ := List.mem_iff_getElem?.mp hp
  obtain ⟨hslot, hitem⟩ := List.getElem?_zip_eq_some.mp hk
  obtain ⟨hfield, horder, _⟩ := MessageSchema.getElem?_slots hslot
  have htype := congrArg (·[k]?) htypes
  rw [List.getElem?_map, List.getElem?_map, hitem, hfield] at htype
  refine ⟨?_, hon _ (List.mem_of_getElem? hitem), Option.some.inj htype,
    MessageSchema.carried_slot h (List.mem_of_getElem? hslot)⟩
  rw [horder, List.getElem?_map, hitem]
  rfl

theorem encodeMessage_builds {m : MessageSchema} (h : m.checkSupported = .ok ())
    {items : List Signal} (hb : b.Sound e) (hon : ∀ s ∈ items, s.On e b)
    (htypes : items.map (·.type) = m.fields.map (·.type)) :
    Builds e r [] (encodeMessage m.layout.size m.source.compiled (items.map (·.value))) b
      fun v b' => ∃ x, ChannelCodec.Holds e b' v (.bitArray m.layout.size) x ∧
        x.Shows (⟨0, rootPointer m.layout⟩ ::
          packedFields m.layout.structEnd (m.layout.fields.zip (items.map (·.bits)))) := by
  let entries := m.slots.zip items
  have hlength : items.length = m.fields.length := by
    rw [← List.length_map (f := fun s : Signal => s.type), htypes, List.length_map]
  have hvalues : (items.map (·.bits)).length = m.fields.length := by
    rw [List.length_map, hlength]
  have hreported : reported m.source.compiled entries =
      m.layout.fields.zip (items.map (·.bits)) := by
    rw [reported, MessageSchema.layout, List.zip_map]
  have hnode : entries.map (·.1.1) = m.source.compiled.fields := by
    have hfst : entries.map (·.1) = m.slots :=
      List.map_fst_zip (Nat.le_of_eq (m.length_slots.trans hlength.symm))
    rw [← m.map_fst_slots, ← hfst, List.map_map]
    rfl
  have hroot : (rootPointer m.layout).width = 64 := rfl
  -- That the pieces are apart depends on their places only, so distances may be cut.
  have hcover := MessageSchema.coverage_message h hroot hvalues
  rw [List.map_cons, ← span_packedFields, ← List.map_cons] at hcover
  have hpairwise := List.pairwise_cons.mp (Piece.pairwise_apart hcover)
  have hstop := fun p => Piece.stop_le hcover (p := p)
  rw [← hreported] at hpairwise hstop ⊢
  unfold encodeMessage
  dsimp only [Segment.alloc]
  rw [Nat.zero_add]
  have hfresh := Segment.holds_fresh e b m.layout.size 64
  refine (encodeStruct_builds hb hfresh rfl hnode (entry_of_slots h hon htypes) m.structEnd_layout
    (fun p hp => hstop p (List.mem_cons_of_mem _ hp)) hpairwise.2).bind
    ?_
  rintro p b₁ hg₁ ⟨hpointer, hs₁, hsize₁⟩
  rw [← m.rootOffset_layout] at hpointer
  refine Builds.bind (Segment.insert_builds (p := ⟨0, rootPointer m.layout⟩) hg₁.after hs₁
    hpointer (Nat.succ_pos 63) (Nat.le_refl 64) (Bits.ofNat_toNat _).symm ?_ hpairwise.1) ?_
  · rw [hsize₁]
    exact hstop _ List.mem_cons_self (Nat.succ_pos 63)
  · rintro s₂ b₂ hg₂ ⟨hs₂, hsize₂, _⟩
    have hpos : 0 < m.layout.size := by
      rw [MessageSchema.size_layout]
      omega
    have hsize := hsize₂.trans hsize₁
    have hfinish := s₂.finish_builds (r := r) hg₂.after hs₂ (hsize ▸ hpos)
    rw [hsize] at hfinish
    exact hfinish

theorem structFields_builds (hb : b.Sound e) (hv : ChannelCodec.Holds e b v t x)
    (before : List (Field HwType)) {fields : List (Field HwType)}
    (ht : t.struct? = some (before ++ fields)) (hn : ((before ++ fields).map (·.name)).Nodup) :
    Builds e r [] (fields.mapM fun f => do
        let field ← structExtract v f.name
        labeled field f.name) b fun vs b' =>
      ∃ items : List Signal, vs = items.map (·.value) ∧ (∀ s ∈ items, s.On e b') ∧
        items.map (·.type) = fields.map (·.type) ∧
        items.map (·.bits) = HwType.unpacked fields x := by
  induction fields generalizing b before with
  | nil => exact .pure hb ⟨[], rfl, by simp, rfl, rfl⟩
  | cons f fields ih =>
    have hget : (before ++ f :: fields)[before.length]? = some f := by
      rw [List.getElem?_append_right (Nat.le_refl _), Nat.sub_self]
      rfl
    have hdrop : (before ++ f :: fields).drop (before.length + 1) = fields := by
      rw [List.drop_length_add_append]
      rfl
    have hplace : t.fieldPlace? f.name = some (HwType.fieldsWidth fields, f.type) := by
      rw [HwType.fieldPlace?, ht, Option.bind_some, HwType.placeOf?_of_nodup hn hget, hdrop]
    rw [List.mapM_cons]
    refine Builds.bind (?_ : Builds e r [] _ b fun v' b' => ChannelCodec.Holds e b' v' f.type
      (x.slice (HwType.fieldsWidth fields) f.type.bitWidth)) fun v' b₁ hg₁ hv' => ?_
    · refine (structExtract_builds hb hv hplace).bind fun field b₁ hg₁ hfield => ?_
      refine (labeled_builds hg₁.after hfield f.name).mono fun v' b₂ hg₂ he => ?_
      rw [he]
      exact hfield.mono hg₂
    · have hsplit : before ++ f :: fields = (before ++ [f]) ++ fields := by
        rw [List.append_assoc]
        rfl
      refine (ih hg₁.after (hv.mono hg₁) (before ++ [f]) (hsplit ▸ ht) (hsplit ▸ hn)).bind
        ?_
      rintro vs b₂ hg₂ ⟨items, hvs, hon, htypes, hbits⟩
      refine .pure hg₂.after ⟨⟨v', f.type, x.slice (HwType.fieldsWidth fields) f.type.bitWidth⟩ ::
        items, ?_, ?_, ?_, ?_⟩
      · rw [hvs, List.map_cons]
      · rw [List.forall_mem_cons]
        exact ⟨hv'.mono hg₂, hon⟩
      · rw [List.map_cons, List.map_cons, htypes]
      · rw [List.map_cons, HwType.unpacked, hbits]

theorem fieldValues_builds {m : MessageSchema} (h : m.checkSupported = .ok ())
    (hn : (m.fields.map (·.name)).Nodup) (hb : b.Sound e)
    (hv : ChannelCodec.Holds e b v m.type x) :
    Builds e r [] (fieldValues m.type v) b fun vs b' =>
      ∃ items : List Signal, vs = items.map (·.value) ∧ (∀ s ∈ items, s.On e b') ∧
        items.map (·.type) = m.fields.map (·.type) ∧
        items.map (·.bits) = HwType.unpacked m.fields x := by
  unfold fieldValues
  cases hs : m.type.struct? with
  | some fields =>
    have hfields := MessageSchema.fields_of_struct? hs
    rw [hfields] at hn ⊢
    exact structFields_builds hb hv [] hs hn
  | none =>
    obtain ⟨name, hfields⟩ := MessageSchema.fields_of_struct?_eq_none h hs
    refine .pure hb ⟨[⟨v, m.type, x⟩], rfl, ?_, ?_, ?_⟩
    · rintro _ (_ | ⟨_, ⟨⟩⟩)
      exact hv
    · rw [hfields]
      rfl
    · rw [hfields, HwType.unpacked, HwType.unpacked, ← hv.width]
      exact congrArg (fun y => [y]) x.slice_self.symm

end Encoder
end ChannelCodec
