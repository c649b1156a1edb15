import ChannelCodec.Proofs.Gasket.Decoding

/-! The frame of a message: its root pointer, which is checked, and the two sections of its
struct, which are cut out. -/
namespace ChannelCodec
namespace Decoder
open Build

variable {e : Setting} {r : Nat} {b : Builder} {message : Slice} {m : Bits}

/-- `o` is the part of `words` words from bit `low` of the message on, unless it has no words. -/
def Cut (e : Setting) (b : Builder) (message : Slice) (m : Bits) (low words : Nat)
    (o : Option Slice) : Prop :=
  0 < words → ∃ index array, o = some (.part index array (words * 64) message (some low)) ∧
    (Slice.part index array (words * 64) message (some low)).On e b .bit
      (m.slice (low % 2 ^ (64 : Nat)) (words * 64))

theorem Cut.mono {messages : List String} {b' : Builder} {low words : Nat} {o : Option Slice}
    (h : Cut e b message m low words o) (hg : Grows e r messages b b') :
    Cut e b' message m low words o := by
  intro hpos
  obtain ⟨index, array, ho, hon⟩ := h hpos
  exact ⟨index, array, ho, hon.mono hg⟩

theorem cutSection_builds (hb : b.Sound e) (hm : message.On e b .bit m) (low words : Nat)
    (hle : low + words * 64 ≤ message.size) (name : String) :
    Builds e r [] (cutSection message low words name) b fun o b' =>
      Cut e b' message m low words o := by
  unfold cutSection
  by_cases hzero : words = 0
  · rw [if_pos hzero]
    exact .pure hb fun hpos => absurd hzero (Nat.ne_of_gt hpos)
  · rw [if_neg hzero]
    refine (slice_bits_builds hb hm _ _ hle).bind ?_
    rintro s b₁ hg₁ ⟨⟨index, array, hs⟩, _, hbits⟩
    subst hs
    have hon := on_bitArray hbits index message (some low)
    refine (labeledSlice_builds hg₁.after hon name).bind fun s b₂ hg₂ hs => ?_
    subst hs
    exact .pure hg₂.after fun _ => ⟨index, array, rfl, hon.mono hg₂⟩

theorem sections_on {checks : Checks} {clock valid edge : Nat} {node : StructNode}
    {data pointers : Option Slice} (hready : checks.Ready b clock valid edge)
    (hblock : b.block = .body) (hm : message.On e b .bit m) (hroot : message.origin = message)
    (hstart : message.offset? = some 0)
    (hdata : Cut e b message m MessageSchema.dataStart node.dataWords data)
    (hpointers : Cut e b message m (MessageSchema.pointerStart node) node.pointers pointers) :
    Frame.On e b { checks, data, pointers } clock valid edge node m
      (m.slice (MessageSchema.dataStart % 2 ^ (64 : Nat)) (node.dataWords * 64))
      (m.slice (MessageSchema.pointerStart node % 2 ^ (64 : Nat)) (node.pointers * 64)) := by
  refine ⟨hready, hblock, fun hpos => ?_, fun hpos => ?_⟩
  · obtain ⟨index, array, hs, hon⟩ := hdata hpos
    exact ⟨_, hs, rfl, hon⟩
  · obtain ⟨index, array, hs, hon⟩ := hpointers hpos
    refine ⟨_, hs, rfl, hon, ?_, ?_, ?_⟩
    · rw [Slice.offset?, hstart]
      rfl
    · rw [Slice.origin, hroot]
      exact hm
    · rw [Slice.origin, hroot, hm.width, HwType.bitWidth_bit, Nat.one_mul]

theorem checkRoot_builds {schema : MessageSchema} {checks : Checks} {clock valid edge : Nat}
    (hb : b.Sound e) (hready : checks.Ready b clock valid edge) (hblock : b.block = .body)
    (hm : message.On e b .bit m) (hsize : 64 ≤ message.size) :
    Builds e checks.region (schema.layout.rootComplaints m)
      (checkRoot checks message schema.source.compiled) b fun _ _ => True := by
  have hfound : (schema.layout.rootOffset * 4 + PointerKind.struct.tag) % 2 ^ (32 : Nat) =
      schema.layout.rootOffset * 4 + PointerKind.struct.tag := by
    rw [MessageReport.rootOffset]
    split <;> rfl
  -- All parts are cut out of the first word, so they are parts of the message.
  have hpart : ∀ low size, low + size ≤ 64 → low % 2 ^ (64 : Nat) = low →
      (m.slice (0 % 2 ^ (64 : Nat)) 64).slice (low % 2 ^ (64 : Nat)) size = m.slice low size := by
    intro low size hle hlow
    rw [hlow, Nat.zero_mod, Bits.slice_slice _ hle, Nat.zero_add]
  unfold checkRoot
  rw [MessageReport.rootComplaints, List.append_assoc, ← schema.rootOffset_layout]
  refine (slice_bits_builds hb hm 0 64 (by omega)).bind
    ?_
  rintro pointer b₁ hg₁ ⟨⟨index, array, hp⟩, _, hword⟩
  subst hp
  have hon := on_bitArray hword index message (some 0)
  refine (label_builds hg₁.after hword _).bind fun _ b₂ hg₂ _ => ?_
  have hon₂ := hon.mono hg₂
  refine (slice_bits_builds hg₂.after hon₂ 0 32 (by simp [Slice.size])).bind
    ?_
  rintro half b₃ hg₃ ⟨_, _, hhalf⟩
  rw [hpart 0 32 (by decide) rfl] at hhalf
  refine (label_builds hg₃.after hhalf _).bind fun _ b₄ hg₄ _ => ?_
  have hg₁₄ := hg₁.trans (hg₂.trans (hg₃.trans hg₄))
  refine (requireEq_builds (hready.mono hg₁₄) hg₄.after (hg₁₄.block.trans hblock) rfl
    (hhalf.mono hg₄) (HwType.bitWidth_bitArray 32) hfound _).andThen fun _ b₅ hg₅ _ => ?_
  have hon₅ := hon₂.mono (hg₃.trans (hg₄.trans hg₅))
  refine (cutInteger_builds hg₅.after hon₅ 32 16 (by simp [Slice.size]) _).bind
    fun dataWords b₆ hg₆ hdata => ?_
  rw [hpart 32 16 (by decide) rfl] at hdata
  have hg₁₆ := hg₁₄.trans (hg₅.trans hg₆)
  refine (requireEq_builds (hready.mono hg₁₆) hg₆.after (hg₁₆.block.trans hblock) rfl hdata rfl
    rfl _).andThen fun _ b₇ hg₇ _ => ?_
  have hon₇ := hon₅.mono (hg₆.trans hg₇)
  refine (cutInteger_builds hg₇.after hon₇ 48 16 (by simp [Slice.size]) _).bind
    fun pointers b₈ hg₈ hpointers => ?_
  rw [hpart 48 16 (by decide) rfl] at hpointers
  have hg₁₈ := hg₁₆.trans (hg₇.trans hg₈)
  exact requireEq_builds (hready.mono hg₁₈) hg₈.after (hg₁₈.block.trans hblock) rfl hpointers rfl
    rfl _

theorem assemble_builds {schema : MessageSchema} (h : schema.checkSupported = .ok ())
    {items : List Signal} (hb : b.Sound e) (hon : ∀ i ∈ items, i.On e b)
    (htypes : items.map (·.type) = schema.fields.map (·.type)) :
    Builds e r [] (match schema.type.struct?, items.map (·.value) with
      | some _, values => structCreate schema.type values
      | none, value :: _ => cast value schema.type
      | none, [] => misuse .fieldCount) b fun v b' =>
        Holds e b' v schema.type (.concat (items.map (·.bits))) := by
  cases hs : schema.type.struct? with
  | some fields =>
    rw [MessageSchema.fields_of_struct? hs] at htypes
    exact structCreate_builds hb hs hon htypes.symm
  | none =>
    obtain ⟨name, hfields⟩ := MessageSchema.fields_of_struct?_eq_none h hs
    rw [hfields] at htypes
    obtain ⟨i, rfl⟩ : ∃ i, items = [i] := by
      rw [← List.length_eq_one_iff, ← List.length_map (f := fun i : Signal => i.type), htypes]
      rfl
    have htype : i.type = schema.type := List.head_eq_of_cons_eq htypes
    have hi := hon i List.mem_cons_self
    have hbits : Bits.concat [i.bits] = i.bits := by
      rw [Bits.concat_cons, Bits.concat_nil, Bits.append_zero]
    rw [List.map_singleton, List.map_singleton, hbits]
    exact cast_builds hb hi (congrArg HwType.bitWidth htype)

end Decoder
end ChannelCodec
