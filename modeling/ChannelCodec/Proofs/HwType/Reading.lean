import ChannelCodec.HwType.Reader
import ChannelCodec.Proofs.Text.Outcomes

/-! The types that texts write. Their names are identifiers, no struct repeats a field name, and
no struct has more fields than the text has characters. -/
namespace ChannelCodec

private theorem isTypeIdentifier_of_chars {word : List Char} (hne : word ≠ [])
    (h : ∀ c ∈ word, isIdentifierChar c = true)
    (hdigit : startsWith Char.isDigit (String.ofList word) = false) :
    isTypeIdentifier (String.ofList word) = true := by
  obtain ⟨c, rest, rfl⟩ := List.exists_cons_of_ne_nil hne
  have hc := h c List.mem_cons_self
  simp only [startsWith, String.toList_ofList] at hdigit
  simp only [isIdentifierChar, hdigit, Bool.or_false] at hc
  simp only [isTypeIdentifier, String.toList_ofList, Bool.and_eq_true, List.all_eq_true]
  exact ⟨hc, fun d hd => h d (List.mem_cons_of_mem c hd)⟩

namespace HwType

mutual
/-- All names are identifiers, and every struct has distinct field names, `bound` of them at
most. -/
def WellNamed (bound : Nat) : HwType → Prop
  | .int .. => True
  | .array _ element => element.WellNamed bound
  | .struct fields =>
    (fields.map (·.name)).Nodup ∧ fields.length ≤ bound ∧ FieldsWellNamed bound fields
  | .named name target => isTypeIdentifier name = true ∧ target.WellNamed bound
  | .channel payload => payload.WellNamed bound
def FieldsWellNamed (bound : Nat) : List (Field HwType) → Prop
  | [] => True
  | ⟨name, type⟩ :: fields =>
    (isTypeIdentifier name = true ∧ type.WellNamed bound) ∧ FieldsWellNamed bound fields
end

variable {bound : Nat} {t : HwType}

theorem fieldsWellNamed_iff {fields : List (Field HwType)} :
    FieldsWellNamed bound fields ↔
      ∀ f ∈ fields, isTypeIdentifier f.name = true ∧ f.type.WellNamed bound := by
  induction fields with
  | nil => simp [FieldsWellNamed]
  | cons f fields ih => simp [FieldsWellNamed, ih]

theorem WellNamed.canonical (h : t.WellNamed bound) : t.canonical.WellNamed bound := by
  induction t using HwType.induct with
  | named name t ih => exact ih h.2
  | _ => exact h

theorem WellNamed.unwrapped (h : t.WellNamed bound) : t.unwrapped.WellNamed bound := by
  cases t <;> exact h

/-- `P` holds of every type with the numbers and names that a text can give it, and with `bound`
fields in a struct at most, if it holds of the types inside. -/
structure BuiltUp (bound : Nat) (P : HwType → Prop) : Prop where
  int : ∀ sign width, width < 2 ^ (64 : Nat) → P (.int sign width)
  array : ∀ size element, size < 2 ^ (64 : Nat) → P element → P (.array size element)
  struct : ∀ fields, (fields.map (·.name)).Nodup → fields.length ≤ bound →
    (∀ f ∈ fields, isTypeIdentifier f.name = true ∧ P f.type) → P (.struct fields)
  named : ∀ name target, isTypeIdentifier name = true → P target → P (.named name target)
  channel : ∀ payload, P payload → P (.channel payload)

private theorem builtUp_wellNamed (bound : Nat) : BuiltUp bound (WellNamed bound) where
  int _ _ _ := trivial
  array _ _ _ h := h
  struct _ hnames hlength h := ⟨hnames, hlength, fieldsWellNamed_iff.mpr h⟩
  named _ _ hname h := ⟨hname, h⟩
  channel _ h := h

variable {P : HwType → Prop}

namespace Reader
open Scanner

theorem spaces_yields : Yields spaces fun _ => True :=
  .after ((Yields.many _).mono fun _ _ => trivial) fun _ => .pure trivial

theorem symbol_yields (word : String) : Yields (symbol word) fun _ => True :=
  .after spaces_yields fun _ => .literal word

theorem acceptSymbol_yields (word : String) : Yields (acceptSymbol word) fun _ => True :=
  .after spaces_yields fun _ => .accept word

theorem number_yields : Yields number fun n => n < 2 ^ (64 : Nat) := by
  refine .after .rest fun place => ?_
  refine .after ((Yields.many1 _).mono fun _ _ => trivial) fun digits => ?_
  refine .branch (fun _ => ?_) fun h => ?_
  · exact .bind (.note place _ fun _ => False) fun _ => .pure fun h => h.elim
  · exact .pure (Nat.lt_of_not_le h)

theorem name_yields : Yields name fun word => isTypeIdentifier word = true := by
  refine .after spaces_yields fun _ => .bind (.many1 _) fun word => ?_
  refine .branch (fun _ => ?_) fun hdigit => ?_
  · exact .bind (P := fun _ => False) .failure fun _ => .pure fun h => h.elim
  · exact .pure fun h => isTypeIdentifier_of_chars h.1 h.2 (by simpa using hdigit)

theorem type_and_fields_yield (hP : BuiltUp bound P) (parts : Nat) (hle : parts ≤ bound + 1) :
    Yields (type parts) P ∧
      Yields (fields parts) fun fields => fields.length ≤ parts ∧
        ∀ f ∈ fields, isTypeIdentifier f.name = true ∧ P f.type := by
  induction parts with
  | zero => exact ⟨.failure, .failure⟩
  | succ parts ih =>
    obtain ⟨htype, hfields⟩ := ih (by omega)
    have hnumber : ∀ s, Yields (do return HwType.int s (← number)) P :=
      fun s => .bind number_yields fun n => .pure (hP.int s n)
    constructor
    · rw [type]
      refine .after spaces_yields fun _ => .after .rest fun place => ?_
      refine .after (.accept _) fun isArray => .branch (fun _ => ?_) fun _ => ?_
      · refine .after (symbol_yields _) fun _ => .after spaces_yields fun _ => ?_
        refine .bind number_yields fun size => .after (symbol_yields _) fun _ => ?_
        refine .bind htype fun element => .after (symbol_yields _) fun _ => ?_
        exact .pure fun helement hsize => hP.array size element hsize helement
      refine .after (.accept _) fun isStruct => .branch (fun _ => ?_) fun _ => ?_
      · refine .after (symbol_yields _) fun _ => ?_
        refine .after (acceptSymbol_yields _) fun isEmpty => .branch (fun _ => ?_) fun _ => ?_
        · exact .pure (hP.struct [] List.nodup_nil (Nat.zero_le _) (by simp))
        · refine .bind hfields fun fields => .after (symbol_yields _) fun _ => ?_
          cases hrep : firstRepeated (fields.map (·.name)) with
          | some twice =>
            exact .bind (.note place _ fun _ => False) fun _ => .pure fun h => h.elim
          | none =>
            exact .pure fun h => hP.struct fields (firstRepeated_eq_none.mp hrep) (by omega) h.2
      refine .after (.accept _) fun isAlias => .branch (fun _ => ?_) fun _ => ?_
      · refine .after (symbol_yields _) fun _ => .after (symbol_yields _) fun _ => ?_
        refine .bind name_yields fun name => .after (symbol_yields _) fun _ => ?_
        refine .bind htype fun target => .after (symbol_yields _) fun _ => ?_
        exact .pure fun htarget hname => hP.named name target hname htarget
      refine .after (.accept _) fun isChannel => .branch (fun _ => ?_) fun _ => ?_
      · refine .after (symbol_yields _) fun _ => .bind htype fun payload => ?_
        exact .after (symbol_yields _) fun _ => .pure (hP.channel payload)
      refine .after (.accept _) fun isSigned => .branch (fun _ => hnumber _) fun _ => ?_
      refine .after (.accept _) fun isUnsigned => .branch (fun _ => hnumber _) fun _ => ?_
      exact .after (.literal _) fun _ => hnumber _
    · rw [fields]
      refine .bind name_yields fun name => .after (symbol_yields _) fun _ => ?_
      refine .bind htype fun type => .after (acceptSymbol_yields _) fun more => ?_
      refine .branch (fun _ => .bind hfields fun fields => .pure ?_) fun _ => .pure ?_
      · exact fun h htype hname =>
          ⟨Nat.succ_le_succ h.1, List.forall_mem_cons.mpr ⟨⟨hname, htype⟩, h.2⟩⟩
      · exact fun htype hname => ⟨by simp, List.forall_mem_singleton.mpr ⟨hname, htype⟩⟩

end Reader

theorem length_le_utf8ByteSize (text : String) : text.toList.length ≤ text.utf8ByteSize := by
  have hchars : ∀ cs : List Char, cs.length ≤ (String.ofList cs).utf8ByteSize := by
    intro cs
    induction cs with
    | nil => exact Nat.zero_le _
    | cons c cs ih =>
      have hpos := c.utf8Size_pos
      rw [← List.singleton_append, String.ofList_append, String.utf8ByteSize_append,
        List.length_append, ← String.singleton_eq_ofList, String.utf8ByteSize_singleton]
      simp only [List.length_cons, List.length_nil]
      omega
  have h := hchars text.toList
  rwa [String.ofList_toList] at h

private theorem read_of_parse {text : String} (h : parse text = .ok t) : read text = .ok t := by
  unfold parse at h
  cases hread : read text with
  | error why => rw [hread] at h; cases h
  | ok t' => rw [hread] at h; cases h; rfl

theorem BuiltUp.of_parse {text : String} (hP : BuiltUp text.toList.length P)
    (h : parse text = .ok t) : P t := by
  refine Scanner.Yields.of_read ?_ (read_of_parse h)
  refine .bind (Reader.type_and_fields_yield hP _ (Nat.le_refl _)).1 fun t => ?_
  exact .after Reader.spaces_yields fun _ => .pure id

/-- The type is written by a text, whose length in bytes is a number of 64 bits. -/
def Written (t : HwType) : Prop :=
  ∃ text : String, text.utf8ByteSize < 2 ^ (64 : Nat) ∧ parse text = .ok t

theorem Written.wellNamed (h : t.Written) : ∃ bound < 2 ^ (64 : Nat), t.WellNamed bound := by
  obtain ⟨text, hsize, hparse⟩ := h
  refine ⟨text.toList.length, ?_, (builtUp_wellNamed _).of_parse hparse⟩
  exact Nat.lt_of_le_of_lt (length_le_utf8ByteSize text) hsize

end HwType
end ChannelCodec
