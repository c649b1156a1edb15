import ChannelCodec.Proofs.HwType.Reading
import ChannelCodec.Proofs.Message.Naming
import ChannelCodec.Proofs.Schema.Fingerprint
import ChannelCodec.Proofs.Text.Reads
import Mathlib.Data.List.Basic

/-! Types and their texts. A type can be written down exactly when its names are identifiers and no
struct in it repeats a field name; its own text is then one that writes it, so that no two such
types share a text. -/
namespace ChannelCodec
namespace HwType

mutual
def parts : HwType → List HwType
  | .int sign width => [.int sign width]
  | .array size element => .array size element :: element.parts
  | .struct fields => .struct fields :: fieldParts fields
  | .named name target => .named name target :: target.parts
  | .channel payload => .channel payload :: payload.parts
def fieldParts : List (Field HwType) → List HwType
  | [] => []
  | ⟨_, type⟩ :: fields => type.parts ++ fieldParts fields
end

/-- The number at the top of a type, if there is one, has 64 bits. -/
def NumberFits : HwType → Prop
  | .int _ width => width < 2 ^ (64 : Nat)
  | .array size _ => size < 2 ^ (64 : Nat)
  | _ => True

def NamesFit : HwType → Prop
  | .struct fields =>
    (fields.map (·.name)).Nodup ∧ ∀ f ∈ fields, isTypeIdentifier f.name = true
  | .named name _ => isTypeIdentifier name = true
  | _ => True

/-- All numbers in a type have 64 bits, and all its names are as they should be. -/
structure Legible (t : HwType) : Prop where
  numbers : ∀ u ∈ t.parts, u.NumberFits
  names : ∀ u ∈ t.parts, u.NamesFit

variable {t u : HwType}

theorem legible_iff : t.Legible ↔ ∀ u ∈ t.parts, u.NumberFits ∧ u.NamesFit :=
  ⟨fun h u hu => ⟨h.numbers u hu, h.names u hu⟩, fun h =>
    ⟨fun u hu => (h u hu).1, fun u hu => (h u hu).2⟩⟩

private theorem mem_fieldParts {fields : List (Field HwType)} :
    u ∈ fieldParts fields ↔ ∃ f ∈ fields, u ∈ f.type.parts := by
  induction fields with
  | nil => simp [fieldParts]
  | cons f fields ih => simp [fieldParts, ih]

theorem legible_int {sign : Signedness} {width : Nat} :
    (int sign width).Legible ↔ width < 2 ^ (64 : Nat) := by
  simp [legible_iff, parts, NumberFits, NamesFit]

theorem legible_array {size : Nat} {element : HwType} :
    (array size element).Legible ↔ size < 2 ^ (64 : Nat) ∧ element.Legible := by
  simp [legible_iff, parts, NumberFits, NamesFit]

theorem legible_struct {fields : List (Field HwType)} :
    (struct fields).Legible ↔ (fields.map (·.name)).Nodup ∧
      ∀ f ∈ fields, isTypeIdentifier f.name = true ∧ f.type.Legible := by
  simp only [legible_iff, parts, List.forall_mem_cons, NumberFits, NamesFit, mem_fieldParts]
  constructor
  · rintro ⟨⟨-, hnodup, hnames⟩, hinside⟩
    exact ⟨hnodup, fun f hf => ⟨hnames f hf, fun u hu => hinside u ⟨f, hf, hu⟩⟩⟩
  · rintro ⟨hnodup, hfields⟩
    refine ⟨⟨trivial, hnodup, fun f hf => (hfields f hf).1⟩, ?_⟩
    rintro u ⟨f, hf, hu⟩
    exact (hfields f hf).2 u hu

theorem legible_named {name : String} {target : HwType} :
    (named name target).Legible ↔ isTypeIdentifier name = true ∧ target.Legible := by
  simp [legible_iff, parts, NumberFits, NamesFit]

theorem legible_channel {payload : HwType} : (channel payload).Legible ↔ payload.Legible := by
  simp [legible_iff, parts, NumberFits, NamesFit]

private theorem builtUp_legible (bound : Nat) : BuiltUp bound Legible where
  int _ _ h := legible_int.mpr h
  array _ _ hsize h := legible_array.mpr ⟨hsize, h⟩
  struct _ hnames _ h := legible_struct.mpr ⟨hnames, h⟩
  named _ _ hname h := legible_named.mpr ⟨hname, h⟩
  channel _ h := legible_channel.mpr h

theorem text_int (sign : Signedness) (width : Nat) (rest : List Char) :
    (int sign width).text.toList ++ rest =
      sign.text.toList ++ ((toString width).toList ++ rest) := by
  have h : (int sign width).text = sign.text ++ toString width := rfl
  rw [h, String.toList_append, List.append_assoc]

theorem text_array (size : Nat) (element : HwType) (rest : List Char) :
    (array size element).text.toList ++ rest = "!hw.array".toList ++ '<' ::
      ((toString size).toList ++ 'x' :: (element.text.toList ++ '>' :: rest)) := by
  have h : (array size element).text =
    "!hw.array<" ++ toString size ++ "x" ++ element.text ++ ">" := rfl
  simp [h]

theorem text_struct (fields : List (Field HwType)) (rest : List Char) :
    (struct fields).text.toList ++ rest = "!hw.struct".toList ++ '<' ::
      ((", ".intercalate (fieldTexts fields)).toList ++ '>' :: rest) := by
  have h : (struct fields).text =
    "!hw.struct<" ++ ", ".intercalate (fieldTexts fields) ++ ">" := rfl
  rw [h]
  simp only [String.toList_append, List.append_assoc]
  rfl

theorem text_named (name : String) (target : HwType) (rest : List Char) :
    (named name target).text.toList ++ rest = "!hw.typealias".toList ++ '<' :: '@' ::
      (name.toList ++ ',' :: ' ' :: (target.text.toList ++ '>' :: rest)) := by
  have h : (named name target).text = "!hw.typealias<@" ++ name ++ ", " ++ target.text ++ ">" := rfl
  simp [h]

theorem text_channel (payload : HwType) (rest : List Char) :
    (channel payload).text.toList ++ rest = "!esi.channel".toList ++ '<' ::
      (payload.text.toList ++ '>' :: rest) := by
  have h : (channel payload).text = "!esi.channel<" ++ payload.text ++ ">" := rfl
  simp [h]

/-! The texts of the parts are shorter than the text of the whole. -/

private theorem length_text_array (size : Nat) (element : HwType) :
    element.text.toList.length < (array size element).text.toList.length := by
  rw [← List.append_nil (array size element).text.toList, text_array]
  simp only [List.length_append, List.length_cons]
  omega

private theorem length_text_struct (fields : List (Field HwType)) :
    (", ".intercalate (fieldTexts fields)).toList.length < (struct fields).text.toList.length := by
  rw [← List.append_nil (struct fields).text.toList, text_struct]
  simp only [List.length_append, List.length_cons]
  omega

private theorem length_text_named (name : String) (target : HwType) :
    target.text.toList.length < (named name target).text.toList.length := by
  rw [← List.append_nil (named name target).text.toList, text_named]
  simp only [List.length_append, List.length_cons]
  omega

private theorem length_text_channel (payload : HwType) :
    payload.text.toList.length < (channel payload).text.toList.length := by
  rw [← List.append_nil (channel payload).text.toList, text_channel]
  simp only [List.length_append, List.length_cons]
  omega

namespace Reader
open Scanner

variable {front text rest : List Char}

def Ends (text : List Char) : Prop := ∀ c ∈ text.head?, isIdentifierChar c = false

theorem spaces_reads (front : List Char) (hfront : ∀ c ∈ front, isSpace c = true)
    (htext : ∀ c ∈ text.head?, isSpace c = false) : Reads spaces (front ++ text) () text :=
  .bind (.many hfront htext) (.pure () text)

theorem head_not_isSpace {word : String} (hword : startsWith (!isSpace ·) word = true)
    (rest : List Char) : ∀ c ∈ (word.toList ++ rest).head?, isSpace c = false := by
  rw [startsWith] at hword
  cases hl : word.toList with
  | nil => rw [hl] at hword; cases hword
  | cons c cs =>
    rw [hl] at hword
    rintro _ ⟨⟩
    simpa using hword

theorem symbol_reads {word : String} (hword : startsWith (!isSpace ·) word = true) :
    Reads (symbol word) (word.toList ++ rest) () rest :=
  .bind (spaces_reads [] (by simp) (head_not_isSpace hword rest)) (.literal word rest)

theorem acceptSymbol_reads {word : String} (hword : startsWith (!isSpace ·) word = true) :
    Reads (acceptSymbol word) (word.toList ++ rest) true rest :=
  .bind (spaces_reads [] (by simp) (head_not_isSpace hword rest))
    (.accept_append word rest)

theorem acceptSymbol_reads_not {word : String} (hspace : ∀ c ∈ text.head?, isSpace c = false)
    (hword : word.toList.isPrefixOf? text = none) : Reads (acceptSymbol word) text false text :=
  .bind (spaces_reads [] (by simp) hspace) (.accept_none hword)

theorem number_reads {n : Nat} (hn : n < 2 ^ (64 : Nat))
    (hrest : ∀ c ∈ rest.head?, c.isDigit = false) :
    Reads number ((toString n).toList ++ rest) n rest := by
  have hdigits : (toString n).toList = Nat.toDigits 10 n := by
    rw [Nat.toString_eq_ofList_toDigits, String.toList_ofList]
  rw [hdigits]
  refine .bind (.rest _) (.bind (.many1 Nat.toDigits_ne_nil ?_ hrest) ?_)
  · exact fun d hd => Nat.isDigit_of_mem_toDigits (by decide) (by decide) hd
  · rw [Nat.ofDigitChars_ten_toDigits]
    dsimp only
    rw [if_neg (Nat.not_le.mpr hn)]
    exact .pure n rest

theorem isTypeIdentifier_head {word : String} (h : isTypeIdentifier word = true) :
    ∃ c back, word.toList = c :: back ∧ (isAsciiLetter c = true ∨ c = '_') := by
  unfold isTypeIdentifier at h
  cases hl : word.toList with
  | nil => simp [hl] at h
  | cons c back =>
    simp only [hl, Bool.and_eq_true, Bool.or_eq_true, decide_eq_true_eq] at h
    exact ⟨c, back, rfl, h.1⟩

theorem not_isSpace_of_isIdentifierChar {c : Char} (h : isIdentifierChar c = true) :
    isSpace c = false := by
  cases hs : isSpace c with
  | false => rfl
  | true =>
    simp only [isSpace, Bool.or_eq_true, decide_eq_true_eq] at hs
    rcases hs with ((rfl | rfl) | rfl) | rfl <;> exact absurd h (by decide)

theorem head_of_chars {chars : List Char} (hne : chars ≠ [])
    (hchars : ∀ c ∈ chars, isIdentifierChar c = true) (rest : List Char) :
    ∀ c ∈ (chars ++ rest).head?, isSpace c = false := by
  obtain ⟨c, chars, rfl⟩ := List.exists_cons_of_ne_nil hne
  rintro _ ⟨⟩
  exact not_isSpace_of_isIdentifierChar (hchars c List.mem_cons_self)

theorem name_reads (front : List Char) {word : String} (hword : isTypeIdentifier word = true)
    (hfront : ∀ c ∈ front, isSpace c = true) (hrest : Ends rest) :
    Reads name (front ++ (word.toList ++ rest)) word rest := by
  obtain ⟨c, back, hc, hhead⟩ := isTypeIdentifier_head hword
  have hchars : ∀ d ∈ word.toList, isIdentifierChar d = true := fun d hd =>
    isIdentifierChar_of_mem_type hword hd
  have hdigit : ¬ startsWith Char.isDigit word = true := by
    rw [startsWith, hc]
    rcases hhead with h | rfl
    · simp [not_isDigit_of_isAsciiLetter h]
    · exact Bool.false_ne_true
  have hne : word.toList ≠ [] := by simp [hc]
  refine .bind (spaces_reads front hfront (head_of_chars hne hchars rest)) ?_
  refine .bind (.many1 hne hchars hrest) ?_
  rw [String.ofList_toList]
  dsimp only
  rw [if_neg hdigit]
  exact .pure word rest

private theorem not_isSpace_text (t : HwType) (rest : List Char) :
    ∀ c ∈ (t.text.toList ++ rest).head?, isSpace c = false := by
  cases t with
  | int sign width =>
    rw [text_int]
    cases sign <;> rintro _ ⟨⟩ <;> rfl
  | array => rw [text_array]; rintro _ ⟨⟩; rfl
  | struct => rw [text_struct]; rintro _ ⟨⟩; rfl
  | named => rw [text_named]; rintro _ ⟨⟩; rfl
  | channel => rw [text_channel]; rintro _ ⟨⟩; rfl

theorem ends_cons {c : Char} (h : isIdentifierChar c = false) (text : List Char) :
    Ends (c :: text) := by
  rintro _ ⟨⟩
  exact h

theorem fields_text_singleton (f : Field HwType) (rest : List Char) :
    (", ".intercalate (fieldTexts [f])).toList ++ rest =
      f.name.toList ++ ':' :: ' ' :: (f.type.text.toList ++ rest) := by
  simp [fieldTexts]

theorem fields_text_cons (f g : Field HwType) (fields : List (Field HwType)) (rest : List Char) :
    (", ".intercalate (fieldTexts (f :: g :: fields))).toList ++ rest =
      f.name.toList ++ ':' :: ' ' :: (f.type.text.toList ++ ',' :: ' ' ::
        ((", ".intercalate (fieldTexts (g :: fields))).toList ++ rest)) := by
  simp [fieldTexts, String.toList_intercalate]

private theorem fields_text_head {f : Field HwType} (fields : List (Field HwType))
    (hname : isTypeIdentifier f.name = true) (rest : List Char) :
    (∀ c ∈ ((", ".intercalate (fieldTexts (f :: fields))).toList ++ rest).head?,
        isSpace c = false) ∧
      ">".toList.isPrefixOf?
        ((", ".intercalate (fieldTexts (f :: fields))).toList ++ rest) = none := by
  obtain ⟨c, back, hc, -⟩ := isTypeIdentifier_head hname
  have hchar : isIdentifierChar c = true := isIdentifierChar_of_mem_type hname (by simp [hc])
  obtain ⟨back', hfields⟩ : ∃ back',
      (", ".intercalate (fieldTexts (f :: fields))).toList ++ rest = c :: back' := by
    cases fields with
    | nil => exact ⟨_, by rw [fields_text_singleton, hc]; rfl⟩
    | cons g fields => exact ⟨_, by rw [fields_text_cons, hc]; rfl⟩
  rw [hfields]
  refine ⟨?_, ?_⟩
  · rintro _ ⟨⟩
    exact not_isSpace_of_isIdentifierChar hchar
  · have hne : ('>' == c) = false := by
      rw [beq_eq_false_iff_ne]
      rintro rfl
      exact absurd hchar (by decide)
    simp [List.isPrefixOf?, hne]

/-- The text of a type is read as the type, behind spaces and in front of a text that does not
make its last number longer, if as many parts are allowed as the text has characters. -/
def ReadsBack (t : HwType) : Prop :=
  ∀ (front rest : List Char) (parts : Nat), (∀ c ∈ front, isSpace c = true) →
    (∀ c ∈ rest.head?, c.isDigit = false) → t.text.toList.length < parts →
      Reads (type parts) (front ++ (t.text.toList ++ rest)) t rest

/-- Fields are read back in front of the bracket that closes their struct. -/
theorem fields_reads (front : List Char) {fields : List (Field HwType)} (hne : fields ≠ [])
    (hnames : ∀ f ∈ fields, isTypeIdentifier f.name = true)
    (htypes : ∀ f ∈ fields, ReadsBack f.type) (hfront : ∀ c ∈ front, isSpace c = true)
    {parts : Nat} (hparts : (", ".intercalate (fieldTexts fields)).toList.length < parts) :
    Reads (Reader.fields parts)
      (front ++ ((", ".intercalate (fieldTexts fields)).toList ++ '>' :: rest)) fields
      ('>' :: rest) := by
  induction fields generalizing front parts with
  | nil => exact absurd rfl hne
  | cons f fields ih =>
    obtain ⟨hname, hnames⟩ := List.forall_mem_cons.mp hnames
    obtain ⟨htype, htypes⟩ := List.forall_mem_cons.mp htypes
    obtain ⟨parts, rfl⟩ : ∃ n, parts = n + 1 := ⟨parts - 1, by omega⟩
    rw [Reader.fields]
    cases fields with
    | nil =>
      have hlength := congrArg List.length (fields_text_singleton f [])
      simp only [List.append_nil, List.length_append, List.length_cons] at hlength
      rw [fields_text_singleton]
      refine .bind (name_reads front hname hfront (ends_cons rfl _)) (.bind (symbol_reads rfl) ?_)
      refine .bind (htype [' '] _ parts (by simp [isSpace]) (by simp) (by omega)) ?_
      exact .bind (acceptSymbol_reads_not (by simp [isSpace]) rfl) (.pure _ _)
    | cons g fields =>
      have hlength := congrArg List.length (fields_text_cons f g fields [])
      simp only [List.append_nil, List.length_append, List.length_cons] at hlength
      rw [fields_text_cons]
      refine .bind (name_reads front hname hfront (ends_cons rfl _)) (.bind (symbol_reads rfl) ?_)
      refine .bind (htype [' '] _ parts (by simp [isSpace]) (by simp) (by omega)) ?_
      refine .bind (acceptSymbol_reads rfl) ?_
      exact .bind (ih [' '] (List.cons_ne_nil g fields) hnames htypes
        (by simp [isSpace]) (by omega)) (.pure _ _)

/-- By induction on the type: the parts of its text are read one behind the other, each of them
with one part fewer allowed. -/
theorem readsBack (ht : t.Legible) : ReadsBack t := by
  induction t using HwType.induct
  all_goals
    rintro front rest (_ | parts) hfront hrest hparts
    · exact absurd hparts (Nat.not_lt_zero _)
    rw [type]
    refine .bind (spaces_reads front hfront (not_isSpace_text _ rest)) (.bind (.rest _) ?_)
  case int sign width =>
    have hnumber := number_reads (legible_int.mp ht) hrest
    rw [text_int]
    cases sign with
    | signless =>
      refine .rejected rfl (.rejected rfl (.rejected rfl (.rejected rfl ?_)))
      refine .rejected rfl (.rejected rfl ?_)
      exact .bind (.literal "i" _) (.bind hnumber (.pure _ rest))
    | signed =>
      refine .rejected rfl (.rejected rfl (.rejected rfl (.rejected rfl ?_)))
      exact .accepted (.bind hnumber (.pure _ rest))
    | unsigned =>
      refine .rejected rfl (.rejected rfl (.rejected rfl (.rejected rfl ?_)))
      exact .rejected rfl (.accepted (.bind hnumber (.pure _ rest)))
  case array size element ih =>
    obtain ⟨hsize, helement⟩ := legible_array.mp ht
    have hlength := length_text_array size element
    rw [text_array]
    refine .accepted (.bind (symbol_reads rfl) ?_)
    refine .bind (spaces_reads [] (by simp) ?_) ?_
    · exact head_of_chars (by simp) (fun _ => isIdentifierChar_of_mem_toString) _
    refine .bind (number_reads hsize (by simp)) (.bind (symbol_reads rfl) ?_)
    refine .bind (ih helement [] _ parts (by simp) (by simp) (by omega)) ?_
    exact .bind (symbol_reads rfl) (.pure _ rest)
  case struct fields ih =>
    obtain ⟨hnodup, hfields⟩ := legible_struct.mp ht
    have hlength := length_text_struct fields
    rw [text_struct]
    refine .rejected rfl (.accepted (.bind (symbol_reads rfl) ?_))
    cases fields with
    | nil => exact .bind (acceptSymbol_reads rfl) (.pure _ rest)
    | cons f fields =>
      obtain ⟨hname, -⟩ := hfields f List.mem_cons_self
      obtain ⟨hspace, hbracket⟩ := fields_text_head fields hname ('>' :: rest)
      refine .bind (acceptSymbol_reads_not hspace hbracket) ?_
      refine .bind (fields_reads [] (List.cons_ne_nil f fields)
        (fun g hg => (hfields g hg).1) (fun g hg => ih g hg (hfields g hg).2) (by simp)
        (by omega)) ?_
      refine .bind (symbol_reads rfl) ?_
      rw [firstRepeated_eq_none.mpr hnodup]
      exact .bind (.pure _ _) (.pure _ rest)
  case named name target ih =>
    obtain ⟨hname, htarget⟩ := legible_named.mp ht
    have hlength := length_text_named name target
    rw [text_named]
    refine .rejected rfl (.rejected rfl (.accepted (.bind (symbol_reads rfl) ?_)))
    refine .bind (symbol_reads rfl) (.bind (name_reads [] hname (by simp) ?_) ?_)
    · exact ends_cons rfl _
    refine .bind (symbol_reads rfl) ?_
    refine .bind (ih htarget [' '] _ parts (by simp [isSpace]) (by simp) (by omega)) ?_
    exact .bind (symbol_reads rfl) (.pure _ rest)
  case channel payload ih =>
    have hlength := length_text_channel payload
    rw [text_channel]
    refine .rejected rfl (.rejected rfl (.rejected rfl (.accepted (.bind (symbol_reads rfl) ?_))))
    refine .bind (ih (legible_channel.mp ht) [] _ parts (by simp) (by simp) (by omega)) ?_
    exact .bind (symbol_reads rfl) (.pure _ rest)

end Reader

theorem parse_spaced (ht : t.Legible) (front back : String)
    (hfront : ∀ c ∈ front.toList, Reader.isSpace c = true)
    (hback : ∀ c ∈ back.toList, Reader.isSpace c = true) :
    parse (front ++ t.text ++ back) = .ok t := by
  have htext : (front ++ t.text ++ back).toList =
      front.toList ++ (t.text.toList ++ back.toList) := by
    simp only [String.toList_append, List.append_assoc]
  have hdigit : ∀ c ∈ back.toList.head?, c.isDigit = false := by
    intro c hc
    cases hd : c.isDigit with
    | false => rfl
    | true =>
      have hspace := hback c (List.mem_of_mem_head? hc)
      rw [Reader.not_isSpace_of_isIdentifierChar (isIdentifierChar_of_isDigit hd)] at hspace
      cases hspace
  have hwhole : Scanner.Reads (Reader.whole (front ++ t.text ++ back).toList)
      (front ++ t.text ++ back).toList t [] := by
    rw [htext]
    refine .bind (Reader.readsBack ht _ _ _ hfront hdigit ?_) ?_
    · simp only [List.length_append]
      omega
    · have hspaces : Scanner.Reads Reader.spaces (back.toList ++ []) () [] :=
        Reader.spaces_reads _ hback (by simp)
      rw [List.append_nil] at hspaces
      exact .bind hspaces (.pure t [])
  have hread : read (front ++ t.text ++ back) = .ok t := (hwhole.read t).mpr ⟨trivial, rfl⟩
  rw [parse, hread]
  rfl

theorem Legible.parse_text (ht : t.Legible) : parse t.text = .ok t := by
  have h := parse_spaced ht "" "" (by simp) (by simp)
  rwa [String.empty_append, String.append_empty] at h

theorem legible_of_parse {text : String} (h : parse text = .ok t) : t.Legible :=
  (builtUp_legible _).of_parse h

private theorem exists_parse_iff : (∃ text, parse text = .ok t) ↔ t.Legible :=
  ⟨fun ⟨_, h⟩ => legible_of_parse h, fun h => ⟨t.text, h.parse_text⟩⟩

private theorem Legible.text_injective (ht : t.Legible) (hu : u.Legible) (h : t.text = u.text) :
    t = u := by
  have ht := ht.parse_text
  rw [h, hu.parse_text] at ht
  exact (Except.ok.inj ht).symm

theorem Legible.hashed_injective (ht : t.Legible) (hu : u.Legible)
    (h : Fingerprint.padded t.text.toUTF8.toList = Fingerprint.padded u.text.toUTF8.toList) :
    t = u := by
  obtain ⟨n, hn⟩ := Fingerprint.exists_padded_eq t.text
  obtain ⟨m, hm⟩ := Fingerprint.exists_padded_eq u.text
  have hspaces : ∀ n, ∀ c ∈ (String.ofList (List.replicate n ' ')).toList,
      Reader.isSpace c = true := by
    intro n c hc
    rw [String.toList_ofList] at hc
    rw [List.eq_of_mem_replicate hc]
    rfl
  have htext := parse_spaced ht "" _ (by simp) (hspaces n)
  have hutext := parse_spaced hu "" _ (by simp) (hspaces m)
  rw [String.empty_append, Fingerprint.bytes_injective (hn.symm.trans (h.trans hm)),
    ← String.empty_append (s := u.text), hutext] at htext
  exact (Except.ok.inj htext).symm

/-- Texts of types are a faithful code. The types that some text writes are those whose names are
identifiers, whose structs have distinct field names, and whose numbers have 64 bits, as all
numbers of a type do. Each of them is what its own text writes; two of them have neither the same
text nor the same bytes to be hashed; and the text of a type that was read, in whatever spelling,
is read as that type again. -/
theorem text_is_faithful :
    (∀ t : HwType, (∃ text, parse text = .ok t) ↔ t.Legible) ∧
    (∀ t : HwType, t.Legible → parse t.text = .ok t) ∧
    (∀ text text' t u, parse text = .ok t → parse text' = .ok u →
      (t.text = u.text ∨
        Fingerprint.padded t.text.toUTF8.toList = Fingerprint.padded u.text.toUTF8.toList) →
      t = u) ∧
    (∀ text t, parse text = .ok t → parse t.text = .ok t) := by
  refine ⟨fun t => exists_parse_iff, fun t ht => ht.parse_text, ?_, ?_⟩
  · rintro text text' t u ht hu (h | h)
    · exact (legible_of_parse ht).text_injective (legible_of_parse hu) h
    · exact (legible_of_parse ht).hashed_injective (legible_of_parse hu) h
  · exact fun text t ht => (legible_of_parse ht).parse_text

/-- Another spelling of the type of four bytes, with spaces and zeros. -/
theorem spelled_array_reads : ∃ t : HwType, parse " !hw.array < 004 x\ti08>\n" = .ok t ∧
    t.text = "!hw.array<4xi8>" ∧ parse t.text = .ok t := by
  have hparse : parse " !hw.array < 004 x\ti08>\n" = .ok (.array 4 (.int .signless 8)) := by
    decide +kernel
  exact ⟨_, hparse, by decide +kernel, text_is_faithful.2.2.2 _ _ hparse⟩

end HwType
end ChannelCodec
