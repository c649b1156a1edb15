import ChannelCodec.Proofs.Message.Naming
import ChannelCodec.Proofs.Text.Numerals
import ChannelCodec.Schema.Reader
import Mathlib.Data.List.Forall2

/-! The ways to write a schema down. A schema is spelled as a list of words; numbers may be spelled
with zeros in front, and identifiers with digits in either case. Spaces and comments may stand in
front of every word and behind the last one. -/
namespace ChannelCodec

/-- Spaces and comments, each of which ends with its line. -/
inductive Gap : List Char → Prop
  | nil : Gap []
  | space {c : Char} {gap : List Char} (hc : SchemaSource.Reader.isSpace c = true) (h : Gap gap) :
    Gap (c :: gap)
  | comment {body : List Char} {c : Char} {gap : List Char} (hbody : ∀ d ∈ body, isInline d = true)
    (hc : isInline c = false) (h : Gap gap) : Gap ('#' :: (body ++ c :: gap))

/-- The text is made of the words, with gaps in front of them and behind them. -/
inductive Spaced : List String → List Char → Prop
  | nil {gap : List Char} (hgap : Gap gap) : Spaced [] gap
  | cons {gap text : List Char} {word : String} {words : List String} (hgap : Gap gap)
    (h : Spaced words text) : Spaced (word :: words) (gap ++ (word.toList ++ text))

structure IsDecimal (n : Nat) (word : String) : Prop where
  nonempty : word.toList ≠ []
  digits : ∀ c ∈ word.toList, c.isDigit = true
  value : Nat.ofDigitChars 10 word.toList 0 = n

def IsHexadecimal (n : Nat) (word : String) : Prop :=
  ∃ digits : List Char, word.toList = '0' :: 'x' :: digits ∧ digits ≠ [] ∧
    (∀ c ∈ digits, isHexDigit c = true) ∧ ofHexDigits digits = n

def WireType.words : WireType → List String
  | .list element => "List" :: "(" :: (element.words ++ [")"])
  | t => [t.text]

def FieldSource.Spells (f : FieldSource) (words : List String) : Prop :=
  isPlainIdentifier f.name = true ∧ ∃ ordinal, IsDecimal f.ordinal ordinal ∧
    words = f.name :: "@" :: ordinal :: ":" :: (f.type.words ++ [";"])

def StructSource.Spells (s : StructSource) (words : List String) : Prop :=
  isPlainIdentifier s.name = true ∧ ∃ id fields, IsHexadecimal s.id id ∧
    List.Forall₂ FieldSource.Spells s.fields fields ∧
    words = "struct" :: s.name :: "@" :: id :: "\x7b" :: (fields.flatten ++ ["\x7d"])

def SchemaSource.Spells (s : SchemaSource) (words : List String) : Prop :=
  ∃ id structs, IsHexadecimal s.id id ∧ List.Forall₂ StructSource.Spells s.structs structs ∧
    words = "@" :: id :: ";" :: structs.flatten

def SchemaSource.Renders (s : SchemaSource) (text : String) : Prop :=
  ∃ words, s.Spells words ∧ Spaced words text.toList

theorem Gap.append {gap gap' : List Char} (h : Gap gap) (h' : Gap gap') : Gap (gap ++ gap') := by
  induction h with
  | nil => exact h'
  | space hc _ ih => exact .space hc ih
  | comment hbody hc _ ih =>
    rw [List.cons_append, List.append_assoc, List.cons_append]
    exact .comment hbody hc ih

namespace Spaced
variable {text : List Char} {words : List String}

theorem behind {gap : List Char} (hgap : Gap gap) (h : Spaced words text) :
    Spaced words (gap ++ text) := by
  cases h with
  | nil hgap' => exact .nil (hgap.append hgap')
  | cons hgap' h =>
    rw [← List.append_assoc]
    exact .cons (hgap.append hgap') h

theorem space {c : Char} (hc : SchemaSource.Reader.isSpace c = true) (h : Spaced words text) :
    Spaced words (c :: text) :=
  have hgap : Gap [c] := .space hc .nil
  h.behind hgap

theorem comment (body : List Char) (hbody : ∀ c ∈ body, isInline c = true)
    (h : Spaced words text) : Spaced words ('#' :: (body ++ '\n' :: text)) := by
  have hgap : Gap ('#' :: (body ++ ['\n'])) := .comment hbody (by decide) .nil
  have h := h.behind hgap
  rwa [List.cons_append, List.append_assoc] at h

theorem front (word : String) (h : Spaced words text) :
    Spaced (word :: words) (word.toList ++ text) :=
  .cons .nil h

theorem length_le (h : Spaced words text) (hne : ∀ word ∈ words, word.toList ≠ []) :
    words.length ≤ text.length := by
  induction h with
  | nil => exact Nat.zero_le _
  | cons _ _ ih =>
    obtain ⟨hword, hwords⟩ := List.forall_mem_cons.mp hne
    have hpos := List.length_pos_iff.mpr hword
    have hrest := ih hwords
    simp only [List.length_cons, List.length_append]
    omega

theorem replicate (n : Nat) (h : Spaced words text) :
    Spaced words (List.replicate n ' ' ++ text) := by
  induction n with
  | zero => exact h
  | succ n ih => exact ih.space rfl

end Spaced

theorem isDecimal_toString (n : Nat) : IsDecimal n (toString n) := by
  have hdigits : (toString n).toList = Nat.toDigits 10 n := by
    rw [Nat.toString_eq_ofList_toDigits, String.toList_ofList]
  refine ⟨?_, fun c hc => ?_, ?_⟩
  · rw [hdigits]
    exact Nat.toDigits_ne_nil
  · rw [hdigits] at hc
    exact Nat.isDigit_of_mem_toDigits (by decide) (by decide) hc
  · rw [hdigits, Nat.ofDigitChars_ten_toDigits]

theorem isHexadecimal_hexadecimalId (id : Nat) : IsHexadecimal id (hexadecimalId id) :=
  ⟨idDigits id, toList_hexadecimalId id, idDigits_ne_nil id,
    fun _ hc => isHexDigit_of_mem_idDigits hc, ofHexDigits_idDigits id⟩

theorem WireType.spaced_text (t : WireType) {words : List String} {text : List Char}
    (h : Spaced words text) : Spaced (t.words ++ words) (t.text.toList ++ text) := by
  induction t generalizing words text with
  | list element ih =>
    have htext : (WireType.list element).text.toList ++ text =
        "List".toList ++ ("(".toList ++ (element.text.toList ++ (")".toList ++ text))) := by
      have hlist : (WireType.list element).text = "List(" ++ element.text ++ ")" := rfl
      simp [hlist]
    rw [htext]
    simp only [WireType.words, List.cons_append, List.append_assoc, List.nil_append]
    exact ((ih (h.front ")")).front "(").front "List"
  | _ => exact h.front _

end ChannelCodec
