import ChannelCodec.Message.Declaration
import ChannelCodec.Proofs.HwType.Reading

/-! The texts in a declaration. Struct names are words with a capital in front, and the written
form of a type stays on its line. -/
namespace ChannelCodec

def isInline (c : Char) : Bool := !(c = '\n' || c = '\r')

private theorem isInline_of_isIdentifierChar {c : Char} (h : isIdentifierChar c = true) :
    isInline c = true := by
  cases hc : isInline c with
  | true => rfl
  | false =>
    have hbreak : c = '\n' ∨ c = '\r' := by
      simpa only [isInline, Bool.not_eq_false', Bool.or_eq_true, decide_eq_true_eq] using hc
    rcases hbreak with rfl | rfl <;> simp_all +decide

theorem isIdentifierChar_of_isDigit {c : Char} (h : c.isDigit = true) :
    isIdentifierChar c = true := by
  simp [isIdentifierChar, h]

theorem not_isDigit_of_isAsciiLetter {c : Char} (h : isAsciiLetter c = true) :
    c.isDigit = false := by
  cases hd : c.isDigit with
  | false => rfl
  | true =>
    simp only [isAsciiLetter, isAsciiLower, isAsciiUpper, Bool.or_eq_true, Bool.and_eq_true,
      decide_eq_true_eq] at h
    simp only [Char.isDigit, Bool.and_eq_true, decide_eq_true_eq] at hd
    have hhigh : c.toNat ≤ 57 := hd.2
    rcases h with h | h
    · have hlow : 97 ≤ c.toNat := h.1
      omega
    · have hlow : 65 ≤ c.toNat := h.1
      omega

def IsTypeName (name : String) : Prop :=
  startsWith isAsciiUpper name = true ∧ ∀ c ∈ name.toList, isIdentifierChar c = true

private theorem isAsciiUpper_toUpper {c : Char} (h : isAsciiLetter c = true) :
    isAsciiUpper c.toUpper = true := by
  have hlower : ∀ n < 26, isAsciiUpper (Char.ofNat (97 + n)).toUpper = true := by decide
  have hupper : ∀ n < 26, isAsciiUpper (Char.ofNat (65 + n)).toUpper = true := by decide
  have hc : c = Char.ofNat c.toNat := (Char.ofNat_toNat c).symm
  simp only [isAsciiLetter, isAsciiLower, isAsciiUpper, Bool.or_eq_true, Bool.and_eq_true,
    decide_eq_true_eq] at h
  rcases h with ⟨hle, hge⟩ | ⟨hle, hge⟩
  · have hle : 97 ≤ c.toNat := hle
    have hge : c.toNat ≤ 122 := hge
    have hn : 97 + (c.toNat - 97) = c.toNat := by omega
    rw [hc, ← hn]
    exact hlower _ (by omega)
  · have hle : 65 ≤ c.toNat := hle
    have hge : c.toNat ≤ 90 := hge
    have hn : 65 + (c.toNat - 65) = c.toNat := by omega
    rw [hc, ← hn]
    exact hupper _ (by omega)

private theorem isIdentifierChar_of_isAsciiUpper {c : Char} (h : isAsciiUpper c = true) :
    isIdentifierChar c = true := by
  simp [isIdentifierChar, isAsciiLetter, h]

private theorem isTypeIdentifier_of_plain {name : String} (h : isPlainIdentifier name = true) :
    isTypeIdentifier name = true := by
  unfold isPlainIdentifier at h
  unfold isTypeIdentifier
  cases hl : name.toList with
  | nil => simp [hl] at h
  | cons c rest =>
    simp only [hl, Bool.and_eq_true] at h
    simp only [h.1, h.2, Bool.true_or, Bool.and_true]

theorem isIdentifierChar_of_mem_type {name : String} (h : isTypeIdentifier name = true) {c : Char}
    (hc : c ∈ name.toList) : isIdentifierChar c = true := by
  unfold isTypeIdentifier at h
  cases hl : name.toList with
  | nil => simp [hl] at hc
  | cons d rest =>
    simp only [hl, Bool.and_eq_true, List.all_eq_true, Bool.or_eq_true, decide_eq_true_eq] at h
    rcases List.mem_cons.mp (hl ▸ hc) with rfl | hc
    · rcases h.1 with hd | rfl
      · exact isIdentifierChar_of_isAsciiLetter hd
      · decide
    · exact h.2 c hc

theorem isIdentifierChar_of_mem_plain {name : String} (h : isPlainIdentifier name = true) {c : Char}
    (hc : c ∈ name.toList) : isIdentifierChar c = true :=
  isIdentifierChar_of_mem_type (isTypeIdentifier_of_plain h) hc

theorem isTypeName_capitalized {name : String} (h : isPlainIdentifier name = true) :
    IsTypeName (capitalized name) := by
  unfold isPlainIdentifier at h
  unfold capitalized
  cases hl : name.toList with
  | nil => simp [hl] at h
  | cons c rest =>
    simp only [hl, Bool.and_eq_true, List.all_eq_true] at h
    have hupper := isAsciiUpper_toUpper h.1
    refine ⟨by simpa [startsWith] using hupper, ?_⟩
    simp only [String.toList_ofList, List.forall_mem_cons]
    exact ⟨isIdentifierChar_of_isAsciiUpper hupper, h.2⟩

theorem startsWith_append {p : Char → Bool} {name : String} (h : startsWith p name = true)
    (more : String) : startsWith p (name ++ more) = true := by
  unfold startsWith at h ⊢
  rw [String.toList_append]
  cases hl : name.toList with
  | nil => simp [hl] at h
  | cons c rest => simpa [hl] using h

theorem IsTypeName.append {name more : String} (h : IsTypeName name)
    (hmore : ∀ c ∈ more.toList, isIdentifierChar c = true) : IsTypeName (name ++ more) := by
  refine ⟨startsWith_append h.1 more, fun c hc => ?_⟩
  · rw [String.toList_append, List.mem_append] at hc
    exact hc.elim (h.2 c) (hmore c)

theorem IsTypeName.isPlainIdentifier {name : String} (h : IsTypeName name) :
    isPlainIdentifier name = true := by
  have hfront := h.1
  have hchars := h.2
  unfold startsWith at hfront
  rw [ChannelCodec.isPlainIdentifier]
  cases hl : name.toList with
  | nil => simp [hl] at hfront
  | cons c rest =>
    rw [hl] at hfront hchars
    simp only [Bool.and_eq_true, List.all_eq_true, isAsciiLetter, Bool.or_eq_true]
    exact ⟨.inr hfront, fun d hd => hchars d (List.mem_cons_of_mem c hd)⟩

theorem isIdentifierChar_of_mem_toString {n : Nat} {c : Char} (h : c ∈ (toString n).toList) :
    isIdentifierChar c = true := by
  have h : c ∈ Nat.toDigits 10 n := by simpa using h
  exact isIdentifierChar_of_isDigit (Nat.isDigit_of_mem_toDigits (by decide) (by decide) h)

namespace HwType

theorem isPlainIdentifier_int (sign : Signedness) (width : Nat) :
    isPlainIdentifier (int sign width).text = true := by
  have hdigits : (Nat.toDigits 10 width).all isIdentifierChar = true :=
    List.all_eq_true.mpr fun c hc =>
      isIdentifierChar_of_isDigit (Nat.isDigit_of_mem_toDigits (by decide) (by decide) hc)
  have hletter : isAsciiLetter 'i' = true ∧ isAsciiLetter 's' = true ∧ isAsciiLetter 'u' = true :=
    by decide
  have hchar : isIdentifierChar 'i' = true := by decide
  have htext : (int sign width).text.toList = sign.text.toList ++ Nat.toDigits 10 width := by
    have hint : (int sign width).text = sign.text ++ toString width := rfl
    rw [hint, String.toList_append, Nat.toString_eq_ofList_toDigits, String.toList_ofList]
  unfold isPlainIdentifier
  rw [htext]
  cases sign <;> simp [Signedness.text, hdigits, hletter, hchar]

private theorem mem_of_mem_intercalate {α : Type} {a : α} {separator : List α}
    {parts : List (List α)} (h : a ∈ separator.intercalate parts) :
    ∃ part, (part = separator ∨ part ∈ parts) ∧ a ∈ part := by
  rw [List.intercalate, List.mem_flatten] at h
  obtain ⟨part, hpart, ha⟩ := h
  refine ⟨part, ?_, ha⟩
  induction parts with
  | nil => cases hpart
  | cons p parts ih =>
    cases parts with
    | nil => exact .inr hpart
    | cons q parts =>
      rw [List.intersperse_cons_cons] at hpart
      rcases List.mem_cons.mp hpart with rfl | hpart
      · exact .inr List.mem_cons_self
      · rcases List.mem_cons.mp hpart with rfl | hpart
        · exact .inl rfl
        · exact (ih hpart).imp_right (List.mem_cons_of_mem p)

theorem WellNamed.inline {t : HwType} {bound : Nat} (h : t.WellNamed bound) :
    ∀ c ∈ t.text.toList, isInline c = true := by
  have hnumber : ∀ (n : Nat), ∀ c ∈ (toString n).toList, isInline c = true := fun n c hc =>
    isInline_of_isIdentifierChar (isIdentifierChar_of_mem_toString hc)
  have hname : ∀ name : String, isTypeIdentifier name = true →
      ∀ c ∈ name.toList, isInline c = true := fun name hname c hc =>
    isInline_of_isIdentifierChar (isIdentifierChar_of_mem_type hname hc)
  have happend : ∀ a b : String, (∀ c ∈ a.toList, isInline c = true) →
      (∀ c ∈ b.toList, isInline c = true) → ∀ c ∈ (a ++ b).toList, isInline c = true := by
    intro a b ha hb c hc
    rw [String.toList_append, List.mem_append] at hc
    exact hc.elim (ha c) (hb c)
  have hseparator : ∀ c ∈ ", ".toList, isInline c = true := List.all_eq_true.mp (by decide)
  induction t using HwType.induct with
  | int sign width =>
    refine happend _ _ ?_ (hnumber width)
    cases sign <;> exact List.all_eq_true.mp (by decide)
  | array size element ih =>
    refine happend _ _ (happend _ _ (happend _ _ (happend _ _ ?_ (hnumber size)) ?_) (ih h)) ?_
    all_goals exact List.all_eq_true.mp (by decide)
  | struct fields ih =>
    refine happend _ _ (happend _ _ ?_ ?_) ?_
    · exact List.all_eq_true.mp (by decide)
    · intro c hc
      rw [String.toList_intercalate, fieldTexts_eq_map] at hc
      obtain ⟨part, hpart, hc⟩ := mem_of_mem_intercalate hc
      rcases hpart with rfl | hpart
      · exact hseparator c hc
      · obtain ⟨f, hf, rfl⟩ : ∃ f ∈ fields, (f.name ++ ": " ++ f.type.text).toList = part := by
          simpa using hpart
        have hwell := fieldsWellNamed_iff.mp h.2.2 f hf
        refine happend _ _ (happend _ _ (hname f.name hwell.1) ?_) (ih f hf hwell.2) c hc
        exact List.all_eq_true.mp (by decide)
    · exact List.all_eq_true.mp (by decide)
  | named name target ih =>
    refine happend _ _ (happend _ _ (happend _ _ (happend _ _ ?_ (hname name h.1)) ?_) (ih h.2)) ?_
    all_goals exact List.all_eq_true.mp (by decide)
  | channel payload ih =>
    refine happend _ _ (happend _ _ ?_ (ih h)) ?_
    all_goals exact List.all_eq_true.mp (by decide)

end HwType
end ChannelCodec
