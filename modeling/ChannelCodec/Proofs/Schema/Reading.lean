import ChannelCodec.Proofs.Schema.Rendering
import ChannelCodec.Proofs.Text.Reads

/-! Reading what a schema is written down as. A step of the reader takes the gap in front of a word
and the word; what it reads off a spelling is what is spelled there, and the faults it notes are
those of what it has read. -/
namespace ChannelCodec

/-- The word begins with a character that neither is a space nor begins a comment. -/
def IsToken (word : String) : Prop :=
  startsWith (fun c => !SchemaSource.Reader.isSpace c && !decide (c = '#')) word = true

/-- The word begins with a character that no name or number goes on with. -/
def IsMark (word : String) : Prop := startsWith (!isIdentifierChar ·) word = true

theorem exists_of_startsWith {p : Char → Bool} {word : String} (h : startsWith p word = true) :
    ∃ c rest, word.toList = c :: rest ∧ p c = true := by
  rw [startsWith] at h
  cases hl : word.toList with
  | nil =>
    rw [hl] at h
    cases h
  | cons c rest =>
    rw [hl] at h
    exact ⟨c, rest, rfl, h⟩

theorem startsWith_of_imp {p q : Char → Bool} {word : String} (h : startsWith p word = true)
    (hpq : ∀ c, p c = true → q c = true) : startsWith q word = true := by
  obtain ⟨c, rest, hc, hp⟩ := exists_of_startsWith h
  rw [startsWith, hc]
  exact hpq c hp

theorem startsWith_of_isPlainIdentifier {word : String} (h : isPlainIdentifier word = true) :
    startsWith isAsciiLetter word = true := by
  rw [isPlainIdentifier] at h
  rw [startsWith]
  cases hl : word.toList with
  | nil =>
    rw [hl] at h
    cases h
  | cons c rest =>
    rw [hl] at h
    exact (Bool.and_eq_true_iff.mp h).1

private theorem isIdentifierChar_of_isHexDigit (c : Char) (h : isHexDigit c = true) :
    isIdentifierChar c = true := by
  simp only [isHexDigit, Bool.or_eq_true, Bool.and_eq_true, decide_eq_true_eq] at h
  simp only [isIdentifierChar, isAsciiLetter, isAsciiLower, isAsciiUpper, Bool.or_eq_true,
    Bool.and_eq_true, decide_eq_true_eq]
  rcases h with (h | h) | h
  · exact .inl (.inr h)
  · exact .inl (.inl (.inl ⟨h.1, Char.le_trans h.2 (by decide)⟩))
  · exact .inl (.inl (.inr ⟨h.1, Char.le_trans h.2 (by decide)⟩))

theorem isToken_of_isIdentifierChar {word : String} (h : startsWith isIdentifierChar word = true) :
    IsToken word := by
  obtain ⟨c, rest, hc, hchar⟩ := exists_of_startsWith h
  have hspace : SchemaSource.Reader.isSpace c = false := by
    cases hs : SchemaSource.Reader.isSpace c with
    | false => rfl
    | true =>
      simp only [SchemaSource.Reader.isSpace, Bool.or_eq_true, decide_eq_true_eq] at hs
      rcases hs with ((rfl | rfl) | rfl) | rfl <;> exact absurd hchar (by decide)
  have hcomment : c ≠ '#' := by
    rintro rfl
    exact absurd hchar (by decide)
  rw [IsToken, startsWith, hc]
  simp [hspace, hcomment]

private theorem isIdentifierChar_of_isSpace {c : Char} (h : SchemaSource.Reader.isSpace c = true) :
    isIdentifierChar c = false := by
  simp only [SchemaSource.Reader.isSpace, Bool.or_eq_true, decide_eq_true_eq] at h
  rcases h with ((rfl | rfl) | rfl) | rfl <;> decide

private theorem Spaced.head_of_isMark {text : List Char} {next : String} {words : List String}
    (h : Spaced (next :: words) text) (hnext : IsMark next) :
    ∀ c ∈ text.head?, isIdentifierChar c = false := by
  obtain ⟨d, rest, hd, hmark⟩ := exists_of_startsWith hnext
  cases h with
  | cons hgap _ =>
    cases hgap with
    | nil =>
      rw [hd]
      rintro _ ⟨⟩
      simpa using hmark
    | space hc _ =>
      rintro _ ⟨⟩
      exact isIdentifierChar_of_isSpace hc
    | comment =>
      rintro _ ⟨⟩
      rfl

namespace SchemaSource.Reader
open Scanner

variable {words : List String} {word next : String}

/-- The first word comes next, with no gap in front of it. Without a word the text is at its
end. -/
def Flush : List String → List Char → Prop
  | [], text => text = []
  | word :: words, text => ∃ rest, text = word.toList ++ rest ∧ Spaced words rest

private theorem Flush.spaced {text : List Char} (h : Flush words text) : Spaced words text := by
  cases words with
  | nil =>
    obtain rfl : text = [] := h
    exact .nil .nil
  | cons word words =>
    obtain ⟨rest, rfl, hrest⟩ := h
    exact .front word hrest

private theorem skipComment_body {body : List Char} (hbody : ∀ d ∈ body, isInline d = true)
    {c : Char} (hc : isInline c = false) (text : List Char) :
    skipComment (body ++ c :: text) = skipSpaces text := by
  have hends : ∀ d, isInline d = !(decide (d = '\n') || decide (d = '\r')) := fun _ => rfl
  induction body with
  | nil =>
    rw [hends, Bool.not_eq_false'] at hc
    rw [List.nil_append, skipComment, if_pos hc]
  | cons d body ih =>
    obtain ⟨hd, hbody⟩ := List.forall_mem_cons.mp hbody
    rw [hends, Bool.not_eq_true'] at hd
    rw [List.cons_append, skipComment, hd, if_neg Bool.false_ne_true]
    exact ih hbody

private theorem skipSpaces_gap {gap : List Char} (h : Gap gap) (text : List Char) :
    skipSpaces (gap ++ text) = skipSpaces text := by
  induction h with
  | nil => rfl
  | space hc _ ih => rw [List.cons_append, skipSpaces, if_pos hc, ih]
  | comment hbody hc _ ih =>
    rw [List.cons_append, List.append_assoc, List.cons_append, skipSpaces, if_neg (by decide),
      if_pos rfl, skipComment_body hbody hc, ih]

private theorem skipSpaces_token (hword : IsToken word) (rest : List Char) :
    skipSpaces (word.toList ++ rest) = word.toList ++ rest := by
  obtain ⟨c, back, hc, htoken⟩ := exists_of_startsWith hword
  simp only [Bool.and_eq_true, Bool.not_eq_true', decide_eq_false_iff_not] at htoken
  rw [hc, List.cons_append, skipSpaces, htoken.1, if_neg Bool.false_ne_true, if_neg htoken.2]

theorem spaces_takes (hwords : ∀ word ∈ words.head?, IsToken word) :
    Takes (Spaced words) spaces () (Flush words) True := by
  intro text htext
  refine ⟨skipSpaces text, ?_, Reads.bind (.rest text) (.moveTo text _)⟩
  cases htext with
  | nil hgap =>
    have hskip := skipSpaces_gap hgap []
    rwa [List.append_nil] at hskip
  | cons hgap h =>
    rw [skipSpaces_gap hgap, skipSpaces_token (hwords _ rfl)]
    exact ⟨_, rfl, h⟩

theorem accept_takes (word : String) : Takes (Flush (word :: words)) (accept word : Reading Bool)
    true (Spaced words) True := by
  rintro _ ⟨rest, rfl, h⟩
  exact ⟨rest, h, Reads.accept_append word rest⟩

theorem isPrefixOf?_eq_none {c d : Char} {word text : List Char} (h : c ≠ d) :
    (c :: word).isPrefixOf? (d :: text) = none :=
  if_neg fun he => h (eq_of_beq he)

theorem accept_takes_not {word : String}
    (hword : ∀ text, Flush words text → word.toList.isPrefixOf? text = none) :
    Takes (Flush words) (accept word : Reading Bool) false (Flush words) True :=
  fun text h => ⟨text, h, Reads.accept_none (hword text h)⟩

theorem many1_reads {p : Char → Bool} (hp : ∀ c, p c = true → isIdentifierChar c = true)
    {run rest : List Char} (hne : run ≠ []) (hrun : ∀ c ∈ run, p c = true)
    (hrest : Spaced (next :: words) rest) (hnext : IsMark next) :
    Reads (many1 p : Reading (List Char)) (run ++ rest) run rest := by
  refine .many1 hne hrun fun c hc => ?_
  cases hpc : p c with
  | false => rfl
  | true => exact absurd (hp c hpc) (by rw [hrest.head_of_isMark hnext c hc]; decide)

theorem many1_takes {p : Char → Bool} (hp : ∀ c, p c = true → isIdentifierChar c = true)
    (hne : word.toList ≠ []) (hword : ∀ c ∈ word.toList, p c = true) (hnext : IsMark next) :
    Takes (Flush (word :: next :: words)) (many1 p : Reading (List Char)) word.toList
      (Spaced (next :: words)) True := by
  rintro _ ⟨rest, rfl, hrest⟩
  exact ⟨rest, hrest, many1_reads hp hne hword hrest hnext⟩

theorem symbol_takes (hword : IsToken word) :
    Takes (Spaced (word :: words)) (symbol word) () (Spaced words) True :=
  .after (spaces_takes (by rintro _ ⟨⟩; exact hword))
    (.after (accept_takes word) (.pure ()))

theorem acceptSymbol_takes (hword : IsToken word) :
    Takes (Spaced (word :: words)) (acceptSymbol word) true (Spaced words) True :=
  .after (spaces_takes (by rintro _ ⟨⟩; exact hword)) (accept_takes word)

theorem check_judges (place : List Char) (fault : Option SchemaFault) (text : List Char) :
    Judges (check place fault) text () text (fault = none) := by
  cases fault with
  | none => exact (Reads.pure () text).congr (by simp)
  | some fault =>
    have hnote := Judges.note_of (p := True) place text fault
    rw [if_pos trivial] at hnote
    exact hnote.congr (by simp)

theorem check_takes (place : List Char) (fault : Option SchemaFault) {P : List Char → Prop} :
    Takes P (check place fault) () P (fault = none) :=
  fun text htext => ⟨text, htext, check_judges place fault text⟩

theorem name_takes (hword : isPlainIdentifier word = true) (hnext : IsMark next) :
    Takes (Spaced (word :: next :: words)) name word (Spaced (next :: words)) True := by
  have hletter := startsWith_of_isPlainIdentifier hword
  have htoken : IsToken word := isToken_of_isIdentifierChar
    (startsWith_of_imp hletter fun _ => isIdentifierChar_of_isAsciiLetter)
  have hne : word.toList ≠ [] := by
    obtain ⟨c, rest, hc, -⟩ := exists_of_startsWith hletter
    simp [hc]
  refine .after (spaces_takes (by rintro _ ⟨⟩; exact htoken)) ?_
  refine .after (many1_takes (fun _ h => h) hne
    (fun c hc => isIdentifierChar_of_mem_plain hword hc) hnext) ?_
  rw [String.ofList_toList, if_pos hletter]
  exact .pure word

theorem id_takes {n : Nat} (hword : IsHexadecimal n word) (hnext : IsMark next) :
    Takes (Spaced (word :: next :: words)) Reader.id n (Spaced (next :: words))
      (idFault? n = none) := by
  obtain ⟨digits, hdigits, hne, hhex, rfl⟩ := hword
  have htoken : IsToken word := by
    rw [IsToken, startsWith, hdigits]
    rfl
  refine .after (spaces_takes (by rintro _ ⟨⟩; exact htoken)) (.place fun place => ?_)
  rintro _ ⟨rest, rfl, hrest⟩
  refine ⟨rest, hrest, ?_⟩
  have hsplit : word.toList ++ rest = "0x".toList ++ (digits ++ rest) := by
    rw [hdigits]
    rfl
  rw [hsplit]
  refine .after (.literal "0x" _) ?_
  refine .after (many1_reads isIdentifierChar_of_isHexDigit hne hhex hrest hnext) ?_
  exact .before (check_judges place _ rest) (.pure _ rest)

theorem ordinal_takes {n : Nat} (hword : IsDecimal n word) (hnext : IsMark next) :
    Takes (Spaced (word :: next :: words)) ordinal n (Spaced (next :: words))
      (ordinalFault? n = none) := by
  have htoken : IsToken word := by
    obtain ⟨c, rest, hc⟩ := List.exists_cons_of_ne_nil hword.nonempty
    refine isToken_of_isIdentifierChar ?_
    rw [startsWith, hc]
    exact isIdentifierChar_of_isDigit (hword.digits c (hc ▸ List.mem_cons_self))
  refine .after (spaces_takes (by rintro _ ⟨⟩; exact htoken)) (.place fun place => ?_)
  refine .after (many1_takes (fun _ => isIdentifierChar_of_isDigit) hword.nonempty hword.digits
    hnext) ?_
  rw [hword.value]
  exact .before (check_takes place _) (.pure n)

theorem primitive_word {t : WireType} (ht : ∀ element, t ≠ .list element) :
    primitive? t.text = some t ∧ t.text.toList ≠ [] ∧
      (∀ c ∈ t.text.toList, isIdentifierChar c = true) ∧ t.text.toList.head? ≠ some 'L' := by
  cases t with
  | void | bool => exact ⟨by decide, by decide, List.all_eq_true.mp (by decide), by decide⟩
  | int width | uint width =>
    cases width <;> exact ⟨by decide, by decide, List.all_eq_true.mp (by decide), by decide⟩
  | list element => exact absurd rfl (ht element)

theorem scalar_takes {t : WireType} (ht : ∀ element, t ≠ .list element) (depth : Nat)
    (hnext : IsMark next) :
    Takes (Spaced (t.text :: next :: words)) (type (depth + 1)) t (Spaced (next :: words))
      True := by
  obtain ⟨hprimitive, hne, hchars, hhead⟩ := primitive_word ht
  obtain ⟨c, back, hc⟩ := List.exists_cons_of_ne_nil hne
  have htoken : IsToken t.text := by
    refine isToken_of_isIdentifierChar ?_
    rw [startsWith, hc]
    exact hchars c (hc ▸ List.mem_cons_self)
  have hlist : ∀ text, Flush (t.text :: next :: words) text →
      "List".toList.isPrefixOf? text = none := by
    rintro _ ⟨rest, rfl, -⟩
    rw [hc, List.head?_cons] at hhead
    rw [hc]
    exact isPrefixOf?_eq_none fun he => hhead (congrArg some he.symm)
  rw [type]
  refine .after (spaces_takes (by rintro _ ⟨⟩; exact htoken)) ?_
  refine .after (accept_takes_not hlist) ?_
  rw [if_neg Bool.false_ne_true]
  refine .after (many1_takes (fun _ h => h) hne hchars hnext) ?_
  rw [String.ofList_toList, hprimitive]
  exact .pure t

/-- By induction on the type: the words between the brackets of a list are those of its
elements. -/
theorem type_takes (t : WireType) (hnext : IsMark next) {depth : Nat}
    (hdepth : t.words.length ≤ depth) :
    Takes (Spaced (t.words ++ next :: words)) (type depth) t (Spaced (next :: words)) True := by
  induction t generalizing next words depth with
  | list element ih =>
    simp only [WireType.words, List.length_cons, List.length_append] at hdepth
    obtain ⟨depth, rfl⟩ : ∃ n, depth = n + 1 := ⟨depth - 1, by omega⟩
    simp only [WireType.words, List.cons_append, List.append_assoc, List.nil_append]
    rw [type]
    refine .after (spaces_takes (by rintro _ ⟨⟩; rfl)) (.after (accept_takes "List") ?_)
    rw [if_pos rfl]
    refine .after (symbol_takes (by rfl)) ?_
    have hclose : IsMark ")" := rfl
    refine .after (ih hclose (by omega)) ?_
    exact .after (symbol_takes (by rfl)) (.pure _)
  | _ =>
    have hpos : 1 ≤ depth := hdepth
    obtain ⟨depth, rfl⟩ : ∃ n, depth = n + 1 := ⟨depth - 1, by omega⟩
    exact scalar_takes (by rintro _ ⟨⟩) depth hnext

theorem field_takes {f : FieldSource} {spelling : List String} (h : f.Spells spelling)
    {depth : Nat} (hdepth : spelling.length ≤ depth) :
    Takes (Spaced (spelling ++ words)) (field depth) f (Spaced words)
      (ordinalFault? f.ordinal = none ∧ f.fault? = none) := by
  obtain ⟨hname, ordinal, hordinal, rfl⟩ := h
  simp only [List.length_cons, List.length_append] at hdepth
  simp only [List.cons_append, List.append_assoc, List.nil_append]
  have htoken : IsToken f.name := isToken_of_isIdentifierChar
    (startsWith_of_imp (startsWith_of_isPlainIdentifier hname)
      fun _ => isIdentifierChar_of_isAsciiLetter)
  refine .after (spaces_takes (by rintro _ ⟨⟩; exact htoken)) (.place fun place => ?_)
  refine .after ((name_takes hname (by rfl)).of_imp fun _ => Flush.spaced) ?_
  refine .after (symbol_takes (by rfl)) (.bind (ordinal_takes hordinal (by rfl)) ?_)
  refine .after (symbol_takes (by rfl)) (.after (type_takes f.type (by rfl) (by omega)) ?_)
  exact .after (symbol_takes (by rfl)) (.before (check_takes place _) (.pure f))

private theorem acceptSymbol_brace {f : FieldSource} {spelling : List String}
    (h : f.Spells spelling) :
    Takes (Spaced (spelling ++ words)) (acceptSymbol "\x7d") false (Spaced (spelling ++ words))
      True := by
  obtain ⟨hname, ordinal, -, rfl⟩ := h
  have hletter := startsWith_of_isPlainIdentifier hname
  have htoken : IsToken f.name := isToken_of_isIdentifierChar
    (startsWith_of_imp hletter fun _ => isIdentifierChar_of_isAsciiLetter)
  obtain ⟨c, back, hc, hchar⟩ := exists_of_startsWith hletter
  refine .after (spaces_takes (by rintro _ ⟨⟩; exact htoken)) ?_
  rintro _ ⟨rest, rfl, hrest⟩
  refine ⟨_, Spaced.front _ hrest, Reads.accept_none ?_⟩
  rw [hc]
  refine isPrefixOf?_eq_none ?_
  rintro rfl
  exact absurd hchar (by decide)

theorem fields_takes {fields : List FieldSource} {spellings : List (List String)}
    (h : List.Forall₂ FieldSource.Spells fields spellings) {depth count : Nat}
    (hdepth : spellings.flatten.length ≤ depth) (hcount : spellings.flatten.length < count) :
    Takes (Spaced (spellings.flatten ++ "\x7d" :: words)) (Reader.fields depth count) fields
      (Spaced words) (∀ f ∈ fields, ordinalFault? f.ordinal = none ∧ f.fault? = none) := by
  induction h generalizing count with
  | nil =>
    obtain ⟨count, rfl⟩ : ∃ n, count = n + 1 := ⟨count - 1, by omega⟩
    rw [Reader.fields]
    exact (Takes.after (acceptSymbol_takes (by rfl)) (.pure [])).congr (by simp)
  | @cons f spelling fields spellings hfield hfields ih =>
    have hlength : 0 < spelling.length := by
      obtain ⟨-, ordinal, -, rfl⟩ := hfield
      exact Nat.succ_pos _
    rw [List.flatten_cons, List.length_append] at hdepth hcount
    obtain ⟨count, rfl⟩ : ∃ n, count = n + 1 := ⟨count - 1, by omega⟩
    rw [List.flatten_cons, List.append_assoc, Reader.fields, List.forall_mem_cons]
    refine .after (acceptSymbol_brace hfield) ?_
    rw [if_neg Bool.false_ne_true]
    refine .bind (field_takes hfield (by omega)) ?_
    exact .before (ih (by omega) (by omega)) (.pure _)

/-- What the reader notes in a struct, given that it notes nothing else. -/
def StructSound (s : StructSource) : Prop :=
  idFault? s.id = none ∧ (∀ f ∈ s.fields, ordinalFault? f.ordinal = none ∧ f.fault? = none) ∧
    s.fault? = none

theorem struct_takes {s : StructSource} {spelling : List String}
    (h : s.Spells ("struct" :: spelling)) {size : Nat} (hsize : spelling.length ≤ size)
    (place : List Char) :
    Takes (Spaced (spelling ++ words)) (struct size place) s (Spaced words) (StructSound s) := by
  obtain ⟨hname, id, fields, hid, hfields, hspelling⟩ := h
  obtain rfl := (List.cons.inj hspelling).2
  simp only [List.length_cons, List.length_append] at hsize
  simp only [List.cons_append, List.append_assoc, List.nil_append]
  rw [struct]
  refine .after (name_takes hname (by rfl)) (.after (symbol_takes (by rfl)) ?_)
  refine .bind (id_takes hid (by rfl)) (.after (symbol_takes (by rfl)) ?_)
  refine .bind (fields_takes hfields (by omega) (by omega)) ?_
  exact .before (check_takes place _) (.pure s)

theorem structs_takes {structs : List StructSource} {spellings : List (List String)}
    (h : List.Forall₂ StructSource.Spells structs spellings) {size count : Nat}
    (hsize : spellings.flatten.length ≤ size) (hcount : spellings.flatten.length < count) :
    Takes (Spaced spellings.flatten) (Reader.structs size count) structs (Flush [])
      (∀ s ∈ structs, StructSound s) := by
  induction h generalizing count with
  | nil =>
    obtain ⟨count, rfl⟩ : ∃ n, count = n + 1 := ⟨count - 1, by omega⟩
    have hnone : ∀ text, Flush [] text → "struct".toList.isPrefixOf? text = none := by
      rintro _ rfl
      rfl
    rw [Reader.structs]
    refine Takes.congr (?_ : Takes _ _ _ _ True) (by simp)
    refine .after (spaces_takes (by simp)) (.place fun place => ?_)
    exact .after (accept_takes_not hnone) (.pure [])
  | @cons s spelling structs spellings hstruct hstructs ih =>
    obtain ⟨spelling, rfl⟩ : ∃ rest, spelling = "struct" :: rest := by
      obtain ⟨-, id, fields, -, -, rfl⟩ := hstruct
      exact ⟨_, rfl⟩
    rw [List.flatten_cons, List.length_append, List.length_cons] at hsize hcount
    obtain ⟨count, rfl⟩ : ∃ n, count = n + 1 := ⟨count - 1, by omega⟩
    rw [List.flatten_cons, List.cons_append, Reader.structs, List.forall_mem_cons]
    refine .after (spaces_takes (by rintro _ ⟨⟩; rfl)) (.place fun place => ?_)
    refine .after (accept_takes "struct") ?_
    rw [if_pos rfl]
    refine .bind (struct_takes hstruct (by omega) place) ?_
    exact .before (ih (by omega) (by omega)) (.pure _)

def Sound (s : SchemaSource) : Prop :=
  idFault? s.id = none ∧ (∀ t ∈ s.structs, StructSound t) ∧ s.fault? = none

theorem whole_takes {s : SchemaSource} {spelling : List String} (h : s.Spells spelling)
    {text : List Char} (hlength : spelling.length ≤ text.length) :
    Takes (Spaced spelling) (whole text) s (Flush []) (Sound s) := by
  obtain ⟨id, structs, hid, hstructs, rfl⟩ := h
  simp only [List.length_cons] at hlength
  have hid : Takes (Spaced (id :: ";" :: structs.flatten)) Reader.id s.id
    (Spaced (";" :: structs.flatten)) (idFault? s.id = none) := id_takes hid (by rfl)
  refine .after (symbol_takes (by rfl)) (.bind hid (.after (symbol_takes (by rfl)) ?_))
  refine .bind (structs_takes hstructs (by omega) (by omega)) ?_
  exact .before (check_takes text _) (.pure s)

end SchemaSource.Reader

private theorem WireType.words_nonempty (t : WireType) : ∀ word ∈ t.words, word.toList ≠ [] := by
  induction t with
  | list element ih =>
    intro word hword
    simp only [words, List.mem_cons, List.mem_append, List.not_mem_nil, or_false] at hword
    rcases hword with rfl | rfl | hword | rfl
    · decide
    · decide
    · exact ih word hword
    · decide
  | _ =>
    exact List.forall_mem_singleton.mpr (SchemaSource.Reader.primitive_word (by rintro _ ⟨⟩)).2.1

theorem nonempty_of_isPlainIdentifier {word : String} (h : isPlainIdentifier word = true) :
    word.toList ≠ [] := by
  obtain ⟨c, rest, hc, -⟩ := exists_of_startsWith (startsWith_of_isPlainIdentifier h)
  simp [hc]

theorem IsHexadecimal.nonempty {n : Nat} {word : String} (h : IsHexadecimal n word) :
    word.toList ≠ [] := by
  obtain ⟨digits, hdigits, -⟩ := h
  simp [hdigits]

private theorem FieldSource.Spells.nonempty {f : FieldSource} {words : List String}
    (h : f.Spells words) :
    ∀ word ∈ words, word.toList ≠ [] := by
  obtain ⟨hname, ordinal, hordinal, rfl⟩ := h
  intro word hword
  simp only [List.mem_cons, List.mem_append, List.not_mem_nil, or_false] at hword
  rcases hword with rfl | rfl | rfl | rfl | hword | rfl
  · exact nonempty_of_isPlainIdentifier hname
  · decide
  · exact hordinal.nonempty
  · decide
  · exact f.type.words_nonempty word hword
  · decide

theorem forall_mem_flatten {α : Type} {spells : α → List String → Prop} {P : String → Prop}
    (hspells : ∀ a words, spells a words → ∀ word ∈ words, P word) {parts : List α}
    {spellings : List (List String)} (h : List.Forall₂ spells parts spellings) :
    ∀ word ∈ spellings.flatten, P word := by
  induction h with
  | nil => simp
  | cons ha _ ih =>
    intro word hword
    rcases List.mem_append.mp hword with hword | hword
    · exact hspells _ _ ha word hword
    · exact ih word hword

private theorem StructSource.Spells.nonempty {s : StructSource} {words : List String}
    (h : s.Spells words) :
    ∀ word ∈ words, word.toList ≠ [] := by
  obtain ⟨hname, id, fields, hid, hfields, rfl⟩ := h
  have hfields := forall_mem_flatten (fun _ _ h => h.nonempty) hfields
  intro word hword
  simp only [List.mem_cons, List.mem_append, List.not_mem_nil, or_false] at hword
  rcases hword with rfl | rfl | rfl | rfl | rfl | hword | rfl
  · decide
  · exact nonempty_of_isPlainIdentifier hname
  · decide
  · exact hid.nonempty
  · decide
  · exact hfields word hword
  · decide

namespace SchemaSource
variable {s s' : SchemaSource}

theorem Spells.nonempty {words : List String} (h : s.Spells words) :
    ∀ word ∈ words, word.toList ≠ [] := by
  obtain ⟨id, structs, hid, hstructs, rfl⟩ := h
  have hstructs := forall_mem_flatten (fun _ _ h => h.nonempty) hstructs
  intro word hword
  simp only [List.mem_cons] at hword
  rcases hword with rfl | rfl | rfl | hword
  · decide
  · exact hid.nonempty
  · decide
  · exact hstructs word hword

/-- A text that writes a schema down is read as that schema, unless a fault is noted in it. -/
theorem read_renders {text : String} (h : s.Renders text) :
    read text = .ok s' ↔ Reader.Sound s ∧ s' = s := by
  obtain ⟨words, hwords, hspaced⟩ := h
  have hlength := hspaced.length_le hwords.nonempty
  obtain ⟨_, rfl, hjudges⟩ := Reader.whole_takes hwords hlength _ hspaced
  exact hjudges.read s'

end SchemaSource
end ChannelCodec
