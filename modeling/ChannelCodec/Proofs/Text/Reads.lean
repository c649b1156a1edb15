import ChannelCodec.Text.Scanner

/-! Scanners on texts that match. A step is given by the text in front of it and the text behind
it, so that steps follow one another where their texts meet, and by what has to hold for it to
note no fault. -/
namespace ChannelCodec.Scanner
variable {ε α β : Type} {m : Scanner ε α} {text text' text'' : List Char} {a : α} {ok ok' : Prop}

/-- From `text` the scanner reads `a` up to `text'`. There is no fault behind it exactly when there
was none in front of it and `ok` holds. -/
def Judges (m : Scanner ε α) (text : List Char) (a : α) (text' : List Char) (ok : Prop) : Prop :=
  ∀ fault, ∃ fault', m ⟨text, fault⟩ = some (a, ⟨text', fault'⟩) ∧
    (fault' = none ↔ fault = none ∧ ok)

def Reads (m : Scanner ε α) (text : List Char) (a : α) (text' : List Char) : Prop :=
  Judges m text a text' True

namespace Judges

theorem congr (h : Judges m text a text' ok) (hok : ok ↔ ok') : Judges m text a text' ok' := by
  rwa [Judges, ← hok]

theorem bind {f : α → Scanner ε β} {b : β} (h : Judges m text a text' ok)
    (hf : Judges (f a) text' b text'' ok') : Judges (m >>= f) text b text'' (ok ∧ ok') := by
  intro fault
  obtain ⟨fault₁, hm, h₁⟩ := h fault
  obtain ⟨fault₂, hb, h₂⟩ := hf fault₁
  refine ⟨fault₂, ?_, ?_⟩
  · change StateT.bind m f ⟨text, fault⟩ = some (b, ⟨text'', fault₂⟩)
    simp only [StateT.bind, hm, Option.bind_eq_bind, Option.bind_some, hb]
  · rw [h₂, h₁, and_assoc]

theorem after {f : α → Scanner ε β} {b : β} (h : Reads m text a text')
    (hf : Judges (f a) text' b text'' ok) : Judges (m >>= f) text b text'' ok :=
  (h.bind hf).congr (iff_of_eq (true_and ok))

theorem before {f : α → Scanner ε β} {b : β} (h : Judges m text a text' ok)
    (hf : Reads (f a) text' b text'') : Judges (m >>= f) text b text'' ok :=
  (h.bind hf).congr (iff_of_eq (and_true ok))

theorem note_of {p : Prop} [Decidable p] (place text : List Char) (fault : ε) :
    Judges (if p then Scanner.note place fault else Pure.pure ()) text () text ¬p := by
  intro before
  by_cases hp : p
  · refine ⟨before <|> some (place, fault), by rw [if_pos hp]; rfl, ?_⟩
    cases before <;> simp [hp]
  · exact ⟨before, by rw [if_neg hp]; rfl, by simp [hp]⟩

end Judges

namespace Reads

theorem pure (a : α) (text : List Char) : Reads (Pure.pure a : Scanner ε α) text a text :=
  fun fault => ⟨fault, rfl, by rw [and_true]⟩

theorem bind {f : α → Scanner ε β} {b : β} (h : Reads m text a text')
    (hf : Reads (f a) text' b text'') : Reads (m >>= f) text b text'' :=
  Judges.after h hf

theorem rest (text : List Char) : Reads (Scanner.rest : Scanner ε (List Char)) text text text :=
  fun fault => ⟨fault, rfl, by rw [and_true]⟩

theorem moveTo (text text' : List Char) :
    Reads (Scanner.moveTo text' : Scanner ε Unit) text () text' :=
  fun fault => ⟨fault, rfl, by rw [and_true]⟩

theorem accept_append (word : String) (text : List Char) :
    Reads (Scanner.accept word : Scanner ε Bool) (word.toList ++ text) true text := by
  have hhead : word.toList.isPrefixOf? (word.toList ++ text) = some text := by
    induction word.toList with
    | nil => rfl
    | cons c cs ih => exact (if_pos BEq.rfl).trans ih
  refine .bind (.rest _) ?_
  rw [hhead]
  exact .bind (.moveTo _ _) (.pure _ _)

theorem accept_none {word : String} (h : word.toList.isPrefixOf? text = none) :
    Reads (Scanner.accept word : Scanner ε Bool) text false text := by
  refine .bind (.rest _) ?_
  rw [h]
  exact .pure _ _

theorem literal (word : String) (text : List Char) :
    Reads (Scanner.literal word : Scanner ε Unit) (word.toList ++ text) () text :=
  .bind (accept_append word text) (.pure _ _)

theorem accepted {word : String} {m' : Scanner ε α} (h : Reads m text a text') :
    Reads (do if ← Scanner.accept word then m else m') (word.toList ++ text) a text' :=
  .bind (accept_append word text) h

theorem rejected {word : String} {m' : Scanner ε α} (hword : word.toList.isPrefixOf? text = none)
    (h : Reads m' text a text') : Reads (do if ← Scanner.accept word then m else m') text a text' :=
  .bind (accept_none hword) h

theorem many {p : Char → Bool} {front : List Char} (hfront : ∀ c ∈ front, p c = true)
    (htext : ∀ c ∈ text.head?, p c = false) :
    Reads (Scanner.many p : Scanner ε (List Char)) (front ++ text) front text := by
  have hnone : text.takeWhile p = [] ∧ text.dropWhile p = text := by
    cases text with
    | nil => exact ⟨rfl, rfl⟩
    | cons c text =>
      have hc : ¬ p c = true := by simp [htext c rfl]
      exact ⟨List.takeWhile_cons_of_neg hc, List.dropWhile_cons_of_neg hc⟩
  refine .bind (.rest _) ?_
  rw [List.takeWhile_append_of_pos hfront, List.dropWhile_append_of_pos hfront, hnone.1, hnone.2,
    List.append_nil]
  exact .bind (.moveTo _ _) (.pure _ _)

theorem many1 {p : Char → Bool} {front : List Char} (hne : front ≠ [])
    (hfront : ∀ c ∈ front, p c = true) (htext : ∀ c ∈ text.head?, p c = false) :
    Reads (Scanner.many1 p : Scanner ε (List Char)) (front ++ text) front text := by
  refine .bind (many hfront htext) ?_
  cases front with
  | nil => exact absurd rfl hne
  | cons d front => exact .pure _ _

end Reads

/-- From every text with `P` the scanner reads `a` up to some text with `Q`, without a fault
exactly when `ok` holds. -/
def Takes (P : List Char → Prop) (m : Scanner ε α) (a : α) (Q : List Char → Prop) (ok : Prop) :
    Prop :=
  ∀ text, P text → ∃ text', Q text' ∧ Judges m text a text' ok

namespace Takes
variable {P P' Q R : List Char → Prop}

theorem congr (h : Takes P m a Q ok) (hok : ok ↔ ok') : Takes P m a Q ok' := by
  rwa [Takes, ← hok]

theorem of_imp (h : Takes P m a Q ok) (hP : ∀ text, P' text → P text) : Takes P' m a Q ok :=
  fun text htext => h text (hP text htext)

theorem bind {f : α → Scanner ε β} {b : β} (h : Takes P m a Q ok) (hf : Takes Q (f a) b R ok') :
    Takes P (m >>= f) b R (ok ∧ ok') := by
  intro text htext
  obtain ⟨text', htext', hm⟩ := h text htext
  obtain ⟨text'', htext'', hb⟩ := hf text' htext'
  exact ⟨text'', htext'', hm.bind hb⟩

theorem after {f : α → Scanner ε β} {b : β} (h : Takes P m a Q True)
    (hf : Takes Q (f a) b R ok) : Takes P (m >>= f) b R ok :=
  (h.bind hf).congr (iff_of_eq (true_and ok))

theorem before {f : α → Scanner ε β} {b : β} (h : Takes P m a Q ok)
    (hf : Takes Q (f a) b R True) : Takes P (m >>= f) b R ok :=
  (h.bind hf).congr (iff_of_eq (and_true ok))

theorem pure (a : α) : Takes P (Pure.pure a : Scanner ε α) a P True :=
  fun text htext => ⟨text, htext, Reads.pure a text⟩

theorem place {f : List Char → Scanner ε α} (h : ∀ place, Takes P (f place) a Q ok) :
    Takes P (Scanner.rest >>= f) a Q ok := by
  intro text htext
  obtain ⟨text', htext', hf⟩ := h text text htext
  exact ⟨text', htext', .after (.rest text) hf⟩

end Takes

/-- A whole text that matches is read exactly when no fault is noted in it. -/
theorem Judges.read (h : Judges m text a [] ok) (b : α) :
    m.read text = .ok b ↔ ok ∧ b = a := by
  have hwhole : Judges (do let a ← m; finish; return a) text a [] ok :=
    h.before (.bind (.bind (.rest []) (.pure () [])) (.pure a []))
  obtain ⟨fault, hrun, hfault⟩ := hwhole none
  have hrun : StateT.run (do let a ← m; finish; return a) { rest := text } =
    some (a, ⟨[], fault⟩) := hrun
  rw [Scanner.read, hrun]
  cases fault with
  | none =>
    have hok : ok := (hfault.mp rfl).2
    simp [hok, eq_comm]
  | some fault =>
    have hok : ¬ ok := fun hok => nomatch hfault.mpr ⟨rfl, hok⟩
    simp [hok]

end ChannelCodec.Scanner
