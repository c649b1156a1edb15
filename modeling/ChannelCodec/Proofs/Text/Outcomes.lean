import ChannelCodec.Text.Scanner

/-! What scanners yield. A scanner that reads a text without noting a fault has noted none at any
earlier step either, so that what each step promises without a fault holds of what it read. -/
namespace ChannelCodec.Scanner
variable {ε α β : Type} {m : Scanner ε α} {P Q : α → Prop}

/-- Whenever `m` reads something and no fault is noted behind it, none was noted before and `P`
holds of what it read. -/
def Yields (m : Scanner ε α) (P : α → Prop) : Prop :=
  ∀ c a c', m c = some (a, c') → c'.fault = none → c.fault = none ∧ P a

namespace Yields

theorem pure {a : α} (h : P a) : Yields (Pure.pure a : Scanner ε α) P := by
  intro c a' c' hm hc
  cases hm
  exact ⟨hc, h⟩

theorem failure : Yields (Alternative.failure : Scanner ε α) P := by
  intro c a c' hm
  cases hm

theorem mono (h : Yields m P) (hPQ : ∀ a, P a → Q a) : Yields m Q := fun c a c' hm hc =>
  ⟨(h c a c' hm hc).1, hPQ a (h c a c' hm hc).2⟩

/-- One step behind the other. The second one promises its own part without knowing that the first
one met no fault. -/
theorem bind {f : α → Scanner ε β} {R : β → Prop} (h : Yields m P)
    (hf : ∀ a, Yields (f a) fun b => P a → R b) : Yields (m >>= f) R := by
  intro c b c'' hm hc
  cases h₁ : m c with
  | none =>
    have hnone : (m >>= f) c = none := by
      simp only [Bind.bind, StateT.bind, h₁, Option.bind_none]
    rw [hnone] at hm
    cases hm
  | some p =>
    obtain ⟨a, c'⟩ := p
    have hsome : (m >>= f) c = f a c' := by
      simp only [Bind.bind, StateT.bind, h₁, Option.bind_some]
    rw [hsome] at hm
    obtain ⟨hc', hR⟩ := hf a c' b c'' hm hc
    obtain ⟨hc₀, hP⟩ := h c a c' h₁ hc'
    exact ⟨hc₀, hR hP⟩

theorem after {f : α → Scanner ε β} {R : β → Prop} (h : Yields m fun _ => True)
    (hf : ∀ a, Yields (f a) R) : Yields (m >>= f) R :=
  bind h fun a => (hf a).mono fun _ hR _ => hR

theorem branch {p : Prop} [Decidable p] {m' : Scanner ε α} (h : p → Yields m P)
    (h' : ¬ p → Yields m' P) : Yields (if p then m else m') P := by
  by_cases hp : p
  · rw [if_pos hp]
    exact h hp
  · rw [if_neg hp]
    exact h' hp

theorem note (place : List Char) (fault : ε) (P : Unit → Prop) :
    Yields (Scanner.note place fault) P := by
  intro c a c' hm hc
  cases hm
  exfalso
  cases hfault : c.fault with
  | none => simp [hfault] at hc
  | some fault => simp [hfault] at hc

theorem rest : Yields (Scanner.rest : Scanner ε (List Char)) fun _ => True := by
  intro c a c' hm hc
  cases hm
  exact ⟨hc, trivial⟩

theorem moveTo (text : List Char) :
    Yields (Scanner.moveTo text : Scanner ε Unit) fun _ => True := by
  intro c a c' hm hc
  cases hm
  exact ⟨hc, trivial⟩

theorem accept (word : String) : Yields (Scanner.accept word : Scanner ε Bool) fun _ => True := by
  refine .after rest fun text => ?_
  cases word.toList.isPrefixOf? text with
  | none => exact .pure trivial
  | some text => exact .after (moveTo text) fun _ => .pure trivial

theorem literal (word : String) : Yields (Scanner.literal word : Scanner ε Unit) fun _ => True :=
  .after (accept word) fun _ => .branch (fun _ => .pure trivial) fun _ => .failure

theorem many (p : Char → Bool) : Yields (Scanner.many p : Scanner ε (List Char)) fun cs =>
    ∀ c ∈ cs, p c = true := by
  refine .after rest fun text => .after (moveTo _) fun _ => .pure fun c hc => ?_
  exact List.all_eq_true.mp List.all_takeWhile c hc

theorem many1 (p : Char → Bool) : Yields (Scanner.many1 p : Scanner ε (List Char)) fun cs =>
    cs ≠ [] ∧ ∀ c ∈ cs, p c = true := by
  refine .bind (many p) fun cs => ?_
  cases cs with
  | nil => exact .failure
  | cons c cs => exact .pure fun h => ⟨List.cons_ne_nil c cs, h⟩

end Yields

theorem Yields.of_read (h : Yields m P) {text : List Char} {a : α}
    (hread : m.read text = .ok a) : P a := by
  unfold Scanner.read at hread
  have hwhole : Yields (do let a ← m; finish; return a) P := by
    refine .bind h fun a => .after ?_ fun _ => .pure id
    refine .after rest fun text => ?_
    cases text with
    | nil => exact .pure trivial
    | cons c text => exact .failure
  cases hrun : StateT.run (do let a ← m; finish; return a : Scanner ε α) { rest := text } with
  | none =>
    rw [hrun] at hread
    cases hread
  | some p =>
    obtain ⟨a', rest, fault⟩ := p
    rw [hrun] at hread
    cases fault with
    | some fault => cases hread
    | none =>
      cases hread
      exact (hwhole _ _ _ hrun rfl).2

end ChannelCodec.Scanner
