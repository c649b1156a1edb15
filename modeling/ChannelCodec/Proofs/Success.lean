/-! Computations that succeed. `Succeeds m s post` says that `m` does not fail from the state `s`
and that `post` holds of what it returns and of the state it leaves; `Ensures m s post` says the
latter of a computation that may fail. -/
namespace ChannelCodec

def Succeeds {ε σ α : Type} (m : EStateM ε σ α) (s : σ) (post : α → σ → Prop) : Prop :=
  ∃ a s', m s = .ok a s' ∧ post a s'

namespace Succeeds
variable {ε σ α β : Type} {m : EStateM ε σ α} {s : σ} {post : α → σ → Prop}

theorem of_eq {a : α} {s' : σ} (h : m s = .ok a s') (hp : post a s') : Succeeds m s post :=
  ⟨a, s', h, hp⟩

theorem pure {a : α} (h : post a s) : Succeeds (Pure.pure a : EStateM ε σ α) s post :=
  ⟨a, s, rfl, h⟩

theorem of_ok {a : α} {s' : σ} (h : Succeeds m s post) (hm : m s = .ok a s') : post a s' := by
  obtain ⟨b, s'', hb, hp⟩ := h
  rw [hm] at hb
  cases hb
  exact hp

theorem ne_error {failure : ε} {s' : σ} (h : Succeeds m s post) : m s ≠ .error failure s' := by
  obtain ⟨b, s'', hb, _⟩ := h
  simp [hb]

theorem mono {post' : α → σ → Prop} (h : Succeeds m s post)
    (hp : ∀ a s', post a s' → post' a s') : Succeeds m s post' := by
  obtain ⟨a, s', hm, ha⟩ := h
  exact ⟨a, s', hm, hp a s' ha⟩

theorem congr {m' : EStateM ε σ α} (hm : m s = m' s) (h : Succeeds m' s post) :
    Succeeds m s post := by
  obtain ⟨a, s', hm', ha⟩ := h
  exact ⟨a, s', hm.trans hm', ha⟩

theorem step {f : α → EStateM ε σ β} {a : α} {s' : σ} {post' : β → σ → Prop} (h : m s = .ok a s')
    (hf : Succeeds (f a) s' post') : Succeeds (m >>= f) s post' := by
  obtain ⟨b, s'', hb, hp⟩ := hf
  refine ⟨b, s'', ?_, hp⟩
  simp only [Bind.bind, EStateM.bind, h]
  exact hb

theorem bind {f : α → EStateM ε σ β} {post' : β → σ → Prop} (h : Succeeds m s post)
    (hf : ∀ a s', post a s' → Succeeds (f a) s' post') : Succeeds (m >>= f) s post' := by
  obtain ⟨a, s', hm, ha⟩ := h
  exact step hm (hf a s' ha)

/-- A function that succeeds on every item of a list, from every state of a kind that it keeps,
succeeds on the list. -/
theorem mapM {f : α → EStateM ε σ β} {g : α → β} {items : List α} {inv : σ → Prop}
    (hf : ∀ a ∈ items, ∀ s, inv s → Succeeds (f a) s fun b s' => b = g a ∧ inv s') (hs : inv s) :
    Succeeds (items.mapM f) s fun bs s' => bs = items.map g ∧ inv s' := by
  induction items generalizing s with
  | nil => exact pure ⟨rfl, hs⟩
  | cons a items ih =>
    rw [List.mapM_cons]
    refine (hf a List.mem_cons_self s hs).bind ?_
    rintro b s₁ ⟨hb, h₁⟩
    refine (ih (fun x hx => hf x (List.mem_cons_of_mem a hx)) h₁).bind ?_
    rintro bs s₂ ⟨hbs, h₂⟩
    exact pure ⟨by rw [hb, hbs, List.map_cons], h₂⟩

end Succeeds

/-- If `m` succeeds from `s`, then `post` holds of its result and of the state behind it. -/
def Ensures {ε σ α : Type} (m : EStateM ε σ α) (s : σ) (post : α → σ → Prop) : Prop :=
  ∀ a s', m s = .ok a s' → post a s'

namespace Ensures
variable {ε σ α β : Type} {m : EStateM ε σ α} {s : σ} {post : α → σ → Prop}

theorem pure {a : α} (h : post a s) : Ensures (Pure.pure a : EStateM ε σ α) s post := by
  intro b s' hb
  cases hb
  exact h

theorem throw (failure : ε) : Ensures (MonadExcept.throw failure : EStateM ε σ α) s post :=
  fun _ _ h => nomatch h

theorem mono {post' : α → σ → Prop} (h : Ensures m s post)
    (hp : ∀ a s', post a s' → post' a s') : Ensures m s post' :=
  fun a s' hm => hp a s' (h a s' hm)

theorem bind {f : α → EStateM ε σ β} {post' : β → σ → Prop} (h : Ensures m s post)
    (hf : ∀ a s', post a s' → Ensures (f a) s' post') : Ensures (m >>= f) s post' := by
  intro b s' hb
  simp only [Bind.bind, EStateM.bind] at hb
  cases hm : m s with
  | ok a s₁ =>
    rw [hm] at hb
    exact hf a s₁ (h a s₁ hm) b s' hb
  | error failure s₁ =>
    rw [hm] at hb
    cases hb

theorem look {f : α → EStateM ε σ β} {p : α → Prop} {post' : β → σ → Prop}
    (h : Ensures m s fun a s' => s' = s ∧ p a) (hf : ∀ a, p a → Ensures (f a) s post') :
    Ensures (m >>= f) s post' := by
  refine h.bind ?_
  rintro a _ ⟨rfl, ha⟩
  exact hf a ha

end Ensures

theorem bind_of_ok {ε α β : Type} {x : Except ε α} {a : α} (h : x = .ok a) (f : α → Except ε β) :
    (x >>= f) = f a := by
  rw [h]
  rfl

theorem exists_mapM_iff {ε α β : Type} {f : α → Except ε β} {items : List α} :
    (∃ results, items.mapM f = .ok results) ↔ ∀ a ∈ items, ∃ b, f a = .ok b := by
  induction items with
  | nil => simp [pure, Except.pure]
  | cons a items ih =>
    rw [List.mapM_cons, List.forall_mem_cons, ← ih]
    cases f a with
    | error failure => exact iff_of_false nofun fun ⟨h, _⟩ => nomatch h
    | ok b =>
      cases items.mapM f with
      | error failure => exact iff_of_false nofun fun ⟨_, h⟩ => nomatch h
      | ok results => exact iff_of_true ⟨_, rfl⟩ ⟨⟨b, rfl⟩, results, rfl⟩

theorem exists_mapError_iff {ε ε' α : Type} {f : ε → ε'} {x : Except ε α} :
    (∃ a, x.mapError f = .ok a) ↔ ∃ a, x = .ok a := by
  cases x with
  | error failure => exact iff_of_false nofun nofun
  | ok a => exact iff_of_true ⟨a, rfl⟩ ⟨a, rfl⟩

end ChannelCodec
