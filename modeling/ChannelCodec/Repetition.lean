/-! The first repetition in a list. -/
namespace ChannelCodec

def firstRepeated {α : Type} [BEq α] (items : List α) : Option α :=
  go [] items
where
  go (earlier : List α) : List α → Option α
    | [] => none
    | a :: items => if earlier.contains a then some a else go (a :: earlier) items

theorem firstRepeated_go_eq_none {α : Type} [BEq α] [LawfulBEq α] {earlier items : List α} :
    firstRepeated.go earlier items = none ↔
      items.Nodup ∧ ∀ a ∈ items, a ∉ earlier := by
  induction items generalizing earlier with
  | nil => simp [firstRepeated.go]
  | cons a items ih =>
    by_cases h : a ∈ earlier
    · simp [firstRepeated.go, h]
    · simp only [firstRepeated.go, List.contains_eq_mem, h, decide_false, Bool.false_eq_true,
        if_false, ih, List.nodup_cons, List.mem_cons, not_or, forall_eq_or_imp]
      constructor
      · exact fun ⟨hn, hm⟩ =>
          ⟨⟨fun ha => (hm a ha).1 rfl, hn⟩, ⟨not_false, fun b hb => (hm b hb).2⟩⟩
      · exact fun ⟨⟨ha, hn⟩, _, hm⟩ =>
          ⟨hn, fun b hb => ⟨fun hab => ha (hab ▸ hb), hm b hb⟩⟩

theorem firstRepeated_eq_none {α : Type} [BEq α] [LawfulBEq α] {items : List α} :
    firstRepeated items = none ↔ items.Nodup := by
  simp [firstRepeated, firstRepeated_go_eq_none]

end ChannelCodec
