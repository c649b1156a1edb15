import ChannelCodec.Circuit.Design
import ChannelCodec.Proofs.Success

/-! Writing designs. Where no circuit has instances of others, any order will do, and the search
for one cannot fail. -/
namespace ChannelCodec.Design

def Flat (d : Design) : Prop := ∀ c ∈ d.circuits, c.callees = []

namespace Flat
variable {d : Design}

private theorem callers_eq_nil (h : d.Flat) (name : String) : d.callers name = [] := by
  rw [callers, List.filter_eq_nil_iff.mpr]
  · rfl
  · intro c hc
    rw [h c hc]
    exact Bool.false_ne_true

private theorem exists_visit (h : d.Flat) (depth : Nat) (s : Search) (name : String) :
    ∃ s', d.visit depth s name = .ok s' := by
  cases depth with
  | zero => exact ⟨s, rfl⟩
  | succ depth =>
    rw [visit]
    by_cases hseen : s.seen.contains name = true
    · exact ⟨s, by rw [if_pos hseen]; rfl⟩
    · rw [if_neg hseen, h.callers_eq_nil]
      exact ⟨_, rfl⟩

private theorem exists_foldlM_visit (h : d.Flat) (depth : Nat) (names : List String) (s : Search) :
    ∃ s', names.foldlM (d.visit depth) s = .ok s' := by
  induction names generalizing s with
  | nil => exact ⟨s, rfl⟩
  | cons name names ih =>
    obtain ⟨s₁, hs₁⟩ := h.exists_visit depth s name
    obtain ⟨s', hs'⟩ := ih s₁
    refine ⟨s', ?_⟩
    rw [List.foldlM_cons, hs₁]
    exact hs'

private theorem misplaced?_eq_none (h : d.Flat) (earlier order : List String) :
    d.misplaced? earlier order = none := by
  induction order generalizing earlier with
  | nil => rfl
  | cons name order ih =>
    have hcallees : ((d.find? name).map Circuit.callees).getD [] = [] := by
      cases hfind : d.find? name with
      | none => rfl
      | some c => exact h c (List.mem_of_find?_eq_some hfind)
    rw [misplaced?, hcallees]
    exact ih (name :: earlier)

theorem exists_text (h : d.Flat) : ∃ text, d.text = .ok text := by
  have hdefined : d.undefinedCallee? = none := by
    rw [undefinedCallee?, List.findSome?_eq_none_iff]
    intro c hc
    rw [h c hc]
    rfl
  obtain ⟨s, hs⟩ := h.exists_foldlM_visit d.circuits.length d.names {}
  have horder : d.order? = .ok s.finished := by
    rw [order?, hdefined]
    refine (bind_of_ok hs _).trans ?_
    rw [h.misplaced?_eq_none]
    rfl
  have hdependency : d.dependencyOrder = .ok s.finished := by
    rw [dependencyOrder, horder]
    rfl
  exact ⟨_, bind_of_ok hdependency _⟩

end Flat
end ChannelCodec.Design
