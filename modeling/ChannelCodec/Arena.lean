/-! Arenas: stores that hand out consecutive keys. An arena only grows, so a key stays good. -/
namespace ChannelCodec

/-- Items under the keys 0, 1, 2, … in the order in which they were put in. -/
structure Arena (α : Type) where
  items : Array α
deriving DecidableEq, Repr

namespace Arena
variable {α : Type}

def empty : Arena α := ⟨#[]⟩

instance : EmptyCollection (Arena α) := ⟨empty⟩

def size (a : Arena α) : Nat := a.items.size

def nextKey (a : Arena α) : Nat := a.size

def isEmpty (a : Arena α) : Bool := a.items.isEmpty

def get? (a : Arena α) (key : Nat) : Option α := a.items[key]?

def push (a : Arena α) (item : α) : Arena α := ⟨a.items.push item⟩

def pushAll (a : Arena α) (items : List α) : Arena α := ⟨items.foldl Array.push a.items⟩

def set (a : Arena α) (key : Nat) (item : α) : Arena α := ⟨a.items.setIfInBounds key item⟩

def modify (a : Arena α) (key : Nat) (f : α → α) : Arena α := ⟨a.items.modify key f⟩

def keys (a : Arena α) : List Nat := List.range a.size

def values (a : Arena α) : List α := a.items.toList

def entries (a : Arena α) : List (Nat × α) := a.keys.zip a.values

@[simp] theorem size_push (a : Arena α) (item : α) : (a.push item).size = a.size + 1 := by
  simp [size, push]

@[simp] theorem values_pushAll (a : Arena α) (items : List α) :
    (a.pushAll items).values = a.values ++ items := by
  induction items generalizing a with
  | nil => simp [pushAll]
  | cons item items ih =>
    have h := ih (a.push item)
    simp only [pushAll, values, push, Array.toList_push, List.foldl_cons, List.append_assoc,
      List.cons_append, List.nil_append] at h ⊢
    exact h

theorem length_values (a : Arena α) : a.values.length = a.size := by simp [values, size]

@[simp] theorem size_pushAll (a : Arena α) (items : List α) :
    (a.pushAll items).size = a.size + items.length := by
  rw [← length_values, values_pushAll, List.length_append, length_values]

theorem get?_eq_values (a : Arena α) (key : Nat) : a.get? key = a.values[key]? := by
  simp [get?, values]

@[simp] theorem get?_push_self (a : Arena α) (item : α) :
    (a.push item).get? a.nextKey = some item := by
  simp [get?, push, nextKey, size]

theorem get?_push_of_lt (a : Arena α) (item : α) {key : Nat} (h : key < a.size) :
    (a.push item).get? key = a.get? key := by
  simp only [size] at h
  simp [get?, push, Array.getElem?_push, Nat.ne_of_lt h]

theorem get?_pushAll_of_lt (a : Arena α) (items : List α) {key : Nat} (h : key < a.size) :
    (a.pushAll items).get? key = a.get? key := by
  rw [get?_eq_values, get?_eq_values, values_pushAll, List.getElem?_append_left]
  rwa [length_values]

theorem filterMap_get?_keys (a : Arena α) : a.keys.filterMap a.get? = a.values := by
  have hlist : ∀ items : List α,
      (List.range items.length).filterMap (fun key => items[key]?) = items := by
    intro items
    induction items with
    | nil => rfl
    | cons item items ih =>
      rw [List.length_cons, List.range_succ_eq_map, List.filterMap_cons, List.filterMap_map]
      exact congrArg (item :: ·) ih
  rw [keys, ← length_values, funext a.get?_eq_values, hlist]

end Arena
end ChannelCodec
