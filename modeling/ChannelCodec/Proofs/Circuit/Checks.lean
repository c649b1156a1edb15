import ChannelCodec.Proofs.Circuit.Calls

/-! Checks of construction steps. On operands that pass its checks, a step only adds its gate. -/
namespace ChannelCodec.Build
variable {α β : Type} {b : Builder} {v w : Nat} {s t : HwType} {values : List Nat}
variable {types : List HwType}

theorem bind_eq {m : Build α} {f : α → Build β} {a : α} {b' : Builder}
    {outcome : EStateM.Result Failure Builder β} (h : m b = .ok a b') (hf : f a b' = outcome) :
    (m >>= f) b = outcome := by
  simp only [Bind.bind, EStateM.bind, h]
  exact hf

theorem require_eq {p : Prop} [Decidable p] (h : p) (mistake : Misuse) (b : Builder) :
    require p mistake b = .ok () b := by
  rw [require, if_pos h]
  rfl

theorem expect_eq {o : Option α} {a : α} (h : o = some a) (mistake : Misuse) (b : Builder) :
    expect o mistake b = .ok a b := by
  rw [h]
  rfl

theorem mapM_eq {f : Nat → Build α} {results : List α}
    (h : List.Forall₂ (fun v a => f v b = .ok a b) values results) :
    values.mapM f b = .ok results b := by
  induction h with
  | nil => rfl
  | cons hv _ ih =>
    rw [List.mapM_cons]
    exact bind_eq hv (bind_eq ih rfl)

theorem typeOf_eq (hv : b.circuit.type? v = some t) : typeOf v b = .ok t b :=
  expect_eq hv _ b

theorem typesOf_eq (h : b.circuit.Types values types) : typesOf values b = .ok types b :=
  mapM_eq (h.imp fun _ _ hv => typeOf_eq hv)

theorem widthOf_eq (hv : b.circuit.type? v = some t) : widthOf v b = .ok t.bitWidth b :=
  bind_eq (typeOf_eq hv) rfl

theorem signlessWidth_eq (hv : b.circuit.type? v = some t) (ht : t.isSignless = true)
    (operation : String) : signlessWidth v operation b = .ok t.bitWidth b :=
  bind_eq (typeOf_eq hv) (bind_eq (require_eq ht _ b) rfl)

private theorem signlessWidths_eq (h : b.circuit.Types values types)
    (ht : ∀ t ∈ types, t.isSignless = true) (operation : String) :
    values.mapM (signlessWidth · operation) b = .ok (types.map HwType.bitWidth) b := by
  refine mapM_eq ?_
  induction h with
  | nil => exact .nil
  | cons hv _ ih =>
    obtain ⟨ht, htypes⟩ := List.forall_mem_cons.mp ht
    exact .cons (signlessWidth_eq hv ht operation) (ih htypes)

theorem requireTypes_eq (mistake : String → Misuse) {fields : List (Field HwType)}
    (h : b.circuit.Types values (fields.map (·.type))) :
    requireTypes mistake fields values b = .ok () b := by
  induction fields generalizing values with
  | nil =>
    obtain rfl := List.forall₂_nil_right_iff.mp h
    rfl
  | cons field fields ih =>
    obtain ⟨v, values, hv, hrest, rfl⟩ := List.forall₂_cons_right_iff.mp h
    exact bind_eq (typeOf_eq hv) (bind_eq (require_eq rfl _ b) (ih hrest))

theorem checkIndex_eq {size : Nat} (hv : b.circuit.type? v = some t) (ht : t.isSignless = true)
    (hwidth : t.bitWidth = indexWidth size) : checkIndex size v b = .ok () b :=
  bind_eq (signlessWidth_eq hv ht _) (require_eq hwidth _ b)

private theorem joinedArrays_eq {element : HwType} {size : Nat} (h : element.Joined types size) :
    joinedArrays element types b = .ok size b := by
  induction h with
  | nil => rfl
  | cons harray _ ih =>
    exact bind_eq (expect_eq harray _ b) (bind_eq (require_eq rfl _ b) (bind_eq ih rfl))

theorem constant_eq {x : Bits} (h : t.bitWidth = x.width) :
    constant t x b = addGate (.constant x) [] t b :=
  bind_eq (require_eq h _ b) rfl

theorem bitcast_eq (hv : b.circuit.type? v = some s) (h : s.bitWidth = t.bitWidth) :
    bitcast v t b = addGate .bitcast [v] t b :=
  bind_eq (typeOf_eq hv) (bind_eq (require_eq h _ b) rfl)

theorem extract_eq (hv : b.circuit.type? v = some t) (ht : t.isSignless = true) {low width : Nat}
    (h : low + width ≤ t.bitWidth) :
    extract v low width b = addGate (.extract low) [v] (.bits width) b :=
  bind_eq (signlessWidth_eq hv ht _) (bind_eq (require_eq h _ b) rfl)

theorem concat_eq (h : b.circuit.Types values types) (ht : ∀ t ∈ types, t.isSignless = true) :
    concat values b = addGate .concat values (.bits (total (types.map HwType.bitWidth))) b :=
  bind_eq (signlessWidths_eq h ht _) rfl

section Pair
variable (hv : b.circuit.type? v = some t) (hw : b.circuit.type? w = some t)
variable (ht : t.isSignless = true)
include hv hw ht

theorem add_eq : add v w b = addGate .add [v, w] t b := by
  refine bind_eq (signlessWidth_eq hv ht _) (bind_eq (typeOf_eq hv) ?_)
  exact bind_eq (typeOf_eq hw) (bind_eq (require_eq rfl _ b) rfl)

theorem compare_eq (predicate : Predicate) :
    compare predicate v w b = addGate (.compare predicate) [v, w] .bit b := by
  refine bind_eq (signlessWidth_eq hv ht _) (bind_eq (typeOf_eq hv) ?_)
  exact bind_eq (typeOf_eq hw) (bind_eq (require_eq rfl _ b) rfl)

end Pair

section Indexed
variable {element : HwType} {size : Nat}
variable (hv : b.circuit.type? v = some s) (hs : s.array? = some (element, size))
variable (hw : b.circuit.type? w = some t) (ht : t.isSignless = true)
variable (hwidth : t.bitWidth = indexWidth size)
include hv hs hw ht hwidth

theorem arraySlice_eq {count : Nat} (h : count ≤ size) :
    arraySlice v w count b = addGate .arraySlice [v, w] (.array count element) b := by
  refine bind_eq (typeOf_eq hv) (bind_eq (expect_eq hs _ b) ?_)
  exact bind_eq (require_eq h _ b) (bind_eq (checkIndex_eq hw ht hwidth) rfl)

theorem arrayGet_eq : arrayGet v w b = addGate .arrayGet [v, w] element b := by
  refine bind_eq (typeOf_eq hv) (bind_eq (expect_eq hs _ b) ?_)
  exact bind_eq (checkIndex_eq hw ht hwidth) rfl

end Indexed

theorem arrayCreate_eq {element : HwType} (h : b.circuit.Types values types)
    (hsame : ∀ t ∈ types, t = element) (hne : types ≠ []) :
    arrayCreate values b = addGate .arrayCreate values (.array types.length element) b := by
  obtain ⟨first, rest, rfl⟩ := List.exists_cons_of_ne_nil hne
  obtain rfl := hsame first List.mem_cons_self
  rw [← List.Forall₂.length_eq h]
  refine bind_eq (typesOf_eq h) (bind_eq (expect_eq rfl _ b) ?_)
  exact bind_eq (require_eq hsame _ b) rfl

theorem arrayConcat_eq {element : HwType} {size : Nat} (h : b.circuit.Types values types)
    (hjoined : element.Joined types size) (hne : types ≠ []) :
    arrayConcat values b = addGate .arrayConcat values (.array size element) b := by
  cases hjoined with
  | nil => exact absurd rfl hne
  | cons harray hrest =>
    refine bind_eq (typesOf_eq h) (bind_eq (expect_eq rfl _ b) ?_)
    exact bind_eq (expect_eq harray _ b) (bind_eq (joinedArrays_eq (.cons harray hrest)) rfl)

theorem structExtract_eq {field : String} (hv : b.circuit.type? v = some s)
    (h : s.fieldType? field = some t) :
    structExtract v field b = addGate (.structExtract field) [v] t b :=
  bind_eq (typeOf_eq hv) (bind_eq (expect_eq h _ b) rfl)

theorem structCreate_eq {fields : List (Field HwType)} (ht : t.struct? = some fields)
    (h : b.circuit.Types values (fields.map (·.type))) :
    structCreate t values b = addGate .structCreate values t b := by
  have hlength : fields.length = values.length := by
    rw [List.Forall₂.length_eq h, List.length_map]
  refine bind_eq (expect_eq ht _ b) (bind_eq (require_eq hlength _ b) ?_)
  exact bind_eq (requireTypes_eq _ h) rfl

theorem always_eq (hv : b.circuit.type? v = some .bit) :
    always v b = .ok b.circuit.operations.size (b.append .always [v] []) :=
  bind_eq (typeOf_eq hv) (bind_eq (require_eq rfl _ b) rfl)

theorem branch_eq (hv : b.circuit.type? v = some .bit) :
    branch v b = .ok b.circuit.operations.size (b.append .branch [v] []) :=
  bind_eq (typeOf_eq hv) (bind_eq (require_eq rfl _ b) rfl)

theorem assertion_eq (hv : b.circuit.type? v = some .bit) (message : String) :
    assertion v message b =
      .ok b.circuit.operations.size (b.append (.assertion message) [v] []) :=
  bind_eq (typeOf_eq hv) (bind_eq (require_eq rfl _ b) rfl)

theorem enter_region_eq {owner : Nat} {o : Operation}
    (ho : b.circuit.operations.get? owner = some o) (hk : o.kind.hasRegion = true) :
    enter (.region owner) b = .ok () { b with block := .region owner } :=
  bind_eq (m := circuit) rfl (bind_eq (expect_eq ho _ b) (bind_eq (require_eq hk _ b) rfl))

theorem enter_body_eq (b : Builder) : enter .body b = .ok () { b with block := .body } := rfl

end ChannelCodec.Build
