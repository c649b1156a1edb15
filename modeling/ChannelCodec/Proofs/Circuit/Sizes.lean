import ChannelCodec.Proofs.Circuit.WellTyped

/-! Sizes of meanings. In a well-typed circuit, every value means a vector as wide as its type if
the inputs and the outputs of other circuits are as wide as their ports; and every gate has a
result. -/
namespace ChannelCodec

def Fit (ports : List Port) (xs : List Bits) : Prop :=
  List.Forall₂ (fun port x => port.type.Fits x) ports xs

/-- Inputs fit the ports of `c`, and so do the outputs of its callees if their inputs do. -/
structure Setting.Sized (e : Setting) (known : String → List Port → Prop) (c : Circuit) :
    Prop where
  inputs : Fit c.inputPorts e.inputs
  callee : ∀ callee ∈ c.callees, ∀ ports xs, known callee ports →
    Fit (portsOf .input ports) xs → Fit (portsOf .output ports) (e.callee callee xs)

namespace Circuit
variable {known : String → List Port → Prop} {c : Circuit} {e : Setting}

theorem get?_of_origin? {v : Nat} {origin : Origin} (h : c.origin? v = some origin) :
    ∃ x, c.values.get? v = some x ∧ x.origin = origin :=
  Option.map_eq_some_iff.mp h

theorem mem_callees {callee : String} : callee ∈ c.callees ↔
    ∃ i o name, c.operations.get? i = some o ∧ o.kind = .instantiate callee name := by
  unfold callees
  rw [List.mem_eraseDups, List.mem_filterMap]
  constructor
  · rintro ⟨o, ho, hk⟩
    obtain ⟨i, hi⟩ := List.mem_iff_getElem?.mp ho
    split at hk
    next callee' name hkind =>
      cases hk
      exact ⟨i, o, name, by rw [Arena.get?_eq_values, hi], hkind⟩
    next => cases hk
  · rintro ⟨i, o, name, hi, hkind⟩
    rw [Arena.get?_eq_values] at hi
    exact ⟨o, List.mem_of_getElem? hi, by rw [hkind]⟩

theorem operandTypes_eq {o : Operation} {types : List HwType} (h : c.Types o.operands types) :
    c.operandTypes o = types := by
  unfold operandTypes
  generalize o.operands = operands at h
  induction h with
  | nil => rfl
  | cons hv _ ih => rw [List.filterMap_cons_some hv, ih]

theorem Types.singleton {values : List Nat} {t : HwType} (h : c.Types values [t]) :
    ∃ v, values = [v] ∧ c.type? v = some t := by
  obtain ⟨v, rest, hv, hrest, rfl⟩ := List.forall₂_cons_right_iff.mp h
  obtain rfl := List.forall₂_nil_right_iff.mp hrest
  exact ⟨v, rfl, hv⟩

theorem resultWidth_eq {o : Operation} {v : Nat} {t : HwType} (hv : o.results = [v])
    (ht : c.type? v = some t) : c.resultWidth o = t.bitWidth := by
  unfold resultWidth
  rw [hv, List.head?_cons, Option.bind_some, ht]
  rfl

theorem Types.fits_iff {values : List Nat} {types : List HwType} (h : c.Types values types) :
    List.Forall₂ HwType.Fits types (values.map (c.meaning e)) ↔
      ∀ v ∈ values, ∀ t, c.type? v = some t → t.Fits (c.meaning e v) := by
  induction h with
  | nil => simp
  | @cons v t values types hv _ ih =>
    rw [List.map_cons, List.forall₂_cons, ih, List.forall_mem_cons, hv]
    simp only [Option.some.injEq, forall_eq']

theorem fit_iff {ports : List Port} {xs : List Bits} :
    Fit ports xs ↔ List.Forall₂ HwType.Fits (ports.map (·.type)) xs :=
  List.forall₂_map_left_iff.symm

theorem WellTyped.lt_of_operand (hc : c.WellTyped known) {i : Nat} {o : Operation}
    (ho : c.operations.get? i = some o) {w : Nat} (hw : w ∈ o.operands) : w < c.values.size := by
  cases hc.typed i o ho with
  | compute _ hoperands _ _ => exact hoperands.lt w hw
  | instantiate _ _ hoperands _ => exact hoperands.lt w hw
  | observe _ hoperands _ => exact hoperands.lt w hw

inductive Performs (c : Circuit) (e : Setting) (o : Operation) : Prop
  | compute {gate : Gate} {v : Nat} (kind : o.kind = .compute gate) (results : o.results = [v])
    (eval : gate.eval (c.resultWidth o) (c.operandTypes o) (o.operands.map (c.meaning e)) =
      .ok (c.meaning e v))
  | instantiate {callee name : String} (kind : o.kind = .instantiate callee name)
    (outputs : e.callee callee (o.operands.map (c.meaning e)) = o.results.map (c.meaning e))
  | observe {v : Nat}
    (kind : o.kind = .always ∨ o.kind = .branch ∨ ∃ message, o.kind = .assertion message)
    (operands : o.operands = [v]) (results : o.results = [])

private theorem WellTyped.outcomes (hc : c.WellTyped known) {i : Nat} {o : Operation}
    (ho : c.operations.get? i = some o) {outcomes : List Bits}
    (hlength : outcomes.length = o.results.length)
    (houtcomes : ∀ n x, outcomes[n]? = some x →
      c.resultOf e o (o.operands.map (c.meaning e)) n = x) :
    outcomes = o.results.map (c.meaning e) := by
  refine List.ext_getElem (by rw [hlength, List.length_map]) fun n hn hn' => ?_
  rw [List.getElem_map]
  rw [List.length_map] at hn'
  have hv : o.results[n]? = some o.results[n] := List.getElem?_eq_getElem hn'
  have hearlier : ∀ w ∈ o.operands, w < o.results[n] := fun w hw =>
    hc.earlier i o ho w hw _ (List.getElem_mem hn')
  obtain ⟨x, hx, horigin⟩ := get?_of_origin? (hc.result i o n _ ho hv)
  rw [meaning_result hx horigin ho hearlier]
  exact (houtcomes n _ (List.getElem?_eq_getElem hn)).symm

theorem WellTyped.performs_of_fits (hc : c.WellTyped known) (he : e.Sized known c) {i : Nat}
    {o : Operation} (ho : c.operations.get? i = some o)
    (hfits : ∀ w ∈ o.operands, ∀ t, c.type? w = some t → t.Fits (c.meaning e w)) :
    c.Performs e o ∧ ∀ v ∈ o.results, ∀ t, c.type? v = some t → t.Fits (c.meaning e v) := by
  cases hc.typed i o ho with
  | @compute gate types t hkind hoperands hgate hresults =>
    obtain ⟨b, heval, hb⟩ := hgate.eval (hoperands.fits_iff.mpr hfits)
    obtain ⟨v, hv, htype⟩ := hresults.singleton
    rw [← resultWidth_eq hv htype, ← operandTypes_eq hoperands] at heval
    have hmeaning : [b] = o.results.map (c.meaning e) := by
      refine hc.outcomes ho (by rw [hv]; rfl) ?_
      intro n x hx
      rw [List.getElem?_singleton, Option.ite_none_right_eq_some, Option.some.injEq] at hx
      obtain ⟨-, rfl⟩ := hx
      unfold resultOf
      simp only [hkind, heval]
    refine ⟨.compute hkind hv ?_, hresults.fits_iff.mp ?_⟩
    · rw [hv, List.map_singleton, List.cons.injEq] at hmeaning
      rw [heval, hmeaning.1]
    · rw [← hmeaning]
      exact .cons hb .nil
  | @instantiate callee name ports hkind hknown hoperands hresults =>
    have hout := fit_iff.mp (he.callee callee (mem_callees.mpr ⟨i, o, name, ho, hkind⟩) ports _
      hknown (fit_iff.mpr (hoperands.fits_iff.mpr hfits)))
    have hmeaning : e.callee callee (o.operands.map (c.meaning e)) =
        o.results.map (c.meaning e) := by
      refine hc.outcomes ho (hout.length_eq.symm.trans hresults.length_eq.symm) ?_
      intro n x hx
      unfold resultOf
      simp only [hkind]
      rw [List.getD_eq_getElem?_getD, hx]
      rfl
    refine ⟨.instantiate hkind hmeaning, hresults.fits_iff.mp ?_⟩
    rw [← hmeaning]
    exact hout
  | observe hkind hoperands hresults =>
    obtain ⟨v, hv, -⟩ := hoperands.singleton
    refine ⟨.observe hkind hv hresults, ?_⟩
    rw [hresults]
    exact List.forall_mem_nil _

theorem WellTyped.map_meaning_inputs (hc : c.WellTyped known) (he : e.Sized known c) :
    (List.range c.inputPorts.length).map (c.meaning e) = e.inputs := by
  have hlength : c.inputPorts.length = e.inputs.length := he.inputs.length_eq
  refine List.ext_getElem (by rw [List.length_map, List.length_range, hlength]) fun v hv hv' => ?_
  rw [List.getElem_map, List.getElem_range]
  have hin : v < c.inputPorts.length := hlength ▸ hv'
  obtain ⟨x, hx, hinput⟩ := get?_of_origin? (hc.input v _ (List.getElem?_eq_getElem hin)).1
  rw [meaning_input hx hinput, List.getD_eq_getElem?_getD, List.getElem?_eq_getElem hv']
  rfl

theorem WellTyped.fits_meaning (hc : c.WellTyped known) (he : e.Sized known c) {v : Nat}
    {t : HwType} (ht : c.type? v = some t) : t.Fits (c.meaning e v) := by
  induction v using Nat.strongRecOn generalizing t with
  | ind v ih =>
    rcases hc.origin v (lt_of_type? ht) with ⟨horigin, hv⟩ | ⟨i, n, o, horigin, ho, hn⟩
    · have hport := hc.input v _ (List.getElem?_eq_getElem hv)
      obtain rfl := Option.some.inj (ht.symm.trans hport.2)
      have hget : e.inputs[v]? = some (c.meaning e v) := by
        rw [← hc.map_meaning_inputs he, List.getElem?_map, List.getElem?_range hv]
        rfl
      obtain ⟨hlength, hmeaning⟩ := List.getElem?_eq_some_iff.mp hget
      rw [← hmeaning]
      exact he.inputs.get hv hlength
    · have hmem := List.mem_of_getElem? hn
      exact (hc.performs_of_fits he ho fun w hw t ht =>
        ih w (hc.earlier i o ho w hw v hmem) ht).2 v hmem t ht

theorem WellTyped.performs (hc : c.WellTyped known) (he : e.Sized known c) {i : Nat}
    {o : Operation} (ho : c.operations.get? i = some o) : c.Performs e o :=
  (hc.performs_of_fits he ho fun _ _ _ => hc.fits_meaning he).1

end Circuit
end ChannelCodec
