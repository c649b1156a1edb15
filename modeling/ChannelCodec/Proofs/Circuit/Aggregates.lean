import ChannelCodec.Proofs.Bits.Signs
import ChannelCodec.Proofs.Circuit.Sizes

/-! Aggregates in circuits. Operations that put structs and arrays together and operations that take
them apart agree on where fields and elements are, also where casts and aliases come between them. -/
namespace ChannelCodec.Circuit

def Makes (c : Circuit) (gate : Gate) (operands : List Nat) (v : Nat) : Prop :=
  ∃ i o, c.operations.get? i = some o ∧ o.kind = .compute gate ∧ o.operands = operands ∧
    o.results = [v]

/-- The value `w` is made of `v` by casts alone. -/
inductive Recast (c : Circuit) (v : Nat) : Nat → Prop
  | self : Recast c v v
  | cast {u w : Nat} (earlier : Recast c v u) (makes : c.Makes .bitcast [u] w) : Recast c v w

/-- The value `w` is made of `v` by casts that come back to the type of `v`, up to aliases of it and
in it. -/
def Restored (c : Circuit) (v w : Nat) : Prop :=
  c.Recast v w ∧ (c.type? w).map HwType.unaliased = (c.type? v).map HwType.unaliased

def array? (c : Circuit) (v : Nat) : Option (HwType × Nat) := (c.type? v).bind HwType.array?

def size (c : Circuit) (v : Nat) : Nat := ((c.array? v).map (·.2)).getD 0

def elementWidth (c : Circuit) (v : Nat) : Nat := ((c.array? v).map (·.1.bitWidth)).getD 0

def element (c : Circuit) (value : Nat → Bits) (v k : Nat) : Bits :=
  (value v).slice (k * c.elementWidth v) (c.elementWidth v)

/-- The values of a circuit follow one packing of structs and arrays. -/
structure OnePacking (c : Circuit) (value : Nat → Bits) : Prop where
  /-- A field of a struct is what the struct was made of. -/
  field : ∀ (t : HwType) (fields : List (Field HwType)) (values : List Nat) (v w k : Nat)
    (f : Field HwType) (x : Nat), c.type? v = some t → t.struct? = some fields →
      (fields.map (·.name)).Nodup → c.Makes .structCreate values v → c.Restored v w →
        fields[k]? = some f → c.Makes (.structExtract f.name) [w] x →
          ∃ u, values[k]? = some u ∧ value x = value u
  /-- An index is read as a number of 64 bits, which is enough for `2 ^ 64` elements. -/
  get : ∀ v w i x, c.Restored v w → c.size v ≤ 2 ^ (64 : Nat) → c.Makes .arrayGet [w, i] x →
    value x = c.element value v (value i).toNat
  past : ∀ v k, c.size v ≤ k → c.element value v k = .zero (c.elementWidth v)
  created : ∀ values v, c.Makes .arrayCreate values v → c.size v = values.length ∧
    ∀ k u, values[k]? = some u → c.element value v k = value u
  /-- The elements of an array come behind those of the arrays after it. -/
  joined : ∀ arrays v, c.Makes .arrayConcat arrays v → c.size v = total (arrays.map c.size) ∧
    ∀ m u w, arrays[m]? = some w → c.Restored u w → ∀ k < c.size u,
      c.element value v (total ((arrays.drop (m + 1)).map c.size) + k) = c.element value u k
  /-- Elements that are cut out past the end of an array are zeros, as `past` says. -/
  cut : ∀ v w i x, c.Restored v w → c.size v ≤ 2 ^ (64 : Nat) → c.Makes .arraySlice [w, i] x →
    ∀ k < c.size x, c.element value x k = c.element value v ((value i).toNat + k)

variable {known : String → List Port → Prop} {c : Circuit} {e : Setting}

theorem array?_of_type {v size : Nat} {t element : HwType} (ht : c.type? v = some t)
    (ha : t.array? = some (element, size)) : c.array? v = some (element, size) := by
  rw [array?, ht, Option.bind_some, ha]

theorem size_of_array? {v size : Nat} {element : HwType} (h : c.array? v = some (element, size)) :
    c.size v = size := by
  rw [Circuit.size, h]
  rfl

theorem elementWidth_of_array? {v size : Nat} {element : HwType}
    (h : c.array? v = some (element, size)) : c.elementWidth v = element.bitWidth := by
  rw [elementWidth, h]
  rfl

theorem Restored.type {v w : Nat} (h : c.Restored v w) {t : HwType} (ht : c.type? v = some t) :
    ∃ s, c.type? w = some s ∧ s.unaliased = t.unaliased := by
  have hsame := h.2
  rw [ht] at hsame
  exact Option.map_eq_some_iff.mp hsame

theorem Restored.map_array? {α : Type} {f : HwType × Nat → α} {v w : Nat} (h : c.Restored v w)
    (hf : ∀ t size, f (t.unaliased, size) = f (t, size)) :
    (c.array? w).map f = (c.array? v).map f := by
  have hunaliased : ∀ v, (c.array? v).map f =
      ((c.type? v).map HwType.unaliased).bind fun t => t.array?.map f := by
    intro v
    unfold Circuit.array?
    cases c.type? v with
    | none => rfl
    | some t =>
      rw [Option.map_some, Option.bind_some, Option.bind_some, HwType.array?_unaliased,
        Option.map_map]
      congr 1
      funext p
      exact (hf p.1 p.2).symm
  rw [hunaliased, hunaliased, h.2]

theorem Restored.size {v w : Nat} (h : c.Restored v w) : c.size w = c.size v := by
  rw [Circuit.size, Circuit.size, h.map_array? fun _ _ => rfl]

theorem Restored.elementWidth {v w : Nat} (h : c.Restored v w) :
    c.elementWidth w = c.elementWidth v := by
  rw [Circuit.elementWidth, Circuit.elementWidth,
    h.map_array? fun t _ => HwType.bitWidth_unaliased t]

theorem WellTyped.makes (hc : c.WellTyped known) (he : e.Sized known c) {gate : Gate}
    {operands : List Nat} {v : Nat} (h : c.Makes gate operands v) :
    ∃ types t, c.Types operands types ∧ gate.Typed types t ∧ c.type? v = some t ∧
      gate.eval t.bitWidth types (operands.map (c.meaning e)) = .ok (c.meaning e v) := by
  obtain ⟨i, o, ho, hkind, rfl, hv⟩ := h
  obtain ⟨types, t, htypes, htyped, hresults⟩ := (hc.typed i o ho).of_gate hkind
  rw [hv] at hresults
  obtain ⟨v', hv', ht⟩ := hresults.singleton
  cases hv'
  refine ⟨types, t, htypes, htyped, ht, ?_⟩
  cases hc.performs he ho with
  | @compute gate' v' hkind' hv' heval =>
    cases hkind.symm.trans hkind'
    cases hv.symm.trans hv'
    rwa [resultWidth_eq hv ht, operandTypes_eq htypes] at heval
  | instantiate hkind' =>
    rw [hkind] at hkind'
    cases hkind'
  | observe hkind' =>
    rw [hkind] at hkind'
    simp at hkind'

theorem WellTyped.meaning_recast (hc : c.WellTyped known) (he : e.Sized known c) {v w : Nat}
    (h : c.Recast v w) : c.meaning e w = c.meaning e v := by
  induction h with
  | self => rfl
  | @cast u w _ hmakes ih =>
    obtain ⟨types, t, -, -, -, heval⟩ := hc.makes he hmakes
    simp only [List.map_cons, List.map_nil, Gate.eval, Except.ok.injEq] at heval
    exact heval.symm.trans ih

theorem WellTyped.lowNat_index (hc : c.WellTyped known) (he : e.Sized known c) {i size : Nat}
    {t : HwType} (ht : c.type? i = some t) (hwidth : t.bitWidth = indexWidth size)
    (hsize : size ≤ 2 ^ (64 : Nat)) : (c.meaning e i).lowNat = (c.meaning e i).toNat := by
  have hfits : (c.meaning e i).width = t.bitWidth := hc.fits_meaning he ht
  have hshort : (c.meaning e i).width ≤ 64 := by
    rw [hfits, hwidth]
    exact indexWidth_le (by decide) hsize
  exact Bits.lowNat_of_lt (Bits.toNat_lt_of_width_le hshort)

theorem WellTyped.fits_all (hc : c.WellTyped known) (he : e.Sized known c) {values : List Nat}
    {types : List HwType} (h : c.Types values types) :
    List.Forall₂ HwType.Fits types (values.map (c.meaning e)) :=
  h.fits_iff.mpr fun _ _ _ ht => hc.fits_meaning he ht

private theorem WellTyped.field (hc : c.WellTyped known) (he : e.Sized known c) {t : HwType}
    {fields : List (Field HwType)} {values : List Nat} {v w k x : Nat} {f : Field HwType}
    (ht : c.type? v = some t) (hfields : t.struct? = some fields)
    (hn : (fields.map (·.name)).Nodup) (hmakes : c.Makes .structCreate values v)
    (hrestored : c.Restored v w) (hf : fields[k]? = some f)
    (hextract : c.Makes (.structExtract f.name) [w] x) :
    ∃ u, values[k]? = some u ∧ c.meaning e x = c.meaning e u := by
  obtain ⟨types, t', htypes, htyped, ht', heval⟩ := hc.makes he hmakes
  cases ht.symm.trans ht'
  cases htyped with
  | structCreate hstruct =>
    cases hfields.symm.trans hstruct
    obtain ⟨sources, t', hsources, -, -, heval'⟩ := hc.makes he hextract
    obtain ⟨s, hs, hsame⟩ := hrestored.type ht
    obtain _ | ⟨hw, _ | _⟩ := hsources
    cases hs.symm.trans hw
    have hrange : s.fieldRange f.name =
        (HwType.fieldsWidth (fields.drop (k + 1)), f.type.bitWidth) := by
      rw [← HwType.fieldRange_unaliased, hsame, HwType.fieldRange_unaliased, HwType.fieldRange,
        HwType.fieldPlace?, hfields, Option.bind_some, HwType.placeOf?_of_nodup hn hf]
    simp only [List.map_cons, List.map_nil, Gate.eval, hrange, Except.ok.injEq] at heval heval'
    rw [hc.meaning_recast he hrestored.1, ← heval] at heval'
    -- The struct splits into what it was made of, and field `k` is part `k`.
    have hwidths : (values.map (c.meaning e)).map Bits.width = fields.map (·.type.bitWidth) := by
      rw [map_width_of_fits (hc.fits_all he htypes), List.map_map]
      rfl
    have hparts := HwType.unpacked_concat hwidths
    have hpart := HwType.getElem?_unpacked hf (.concat (values.map (c.meaning e)))
    rw [hparts, heval', List.getElem?_map, Option.map_eq_some_iff] at hpart
    obtain ⟨u, hu, hmeaning⟩ := hpart
    exact ⟨u, hu, hmeaning.symm⟩

private theorem WellTyped.get (hc : c.WellTyped known) (he : e.Sized known c) {v w i x : Nat}
    (hrestored : c.Restored v w) (hsize : c.size v ≤ 2 ^ (64 : Nat))
    (hmakes : c.Makes .arrayGet [w, i] x) :
    c.meaning e x = c.element (c.meaning e) v (c.meaning e i).toNat := by
  obtain ⟨types, t, htypes, htyped, -, heval⟩ := hc.makes he hmakes
  cases htyped with
  | @arrayGet array element index size helements hsignless hwidth =>
    obtain _ | ⟨hw, _ | ⟨hi, _ | _⟩⟩ := htypes
    have harray := array?_of_type hw helements
    rw [← hrestored.size, size_of_array? harray] at hsize
    simp only [List.map_cons, List.map_nil, Gate.eval, Except.ok.injEq] at heval
    rw [Circuit.element, ← hrestored.elementWidth, elementWidth_of_array? harray, ← heval,
      HwType.elementWidth_of_array? helements, hc.lowNat_index he hi hwidth hsize,
      hc.meaning_recast he hrestored.1]

private theorem WellTyped.past (hc : c.WellTyped known) (he : e.Sized known c) {v k : Nat}
    (h : c.size v ≤ k) : c.element (c.meaning e) v k = .zero (c.elementWidth v) := by
  unfold Circuit.element
  cases harray : c.array? v with
  | none =>
    have hnone : c.elementWidth v = 0 := by
      rw [elementWidth, harray]
      rfl
    rw [hnone, Bits.slice_zero_width]
  | some p =>
    obtain ⟨element, size⟩ := p
    obtain ⟨t, ht, ha⟩ := Option.bind_eq_some_iff.mp harray
    rw [size_of_array? harray] at h
    rw [elementWidth_of_array? harray]
    apply Bits.slice_of_width_le
    have hwidth : (c.meaning e v).width = t.bitWidth := hc.fits_meaning he ht
    rw [hwidth, HwType.bitWidth_of_array? ha, Nat.mul_comm]
    exact Nat.mul_le_mul_right _ h

private theorem WellTyped.created (hc : c.WellTyped known) (he : e.Sized known c)
    {values : List Nat} {v : Nat} (hmakes : c.Makes .arrayCreate values v) :
    c.size v = values.length ∧
      ∀ k u, values[k]? = some u → c.element (c.meaning e) v k = c.meaning e u := by
  obtain ⟨types, t, htypes, htyped, ht, heval⟩ := hc.makes he hmakes
  cases htyped with
  | @arrayCreate _ element hsame hsome =>
    have harray : c.array? v = some (element, types.length) := array?_of_type ht rfl
    refine ⟨(size_of_array? harray).trans htypes.length_eq.symm, fun k u hk => ?_⟩
    have huniform : ∀ x ∈ values.map (c.meaning e), x.width = element.bitWidth := by
      intro x hx
      have hmem := List.mem_map_of_mem (f := Bits.width) hx
      rw [map_width_of_fits (hc.fits_all he htypes)] at hmem
      obtain ⟨u, hu, hwidth⟩ := List.mem_map.mp hmem
      rw [← hwidth, hsame u hu]
    obtain ⟨hlt, hu⟩ := List.getElem?_eq_some_iff.mp hk
    simp only [Gate.eval, Except.ok.injEq] at heval
    rw [Circuit.element, elementWidth_of_array? harray, ← heval,
      Bits.slice_ofElements huniform (by simpa using hlt), List.getElem_map, hu]

theorem WellTyped.of_joined (hc : c.WellTyped known) (he : e.Sized known c) {arrays : List Nat}
    {types : List HwType} {element : HwType} {size : Nat} (h : element.Joined types size)
    (htypes : c.Types arrays types) : total (arrays.map c.size) = size ∧
      ∀ u ∈ arrays, c.elementWidth u = element.bitWidth ∧
        (c.meaning e u).width = element.bitWidth * c.size u := by
  induction h generalizing arrays with
  | nil =>
    cases htypes
    exact ⟨rfl, List.forall_mem_nil _⟩
  | @cons t types size rest ha _ ih =>
    cases htypes with
    | @cons v _ arrays _ ht hrest =>
      have harray := array?_of_type ht ha
      have hwidth : (c.meaning e v).width = t.bitWidth := hc.fits_meaning he ht
      obtain ⟨hsum, hall⟩ := ih hrest
      rw [List.map_cons, total_cons, hsum, size_of_array? harray]
      refine ⟨rfl, List.forall_mem_cons.mpr ⟨⟨elementWidth_of_array? harray, ?_⟩, hall⟩⟩
      rw [hwidth, HwType.bitWidth_of_array? ha, size_of_array? harray]

private theorem WellTyped.joined (hc : c.WellTyped known) (he : e.Sized known c) {arrays : List Nat}
    {v : Nat} (hmakes : c.Makes .arrayConcat arrays v) : c.size v = total (arrays.map c.size) ∧
      ∀ m u w, arrays[m]? = some w → c.Restored u w → ∀ k < c.size u,
        c.element (c.meaning e) v (total ((arrays.drop (m + 1)).map c.size) + k) =
          c.element (c.meaning e) u k := by
  obtain ⟨types, t, htypes, htyped, ht, heval⟩ := hc.makes he hmakes
  cases htyped with
  | @arrayConcat _ element size hjoined hsome =>
    have harray : c.array? v = some (element, size) := array?_of_type ht rfl
    obtain ⟨hsum, hall⟩ := hc.of_joined he hjoined htypes
    refine ⟨(size_of_array? harray).trans hsum.symm, fun m u w hm hrestored k hk => ?_⟩
    obtain ⟨hlt, hw⟩ := List.getElem?_eq_some_iff.mp hm
    obtain ⟨helement, hwidth⟩ := hall w (hw ▸ List.getElem_mem hlt)
    have hstart : Bits.partStart (arrays.map (c.meaning e)) m =
        element.bitWidth * total ((arrays.drop (m + 1)).map c.size) := by
      rw [Bits.partStart, ← List.map_drop, List.map_map, ← total_map_mul, List.map_map]
      congr 1
      exact List.map_congr_left fun u hu => (hall u (List.mem_of_mem_drop hu)).2
    have hpart := @Bits.slice_concat (arrays.map (c.meaning e)) m (by simpa using hlt)
    simp only [List.getElem_map, hw, hstart, hwidth, hrestored.size] at hpart
    have hroom := element_stop_le element.bitWidth hk
    simp only [Gate.eval, Except.ok.injEq] at heval
    rw [Circuit.element, Circuit.element, elementWidth_of_array? harray, ← hrestored.elementWidth,
      helement, ← heval, Bits.ofElements_eq_concat, List.reverse_reverse,
      ← hc.meaning_recast he hrestored.1, ← hpart, Bits.slice_slice _ hroom, Nat.add_mul,
      Nat.mul_comm element.bitWidth]

private theorem WellTyped.cut (hc : c.WellTyped known) (he : e.Sized known c) {v w i x : Nat}
    (hrestored : c.Restored v w) (hsize : c.size v ≤ 2 ^ (64 : Nat))
    (hmakes : c.Makes .arraySlice [w, i] x) {k : Nat} (hk : k < c.size x) :
    c.element (c.meaning e) x k = c.element (c.meaning e) v ((c.meaning e i).toNat + k) := by
  obtain ⟨types, t, htypes, htyped, ht, heval⟩ := hc.makes he hmakes
  cases htyped with
  | @arraySlice array element index size count helements hinside hsignless hwidth =>
    obtain _ | ⟨hw, _ | ⟨hi, _ | _⟩⟩ := htypes
    have harray := array?_of_type hw helements
    have hresult : c.array? x = some (element, count) := array?_of_type ht rfl
    rw [← hrestored.size, size_of_array? harray] at hsize
    rw [size_of_array? hresult] at hk
    simp only [List.map_cons, List.map_nil, Gate.eval, Except.ok.injEq] at heval
    have hroom := element_stop_le element.bitWidth hk
    rw [Circuit.element, Circuit.element, ← hrestored.elementWidth, elementWidth_of_array? harray,
      elementWidth_of_array? hresult, ← heval, HwType.elementWidth_of_array? helements,
      hc.lowNat_index he hi hwidth hsize, hc.meaning_recast he hrestored.1,
      HwType.bitWidth_array, Bits.slice_slice _ hroom, Nat.add_mul]

theorem WellTyped.onePacking (hc : c.WellTyped known) (he : e.Sized known c) :
    c.OnePacking (c.meaning e) where
  field _ _ _ _ _ _ _ _ ht hfields hn hmakes hrestored hf hextract :=
    hc.field he ht hfields hn hmakes hrestored hf hextract
  get _ _ _ _ hrestored hsize hmakes := hc.get he hrestored hsize hmakes
  past _ _ h := hc.past he h
  created _ _ hmakes := hc.created he hmakes
  joined _ _ hmakes := hc.joined he hmakes
  cut _ _ _ _ hrestored hsize hmakes _ hk := hc.cut he hrestored hsize hmakes hk

end ChannelCodec.Circuit
