import ChannelCodec.Proofs.Schema.Acceptance

/-! Structs that change over time. Fields are placed by ascending ordinal, and nothing but their
types decides where they go. So a declaration may be moved, renamed or given to a struct of another
name, and fields with new ordinals may be appended, without any field losing its place. -/
namespace ChannelCodec

namespace StructNode

def at? (n : StructNode) (ordinal : Nat) : Option NodeField :=
  n.fields.find? (·.ordinal = ordinal)

def type? (n : StructNode) (ordinal : Nat) : Option WireType := (n.at? ordinal).map (·.type)

def offset? (n : StructNode) (ordinal : Nat) : Option Nat := (n.at? ordinal).map (·.offset)

end StructNode

namespace StructSource
variable {s s' : StructSource} {p : Placement} {fields fields' : List FieldSource}

theorem map_fst_places (p : Placement) (fields : List FieldSource) :
    (places p fields).map (·.1) = fields.map (·.type) := by
  induction fields generalizing p with
  | nil => rfl
  | cons f fields ih => rw [places, List.map_cons, List.map_cons, ih]

theorem places_take (p : Placement) (fields : List FieldSource) (k : Nat) :
    places p (fields.take k) = (places p fields).take k := by
  induction fields generalizing p k with
  | nil => simp [places]
  | cons f fields ih =>
    cases k with
    | zero => rfl
    | succ k => rw [List.take_succ_cons, places, places, List.take_succ_cons, ih]

theorem places_congr (h : fields.map (·.type) = fields'.map (·.type)) :
    places p fields = places p fields' ∧ (placeAll p fields).2 = (placeAll p fields').2 := by
  induction fields generalizing p fields' with
  | nil =>
    obtain rfl := List.map_eq_nil_iff.mp h.symm
    exact ⟨rfl, rfl⟩
  | cons f fields ih =>
    obtain ⟨f', fields', rfl⟩ := List.exists_cons_of_ne_nil (l := fields') (by rintro rfl; cases h)
    obtain ⟨htype, htypes⟩ := List.cons.inj h
    dsimp only at htype
    have hrest := ih (p := (f.type.place p).2) htypes
    rw [places, places, placeAll_cons, placeAll_cons, ← htype, hrest.1]
    exact ⟨rfl, hrest.2⟩

private theorem map_ordinal_byOrdinal
    (h : (s.fields.map (·.ordinal)).Perm (List.range s.fields.length)) :
    s.byOrdinal.map (·.ordinal) = List.range s.fields.length := by
  have hsorted : s.byOrdinal.Pairwise fun f g => f.ordinal ≤ g.ordinal := by
    refine (List.pairwise_mergeSort ?_ ?_ s.fields).imp of_decide_eq_true
    · intro f g k hfg hgk
      exact decide_eq_true (Nat.le_trans (of_decide_eq_true hfg) (of_decide_eq_true hgk))
    · intro f g
      simpa using Nat.le_total f.ordinal g.ordinal
  have hperm : (s.byOrdinal.map (·.ordinal)).Perm (List.range s.fields.length) :=
    ((List.mergeSort_perm s.fields _).map _).trans h
  refine hperm.eq_of_pairwise (fun _ _ _ _ => Nat.le_antisymm) (List.pairwise_map.mpr hsorted) ?_
  exact List.pairwise_lt_range.imp Nat.le_of_lt

private theorem getElem?_places_of_mem
    (h : (s.fields.map (·.ordinal)).Perm (List.range s.fields.length)) {f : NodeField}
    (hf : f ∈ s.compiled.fields) :
    (places {} s.byOrdinal)[f.ordinal]? = some (f.type, f.offset) := by
  have hordinals := map_ordinal_byOrdinal h
  rw [compiled_fields, List.mem_mapIdx] at hf
  obtain ⟨i, hi, rfl⟩ := hf
  have hmem : s.fields[i] ∈ s.byOrdinal :=
    (List.mergeSort_perm s.fields _).mem_iff.mpr (List.getElem_mem hi)
  obtain ⟨j, hj, hget⟩ := List.mem_iff_getElem.mp hmem
  have hordinal : s.fields[i].ordinal = j := by
    have hj' : (s.byOrdinal.map (·.ordinal))[j]? = some s.fields[i].ordinal := by
      rw [List.getElem?_map, List.getElem?_eq_getElem hj, hget]
      rfl
    rw [hordinals] at hj'
    obtain ⟨hlt, hj'⟩ := List.getElem?_eq_some_iff.mp hj'
    rwa [List.getElem_range, eq_comm] at hj'
  have hnodup : (s.byOrdinal.map (·.ordinal)).Nodup := hordinals ▸ List.nodup_range
  rw [← map_lookup_placeAll {} hnodup, List.getElem?_map]
  dsimp only
  rw [hordinal, List.getElem?_eq_getElem hj, hget]
  simp [hordinal]

private theorem map_ordinal_compiled (s : StructSource) :
    s.compiled.fields.map (·.ordinal) = s.fields.map (·.ordinal) := by
  conv_rhs => rw [← map_source_compiled s, List.map_map]
  rfl

theorem map_at?_compiled (h : (s.fields.map (·.ordinal)).Perm (List.range s.fields.length))
    (ordinal : Nat) : (s.compiled.at? ordinal).map (fun f => (f.type, f.offset)) =
      (places {} s.byOrdinal)[ordinal]? := by
  cases hat : s.compiled.at? ordinal with
  | some f =>
    have hordinal : f.ordinal = ordinal := by simpa using List.find?_some hat
    rw [← hordinal, getElem?_places_of_mem h (List.mem_of_find?_eq_some hat)]
    rfl
  | none =>
    have hnone : ordinal ∉ s.compiled.fields.map (·.ordinal) := by
      simpa [StructNode.at?] using hat
    rw [map_ordinal_compiled, h.mem_iff, List.mem_range, Nat.not_lt] at hnone
    have hlength : (places {} s.byOrdinal).length = s.fields.length := by
      rw [← List.length_map (f := (·.1)), map_fst_places, List.length_map]
      exact List.length_mergeSort _
    rw [List.getElem?_eq_none (hlength ▸ hnone)]
    rfl

theorem type?_compiled (h : (s.fields.map (·.ordinal)).Perm (List.range s.fields.length))
    (ordinal : Nat) : s.compiled.type? ordinal = (s.byOrdinal.map (·.type))[ordinal]? := by
  rw [← map_fst_places {}, List.getElem?_map, ← map_at?_compiled h, Option.map_map]
  rfl

theorem offset?_compiled (h : (s.fields.map (·.ordinal)).Perm (List.range s.fields.length))
    (ordinal : Nat) : s.compiled.offset? ordinal =
      ((places {} s.byOrdinal)[ordinal]?).map (·.2) := by
  rw [← map_at?_compiled h, Option.map_map]
  rfl

theorem offset?_eq_of_type?_eq (h : (s.fields.map (·.ordinal)).Perm (List.range s.fields.length))
    (h' : (s'.fields.map (·.ordinal)).Perm (List.range s'.fields.length)) {k : Nat}
    (htypes : ∀ ordinal < k, s.compiled.type? ordinal = s'.compiled.type? ordinal) :
    ∀ ordinal < k, s.compiled.offset? ordinal = s'.compiled.offset? ordinal := by
  have htake : (s.byOrdinal.take k).map (·.type) = (s'.byOrdinal.take k).map (·.type) := by
    rw [List.map_take, List.map_take]
    ext ordinal : 1
    rw [List.getElem?_take, List.getElem?_take]
    split
    next hlt => rw [← type?_compiled h, ← type?_compiled h', htypes ordinal hlt]
    next => rfl
  have hplaces : (places {} s.byOrdinal).take k = (places {} s'.byOrdinal).take k := by
    rw [← places_take, ← places_take, (places_congr htake).1]
  intro ordinal hlt
  have hplace := congrArg (·[ordinal]?) hplaces
  simp only [List.getElem?_take_of_lt hlt] at hplace
  rw [offset?_compiled h, offset?_compiled h', hplace]

private theorem sizes_eq_of_type?_eq
    (h : (s.fields.map (·.ordinal)).Perm (List.range s.fields.length))
    (h' : (s'.fields.map (·.ordinal)).Perm (List.range s'.fields.length))
    (htypes : ∀ ordinal, s.compiled.type? ordinal = s'.compiled.type? ordinal) :
    s.compiled.dataWords = s'.compiled.dataWords ∧
      s.compiled.pointers = s'.compiled.pointers := by
  have hmap : s.byOrdinal.map (·.type) = s'.byOrdinal.map (·.type) := by
    ext ordinal : 1
    rw [← type?_compiled h, ← type?_compiled h', htypes]
  have hlast := (places_congr (p := {}) hmap).2
  exact ⟨congrArg Placement.dataWords hlast, congrArg Placement.pointers hlast⟩

private theorem offset?_eq_of_appended
    (h : (s.fields.map (·.ordinal)).Perm (List.range s.fields.length))
    (h' : (s'.fields.map (·.ordinal)).Perm (List.range s'.fields.length))
    (htypes : ∀ ordinal t, s.compiled.type? ordinal = some t → s'.compiled.type? ordinal = some t)
    {ordinal offset : Nat} (hoffset : s.compiled.offset? ordinal = some offset) :
    s'.compiled.offset? ordinal = some offset := by
  have htype : ∀ ordinal < (s.byOrdinal.map (·.type)).length,
      s.compiled.type? ordinal = s'.compiled.type? ordinal := by
    intro ordinal hlt
    have hsome := type?_compiled h ordinal
    rw [List.getElem?_eq_getElem hlt] at hsome
    rw [hsome, htypes ordinal _ hsome]
  have hlt : ordinal < (s.byOrdinal.map (·.type)).length := by
    rw [offset?_compiled h, Option.map_eq_some_iff] at hoffset
    obtain ⟨place, hplace, -⟩ := hoffset
    obtain ⟨hlt, -⟩ := List.getElem?_eq_some_iff.mp hplace
    rwa [← map_fst_places {}, List.length_map]
  rw [← offset?_eq_of_type?_eq h h' htype ordinal hlt, hoffset]

end StructSource

namespace SchemaSource
variable {file file' text text' : String} {c c' : CompiledSchema}

private theorem holds_of_compile (h : compile file text = .ok c) :
    ∃ s, read text = .ok s ∧ (∀ s' : SchemaSource, s'.Renders text → s' = s) ∧
      List.Forall₂ StructNode.Holds c.nodes s.structs := by
  obtain ⟨s, hread, hlegal, rfl⟩ := compile_eq_ok h
  refine ⟨s, hread, fun s' hs' => ?_, ?_⟩
  · exact ((read_renders hs').mp hread).2.symm
  · refine List.forall₂_map_left_iff.mpr (List.forall₂_same.mpr fun t ht => ?_)
    exact (hlegal.structs t ht).holds

/-- Where a field lies depends on the types at its ordinal and below, and on nothing else. -/
theorem placed_by_ordinal (h : compile file text = .ok c) (h' : compile file' text' = .ok c') :
    (∃ s, read text = .ok s ∧ (∀ s' : SchemaSource, s'.Renders text → s' = s) ∧
      List.Forall₂ StructNode.Holds c.nodes s.structs) ∧
    ∀ n ∈ c.nodes, ∀ n' ∈ c'.nodes,
      (∀ k, (∀ ordinal < k, n.type? ordinal = n'.type? ordinal) →
        ∀ ordinal < k, n.offset? ordinal = n'.offset? ordinal) ∧
      ((∀ ordinal, n.type? ordinal = n'.type? ordinal) →
        n.dataWords = n'.dataWords ∧ n.pointers = n'.pointers) ∧
      ((∀ ordinal t, n.type? ordinal = some t → n'.type? ordinal = some t) →
        ∀ ordinal offset, n.offset? ordinal = some offset → n'.offset? ordinal = some offset) := by
  refine ⟨holds_of_compile h, ?_⟩
  obtain ⟨s, -, hlegal, rfl⟩ := compile_eq_ok h
  obtain ⟨s', -, hlegal', rfl⟩ := compile_eq_ok h'
  intro n hn n' hn'
  obtain ⟨t, ht, rfl⟩ := List.mem_map.mp hn
  obtain ⟨t', ht', rfl⟩ := List.mem_map.mp hn'
  have hordinals := (hlegal.structs t ht).ordinals
  have hordinals' := (hlegal'.structs t' ht').ordinals
  refine ⟨fun k htypes => ?_, fun htypes => ?_, fun htypes ordinal offset hoffset => ?_⟩
  · exact StructSource.offset?_eq_of_type?_eq hordinals hordinals' htypes
  · exact StructSource.sizes_eq_of_type?_eq hordinals hordinals' htypes
  · exact StructSource.offset?_eq_of_appended hordinals hordinals' htypes hoffset

def grownSource : StructSource :=
  ⟨"Grown", 0x8000000000000003,
    [⟨"extra", 2, .uint .w32⟩, ⟨"size", 0, .uint .w8⟩, ⟨"bits", 1, .list .bool⟩]⟩

def grownSchema : SchemaSource := ⟨0xc000000000000001, [grownSource]⟩

def grownText : String :=
  "@0xc000000000000001;struct Grown@0x8000000000000003\x7b" ++
    "extra@2:UInt32;size@0:UInt8;bits@1:List(Bool);\x7d"

private theorem renders_grownSchema : grownSchema.Renders grownText := by
  have hbits := (((((Spaced.nil .nil).front "\x7d").front ";").front ")").front "Bool").front "("
  have hbits := ((((hbits.front "List").front ":").front "1").front "@").front "bits"
  have hsize := ((((hbits.front ";").front "UInt8").front ":").front "0").front "@"
  have hextra := ((((hsize.front "size").front ";").front "UInt32").front ":").front "2"
  have hstruct := (((hextra.front "@").front "extra").front "\x7b").front "0x8000000000000003"
  have hstruct := (((hstruct.front "@").front "Grown").space (c := ' ') rfl).front "struct"
  have hnumber : ∀ {n word}, word.toList ≠ [] → word.toList.all Char.isDigit = true →
      Nat.ofDigitChars 10 word.toList 0 = n → IsDecimal n word := fun hne hdigits hn =>
    ⟨hne, List.all_eq_true.mp hdigits, hn⟩
  have hfields : List.Forall₂ FieldSource.Spells grownSource.fields
      [["extra", "@", "2", ":", "UInt32", ";"], ["size", "@", "0", ":", "UInt8", ";"],
        ["bits", "@", "1", ":", "List", "(", "Bool", ")", ";"]] :=
    .cons ⟨by decide, "2", hnumber (by decide) (by decide) (by decide), rfl⟩
      (.cons ⟨by decide, "0", hnumber (by decide) (by decide) (by decide), rfl⟩
        (.cons ⟨by decide, "1", hnumber (by decide) (by decide) (by decide), rfl⟩ .nil))
  have hid : grownSource.Spells _ :=
    ⟨by decide, _, _, isHexadecimal_hexadecimalId 0x8000000000000003, hfields, rfl⟩
  exact ⟨_, ⟨_, [_], isHexadecimal_hexadecimalId 0xc000000000000001, .cons hid .nil, rfl⟩,
    ((hstruct.front ";").front "0xc000000000000001").front "@"⟩

theorem grown_keeps_places : ∃ c c', compile "pair.capnp" pairText = .ok c ∧
    compile "grown.capnp" grownText = .ok c' ∧ ∀ n ∈ c.nodes, ∀ n' ∈ c'.nodes,
      ∀ ordinal offset, n.offset? ordinal = some offset → n'.offset? ordinal = some offset := by
  have hpair : compile "pair.capnp" pairText = .ok pairSchema.compiled := by
    refine (compile_renders renders_pairSchema _ _).mpr ⟨⟨⟨?_, ?_, ?_, ?_⟩, ?_⟩, rfl⟩
    · decide
    · decide
    · decide
    · exact List.forall_mem_singleton.mpr ⟨by decide, by decide, by decide, by decide⟩
    · exact List.forall_mem_singleton.mpr (by decide)
  have hgrown : compile "grown.capnp" grownText = .ok grownSchema.compiled := by
    refine (compile_renders renders_grownSchema _ _).mpr ⟨⟨⟨?_, ?_, ?_, ?_⟩, ?_⟩, rfl⟩
    · decide
    · decide
    · decide
    · exact List.forall_mem_singleton.mpr ⟨by decide, by decide, by decide, by decide⟩
    · exact List.forall_mem_singleton.mpr (by decide)
  refine ⟨_, _, hpair, hgrown, fun n hn n' hn' => ?_⟩
  refine ((placed_by_ordinal hpair hgrown).2 n hn n' hn').2.2 fun ordinal t htype => ?_
  obtain rfl := List.mem_singleton.mp hn
  obtain rfl := List.mem_singleton.mp hn'
  match ordinal with
  | 0 | 1 =>
    simpa [StructNode.type?, StructNode.at?, StructSource.compiled_fields, pairSource,
      grownSource, List.mapIdx_cons] using htype
  | ordinal + 2 =>
    simp [StructNode.type?, StructNode.at?, StructSource.compiled_fields, pairSource,
      List.mapIdx_cons] at htype

end SchemaSource
end ChannelCodec
