import ChannelCodec.Proofs.Schema.Reading
import Mathlib.Data.List.Range
import Mathlib.Data.List.Nodup

/-! Legal schemas. The rules are stated for the whole schema, without an order in which they are
checked; a fault is noted exactly when one of them is broken. -/
namespace ChannelCodec

def LegalId (id : Nat) : Prop := id < 2 ^ (64 : Nat) ∧ id.testBit 63 = true
deriving Decidable

structure StructSource.Legal (s : StructSource) : Prop where
  name : startsWith isAsciiUpper s.name = true
  fieldNames : ∀ f ∈ s.fields, startsWith isAsciiLower f.name = true
  distinct : (s.fields.map (·.name)).Nodup
  ordinals : (s.fields.map (·.ordinal)).Perm (List.range s.fields.length)

structure SchemaSource.Legal (s : SchemaSource) : Prop where
  ids : ∀ id ∈ s.id :: s.structs.map (·.id), LegalId id
  distinctIds : (s.id :: s.structs.map (·.id)).Nodup
  distinctNames : (s.structs.map (·.name)).Nodup
  structs : ∀ t ∈ s.structs, t.Legal

theorem idFault?_eq_none {id : Nat} : idFault? id = none ↔ LegalId id := by
  have htop (h : id < 2 ^ (64 : Nat)) : id.testBit 63 = true ↔ 2 ^ (63 : Nat) ≤ id := by
    rw [Nat.testBit_eq_decide_div_mod_eq, decide_eq_true_eq]
    omega
  rw [idFault?, LegalId]
  by_cases hhigh : 2 ^ (64 : Nat) ≤ id
  · rw [if_pos hhigh]
    exact ⟨nofun, fun h => absurd h.1 (Nat.not_lt.mpr hhigh)⟩
  rw [if_neg hhigh, htop (Nat.lt_of_not_le hhigh)]
  by_cases hlow : id < 2 ^ (63 : Nat)
  · rw [if_pos hlow]
    exact ⟨nofun, fun h => absurd h.2 (Nat.not_le.mpr hlow)⟩
  · rw [if_neg hlow]
    exact iff_of_true rfl ⟨Nat.lt_of_not_le hhigh, Nat.le_of_not_lt hlow⟩

private theorem FieldSource.fault?_eq_none {f : FieldSource} :
    f.fault? = none ↔ startsWith isAsciiLower f.name = true := by
  rw [FieldSource.fault?]
  split
  next h => exact iff_of_true rfl h
  next h => exact iff_of_false nofun h

private theorem ordinalFault?_eq_none {ordinal : Nat} :
    ordinalFault? ordinal = none ↔ ordinal < 2 ^ (64 : Nat) := by
  rw [ordinalFault?]
  split
  next h => exact iff_of_false nofun (Nat.not_lt.mpr h)
  next h => exact iff_of_true rfl (Nat.lt_of_not_le h)

/-- Ordinals in ascending order have no gap and no repetition exactly when they count up. -/
theorem ordinalGap?_eq_none {struct : String} {k : Nat} {ordinals : List Nat} :
    ordinalGap? struct k ordinals = none ↔ ordinals = List.range' k ordinals.length := by
  induction ordinals generalizing k with
  | nil => exact iff_of_true rfl rfl
  | cons n ordinals ih =>
    rw [ordinalGap?, List.length_cons, List.range'_succ, List.cons.injEq]
    by_cases hlow : n < k
    · rw [if_pos hlow]
      exact iff_of_false nofun fun h => absurd h.1 (Nat.ne_of_lt hlow)
    rw [if_neg hlow]
    by_cases hhigh : k < n
    · rw [if_pos hhigh]
      exact iff_of_false nofun fun h => absurd h.1 (Nat.ne_of_gt hhigh)
    · rw [if_neg hhigh, ih]
      exact ⟨fun h => ⟨by omega, h⟩, fun h => h.2⟩

private theorem ordinalGap?_sorted {struct : String} {ordinals : List Nat} :
    ordinalGap? struct 0 ordinals.mergeSort = none ↔
      ordinals.Perm (List.range ordinals.length) := by
  rw [ordinalGap?_eq_none, List.length_mergeSort, ← List.range_eq_range']
  constructor
  · intro h
    rw [← h]
    exact (List.mergeSort_perm ordinals _).symm
  · intro h
    have htrans : ∀ a b c : Nat, decide (a ≤ b) = true → decide (b ≤ c) = true →
        decide (a ≤ c) = true := fun a b c hab hbc =>
      decide_eq_true (Nat.le_trans (of_decide_eq_true hab) (of_decide_eq_true hbc))
    have htotal : ∀ a b : Nat, (decide (a ≤ b) || decide (b ≤ a)) = true := fun a b => by
      simpa using Nat.le_total a b
    have hsorted : (ordinals.mergeSort).Pairwise (· ≤ ·) :=
      (List.pairwise_mergeSort htrans htotal ordinals).imp of_decide_eq_true
    have hrange : (List.range ordinals.length).Pairwise (· ≤ ·) :=
      List.pairwise_lt_range.imp Nat.le_of_lt
    exact List.Perm.eq_of_pairwise (fun _ _ _ _ => Nat.le_antisymm) hsorted hrange
      ((List.mergeSort_perm ordinals _).trans h)

private theorem StructSource.fault?_eq_none {s : StructSource} : s.fault? = none ↔
    startsWith isAsciiUpper s.name = true ∧ (s.fields.map (·.name)).Nodup ∧
      (s.fields.map (·.ordinal)).Perm (List.range s.fields.length) := by
  rw [StructSource.fault?]
  cases hname : startsWith isAsciiUpper s.name with
  | false => exact iff_of_false nofun nofun
  | true =>
    rw [if_neg (by decide)]
    cases hrepeated : firstRepeated (s.fields.map (·.name)) with
    | some twice =>
      refine iff_of_false nofun fun h => ?_
      rw [firstRepeated_eq_none.mpr h.2.1] at hrepeated
      cases hrepeated
    | none =>
      have hgap : ordinalGap? s.name 0 (s.fields.map (·.ordinal)).mergeSort = none ↔
          (s.fields.map (·.ordinal)).Perm _ := ordinalGap?_sorted
      rw [List.length_map] at hgap
      rw [StructSource.ordinals]
      dsimp only
      rw [hgap]
      exact ⟨fun h => ⟨rfl, firstRepeated_eq_none.mp hrepeated, h⟩, fun h => h.2.2⟩

namespace SchemaSource

theorem nodup_cons_outside {α : Type} {a : α} {items earlier : List α} (ha : a ∉ earlier) :
    ((a :: items).Nodup ∧ ∀ b ∈ a :: items, b ∉ earlier) ↔
      items.Nodup ∧ ∀ b ∈ items, b ∉ a :: earlier := by
  rw [List.nodup_cons, List.forall_mem_cons]
  constructor
  · rintro ⟨⟨hnew, hitems⟩, -, hout⟩
    refine ⟨hitems, fun b hb hmem => ?_⟩
    rcases List.mem_cons.mp hmem with rfl | hmem
    · exact hnew hb
    · exact hout b hb hmem
  · rintro ⟨hitems, hout⟩
    refine ⟨⟨fun hnew => hout a hnew List.mem_cons_self, hitems⟩, ha, fun b hb hmem => ?_⟩
    exact hout b hb (List.mem_cons_of_mem a hmem)

private theorem clash?_eq_none {ids : List Nat} {names : List String}
    {structs : List StructSource} :
    clash? ids names structs = none ↔
      ((structs.map (·.id)).Nodup ∧ ∀ id ∈ structs.map (·.id), id ∉ ids) ∧
      ((structs.map (·.name)).Nodup ∧ ∀ name ∈ structs.map (·.name), name ∉ names) := by
  induction structs generalizing ids names with
  | nil => simp [clash?]
  | cons s structs ih =>
    rw [clash?]
    by_cases hid : s.id ∈ ids
    · rw [if_pos (List.contains_iff_mem.mpr hid)]
      exact iff_of_false nofun fun h => h.1.2 s.id List.mem_cons_self hid
    rw [if_neg (fun h => hid (List.contains_iff_mem.mp h))]
    by_cases hname : s.name ∈ names
    · rw [if_pos (List.contains_iff_mem.mpr hname)]
      exact iff_of_false nofun fun h => h.2.2 s.name List.mem_cons_self hname
    rw [if_neg (fun h => hname (List.contains_iff_mem.mp h)), ih]
    exact and_congr (nodup_cons_outside hid).symm (nodup_cons_outside hname).symm

private theorem fault?_eq_none {s : SchemaSource} : s.fault? = none ↔
    (s.id :: s.structs.map (·.id)).Nodup ∧ (s.structs.map (·.name)).Nodup := by
  rw [SchemaSource.fault?, clash?_eq_none, List.nodup_cons]
  constructor
  · rintro ⟨⟨hids, hnew⟩, hnames, -⟩
    exact ⟨⟨fun h => hnew s.id h List.mem_cons_self, hids⟩, hnames⟩
  · rintro ⟨⟨hnew, hids⟩, hnames⟩
    refine ⟨⟨hids, fun id hid hmem => ?_⟩, hnames, by simp⟩
    rw [List.mem_singleton.mp hmem] at hid
    exact hnew hid

def OrdinalsFit (s : SchemaSource) : Prop :=
  ∀ t ∈ s.structs, ∀ f ∈ t.fields, f.ordinal < 2 ^ (64 : Nat)

theorem sound_iff {s : SchemaSource} : Reader.Sound s ↔ s.Legal ∧ s.OrdinalsFit := by
  simp only [Reader.Sound, Reader.StructSound, idFault?_eq_none, ordinalFault?_eq_none,
    FieldSource.fault?_eq_none, StructSource.fault?_eq_none, fault?_eq_none]
  constructor
  · rintro ⟨hid, hstructs, hids, hnames⟩
    refine ⟨⟨?_, hids, hnames, fun t ht => ?_⟩, fun t ht f hf => ((hstructs t ht).2.1 f hf).1⟩
    · rw [List.forall_mem_cons, List.forall_mem_map]
      exact ⟨hid, fun t ht => (hstructs t ht).1⟩
    · obtain ⟨-, hfields, hname, hdistinct, hordinals⟩ := hstructs t ht
      exact ⟨hname, fun f hf => (hfields f hf).2, hdistinct, hordinals⟩
  · rintro ⟨⟨hlegal, hids, hnames, hstructs⟩, hfit⟩
    rw [List.forall_mem_cons, List.forall_mem_map] at hlegal
    refine ⟨hlegal.1, fun t ht => ?_, hids, hnames⟩
    obtain ⟨hname, hfields, hdistinct, hordinals⟩ := hstructs t ht
    exact ⟨hlegal.2 t ht, fun f hf => ⟨hfit t ht f hf, hfields f hf⟩, hname, hdistinct, hordinals⟩

private theorem le_flatten {α : Type} {spells : α → List String → Prop} (size : α → Nat)
    (hsize : ∀ a words, spells a words → size a ≤ words.length) {parts : List α}
    {spellings : List (List String)} (h : List.Forall₂ spells parts spellings) :
    ∀ a ∈ parts, size a ≤ spellings.flatten.length := by
  induction h with
  | nil => simp
  | cons ha _ ih =>
    rw [List.flatten_cons, List.length_append, List.forall_mem_cons]
    exact ⟨Nat.le_add_right_of_le (hsize _ _ ha), fun a ha => Nat.le_add_left_of_le (ih a ha)⟩

private theorem length_fields_le {fields : List FieldSource} {spellings : List (List String)}
    (h : List.Forall₂ FieldSource.Spells fields spellings) :
    fields.length ≤ spellings.flatten.length := by
  induction h with
  | nil => exact Nat.le_refl 0
  | cons hf _ ih =>
    obtain ⟨-, ordinal, -, rfl⟩ := hf
    simp only [List.flatten_cons, List.length_append, List.length_cons]
    omega

/-- There are no more fields in a struct than words that spell them, and so a text that is not too
long has room for ordinals of 64 bits only. -/
theorem Legal.ordinalsFit {s : SchemaSource} (h : s.Legal) {text : String} (hs : s.Renders text)
    (hsize : text.utf8ByteSize < 2 ^ (64 : Nat)) : s.OrdinalsFit := by
  obtain ⟨words, hwords, hspaced⟩ := hs
  have hchars := hspaced.length_le hwords.nonempty
  have hbytes := HwType.length_le_utf8ByteSize text
  obtain ⟨id, structs, -, hstructs, rfl⟩ := hwords
  intro t ht f hf
  have hfields : t.fields.length ≤ structs.flatten.length := by
    refine le_flatten (fun t => t.fields.length) (fun t words ht => ?_) hstructs t ht
    obtain ⟨-, id, fields, -, hfields, rfl⟩ := ht
    have hle := length_fields_le hfields
    simp only [List.length_cons, List.length_append]
    omega
  have hmem : f.ordinal ∈ List.range t.fields.length :=
    (h.structs t ht).ordinals.mem_iff.mp (List.mem_map_of_mem hf)
  have hlt := List.mem_range.mp hmem
  simp only [List.length_cons] at hchars
  omega

end SchemaSource
end ChannelCodec
