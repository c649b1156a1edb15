import ChannelCodec.Proofs.Schema.Compiling
import ChannelCodec.Proofs.Text.Outcomes

/-! The schemas that texts write. Whatever the text, a schema that is read from it without a fault
is legal: the reader has judged every number, every field, every struct and the whole, and one
fault anywhere would have been noted. -/
namespace ChannelCodec.SchemaSource

namespace Reader
open Scanner

theorem spaces_yields : Yields spaces fun _ => True :=
  .after .rest fun _ => .moveTo _

theorem symbol_yields (word : String) : Yields (symbol word) fun _ => True :=
  .after spaces_yields fun _ => .literal word

theorem acceptSymbol_yields (word : String) : Yields (acceptSymbol word) fun _ => True :=
  .after spaces_yields fun _ => .accept word

theorem check_yields (place : List Char) (fault : Option SchemaFault) :
    Yields (check place fault) fun _ => fault = none := by
  cases fault with
  | none => exact .pure rfl
  | some fault => exact .note place fault _

theorem name_yields : Yields name fun _ => True := by
  refine .after spaces_yields fun _ => .after ((Yields.many1 _).mono fun _ _ => trivial) fun _ => ?_
  exact .branch (fun _ => .pure trivial) fun _ => .failure

theorem id_yields : Yields Reader.id fun id => idFault? id = none := by
  refine .after spaces_yields fun _ => .after .rest fun place => .after (.literal _) fun _ => ?_
  refine .after ((Yields.many1 _).mono fun _ _ => trivial) fun digits => ?_
  exact .bind (check_yields place _) fun _ => .pure fun h => h

theorem ordinal_yields : Yields ordinal fun ordinal => ordinalFault? ordinal = none := by
  refine .after spaces_yields fun _ => .after .rest fun place => ?_
  refine .after ((Yields.many1 _).mono fun _ _ => trivial) fun digits => ?_
  exact .bind (check_yields place _) fun _ => .pure fun h => h

theorem type_yields (depth : Nat) : Yields (type depth) fun _ => True := by
  induction depth with
  | zero => exact .failure
  | succ depth ih =>
    rw [type]
    refine .after spaces_yields fun _ => .after (.accept _) fun isList => ?_
    refine .branch (fun _ => ?_) fun _ => ?_
    · refine .after (symbol_yields _) fun _ => .after ih fun element => ?_
      exact .after (symbol_yields _) fun _ => .pure trivial
    · refine .after ((Yields.many1 _).mono fun _ _ => trivial) fun word => ?_
      cases primitive? (String.ofList word) with
      | none => exact .failure
      | some t => exact .pure trivial

theorem field_yields (depth : Nat) :
    Yields (field depth) fun f => ordinalFault? f.ordinal = none ∧ f.fault? = none := by
  refine .after spaces_yields fun _ => .after .rest fun place => ?_
  refine .after name_yields fun name => .after (symbol_yields _) fun _ => ?_
  refine .bind ordinal_yields fun ordinal => .after (symbol_yields _) fun _ => ?_
  refine .after (type_yields depth) fun type => .after (symbol_yields _) fun _ => ?_
  exact .bind (check_yields place _) fun _ => .pure fun hfault hordinal => ⟨hordinal, hfault⟩

theorem fields_yields (depth count : Nat) : Yields (fields depth count) fun fields =>
    ∀ f ∈ fields, ordinalFault? f.ordinal = none ∧ f.fault? = none := by
  induction count with
  | zero => exact .failure
  | succ count ih =>
    rw [fields]
    refine .after (acceptSymbol_yields _) fun closed => .branch (fun _ => ?_) fun _ => ?_
    · exact .pure (List.forall_mem_nil _)
    · refine .bind (field_yields depth) fun f => .bind ih fun fields => ?_
      exact .pure fun hfields hf => List.forall_mem_cons.mpr ⟨hf, hfields⟩

theorem struct_yields (size : Nat) (place : List Char) :
    Yields (struct size place) StructSound := by
  refine .after name_yields fun name => .after (symbol_yields _) fun _ => ?_
  refine .bind id_yields fun id => .after (symbol_yields _) fun _ => ?_
  refine .bind (fields_yields size size) fun fields => ?_
  refine .bind (check_yields place _) fun _ => ?_
  exact .pure fun hfault hfields hid => ⟨hid, hfields, hfault⟩

theorem structs_yields (size count : Nat) : Yields (structs size count) fun structs =>
    ∀ s ∈ structs, StructSound s := by
  induction count with
  | zero => exact .failure
  | succ count ih =>
    rw [structs]
    refine .after spaces_yields fun _ => .after .rest fun place => .after (.accept _) fun more => ?_
    refine .branch (fun _ => ?_) fun _ => ?_
    · refine .bind (struct_yields size place) fun s => .bind ih fun structs => ?_
      exact .pure fun hstructs hs => List.forall_mem_cons.mpr ⟨hs, hstructs⟩
    · exact .pure (List.forall_mem_nil _)

theorem whole_yields (text : List Char) : Yields (whole text) Sound := by
  refine .after (symbol_yields _) fun _ => .bind id_yields fun id => ?_
  refine .after (symbol_yields _) fun _ => .bind (structs_yields _ _) fun structs => ?_
  exact .bind (check_yields text _) fun _ => .pure fun hfault hstructs hid =>
    ⟨hid, hstructs, hfault⟩

end Reader

variable {s : SchemaSource} {text : String}

private theorem legal_of_read (h : read text = .ok s) : s.Legal :=
  (sound_iff.mp ((Reader.whole_yields text.toList).of_read h)).1

theorem compile_eq_ok {file : String} {c : CompiledSchema} (h : compile file text = .ok c) :
    ∃ s, read text = .ok s ∧ s.Legal ∧ c = s.compiled := by
  unfold compile at h
  cases hread : read text with
  | error why =>
    rw [hread] at h
    cases h
  | ok s =>
    rw [hread] at h
    exact ⟨s, rfl, legal_of_read hread, (Except.ok.inj h).symm⟩

end ChannelCodec.SchemaSource
