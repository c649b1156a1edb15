import ChannelCodec.Proofs.Message.Compilation
import ChannelCodec.Proofs.Success
import ChannelCodec.SchemaFile
import Mathlib.Data.List.Induction
import Mathlib.Data.List.Nodup

/-! Schema files and the circuits agree. A file has the declarations of its message structs one
behind the other; each of them compiles to the same struct there as in the schema that holds nothing
else, which is the one that the circuits are made for. -/
namespace ChannelCodec

/-- The items of `firsts` are those of `all`, each of them once, in the order in which they first
occur there. -/
structure FirstOccurrences {α : Type} [DecidableEq α] (all firsts : List α) : Prop where
  nodup : firsts.Nodup
  mem_iff : ∀ a, a ∈ firsts ↔ a ∈ all
  ordered : firsts.Pairwise fun a b => all.idxOf a < all.idxOf b

private theorem pairwise_idxOf_eraseDups {α : Type} [DecidableEq α] (items : List α) :
    items.eraseDups.Pairwise fun a b => items.idxOf a < items.idxOf b := by
  induction items using List.reverseRecOn with
  | nil => exact .nil
  | append_singleton items a ih =>
    have hearlier : items.eraseDups.Pairwise fun b c =>
        (items ++ [a]).idxOf b < (items ++ [a]).idxOf c := by
      refine ih.imp_of_mem fun hb hc hlt => ?_
      rwa [List.idxOf_append_of_mem (List.mem_eraseDups.mp hb),
        List.idxOf_append_of_mem (List.mem_eraseDups.mp hc)]
    rw [List.eraseDups_append]
    by_cases ha : a ∈ items
    · have hold : [a].removeAll items = [] := by simp [List.removeAll, ha]
      rw [hold]
      simpa using hearlier
    · have hnew : [a].removeAll items = [a] := by simp [List.removeAll, ha]
      have hsingle : [a].eraseDups = [a] := by simp [List.eraseDups_cons]
      rw [hnew, hsingle, List.pairwise_append]
      refine ⟨hearlier, List.pairwise_singleton _ _, fun b hb c hc => ?_⟩
      have hb := List.mem_eraseDups.mp hb
      rw [List.mem_singleton.mp hc, List.idxOf_append_of_mem hb, List.idxOf_append_of_notMem ha]
      exact Nat.lt_of_lt_of_le (List.idxOf_lt_length_of_mem hb) (Nat.le_add_right _ _)

theorem firstOccurrences_eraseDups {α : Type} [DecidableEq α] (items : List α) :
    FirstOccurrences items items.eraseDups where
  nodup := (pairwise_idxOf_eraseDups items).imp fun {a b} hlt he => by
    rw [he] at hlt
    exact Nat.lt_irrefl _ hlt
  mem_iff _ := List.mem_eraseDups
  ordered := pairwise_idxOf_eraseDups items

namespace SchemaFile
open MessageSchema

variable {types : List HwType} {members named : List MessageSchema} {content : String}

theorem forall_mem_schemas {P : MessageSchema → Prop} :
    (∀ s ∈ schemas types, P s) ↔ ∀ t ∈ types, P (of t) := by
  simp only [schemas, List.mem_eraseDups, List.forall_mem_map]

theorem check_eq_ok : check named members = .ok () ↔
    (∀ s ∈ members, s.checkSupported = .ok ()) ∧
      (members.map (·.name)).Nodup ∧ ∀ s ∈ members, s.name ∉ named.map (·.name) := by
  induction members generalizing named with
  | nil => simp [check]
  | cons s members ih =>
    rw [check, HwType.andThen_eq_ok, List.forall_mem_cons, List.map_cons]
    cases hfind : named.find? (·.name = s.name) with
    | some other =>
      have hname : other.name = s.name := by simpa using List.find?_some hfind
      have hother : s.name ∈ named.map (·.name) :=
        List.mem_map.mpr ⟨other, List.mem_of_find?_eq_some hfind, hname⟩
      exact iff_of_false (fun h => nomatch h.2) fun h => h.2.2 s List.mem_cons_self hother
    | none =>
      have hnew : s.name ∉ named.map (·.name) := by
        intro hmem
        obtain ⟨other, hother, he⟩ := List.mem_map.mp hmem
        exact List.find?_eq_none.mp hfind other hother (decide_eq_true he)
      have hnames := @SchemaSource.nodup_cons_outside _ s.name (members.map (·.name)) _ hnew
      rw [List.forall_mem_cons, List.forall_mem_map, List.forall_mem_map] at hnames
      dsimp only
      rw [ih, List.map_cons, ← hnames, List.forall_mem_cons, and_assoc]

theorem generate_eq_ok : generate types false = .ok content ↔
    check [] (schemas types) = .ok () ∧ text (schemas types) = .ok content := by
  have hgenerate : generate types false =
      (check [] (schemas types) >>= fun _ => text (schemas types) >>= Except.ok) := rfl
  rw [hgenerate]
  cases check [] (schemas types) with
  | error d => exact iff_of_false nofun fun h => nomatch h.1
  | ok =>
    cases text (schemas types) with
    | error d => exact iff_of_false nofun fun h => nomatch h.2
    | ok => exact ⟨fun h => ⟨rfl, h⟩, fun h => h.2⟩

private theorem generate_verified (h : generate types false = .ok content) {c : CompiledSchema}
    (hc : SchemaSource.compile "cosim.capnp" content = .ok c) :
    generate types true = .ok content := by
  obtain ⟨hcheck, htext⟩ := generate_eq_ok.mp h
  refine (bind_of_ok hcheck _).trans ((bind_of_ok htext _).trans ?_)
  rw [hc]
  rfl

theorem exists_generate_iff : (∃ content, generate types false = .ok content) ↔
    (∀ t ∈ types, (of t).checkSupported = .ok ()) ∧
      ∀ t ∈ types, ∀ u ∈ types, (of t).name = (of u).name → of t = of u := by
  have hnames : ((schemas types).map (·.name)).Nodup ↔
      ∀ t ∈ types, ∀ u ∈ types, (of t).name = (of u).name → of t = of u := by
    have hnodup : (schemas types).Nodup := (firstOccurrences_eraseDups _).nodup
    rw [List.nodup_map_iff_inj_on hnodup, forall_mem_schemas]
    exact forall₂_congr fun t _ => forall_mem_schemas
  rw [← hnames, ← forall_mem_schemas (P := fun s => s.checkSupported = .ok ())]
  constructor
  · rintro ⟨content, hcontent⟩
    obtain ⟨hsupported, hnodup, -⟩ := check_eq_ok.mp (generate_eq_ok.mp hcontent).1
    exact ⟨hsupported, hnodup⟩
  · rintro ⟨hsupported, hnodup⟩
    obtain ⟨declarations, hdeclarations⟩ := exists_mapM_iff.mpr fun s hs =>
      ⟨_, declaration_eq (hsupported s hs)⟩
    refine ⟨_, generate_eq_ok.mpr ⟨check_eq_ok.mpr ⟨hsupported, hnodup, ?_⟩,
      (bind_of_ok hdeclarations _).trans rfl⟩⟩
    exact fun _ _ => List.not_mem_nil

def source (members : List MessageSchema) : SchemaSource :=
  ⟨fileId members, members.map MessageSchema.source⟩

private theorem spaced_declarations {declarations : List String}
    (hwritten : ∀ s ∈ members, ∃ t : HwType, t.Written ∧ s = of t)
    (hsupported : ∀ s ∈ members, s.checkSupported = .ok ())
    (hd : members.mapM MessageSchema.declaration = .ok declarations) :
    ∃ spellings, List.Forall₂ StructSource.Spells (members.map MessageSchema.source) spellings ∧
      Spaced spellings.flatten (String.join declarations).toList := by
  induction members generalizing declarations with
  | nil =>
    cases hd
    exact ⟨[], .nil, .nil .nil⟩
  | cons s members ih =>
    obtain ⟨⟨t, ht, rfl⟩, hmembers⟩ := List.forall_mem_cons.mp hwritten
    obtain ⟨h, hall⟩ := List.forall_mem_cons.mp hsupported
    rw [List.mapM_cons] at hd
    cases hfirst : (of t).declaration with
    | error d =>
      rw [hfirst] at hd
      cases hd
    | ok declaration =>
      cases hrest : members.mapM MessageSchema.declaration with
      | error d =>
        rw [hfirst, hrest] at hd
        cases hd
      | ok declarations' =>
        rw [hfirst, hrest] at hd
        cases hd
        obtain ⟨spelling, hspelling, hspaced⟩ :=
          spaced_declaration h (fields_of_written ht).2.2 hfirst
        obtain ⟨spellings, hspellings, hspaced'⟩ := ih hmembers hall hrest
        refine ⟨spelling :: spellings, .cons hspelling hspellings, ?_⟩
        rw [String.join_cons, String.toList_append]
        exact hspaced hspaced'

private theorem gap_line {line rest : String} (hline : line.toList.all isInline = true)
    (hrest : Gap rest.toList) : Gap ("#" ++ line ++ "\n" ++ rest).toList := by
  have hparts : ("#" ++ line ++ "\n" ++ rest).toList =
      '#' :: (line.toList ++ '\n' :: rest.toList) := by simp
  rw [hparts]
  exact .comment (List.all_eq_true.mp hline) rfl hrest

private theorem gap_banner : Gap banner.toList := by
  have hlines : banner =
      "#" ++ "########################################################" ++ "\n" ++
        ("#" ++ "# ESI generated schema. For use with CosimDpi.capnp" ++ "\n" ++
          ("#" ++ "# Schema version 1" ++ "\n" ++
            ("#" ++ "########################################################" ++ "\n" ++
              "\n"))) := by decide +kernel
  rw [hlines]
  refine gap_line (by decide +kernel) (gap_line (by decide +kernel)
    (gap_line (by decide +kernel) (gap_line (by decide +kernel) ?_)))
  exact .space (c := '\n') rfl .nil

private theorem renders_text (hwritten : ∀ s ∈ members, ∃ t : HwType, t.Written ∧ s = of t)
    (hsupported : ∀ s ∈ members, s.checkSupported = .ok ()) (hc : text members = .ok content) :
    (source members).Renders content := by
  unfold text at hc
  cases hd : members.mapM MessageSchema.declaration with
  | error d =>
    rw [hd] at hc
    cases hc
  | ok declarations =>
    rw [hd] at hc
    cases hc
    obtain ⟨spellings, hspellings, hspaced⟩ := spaced_declarations hwritten hsupported hd
    have hid := ((((hspaced.space (c := '\n') rfl).space (c := '\n') rfl).front ";").front
      (hexadecimalId (fileId members))).front "@"
    refine ⟨_, ⟨_, spellings, isHexadecimal_hexadecimalId _, hspellings, rfl⟩, ?_⟩
    simpa [idText, SchemaFile.source] using hid.behind gap_banner

private theorem source_legal (hwritten : ∀ s ∈ members, ∃ t : HwType, t.Written ∧ s = of t)
    (hsupported : ∀ s ∈ members, s.checkSupported = .ok ())
    (hnames : (members.map (·.name)).Nodup) (hids : (fileId members :: members.map (·.id)).Nodup) :
    (source members).Legal where
  ids := by
    rw [source, List.forall_mem_cons, List.map_map, List.forall_mem_map]
    exact ⟨legalId_fingerprint _, fun s _ => legalId_fingerprint _⟩
  distinctIds := by
    rw [source, List.map_map]
    exact hids
  distinctNames := by
    rw [source, List.map_map]
    exact hnames
  structs := by
    rw [source, List.forall_mem_map]
    intro s hs
    obtain ⟨t, ht, rfl⟩ := hwritten s hs
    exact (legal_source_iff (hsupported _ hs)).mpr (fields_of_written ht).1

theorem compile_text (hwritten : ∀ s ∈ members, ∃ t : HwType, t.Written ∧ s = of t)
    (hsupported : ∀ s ∈ members, s.checkSupported = .ok ())
    (hnames : (members.map (·.name)).Nodup) (hids : (fileId members :: members.map (·.id)).Nodup)
    (hc : text members = .ok content) (file : String) :
    SchemaSource.compile file content =
      .ok ⟨fileId members, members.map (·.source.compiled)⟩ := by
  refine (SchemaSource.compile_renders (renders_text hwritten hsupported hc) file _).mpr
    ⟨⟨source_legal hwritten hsupported hnames hids, ?_⟩, ?_⟩
  · rw [source, SchemaSource.OrdinalsFit, List.forall_mem_map]
    intro s hs
    obtain ⟨t, ht, rfl⟩ := hwritten s hs
    exact ordinals_fit (Nat.le_of_lt (fields_of_written ht).2.1)
  · rw [SchemaSource.compiled, source, List.map_map]
    rfl

/-- A schema file is written for all lists of supported types whose structs have different names,
and for no others, unless it is verified. If all identifiers in it are different, it compiles, and
so verification lets it pass unchanged: it has one struct for each message, in the order in which
the types first occur, and each of them is the struct that the circuits of its type are made for. -/
theorem file_agrees_with_circuits (hwritten : ∀ t ∈ types, t.Written) :
    ((∃ content, generate types false = .ok content) ↔
      (∀ t ∈ types, (of t).checkSupported = .ok ()) ∧
        ∀ t ∈ types, ∀ u ∈ types, (of t).name = (of u).name → of t = of u) ∧
    FirstOccurrences (types.map of) (schemas types) ∧
    ∀ content, generate types false = .ok content →
      (fileId (schemas types) :: (schemas types).map (·.id)).Nodup →
      (∀ t ∈ types, (of t).id ≠ ownSchemaId) →
        generate types true = .ok content ∧
        ∃ nodes, SchemaSource.compile "cosim.capnp" content =
            .ok ⟨fileId (schemas types), nodes⟩ ∧
          List.Forall₂ (fun s node => MessageSchema.node s = .ok node) (schemas types) nodes := by
  refine ⟨exists_generate_iff, firstOccurrences_eraseDups _, fun content hcontent hids hown => ?_⟩
  obtain ⟨hcheck, htext⟩ := generate_eq_ok.mp hcontent
  obtain ⟨hsupported, hnames, -⟩ := check_eq_ok.mp hcheck
  have hmembers : ∀ s ∈ schemas types, ∃ t : HwType, t.Written ∧ s = of t :=
    forall_mem_schemas.mpr fun t ht => ⟨t, hwritten t ht, rfl⟩
  have hcompile := compile_text hmembers hsupported hnames hids htext "cosim.capnp"
  refine ⟨generate_verified hcontent hcompile, _, hcompile, ?_⟩
  refine List.forall₂_map_right_iff.mpr (List.forall₂_same.mpr ?_)
  exact forall_mem_schemas.mpr fun t ht =>
    node_eq (hwritten t ht) (forall_mem_schemas.mp hsupported t ht) (hown t ht)

def threeChannels : List HwType := [mixedType, .channel (.int .unsigned 8), mixedType]

theorem threeChannels_agree : ∃ content first second,
    generate threeChannels true = .ok content ∧
    SchemaSource.compile "cosim.capnp" content =
      .ok ⟨fileId [of mixedType, of (.int .unsigned 8)], [first, second]⟩ ∧
    (of mixedType).node = .ok first ∧ (of (.int .unsigned 8)).node = .ok second := by
  have hwritten : ∀ t ∈ threeChannels, t.Written := by
    have hbyte : (HwType.channel (.int .unsigned 8)).Written :=
      ⟨"!esi.channel<ui8>", by decide +kernel, by decide +kernel⟩
    simp [threeChannels, written_mixedType, hbyte]
  have hschemas : schemas threeChannels = [of mixedType, of (.int .unsigned 8)] := by
    decide +kernel
  obtain ⟨hwrites, -, hagree⟩ := file_agrees_with_circuits hwritten
  rw [hschemas] at hagree
  obtain ⟨content, hcontent⟩ := hwrites.mpr ⟨by decide +kernel, by decide +kernel⟩
  obtain ⟨hverified, nodes, hnodes, hall⟩ :=
    hagree content hcontent (by decide +kernel) (by decide +kernel)
  match nodes, hall with
  | [first, second], .cons hfirst (.cons hsecond .nil) =>
    exact ⟨content, first, second, hverified, hnodes, hfirst, hsecond⟩

end SchemaFile
end ChannelCodec
