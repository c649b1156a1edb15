import ChannelCodec.Proofs.Message.Admission

/-! Types that were put together by hand. Nothing keeps two of their fields from having the same
name, nor an alias from having a line end in its name. The check for support looks at neither, and
so the declaration of a supported type may still be refused by the compiler of schemas. -/
namespace ChannelCodec
namespace MessageSchema
variable {s : MessageSchema} {t : HwType}

theorem internalSchema_of_compile {text : String} (hd : s.declaration = .ok text)
    (hc : ∀ c, SchemaSource.compile "schema.capnp" (idText ownSchemaId ++ ";\n" ++ text) ≠ .ok c) :
    ∃ detail, s.compiled = .error (.internalSchema detail) ∧
      s.node = .error (.internalSchema detail) := by
  have hcompiled : ∃ detail, s.compiled = .error (.internalSchema detail) := by
    rw [compiled, hd]
    simp only [Bind.bind, Except.bind]
    cases hresult : SchemaSource.compile "schema.capnp" (idText ownSchemaId ++ ";\n" ++ text) with
    | ok c => exact absurd hresult (hc c)
    | error d => exact ⟨_, rfl⟩
  obtain ⟨detail, hdetail⟩ := hcompiled
  refine ⟨detail, hdetail, ?_⟩
  rw [node, hdetail]
  rfl

private theorem compiled_of_compile {text : String} {c : CompiledSchema}
    (hd : s.declaration = .ok text)
    (hc : SchemaSource.compile "schema.capnp" (idText ownSchemaId ++ ";\n" ++ text) = .ok c) :
    s.compiled = .ok c := by
  rw [compiled, hd]
  simp only [Bind.bind, Except.bind]
  rw [hc]
  rfl

/-- What becomes of the schema of a type, however the type was put together, as long as the remarks
that tell the types of its fields stay comments. A type that the check refuses is reported as not
supported, and nothing is compiled. A type that it accepts has a schema if all fields have different
names; if two of them share a name, the check has missed it, and the failure is an internal one. -/
theorem compiles_unless_repeated (hid : (of t).id ≠ ownSchemaId)
    (hremarks : ∀ f ∈ (of t).fields, Gap (remark f.type))
    (hfew : (of t).fields.length ≤ 2 ^ (64 : Nat)) :
    (∀ d, (of t).checkSupported = .error d →
      d.isUnsupportedType = true ∧ (of t).compiled = .error d ∧ (of t).node = .error d) ∧
    ((of t).checkSupported = .ok () → ((of t).fields.map (·.name)).Nodup →
      ∃ node, (of t).compiled = .ok ⟨ownSchemaId, [node]⟩ ∧ (of t).node = .ok node ∧
        node.fields.length = (of t).fields.length) ∧
    ((of t).checkSupported = .ok () → ¬ ((of t).fields.map (·.name)).Nodup →
      ∃ detail, (of t).compiled = .error (.internalSchema detail) ∧
        (of t).node = .error (.internalSchema detail)) := by
  refine ⟨fun d h => ?_, fun h hdistinct => ?_, fun h hrepeated => ?_⟩
  · have hrefused := refused_of_not_supported h
    have hcompiled : (of t).compiled = .error d := by
      rw [compiled, declaration, hrefused.write]
      rfl
    exact ⟨hrefused.kind, hcompiled, hrefused.node⟩
  · have hd := declaration_eq h
    have hcompile := (compile_declaration_iff h hremarks hid hfew hd "schema.capnp" _).mpr
      ⟨hdistinct, rfl⟩
    have hcompiled := compiled_of_compile hd hcompile
    refine ⟨(of t).source.compiled, hcompiled, node_of_compiled hcompiled, ?_⟩
    exact List.length_mapIdx.trans (length_fieldSources 0 _)
  · have hd := declaration_eq h
    refine internalSchema_of_compile hd fun c hc => ?_
    exact hrepeated ((compile_declaration_iff h hremarks hid hfew hd _ c).mp hc).1

def twinType : HwType := .struct [⟨"a", .int .signless 8⟩, ⟨"a", .int .signless 8⟩]

/-- A struct of a byte behind an alias that has a line end in its name, and yet every line is a
comment. -/
def commentedType : HwType := .struct [⟨"a", .named "x\n# y" (.int .signless 8)⟩]

private theorem gap_commentedType : Gap (remark (.named "x\n# y" (.int .signless 8))) := by
  have hfirst : " Actual type is !hw.typealias<@x".toList.all isInline = true := by
    decide +kernel
  have hsecond : " y, i8>.".toList.all isInline = true := by decide +kernel
  have hlines : remark (.named "x\n# y" (.int .signless 8)) =
      '#' :: (" Actual type is !hw.typealias<@x".toList ++ '\n' ::
        '#' :: (" y, i8>.".toList ++ '\n' :: [])) := by decide +kernel
  rw [hlines]
  exact .comment (List.all_eq_true.mp hfirst) (by decide)
    (.comment (List.all_eq_true.mp hsecond) (by decide) .nil)

theorem remarks_twinType : ∀ f ∈ (of twinType).fields, Gap (remark f.type) := by
  have hnamed : (HwType.int .signless 8).WellNamed 0 := trivial
  exact List.forall_mem_cons.mpr
    ⟨gap_remark hnamed.inline, List.forall_mem_singleton.mpr (gap_remark hnamed.inline)⟩

theorem commentedType_compiles_twinType_repeated :
    (∃ node, (of commentedType).node = .ok node ∧ node.fields.length = 1) ∧
      ∃ detail, (of twinType).node = .error (.internalSchema detail) := by
  obtain ⟨-, hcompiles, -⟩ := compiles_unless_repeated (t := commentedType) (by decide +kernel)
    (List.forall_mem_singleton.mpr gap_commentedType) (by decide)
  obtain ⟨-, -, hrepeated⟩ := compiles_unless_repeated (t := twinType) (by decide +kernel)
    remarks_twinType (by decide)
  obtain ⟨node, -, hnode, hlength⟩ := hcompiles (by decide +kernel) (by decide +kernel)
  obtain ⟨detail, -, hdetail⟩ := hrepeated (by decide +kernel) (by decide +kernel)
  exact ⟨⟨node, hnode, hlength⟩, detail, hdetail⟩

def brokenType : HwType := .struct [⟨"a", .named "x\ny" (.int .signless 8)⟩]

def brokenText : String :=
  "struct Struct13921202077442004966 @0xc1320b88205c57e6 \x7b\n" ++
    "  a @0 :UInt8;  # Actual type is !hw.typealias<@x\ny, i8>.\n\x7d\n\n"

/-- A type may pass the check for support, and its declaration may be refused all the same: because
of two fields of one name, or because of the alias of a field, whose name is not looked at and ends
the comment that it stands in. -/
theorem supported_and_refused :
    ((of twinType).id ≠ ownSchemaId ∧ (of twinType).checkSupported = .ok () ∧
      ∃ detail, (of twinType).compiled = .error (.internalSchema detail) ∧
        (of twinType).node = .error (.internalSchema detail)) ∧
    ((of brokenType).id ≠ ownSchemaId ∧ (of brokenType).checkSupported = .ok () ∧
      ∃ detail, (of brokenType).compiled = .error (.internalSchema detail) ∧
        (of brokenType).node = .error (.internalSchema detail)) := by
  have htwin : (of twinType).checkSupported = .ok () := by decide +kernel
  have hbroken : (of brokenType).checkSupported = .ok () := by decide +kernel
  have hown : (of twinType).id ≠ ownSchemaId := by decide +kernel
  refine ⟨⟨hown, htwin, ?_⟩, by decide +kernel, hbroken, ?_⟩
  · refine internalSchema_of_compile (declaration_eq htwin) fun c hc => ?_
    have hdistinct := ((compile_declaration_iff htwin remarks_twinType hown (by decide)
      (declaration_eq htwin) _ c).mp hc).1
    exact absurd hdistinct (by decide)
  · have hd : (of brokenType).declaration = .ok brokenText := by decide +kernel
    refine internalSchema_of_compile hd fun c hc => ?_
    have hid : (idText ownSchemaId ++ ";\n").toList = "@0xffffffffffffffff;\n".toList := by
      decide +kernel
    -- The text is spelled out first, since the reader looks at its characters again and again.
    have hunread : (SchemaSource.read (idText ownSchemaId ++ ";\n" ++ brokenText)).isOk = false := by
      unfold brokenText SchemaSource.read
      rw [String.toList_append, hid, String.toList_append, String.toList_ofList,
        String.toList_ofList, String.toList_ofList]
      decide +kernel
    rw [SchemaSource.compile] at hc
    cases hread : SchemaSource.read (idText ownSchemaId ++ ";\n" ++ brokenText) with
    | ok source => exact absurd hunread (by rw [hread]; exact Bool.noConfusion)
    | error failure => rw [hread] at hc; cases hc

end MessageSchema
end ChannelCodec
