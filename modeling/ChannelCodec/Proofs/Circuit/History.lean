import ChannelCodec.Proofs.Circuit.WellTyped
import Mathlib.Data.List.Nodup
import Mathlib.Data.List.Perm.Basic

/-! Circuits under any history of calls. A call that fails does so before it changes anything; one
that succeeds keeps the circuit well formed. So whatever has been called on a circuit, and whatever
of it has failed, the circuit is well formed. -/
namespace ChannelCodec

/-! Failing first. -/

def Inspects {ε σ α : Type} (m : EStateM ε σ α) : Prop :=
  ∀ s, (∃ a, m s = .ok a s) ∨ ∃ failure, m s = .error failure s

def FailsFirst {ε σ α : Type} (m : EStateM ε σ α) : Prop :=
  ∀ s failure s', m s = .error failure s' → s' = s

def Total {ε σ α : Type} (m : EStateM ε σ α) : Prop := ∀ s, ∃ a s', m s = .ok a s'

section Failing
variable {ε σ α β : Type} {m : EStateM ε σ α} {f : α → EStateM ε σ β}

theorem Inspects.pure (a : α) : Inspects (Pure.pure a : EStateM ε σ α) := fun _ => .inl ⟨a, rfl⟩

theorem Inspects.bind (hm : Inspects m) (hf : ∀ a, Inspects (f a)) : Inspects (m >>= f) := by
  intro s
  simp only [Bind.bind, EStateM.bind]
  rcases hm s with ⟨a, ha⟩ | ⟨failure, hfailure⟩
  · rw [ha]
    exact hf a s
  · rw [hfailure]
    exact .inr ⟨failure, rfl⟩

private theorem Inspects.mapM {f : α → EStateM ε σ β} (hf : ∀ a, Inspects (f a)) (items : List α) :
    Inspects (items.mapM f) := by
  induction items with
  | nil => exact .pure []
  | cons a items ih =>
    rw [List.mapM_cons]
    exact (hf a).bind fun _ => ih.bind fun _ => .pure _

theorem Total.pure (a : α) : Total (Pure.pure a : EStateM ε σ α) := fun s => ⟨a, s, rfl⟩

theorem Total.modifyGet (g : σ → α × σ) : Total (modifyGet g : EStateM ε σ α) :=
  fun s => ⟨(g s).1, (g s).2, rfl⟩

theorem Total.bind (hm : Total m) (hf : ∀ a, Total (f a)) : Total (m >>= f) := by
  intro s
  obtain ⟨a, s₁, ha⟩ := hm s
  obtain ⟨b, s₂, hb⟩ := hf a s₁
  exact ⟨b, s₂, by simp only [Bind.bind, EStateM.bind, ha, hb]⟩

private theorem FailsFirst.of_inspects (hm : Inspects m) : FailsFirst m := by
  intro s failure s' h
  rcases hm s with ⟨a, ha⟩ | ⟨failure', hfailure⟩
  · rw [ha] at h
    cases h
  · rw [hfailure] at h
    cases h
    rfl

theorem FailsFirst.of_total (hm : Total m) : FailsFirst m := by
  intro s failure s' h
  obtain ⟨a, s₁, ha⟩ := hm s
  rw [ha] at h
  cases h

theorem FailsFirst.read (hm : Inspects m) (hf : ∀ a, FailsFirst (f a)) : FailsFirst (m >>= f) := by
  intro s failure s' h
  simp only [Bind.bind, EStateM.bind] at h
  rcases hm s with ⟨a, ha⟩ | ⟨failure', hfailure⟩
  · rw [ha] at h
    exact hf a s failure s' h
  · rw [hfailure] at h
    cases h
    rfl

private theorem FailsFirst.bind_total (hm : FailsFirst m) (hf : ∀ a, Total (f a)) :
    FailsFirst (m >>= f) := by
  intro s failure s' h
  simp only [Bind.bind, EStateM.bind] at h
  cases hs : m s with
  | ok a s₁ =>
    obtain ⟨b, s₂, hb⟩ := hf a s₁
    rw [hs] at h
    dsimp only at h
    rw [hb] at h
    cases h
  | error failure' s₁ =>
    rw [hs] at h
    cases h
    exact hm s _ _ hs

end Failing

namespace Build

theorem require_inspects (p : Prop) [Decidable p] (mistake : Misuse) :
    Inspects (require p mistake) := by
  unfold require
  split
  · exact .pure ()
  · exact fun _ => .inr ⟨_, rfl⟩

theorem expect_inspects {α : Type} (a : Option α) (mistake : Misuse) :
    Inspects (expect a mistake) := by
  unfold expect
  split
  · exact .pure _
  · exact fun _ => .inr ⟨_, rfl⟩

theorem circuit_inspects : Inspects circuit := fun b => .inl ⟨b.circuit, rfl⟩

theorem typeOf_inspects (v : Nat) : Inspects (typeOf v) :=
  circuit_inspects.bind fun _ => expect_inspects _ _

private theorem signlessWidth_inspects (v : Nat) (operation : String) :
    Inspects (signlessWidth v operation) :=
  (typeOf_inspects v).bind fun _ => (require_inspects _ _).bind fun _ => .pure _

theorem requireTypes_inspects (mistake : String → Misuse) (fields : List (Field HwType))
    (vs : List Nat) : Inspects (requireTypes mistake fields vs) := by
  induction fields generalizing vs with
  | nil =>
    unfold requireTypes
    exact .pure ()
  | cons field fields ih =>
    cases vs with
    | nil => exact .pure ()
    | cons v vs =>
      exact (typeOf_inspects v).bind fun _ => (require_inspects _ _).bind fun _ => ih vs

private theorem joinedArrays_inspects (element : HwType) (types : List HwType) :
    Inspects (joinedArrays element types) := by
  induction types with
  | nil => exact .pure 0
  | cons t types ih =>
    refine (expect_inspects _ _).bind ?_
    rintro ⟨e, size⟩
    exact (require_inspects _ _).bind fun _ => ih.bind fun _ => .pure _

private theorem checkIndex_inspects (size index : Nat) : Inspects (checkIndex size index) :=
  (signlessWidth_inspects index _).bind fun _ => require_inspects _ _

private theorem addGate_fails_first (gate : Gate) (operands : List Nat) (t : HwType) :
    FailsFirst (addGate gate operands t) := .of_total (.modifyGet _)

private theorem enter_fails_first (block : Block) : FailsFirst (enter block) := by
  unfold enter
  cases block with
  | body => exact .of_total (.modifyGet _)
  | region owner =>
    refine .read circuit_inspects fun c => .read (expect_inspects _ _) fun o => ?_
    exact .read (require_inspects _ _) fun _ => .of_total (.modifyGet _)

private theorem observe_fails_first (kind : OperationKind) (v : Nat) (mistake : Misuse) :
    FailsFirst (do
      require ((← typeOf v) = .bit) mistake
      addOperation kind [v] []) :=
  .read (typeOf_inspects v) fun _ => .read (require_inspects _ _) fun _ => .of_total (.modifyGet _)

private theorem instantiate_fails_first (callee : String) (ports : List Port) (name : String)
    (inputs : List Nat) : FailsFirst (instantiate callee ports name inputs) := by
  refine .read (require_inspects _ _) fun _ => .read (requireTypes_inspects _ _ _) fun _ => ?_
  -- The name is taken when nothing is left that can fail.
  exact .of_total (.bind (.modifyGet _) fun _ => .modifyGet _)

private theorem output_fails_first (vs : List Nat) : FailsFirst (output vs) := by
  refine .read circuit_inspects fun _ => .read (require_inspects _ _) fun _ => ?_
  exact .read (requireTypes_inspects _ _ _) fun _ => .of_total (.modifyGet _)

end Build

theorem BuildCall.run_fails_first (call : BuildCall) : FailsFirst call.run := by
  -- Leaving a result out cannot fail.
  have hdiscard : ∀ {α : Type} {m : Build α}, FailsFirst m → FailsFirst (do let _ ← m) :=
    fun hm => hm.bind_total fun _ => .pure ()
  cases call with
  | enter block => exact Build.enter_fails_first block
  | input name =>
    exact hdiscard (.read Build.circuit_inspects fun _ => .of_inspects (Build.expect_inspects _ _))
  | setName value name =>
    exact hdiscard (.read (Build.typeOf_inspects value) fun _ => .of_total (.modifyGet _))
  | constant type value =>
    refine hdiscard (.read (Build.require_inspects _ _) fun _ => ?_)
    exact Build.addGate_fails_first _ _ _
  | bitcast value type =>
    refine hdiscard (.read (Build.typeOf_inspects value) fun _ => ?_)
    exact .read (Build.require_inspects _ _) fun _ => Build.addGate_fails_first _ _ _
  | extract value low width =>
    refine hdiscard (.read (Build.signlessWidth_inspects value _) fun _ => ?_)
    exact .read (Build.require_inspects _ _) fun _ => Build.addGate_fails_first _ _ _
  | concat values =>
    refine hdiscard (.read (.mapM (fun v => Build.signlessWidth_inspects v _) values) fun _ => ?_)
    exact Build.addGate_fails_first _ _ _
  | add a b =>
    refine hdiscard (.read (Build.signlessWidth_inspects a _) fun _ => ?_)
    refine .read (Build.typeOf_inspects a) fun _ => .read (Build.typeOf_inspects b) fun _ => ?_
    exact .read (Build.require_inspects _ _) fun _ => Build.addGate_fails_first _ _ _
  | compare predicate a b =>
    refine hdiscard (.read (Build.signlessWidth_inspects a _) fun _ => ?_)
    refine .read (Build.typeOf_inspects a) fun _ => .read (Build.typeOf_inspects b) fun _ => ?_
    exact .read (Build.require_inspects _ _) fun _ => Build.addGate_fails_first _ _ _
  | arraySlice array index size =>
    refine hdiscard (.read (Build.typeOf_inspects array) fun _ => ?_)
    refine .read (Build.expect_inspects _ _) fun _ => .read (Build.require_inspects _ _) fun _ => ?_
    exact .read (Build.checkIndex_inspects _ index) fun _ => Build.addGate_fails_first _ _ _
  | arrayGet array index =>
    refine hdiscard (.read (Build.typeOf_inspects array) fun _ => ?_)
    refine .read (Build.expect_inspects _ _) fun _ => ?_
    exact .read (Build.checkIndex_inspects _ index) fun _ => Build.addGate_fails_first _ _ _
  | arrayCreate elements =>
    refine hdiscard (.read (.mapM Build.typeOf_inspects elements) fun _ => ?_)
    refine .read (Build.expect_inspects _ _) fun _ => ?_
    exact .read (Build.require_inspects _ _) fun _ => Build.addGate_fails_first _ _ _
  | arrayConcat arrays =>
    refine hdiscard (.read (.mapM Build.typeOf_inspects arrays) fun _ => ?_)
    refine .read (Build.expect_inspects _ _) fun _ => .read (Build.expect_inspects _ _) fun _ => ?_
    exact .read (Build.joinedArrays_inspects _ _) fun _ => Build.addGate_fails_first _ _ _
  | structExtract value field =>
    refine hdiscard (.read (Build.typeOf_inspects value) fun _ => ?_)
    exact .read (Build.expect_inspects _ _) fun _ => Build.addGate_fails_first _ _ _
  | structCreate type values =>
    refine hdiscard (.read (Build.expect_inspects _ _) fun _ => ?_)
    refine .read (Build.require_inspects _ _) fun _ => ?_
    exact .read (Build.requireTypes_inspects _ _ values) fun _ => Build.addGate_fails_first _ _ _
  | instantiate callee ports name inputs =>
    exact hdiscard (Build.instantiate_fails_first callee ports name inputs)
  | always clock => exact hdiscard (Build.observe_fails_first _ clock _)
  | branch condition => exact hdiscard (Build.observe_fails_first _ condition _)
  | assertion condition message => exact hdiscard (Build.observe_fails_first _ condition _)
  | output values => exact Build.output_fails_first values

/-! Names. -/

def OperationKind.instanceName? : OperationKind → Option String
  | .instantiate _ name => some name
  | _ => none

namespace Circuit

def valueNames (c : Circuit) : List String := c.values.values.filterMap (·.name)

def instanceNames (c : Circuit) : List String :=
  c.operations.values.filterMap (·.kind.instanceName?)

/-- All names in use, each once and none of them free. -/
structure Named (c : Circuit) : Prop where
  distinct : (c.valueNames ++ c.instanceNames).Nodup
  taken : ∀ name ∈ c.valueNames ++ c.instanceNames, name ∈ c.names.taken

def Housed (c : Circuit) (block : Block) : Prop :=
  ∀ owner, block = .region owner →
    ∃ o, c.operations.get? owner = some o ∧ o.kind.hasRegion = true

variable {c c' : Circuit} {block : Block} {kind : OperationKind} {operands : List Nat}
variable {types : List HwType}

private theorem valueNames_append :
    (c.append block kind operands types).valueNames = c.valueNames := by
  have hnew : (types.mapIdx fun n type =>
      ({ type, origin := .result c.operations.nextKey n } : Value)).filterMap (·.name) = [] := by
    refine List.filterMap_eq_nil_iff.mpr fun x hx => ?_
    obtain ⟨i, hi, rfl⟩ := List.mem_mapIdx.mp hx
    rfl
  simp only [valueNames, append, Arena.values_pushAll, List.filterMap_append, hnew,
    List.append_nil]

private theorem instanceNames_append : (c.append block kind operands types).instanceNames =
    c.instanceNames ++ kind.instanceName?.toList := by
  have hvalues : (c.append block kind operands types).operations.values = c.operations.values ++
      [⟨kind, operands, List.range' c.values.nextKey types.length, block⟩] := by
    simp [append, Arena.push, Arena.values]
  have hnew : ∀ o : Operation,
      [o].filterMap (·.kind.instanceName?) = o.kind.instanceName?.toList := by
    intro o
    rw [List.filterMap_cons]
    cases o.kind.instanceName? <;> rfl
  rw [instanceNames, hvalues, List.filterMap_append, hnew, instanceNames]

theorem Named.of_eq (h : c.Named) (hvalues : c'.valueNames = c.valueNames)
    (hinstances : c'.instanceNames = c.instanceNames)
    (htaken : ∀ name ∈ c.names.taken, name ∈ c'.names.taken) : c'.Named := by
  refine ⟨?_, fun name hname => htaken name (h.taken name ?_)⟩
  · rw [hvalues, hinstances]
    exact h.distinct
  · rwa [hvalues, hinstances] at hname

private theorem Named.of_fresh (h : c.Named) {name : String} (hfresh : name ∉ c.names.taken)
    (htaken : c'.names.taken = name :: c.names.taken) {rest : List String}
    (hnames : (c'.valueNames ++ c'.instanceNames).Perm (name :: rest))
    (hrest : rest.Sublist (c.valueNames ++ c.instanceNames)) : c'.Named := by
  have hold : ∀ old ∈ rest, old ∈ c.names.taken := fun old hmem =>
    h.taken old (hrest.subset hmem)
  refine ⟨hnames.nodup_iff.mpr (List.nodup_cons.mpr ⟨?_, h.distinct.sublist hrest⟩), ?_⟩
  · exact fun hmem => hfresh (hold name hmem)
  · intro used hused
    rw [htaken, List.mem_cons]
    exact (List.mem_cons.mp (hnames.mem_iff.mp hused)).imp id (hold used)

/-- Giving a value a name takes away the name that it had. -/
theorem filterMap_name_modify (values : List Value) (v : Nat) (name : String) :
    (values.modify v fun value => { value with name := some name }).filterMap (·.name) =
        values.filterMap (·.name) ∨
      ∃ rest, ((values.modify v fun value => { value with name := some name }).filterMap
        (·.name)).Perm (name :: rest) ∧ rest.Sublist (values.filterMap (·.name)) := by
  induction values generalizing v with
  | nil => exact .inl (by rw [List.modify_nil])
  | cons x values ih =>
    cases v with
    | zero =>
      refine .inr ⟨values.filterMap (·.name), ?_, ?_⟩
      · rw [List.modify_zero_cons]
        exact .refl _
      · exact (List.sublist_cons_self x values).filterMap _
    | succ v =>
      rw [List.modify_succ_cons, List.filterMap_cons, List.filterMap_cons]
      rcases ih v with heq | ⟨rest, hperm, hsub⟩
      · exact .inl (by rw [heq])
      · cases x.name with
        | none => exact .inr ⟨rest, hperm, hsub⟩
        | some old =>
          exact .inr ⟨old :: rest, (hperm.cons old).trans (.swap name old rest), hsub.cons_cons old⟩

end Circuit

namespace Builder
variable {known : String → List Port → Prop} {b b' : Builder}

private theorem named_rename (h : b.circuit.Named) (v : Nat) (name : String) :
    (b.rename v name).circuit.Named := by
  obtain ⟨hfresh, htaken⟩ := b.circuit.names.fresh_spec name
  have hvalues : (b.rename v name).circuit.valueNames = (b.circuit.values.values.modify v
      fun value => { value with name := some (b.circuit.names.fresh name).1 }).filterMap
        (·.name) := by
    unfold Circuit.valueNames rename Arena.values Arena.modify
    rw [Array.toList_modify]
  rcases Circuit.filterMap_name_modify b.circuit.values.values v
    (b.circuit.names.fresh name).1 with heq | ⟨rest, hperm, hsub⟩
  · refine h.of_eq (hvalues.trans heq) rfl fun old hold => ?_
    show old ∈ (b.circuit.names.fresh name).2.taken
    rw [htaken]
    exact List.mem_cons_of_mem _ hold
  · refine h.of_fresh hfresh htaken ?_ (hsub.append_right b.circuit.instanceNames)
    rw [hvalues]
    exact hperm.append_right _

private theorem named_instantiate (h : b.circuit.Named) (name callee : String) (inputs : List Nat)
    (types : List HwType) : ((b.takeName name).append
      (.instantiate callee (b.circuit.names.fresh name).1) inputs types).circuit.Named := by
  obtain ⟨hfresh, htaken⟩ := b.circuit.names.fresh_spec name
  refine h.of_fresh hfresh htaken ?_ (List.Sublist.refl _)
  rw [append, Circuit.valueNames_append, Circuit.instanceNames_append, ← List.append_assoc]
  exact List.perm_append_singleton _ _

end Builder

/-! Histories. -/

namespace Circuit
variable {known : String → List Port → Prop} {c : Circuit}

/-- Every operation stands in the body or in one region, whose owner is an earlier operation. Values
and operations lead to each other, types fit, and operands come before results. No name of a value
or an instance is used twice. -/
structure WellFormed (known : String → List Port → Prop) (c : Circuit) : Prop where
  once : (c.body ++ (List.range c.operations.size).flatMap fun owner =>
    c.operationsIn (.region owner)).Perm (List.range c.operations.size)
  regions : ∀ owner, ∀ i ∈ c.operationsIn (.region owner), owner < i ∧
    ∃ o, c.operations.get? owner = some o ∧ o.kind.hasRegion = true
  typed : c.WellTyped known
  names : (c.valueNames ++ c.instanceNames).Nodup

private theorem block_eq_of_mem {block block' : Block} {i : Nat} (h : i ∈ c.operationsIn block)
    (h' : i ∈ c.operationsIn block') : block = block' := by
  obtain ⟨o, ho, hblock⟩ := mem_operationsIn.mp h
  obtain ⟨o', ho', hblock'⟩ := mem_operationsIn.mp h'
  rw [ho] at ho'
  cases ho'
  exact hblock.symm.trans hblock'

theorem operationsIn_perm (h : ∀ i o owner, c.operations.get? i = some o →
    o.block = .region owner → owner < c.operations.size) :
    (c.body ++ (List.range c.operations.size).flatMap fun owner =>
      c.operationsIn (.region owner)).Perm (List.range c.operations.size) := by
  have hnodup : ∀ block, (c.operationsIn block).Nodup := fun block => List.nodup_range.filter _
  refine (List.perm_ext_iff_of_nodup ?_ List.nodup_range).mpr fun i => ?_
  · rw [List.nodup_append', List.nodup_flatMap]
    refine ⟨hnodup _, ⟨fun owner _ => hnodup _, ?_⟩, ?_⟩
    · refine List.nodup_range.imp fun {owner owner'} hne => ?_
      exact fun i hi hi' => hne (Block.region.inj (block_eq_of_mem hi hi'))
    · intro i hi hi'
      obtain ⟨owner, -, hi'⟩ := List.mem_flatMap.mp hi'
      cases block_eq_of_mem hi hi'
  · rw [List.mem_append, List.mem_flatMap, List.mem_range]
    constructor
    · rintro (hi | ⟨owner, -, hi⟩)
      · obtain ⟨o, ho, -⟩ := mem_operationsIn.mp hi
        exact lt_of_get?_operations ho
      · obtain ⟨o, ho, -⟩ := mem_operationsIn.mp hi
        exact lt_of_get?_operations ho
    · intro hi
      obtain ⟨o, ho⟩ := get?_operations_of_lt hi
      cases hblock : o.block with
      | body => exact .inl (mem_operationsIn.mpr ⟨o, ho, hblock⟩)
      | region owner =>
        refine .inr ⟨owner, ?_, mem_operationsIn.mpr ⟨o, ho, hblock⟩⟩
        exact List.mem_range.mpr (h i o owner ho hblock)

end Circuit

theorem Circuit.Housed.append {c : Circuit} {block block' : Block} {kind : OperationKind}
    {operands : List Nat} {types : List HwType} (h : c.Housed block) :
    (c.append block' kind operands types).Housed block := by
  intro owner howner
  obtain ⟨o, ho, hregion⟩ := h owner howner
  exact ⟨o, append_extends.operations owner o ho, hregion⟩

structure Builder.Orderly (known : String → List Port → Prop) (b : Builder) : Prop where
  typed : b.WellTyped known
  named : b.circuit.Named
  housed : ∀ i o, b.circuit.operations.get? i = some o → b.circuit.Housed o.block
  block : b.circuit.Housed b.block

def Builder.attempt (b : Builder) (call : BuildCall) : Builder :=
  match call.run b with
  | .ok _ b' => b'
  | .error _ b' => b'

/-- The builder after calls, of which any may have failed. -/
def Builder.after (b : Builder) (calls : List BuildCall) : Builder := calls.foldl attempt b

namespace Builder
variable {known : String → List Port → Prop} {b b' : Builder}

theorem Orderly.wellFormed (hb : b.Orderly known) : b.circuit.WellFormed known where
  once := by
    refine Circuit.operationsIn_perm fun i o owner ho hblock => ?_
    obtain ⟨o', ho', -⟩ := hb.housed i o ho owner hblock
    exact Circuit.lt_of_get?_operations ho'
  regions := by
    intro owner i hi
    obtain ⟨o, ho, hblock⟩ := Circuit.mem_operationsIn.mp hi
    exact ⟨hb.typed.circuit.region i o owner ho hblock, hb.housed i o ho owner hblock⟩
  typed := hb.typed.circuit
  names := hb.named.distinct

theorem Orderly.append (hb : b.Orderly known) {kind : OperationKind} {operands : List Nat}
    {types : List HwType} (htyped : (b.append kind operands types).WellTyped known)
    (hkind : kind.instanceName? = none) : (b.append kind operands types).Orderly known where
  typed := htyped
  named := by
    refine hb.named.of_eq Circuit.valueNames_append ?_ fun _ h => h
    rw [Builder.append, Circuit.instanceNames_append, hkind]
    exact List.append_nil _
  housed := by
    intro i o ho
    rcases Circuit.get?_operations_append_cases ho with ⟨-, ho⟩ | ⟨-, rfl⟩
    · exact (hb.housed i o ho).append
    · exact hb.block.append
  block := hb.block.append

theorem Orderly.step (hb : b.Orderly known) (hstep : b.Step known b') : b'.Orderly known := by
  have htyped := hb.typed.step hstep
  cases hstep with
  | look => exact hb
  | enter hregion => exact ⟨htyped, hb.named, hb.housed, hregion⟩
  | rename v name => exact ⟨htyped, named_rename hb.named v name, hb.housed, hb.block⟩
  | compute => exact hb.append htyped rfl
  | @instantiate callee ports inputs name =>
    refine ⟨htyped, named_instantiate hb.named name callee inputs _, fun i o ho => ?_,
      hb.block.append⟩
    rcases Circuit.get?_operations_append_cases ho with ⟨-, ho⟩ | ⟨-, rfl⟩
    · exact (hb.housed i o ho).append
    · exact hb.block.append
  | observe hkind =>
    refine hb.append htyped ?_
    obtain rfl | rfl | ⟨message, rfl⟩ := hkind <;> rfl
  | output => exact ⟨htyped, hb.named.of_eq rfl rfl fun _ h => h, hb.housed, hb.block⟩

private theorem Orderly.attempt (hb : b.Orderly known) {call : BuildCall}
    (hcall : call.Respects known) :
    (b.attempt call).Orderly known := by
  unfold Builder.attempt
  cases hrun : call.run b with
  | ok a b' => exact hb.step (BuildCall.run_steps hcall b a b' hrun)
  | error failure b' =>
    obtain rfl := call.run_fails_first b failure b' hrun
    exact hb

private theorem Orderly.after (hb : b.Orderly known) {calls : List BuildCall}
    (hcalls : ∀ call ∈ calls, call.Respects known) : (b.after calls).Orderly known := by
  induction calls generalizing b with
  | nil => exact hb
  | cons call calls ih =>
    obtain ⟨hcall, hcalls⟩ := List.forall_mem_cons.mp hcalls
    exact ih (hb.attempt hcall) hcalls

end Builder

namespace Circuit
variable {known : String → List Port → Prop} {c : Circuit} {name : String} {ports : List Port}

private theorem filterMap_name_inputs (ports : List Port) :
    (ports.mapIdx fun n port => ({ type := port.type, origin := .input n, name := some port.name } :
      Value)).filterMap (·.name) = ports.map (·.name) := by
  rw [List.mapIdx_eq_zipIdx_map, List.filterMap_map]
  conv_rhs => rw [← List.zipIdx_map_fst 0 ports, List.map_map]
  exact congrFun List.filterMap_eq_map _

private theorem valueNames_ofPorts (h : ofPorts name ports = .ok c) :
    c.valueNames = (portsOf .input ports).map (·.name) := by
  unfold ofPorts at h
  split at h
  next => cases h
  next =>
    cases h
    rw [valueNames, Arena.values_pushAll, List.filterMap_append]
    exact filterMap_name_inputs _

private theorem taken_ofPorts (h : ofPorts name ports = .ok c) :
    c.names.taken = ports.map (·.name) ∧ (ports.map (·.name)).Nodup := by
  unfold ofPorts at h
  split at h
  next => cases h
  next hnone =>
    cases h
    exact ⟨rfl, firstRepeated_eq_none.mp hnone⟩

private theorem named_ofPorts (h : ofPorts name ports = .ok c) : c.Named := by
  have hnames : c.valueNames ++ c.instanceNames = (portsOf .input ports).map (·.name) := by
    rw [valueNames_ofPorts h, instanceNames, (ofPorts_eq h).2.2]
    exact List.append_nil _
  obtain ⟨htaken, hnodup⟩ := taken_ofPorts h
  have hsub : ((portsOf .input ports).map (·.name)).Sublist (ports.map (·.name)) :=
    List.filter_sublist.map _
  constructor
  · rw [hnames]
    exact hnodup.sublist hsub
  · intro used hused
    rw [htaken]
    exact hsub.subset (hnames ▸ hused)

theorem orderly_ofPorts (h : ofPorts name ports = .ok c) :
    Builder.Orderly known { circuit := c } := by
  refine ⟨⟨wellTyped_ofPorts h, ?_⟩, named_ofPorts h, fun i o ho => ?_, ?_⟩
  · rintro owner ⟨⟩
  · rw [(ofPorts_eq h).2.2] at ho
    cases ho
  · rintro owner ⟨⟩

/-- Whatever has been called on a circuit, it is well formed, with its instances made for the ports
they were asked for; and what fails next changes nothing. -/
theorem wellFormed_after (h : ofPorts name ports = .ok c) (calls : List BuildCall) :
    (Builder.after { circuit := c } calls).circuit.WellFormed (fun callee ports =>
      ∃ name inputs, .instantiate callee ports name inputs ∈ calls) ∧
    ∀ (call : BuildCall) failure b',
      call.run (Builder.after { circuit := c } calls) = .error failure b' →
        b' = Builder.after { circuit := c } calls := by
  refine ⟨((orderly_ofPorts h).after fun call hcall => ?_).wellFormed, ?_⟩
  · cases call with
    | instantiate callee ports name inputs => exact ⟨name, inputs, hcall⟩
    | _ => trivial
  · intro call failure b' hrun
    exact call.run_fails_first _ failure b' hrun

def watchStart : Circuit where
  name := "Watch"
  ports := [⟨.input, "clk", .bit⟩]
  values := ⟨#[⟨.bit, .input 0, some "clk"⟩]⟩
  names := .reserving ["clk"]

/-- Calls of which the fourth one fails, since there is no value with the number 7. -/
def watchCalls : List BuildCall :=
  [.always 0, .enter (.region 0), .assertion 0 "low", .add 0 7, .setName 0 "clock"]

theorem wellFormed_watch : (Builder.after { circuit := watchStart } watchCalls).circuit.WellFormed
      (fun callee ports => ∃ name inputs, .instantiate callee ports name inputs ∈ watchCalls) ∧
    (Builder.after { circuit := watchStart } watchCalls).circuit.body = [0] ∧
    (Builder.after { circuit := watchStart } watchCalls).circuit.operationsIn (.region 0) =
      [1] := by
  have hstart : ofPorts "Watch" watchStart.ports = .ok watchStart := rfl
  exact ⟨(wellFormed_after hstart watchCalls).1, rfl, rfl⟩

end Circuit

end ChannelCodec
