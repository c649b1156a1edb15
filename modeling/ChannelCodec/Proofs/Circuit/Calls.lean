import ChannelCodec.Circuit.Builder
import ChannelCodec.Proofs.Circuit.Extension
import ChannelCodec.Proofs.Circuit.Typing
import ChannelCodec.Proofs.Success

/-! Calls of construction steps. Whoever builds a circuit does so by calls of the construction
steps, in whatever order. What a call can do to a builder, if it succeeds, is said here once. -/
namespace ChannelCodec

def Circuit.Types (c : Circuit) (values : List Nat) (types : List HwType) : Prop :=
  List.Forall₂ (fun v t => c.type? v = some t) values types

namespace Circuit
variable {c c' : Circuit} {values : List Nat} {types types' : List HwType}

theorem Types.of_type? (h : c.Types values types)
    (htype : ∀ v t, c.type? v = some t → c'.type? v = some t) : c'.Types values types :=
  h.imp fun v t => htype v t

theorem Types.lt (h : c.Types values types) : ∀ v ∈ values, v < c.values.size := by
  induction h with
  | nil => exact List.forall_mem_nil _
  | cons hv _ ih => exact List.forall_mem_cons.mpr ⟨lt_of_type? hv, ih⟩

private theorem Types.filterMap_type? (h : c.Types values types) :
    values.filterMap c.type? = types := by
  induction h with
  | nil => rfl
  | cons hv _ ih => rw [List.filterMap_cons_some hv, ih]

theorem Types.unique (h : c.Types values types) (h' : c.Types values types') : types = types' := by
  rw [← h.filterMap_type?, h'.filterMap_type?]

theorem types_replicate {v : Nat} {t : HwType} (h : c.type? v = some t) (n : Nat) :
    c.Types (List.replicate n v) (List.replicate n t) := by
  induction n with
  | zero => exact .nil
  | succ n ih => exact .cons h ih

end Circuit

inductive BuildCall where
  | enter (block : Block)
  | input (name : String)
  | setName (value : Nat) (name : String)
  | constant (type : HwType) (value : Bits)
  | bitcast (value : Nat) (type : HwType)
  | extract (value low width : Nat)
  | concat (values : List Nat)
  | add (a b : Nat)
  | compare (predicate : Predicate) (a b : Nat)
  | arraySlice (array index size : Nat)
  | arrayGet (array index : Nat)
  | arrayCreate (elements : List Nat)
  | arrayConcat (arrays : List Nat)
  | structExtract (value : Nat) (field : String)
  | structCreate (type : HwType) (values : List Nat)
  | instantiate (callee : String) (ports : List Port) (name : String) (inputs : List Nat)
  | always (clock : Nat)
  | branch (condition : Nat)
  | assertion (condition : Nat) (message : String)
  | output (values : List Nat)

namespace BuildCall

def run : BuildCall → Build Unit
  | enter block => Build.enter block
  | input name => do let _ ← Build.input name
  | setName value name => do let _ ← Build.setName value name
  | constant type value => do let _ ← Build.constant type value
  | bitcast value type => do let _ ← Build.bitcast value type
  | extract value low width => do let _ ← Build.extract value low width
  | concat values => do let _ ← Build.concat values
  | add a b => do let _ ← Build.add a b
  | compare predicate a b => do let _ ← Build.compare predicate a b
  | arraySlice array index size => do let _ ← Build.arraySlice array index size
  | arrayGet array index => do let _ ← Build.arrayGet array index
  | arrayCreate elements => do let _ ← Build.arrayCreate elements
  | arrayConcat arrays => do let _ ← Build.arrayConcat arrays
  | structExtract value field => do let _ ← Build.structExtract value field
  | structCreate type values => do let _ ← Build.structCreate type values
  | instantiate callee ports name inputs => do
    let _ ← Build.instantiate callee ports name inputs
  | always clock => do let _ ← Build.always clock
  | branch condition => do let _ ← Build.branch condition
  | assertion condition message => do let _ ← Build.assertion condition message
  | output values => Build.output values

def Respects (known : String → List Port → Prop) : BuildCall → Prop
  | instantiate callee ports _ _ => known callee ports
  | _ => True

end BuildCall

namespace Builder

def rename (b : Builder) (v : Nat) (name : String) : Builder :=
  { b with circuit := { b.circuit with
    names := (b.circuit.names.fresh name).2
    values := b.circuit.values.modify v fun value =>
      { value with name := some (b.circuit.names.fresh name).1 } } }

def takeName (b : Builder) (name : String) : Builder :=
  { b with circuit := { b.circuit with names := (b.circuit.names.fresh name).2 } }

inductive Step (known : String → List Port → Prop) (b : Builder) : Builder → Prop
  | look : Step known b b
  | enter {block : Block} (region : ∀ owner, block = .region owner →
      ∃ o, b.circuit.operations.get? owner = some o ∧ o.kind.hasRegion = true) :
    Step known b { b with block }
  | rename (v : Nat) (name : String) : Step known b (b.rename v name)
  | compute {gate : Gate} {operands : List Nat} {types : List HwType} {t : HwType}
    (operandTypes : b.circuit.Types operands types) (typed : gate.Typed types t) :
    Step known b (b.append (.compute gate) operands [t])
  | instantiate {callee : String} {ports : List Port} {inputs : List Nat} (name : String)
    (ports_known : known callee ports)
    (inputTypes : b.circuit.Types inputs ((portsOf .input ports).map (·.type))) :
    Step known b ((b.takeName name).append
      (.instantiate callee (b.circuit.names.fresh name).1) inputs
      ((portsOf .output ports).map (·.type)))
  | observe {kind : OperationKind} {v : Nat}
    (kind_eq : kind = .always ∨ kind = .branch ∨ ∃ message, kind = .assertion message)
    (type : b.circuit.type? v = some .bit) : Step known b (b.append kind [v] [])
  | output {values : List Nat}
    (types : b.circuit.Types values (b.circuit.outputPorts.map (·.type))) :
    Step known b { b with circuit := { b.circuit with outputs := values } }

/-- `b'` comes from `b` by one new gate, the result of which is `v`. -/
inductive Gains (b : Builder) : Nat → Builder → Prop
  | gate {gate : Gate} {operands : List Nat} {types : List HwType} {t : HwType}
    (operandTypes : b.circuit.Types operands types) (typed : gate.Typed types t) :
    Gains b b.circuit.values.size (b.append (.compute gate) operands [t])

theorem Gains.step {known : String → List Port → Prop} {b b' : Builder} {v : Nat}
    (h : b.Gains v b') : b.Step known b' := by
  cases h with
  | gate hoperands htyped => exact .compute hoperands htyped

theorem Gains.extends {b b' : Builder} {v : Nat} (h : b.Gains v b') :
    b.circuit.Extends b'.circuit := by
  cases h with
  | gate => exact Circuit.append_extends

end Builder

namespace Build
variable {b : Builder}

theorem require_ensures (p : Prop) [Decidable p] (mistake : Misuse) :
    Ensures (require p mistake) b fun _ b' => b' = b ∧ p := by
  unfold require
  split
  next h => exact .pure ⟨rfl, h⟩
  next => exact .throw _

theorem expect_ensures {α : Type} (o : Option α) (mistake : Misuse) :
    Ensures (expect o mistake) b fun a b' => b' = b ∧ o = some a := by
  unfold expect
  split
  · exact .pure ⟨rfl, rfl⟩
  · exact .throw _

theorem circuit_ensures : Ensures circuit b fun c b' => b' = b ∧ c = b.circuit := by
  intro c b' h
  cases h
  exact ⟨rfl, rfl⟩

theorem typeOf_ensures (v : Nat) :
    Ensures (typeOf v) b fun t b' => b' = b ∧ b.circuit.type? v = some t := by
  unfold typeOf
  refine circuit_ensures.look ?_
  rintro _ rfl
  exact expect_ensures _ _

theorem signlessWidth_ensures (v : Nat) (operation : String) :
    Ensures (signlessWidth v operation) b fun width b' => b' = b ∧
      ∃ t, b.circuit.type? v = some t ∧ t.isSignless = true ∧ width = t.bitWidth := by
  unfold signlessWidth
  refine (typeOf_ensures v).look ?_
  intro t ht
  refine (require_ensures _ _).look ?_
  intro _ hsignless
  exact .pure ⟨rfl, t, ht, hsignless, rfl⟩

theorem mapM_ensures {α : Type} {f : Nat → Build α} {r : Nat → α → Prop}
    (h : ∀ v, Ensures (f v) b fun a b' => b' = b ∧ r v a) (vs : List Nat) :
    Ensures (vs.mapM f) b fun as b' => b' = b ∧ List.Forall₂ r vs as := by
  induction vs with
  | nil => exact .pure ⟨rfl, .nil⟩
  | cons v vs ih =>
    rw [List.mapM_cons]
    refine (h v).look ?_
    intro a ha
    refine ih.look ?_
    intro as has
    exact .pure ⟨rfl, .cons ha has⟩

theorem requireTypes_ensures (mistake : String → Misuse) {fields : List (Field HwType)}
    {vs : List Nat} (hlength : fields.length = vs.length) :
    Ensures (requireTypes mistake fields vs) b fun _ b' =>
      b' = b ∧ b.circuit.Types vs (fields.map (·.type)) := by
  induction fields generalizing vs with
  | nil =>
    obtain rfl := List.length_eq_zero_iff.mp hlength.symm
    exact .pure ⟨rfl, .nil⟩
  | cons field fields ih =>
    obtain _ | ⟨v, vs⟩ := vs
    · cases hlength
    · unfold requireTypes
      refine (typeOf_ensures v).look ?_
      intro t ht
      refine (require_ensures _ _).look ?_
      intro _ hfield
      refine (ih (Nat.succ.inj hlength)).mono ?_
      rintro _ _ ⟨rfl, htypes⟩
      exact ⟨rfl, .cons (ht.trans (congrArg some hfield.symm)) htypes⟩

theorem requirePorts_ensures (mistake : String → Misuse) {ports : List Port} {vs : List Nat}
    (hlength : ports.length = vs.length) :
    Ensures (requireTypes mistake (ports.map Port.field) vs) b fun _ b' =>
      b' = b ∧ b.circuit.Types vs (ports.map (·.type)) := by
  have hchecked : Ensures (requireTypes mistake (ports.map Port.field) vs) b _ :=
    requireTypes_ensures mistake ((List.length_map Port.field).trans hlength)
  rwa [List.map_map] at hchecked

theorem joinedArrays_ensures (element : HwType) (types : List HwType) :
    Ensures (joinedArrays element types) b fun size b' => b' = b ∧ element.Joined types size := by
  induction types with
  | nil => exact .pure ⟨rfl, .nil⟩
  | cons t types ih =>
    unfold joinedArrays
    refine (expect_ensures _ _).look ?_
    rintro ⟨e, size⟩ harray
    refine (require_ensures _ _).look ?_
    rintro _ rfl
    refine ih.look ?_
    intro rest hrest
    exact .pure ⟨rfl, .cons harray hrest⟩

variable {known : String → List Port → Prop} {v w : Nat}

theorem addGate_gains {gate : Gate} {operands : List Nat} {types : List HwType} {t : HwType}
    (hoperands : b.circuit.Types operands types) (htyped : gate.Typed types t) :
    Ensures (addGate gate operands t) b b.Gains := by
  intro _ b' h
  cases h
  exact .gate hoperands htyped

theorem constant_gains (t : HwType) (x : Bits) :
    Ensures (constant t x) b b.Gains := by
  unfold constant
  refine (require_ensures _ _).look ?_
  intro _ hwidth
  exact addGate_gains .nil (.constant hwidth)

theorem bitcast_gains (v : Nat) (t : HwType) :
    Ensures (bitcast v t) b b.Gains := by
  unfold bitcast
  refine (typeOf_ensures v).look ?_
  intro source hsource
  refine (require_ensures _ _).look ?_
  intro _ hwidth
  exact addGate_gains (.cons hsource .nil) (.bitcast hwidth)

theorem extract_gains (v low width : Nat) :
    Ensures (extract v low width) b b.Gains := by
  unfold extract
  refine (signlessWidth_ensures v _).look ?_
  rintro _ ⟨t, ht, hsignless, rfl⟩
  refine (require_ensures _ _).look ?_
  intro _ hinside
  exact addGate_gains (.cons ht .nil) (.extract hsignless hinside)

theorem concat_gains (vs : List Nat) :
    Ensures (concat vs) b b.Gains := by
  unfold concat
  refine (mapM_ensures (fun v => signlessWidth_ensures v _) vs).look ?_
  intro widths hwidths
  have htypes : ∃ types, b.circuit.Types vs types ∧ (∀ t ∈ types, t.isSignless = true) ∧
      widths = types.map HwType.bitWidth := by
    induction hwidths with
    | nil => exact ⟨[], .nil, List.forall_mem_nil _, rfl⟩
    | cons hv _ ih =>
      obtain ⟨t, ht, hsignless, rfl⟩ := hv
      obtain ⟨types, htypes, hall, rfl⟩ := ih
      exact ⟨t :: types, .cons ht htypes, List.forall_mem_cons.mpr ⟨hsignless, hall⟩, rfl⟩
  obtain ⟨types, htypes, hall, rfl⟩ := htypes
  exact addGate_gains htypes (.concat hall)

theorem add_gains (v w : Nat) : Ensures (add v w) b b.Gains := by
  unfold add
  refine (signlessWidth_ensures v _).look ?_
  rintro _ ⟨t, ht, hsignless, -⟩
  refine (typeOf_ensures v).look ?_
  intro t' ht'
  obtain rfl := Option.some.inj (ht.symm.trans ht')
  refine (typeOf_ensures w).look ?_
  intro u hu
  refine (require_ensures _ _).look ?_
  rintro _ rfl
  exact addGate_gains (.cons ht (.cons hu .nil)) (.add hsignless)

theorem compare_gains (predicate : Predicate) (v w : Nat) :
    Ensures (compare predicate v w) b b.Gains := by
  unfold compare
  refine (signlessWidth_ensures v _).look ?_
  rintro _ ⟨t, ht, hsignless, -⟩
  refine (typeOf_ensures v).look ?_
  intro t' ht'
  obtain rfl := Option.some.inj (ht.symm.trans ht')
  refine (typeOf_ensures w).look ?_
  intro u hu
  refine (require_ensures _ _).look ?_
  rintro _ rfl
  exact addGate_gains (.cons ht (.cons hu .nil)) (.compare predicate hsignless)

theorem checkIndex_ensures (size index : Nat) :
    Ensures (checkIndex size index) b fun _ b' => b' = b ∧
      ∃ t, b.circuit.type? index = some t ∧ t.isSignless = true ∧
        t.bitWidth = indexWidth size := by
  unfold checkIndex
  refine (signlessWidth_ensures index _).look ?_
  rintro _ ⟨t, ht, hsignless, rfl⟩
  refine (require_ensures _ _).mono ?_
  rintro _ _ ⟨rfl, hwidth⟩
  exact ⟨rfl, t, ht, hsignless, hwidth⟩

theorem arraySlice_gains (v w size : Nat) :
    Ensures (arraySlice v w size) b b.Gains := by
  unfold arraySlice
  refine (typeOf_ensures v).look ?_
  intro t ht
  refine (expect_ensures _ _).look ?_
  rintro ⟨element, total⟩ harray
  refine (require_ensures _ _).look ?_
  intro _ hinside
  refine (checkIndex_ensures total w).look ?_
  rintro _ ⟨u, hu, hsignless, hwidth⟩
  exact addGate_gains (.cons ht (.cons hu .nil)) (.arraySlice harray hinside hsignless hwidth)

theorem arrayGet_gains (v w : Nat) :
    Ensures (arrayGet v w) b b.Gains := by
  unfold arrayGet
  refine (typeOf_ensures v).look ?_
  intro t ht
  refine (expect_ensures _ _).look ?_
  rintro ⟨element, total⟩ harray
  refine (checkIndex_ensures total w).look ?_
  rintro _ ⟨u, hu, hsignless, hwidth⟩
  exact addGate_gains (.cons ht (.cons hu .nil)) (.arrayGet harray hsignless hwidth)

theorem arrayCreate_gains (vs : List Nat) :
    Ensures (arrayCreate vs) b b.Gains := by
  unfold arrayCreate
  refine (mapM_ensures (fun v => typeOf_ensures v) vs).look ?_
  intro types htypes
  refine (expect_ensures _ _).look ?_
  intro element hhead
  refine (require_ensures _ _).look ?_
  intro _ hsame
  have hne : types ≠ [] := by
    rintro rfl
    cases hhead
  rw [htypes.length_eq]
  exact addGate_gains htypes (.arrayCreate hsame hne)

theorem arrayConcat_gains (vs : List Nat) :
    Ensures (arrayConcat vs) b b.Gains := by
  unfold arrayConcat
  refine (mapM_ensures (fun v => typeOf_ensures v) vs).look ?_
  intro types htypes
  refine (expect_ensures _ _).look ?_
  intro first hhead
  refine (expect_ensures _ _).look ?_
  rintro ⟨element, size⟩ -
  refine (joinedArrays_ensures element types).look ?_
  intro size hjoined
  have hne : types ≠ [] := by
    rintro rfl
    cases hhead
  exact addGate_gains htypes (.arrayConcat hjoined hne)

theorem structExtract_gains (v : Nat) (field : String) :
    Ensures (structExtract v field) b b.Gains := by
  unfold structExtract
  refine (typeOf_ensures v).look ?_
  intro source hsource
  refine (expect_ensures _ _).look ?_
  intro t ht
  exact addGate_gains (.cons hsource .nil) (.structExtract ht)

theorem structCreate_gains (t : HwType) (vs : List Nat) :
    Ensures (structCreate t vs) b b.Gains := by
  unfold structCreate
  refine (expect_ensures _ _).look ?_
  intro fields hstruct
  refine (require_ensures _ _).look ?_
  intro _ hlength
  refine (requireTypes_ensures _ hlength).look ?_
  intro _ htypes
  exact addGate_gains htypes (.structCreate hstruct)

theorem instantiate_steps {callee : String} {ports : List Port} (hknown : known callee ports)
    (name : String) (inputs : List Nat) :
    Ensures (instantiate callee ports name inputs) b fun _ b' => b.Step known b' := by
  unfold instantiate
  refine (require_ensures _ _).look ?_
  intro _ hlength
  refine (requirePorts_ensures _ hlength).look ?_
  intro _ htypes _ b' h
  cases h
  exact .instantiate name hknown htypes

theorem observe_ensures (kind : OperationKind) (v : Nat) (mistake : Misuse) :
    Ensures (do
      require ((← typeOf v) = .bit) mistake
      addOperation kind [v] []) b fun _ b' =>
        b.circuit.type? v = some .bit ∧ b' = b.append kind [v] [] := by
  refine (typeOf_ensures v).look ?_
  intro t ht
  refine (require_ensures _ _).look ?_
  rintro _ rfl
  intro _ b' h
  cases h
  exact ⟨ht, rfl⟩

theorem output_ensures (vs : List Nat) : Ensures (output vs) b fun _ b' =>
    b.circuit.Types vs (b.circuit.outputPorts.map (·.type)) ∧
      b' = { b with circuit := { b.circuit with outputs := vs } } := by
  unfold output
  refine circuit_ensures.look ?_
  rintro _ rfl
  refine (require_ensures _ _).look ?_
  intro _ hlength
  refine (requirePorts_ensures _ hlength).look ?_
  intro _ htypes _ b' h
  cases h
  exact ⟨htypes, rfl⟩

theorem enter_ensures (block : Block) : Ensures (enter block) b fun _ b' =>
    (∀ owner, block = .region owner →
      ∃ o, b.circuit.operations.get? owner = some o ∧ o.kind.hasRegion = true) ∧
      b' = { b with block } := by
  unfold enter
  cases block with
  | body =>
    intro _ b' h
    cases h
    exact ⟨by rintro _ ⟨⟩, rfl⟩
  | region owner =>
    refine circuit_ensures.look ?_
    rintro _ rfl
    refine (expect_ensures _ _).look ?_
    intro o ho
    refine (require_ensures _ _).look ?_
    intro _ hregion _ b' h
    cases h
    refine ⟨?_, rfl⟩
    rintro _ ⟨rfl⟩
    exact ⟨o, ho, hregion⟩

theorem setName_ensures (v : Nat) (name : String) :
    Ensures (setName v name) b fun _ b' => b' = b.rename v name := by
  unfold setName
  refine (typeOf_ensures v).look ?_
  intro _ _ _ b' h
  cases h
  rfl

end Build

theorem BuildCall.run_steps {known : String → List Port → Prop} {call : BuildCall}
    (h : call.Respects known) (b : Builder) :
    Ensures call.run b fun _ b' => b.Step known b' := by
  have hdiscard : ∀ {α : Type} {m : Build α}, (Ensures m b fun _ b' => b.Step known b') →
      Ensures (do let _ ← m) b fun _ b' => b.Step known b' := by
    intro α m hm
    refine hm.bind ?_
    intro _ b' hb'
    exact .pure hb'
  have hgate : ∀ {m : Build Nat}, Ensures m b b.Gains →
      Ensures (do let _ ← m) b fun _ b' => b.Step known b' :=
    fun hm => hdiscard (hm.mono fun _ _ h => h.step)
  have hobserve : ∀ {kind : OperationKind} (v : Nat) (mistake : Misuse),
      (kind = .always ∨ kind = .branch ∨ ∃ message, kind = .assertion message) →
      Ensures (do
        let _ ← (do
          Build.require ((← Build.typeOf v) = .bit) mistake
          Build.addOperation kind [v] [])) b fun _ b' => b.Step known b' := by
    intro kind v mistake hkind
    refine hdiscard ((Build.observe_ensures kind v mistake).mono ?_)
    rintro _ _ ⟨htype, rfl⟩
    exact .observe hkind htype
  cases call with
  | enter block =>
    refine (Build.enter_ensures block).mono ?_
    rintro _ _ ⟨hregion, rfl⟩
    exact .enter hregion
  | input name =>
    refine hdiscard (Build.circuit_ensures.look ?_)
    rintro _ rfl
    refine (Build.expect_ensures _ _).mono ?_
    rintro _ _ ⟨rfl, -⟩
    exact .look
  | setName value name =>
    refine hdiscard ((Build.setName_ensures value name).mono ?_)
    rintro _ _ rfl
    exact .rename value name
  | constant type value => exact hgate (Build.constant_gains type value)
  | bitcast value type => exact hgate (Build.bitcast_gains value type)
  | extract value low width => exact hgate (Build.extract_gains value low width)
  | concat values => exact hgate (Build.concat_gains values)
  | add a b => exact hgate (Build.add_gains a b)
  | compare predicate a b => exact hgate (Build.compare_gains predicate a b)
  | arraySlice array index size => exact hgate (Build.arraySlice_gains array index size)
  | arrayGet array index => exact hgate (Build.arrayGet_gains array index)
  | arrayCreate elements => exact hgate (Build.arrayCreate_gains elements)
  | arrayConcat arrays => exact hgate (Build.arrayConcat_gains arrays)
  | structExtract value field => exact hgate (Build.structExtract_gains value field)
  | structCreate type values => exact hgate (Build.structCreate_gains type values)
  | instantiate callee ports name inputs =>
    exact hdiscard (Build.instantiate_steps h name inputs)
  | always clock => exact hobserve clock _ (.inl rfl)
  | branch condition => exact hobserve condition _ (.inr (.inl rfl))
  | assertion condition message => exact hobserve condition _ (.inr (.inr ⟨message, rfl⟩))
  | output values =>
    refine (Build.output_ensures values).mono ?_
    rintro _ _ ⟨htypes, rfl⟩
    exact .output htypes

end ChannelCodec
