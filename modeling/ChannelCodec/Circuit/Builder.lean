import ChannelCodec.Circuit.Basic
import ChannelCodec.Width

/-! Building circuits. Every step checks its operands before it adds anything; a step that fails
leaves the circuit as it was, and what earlier steps added stays. -/
namespace ChannelCodec

structure Builder where
  circuit : Circuit
  /-- New operations go to the end of this block. -/
  block : Block := .body
  /-- The number of array slices taken so far. -/
  slices : Nat := 0

def Builder.append (b : Builder) (kind : OperationKind) (operands : List Nat)
    (types : List HwType) : Builder :=
  { b with circuit := b.circuit.append b.block kind operands types }

abbrev Build := EStateM Failure Builder

namespace Build

def misuse {α : Type} (mistake : Misuse) : Build α := throw (.misuse mistake)

def report {α : Type} (diagnostic : Diagnostic) : Build α := throw (.report diagnostic)

def require (p : Prop) [Decidable p] (mistake : Misuse) : Build Unit :=
  if p then return () else misuse mistake

def expect {α : Type} (a : Option α) (mistake : Misuse) : Build α :=
  match a with
  | some a => return a
  | none => misuse mistake

def circuit : Build Circuit := return (← get).circuit

def block : Build Block := return (← get).block

def enter (block : Block) : Build Unit := do
  if let .region owner := block then
    let o ← expect ((← circuit).operations.get? owner) (.unknownOperation owner)
    require (o.kind.hasRegion = true) .notARegion
  modify fun b => { b with block }

def input (name : String) : Build Nat := do
  expect ((← circuit).input? name) (.unknownInput name)

def typeOf (v : Nat) : Build HwType := do
  expect ((← circuit).type? v) (.unknownValue v)

def typesOf (vs : List Nat) : Build (List HwType) := vs.mapM typeOf

def widthOf (v : Nat) : Build Nat := return (← typeOf v).bitWidth

/-- Gives `v` a name that no other value of the circuit has, and returns it. The value is looked up
before the name is taken, not after it, which only values of other circuits can tell apart. -/
def setName (v : Nat) (name : String) : Build String := do
  let _ ← typeOf v
  modifyGet fun b =>
    let (name, names) := b.circuit.names.fresh name
    (name, { b with circuit := { b.circuit with
      names, values := b.circuit.values.modify v fun value => { value with name := some name } } })

def addOperation (kind : OperationKind) (operands : List Nat) (types : List HwType) :
    Build Nat :=
  modifyGet fun b =>
    let number := b.circuit.operations.nextKey
    (number, b.append kind operands types)

def addResults (kind : OperationKind) (operands : List Nat) (types : List HwType) :
    Build (List Nat) :=
  modifyGet fun b =>
    let first := b.circuit.values.nextKey
    (List.range' first types.length, b.append kind operands types)

def addGate (gate : Gate) (operands : List Nat) (type : HwType) : Build Nat :=
  modifyGet fun b =>
    let result := b.circuit.values.nextKey
    (result, b.append (.compute gate) operands [type])

def signlessWidth (v : Nat) (operation : String) : Build Nat := do
  let type ← typeOf v
  require (type.isSignless = true) (.notSignless operation type)
  return type.bitWidth

def requireTypes (mistake : String → Misuse) : List (Field HwType) → List Nat → Build Unit
  | field :: fields, v :: vs => do
    require (field.type = (← typeOf v)) (mistake field.name)
    requireTypes mistake fields vs
  | _, _ => return ()

def constant (type : HwType) (value : Bits) : Build Nat := do
  require (type.bitWidth = value.width) (.constantWidth type)
  addGate (.constant value) [] type

def constantBits (width n : Nat) : Build Nat := constant (.bits width) (.ofNat width n)

def bitcast (v : Nat) (type : HwType) : Build Nat := do
  let source ← typeOf v
  require (source.bitWidth = type.bitWidth) (.bitcastWidths source type)
  addGate .bitcast [v] type

def extract (v : Nat) (low width : Nat) : Build Nat := do
  let total ← signlessWidth v "extract"
  require (low + width ≤ total) (.extractRange low (low + width) total)
  addGate (.extract low) [v] (.bits width)

/-- Signless integers side by side, the first one most significant. -/
def concat (vs : List Nat) : Build Nat := do
  let widths ← vs.mapM (signlessWidth · "concat")
  addGate .concat vs (.bits (total widths))

def add (a b : Nat) : Build Nat := do
  let _ ← signlessWidth a "add"
  let type ← typeOf a
  require (type = (← typeOf b)) .addTypes
  addGate .add [a, b] type

def compare (predicate : Predicate) (a b : Nat) : Build Nat := do
  let _ ← signlessWidth a "icmp"
  require ((← typeOf a) = (← typeOf b)) .compareTypes
  addGate (.compare predicate) [a, b] .bit

def checkIndex (size : Nat) (index : Nat) : Build Unit := do
  let width ← signlessWidth index "array index"
  require (width = indexWidth size) (.indexWidth size)

def arraySlice (array index : Nat) (size : Nat) : Build Nat := do
  let (element, total) ← expect (← typeOf array).array? .sliceOfNonArray
  require (size ≤ total) (.sliceSize size total)
  checkIndex total index
  addGate .arraySlice [array, index] (.array size element)

def arrayGet (array index : Nat) : Build Nat := do
  let (element, total) ← expect (← typeOf array).array? .elementOfNonArray
  checkIndex total index
  addGate .arrayGet [array, index] element

def arrayCreate (vs : List Nat) : Build Nat := do
  let types ← typesOf vs
  let element ← expect types.head? .createNothing
  require (∀ type ∈ types, type = element) .createTypes
  addGate .arrayCreate vs (.array vs.length element)

def joinedArrays (element : HwType) : List HwType → Build Nat
  | [] => return 0
  | type :: types => do
    let (e, size) ← expect type.array? .concatOfNonArray
    require (element = e) .concatTypes
    return size + (← joinedArrays element types)

/-- Arrays side by side, the first one at the highest indices. -/
def arrayConcat (vs : List Nat) : Build Nat := do
  let types ← typesOf vs
  let first ← expect types.head? .concatNothing
  let (element, _) ← expect first.array? .concatOfNonArray
  let size ← joinedArrays element types
  addGate .arrayConcat vs (.array size element)

def structExtract (v : Nat) (field : String) : Build Nat := do
  let type ← expect ((← typeOf v).fieldType? field) (.unknownField field)
  addGate (.structExtract field) [v] type

def structCreate (type : HwType) (vs : List Nat) : Build Nat := do
  let fields ← expect type.struct? (.createNonStruct type)
  require (fields.length = vs.length) .createArity
  requireTypes .createFieldType fields vs
  addGate .structCreate vs type

def instantiate (callee : String) (ports : List Port) (name : String) (inputs : List Nat) :
    Build (List Nat) := do
  let inputPorts := portsOf .input ports
  require (inputPorts.length = inputs.length) (.instanceArity callee)
  requireTypes (.instancePortType callee) (inputPorts.map Port.field) inputs
  let name ← modifyGet fun b =>
    let (name, names) := b.circuit.names.fresh name
    (name, { b with circuit := { b.circuit with names } })
  addResults (.instantiate callee name) inputs ((portsOf .output ports).map (·.type))

def always (clock : Nat) : Build Nat := do
  require ((← typeOf clock) = .bit) .clockType
  addOperation .always [clock] []

def branch (condition : Nat) : Build Nat := do
  require ((← typeOf condition) = .bit) .conditionType
  addOperation .branch [condition] []

def assertion (condition : Nat) (message : String) : Build Nat := do
  require ((← typeOf condition) = .bit) .assertionType
  addOperation (.assertion message) [condition] []

def output (vs : List Nat) : Build Unit := do
  let c ← circuit
  require (c.outputPorts.length = vs.length) (.outputArity c.name c.outputPorts.length)
  requireTypes .outputType (c.outputPorts.map Port.field) vs
  modify fun b => { b with circuit := { b.circuit with outputs := vs } }

end Build

def Circuit.build {α : Type} (c : Circuit) (steps : Build α) : Except Failure (α × Circuit) :=
  match steps.run { circuit := c } with
  | .ok a b => .ok (a, b.circuit)
  | .error failure _ => .error failure

end ChannelCodec
