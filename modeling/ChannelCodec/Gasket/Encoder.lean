import ChannelCodec.Gasket.Segment
import ChannelCodec.Message.Schema

/-! Circuits that encode. The message starts with the pointer to its struct; the data section and
the pointer section of the struct follow, and then the lists, in field order. -/
namespace ChannelCodec
namespace Encoder
open Build

def encode : WireType → (start value : Nat) → Segment → Build Segment
  | .void, _, _, s => return s
  | .list element, start, value, s => do
    let (_, length) ← expect (← typeOf value).array? .listOfNonArray
    let (list, s) := s.alloc (wordsFor (element.bits * length) * 64)
    let array ← rootSlice value
    let s ← (List.range length).reverse.foldlM (fun s k => do
      let item ← Build.element array k
      encode element (list + k * element.bits) item s) s
    let tag ← constantBits 2 PointerKind.list.tag
    -- In words, from the end of the pointer.
    let offset ← constantBits 30 ((list - start - 64) / 64)
    let size ← constantBits 3 element.elementSize.code
    let count ← constantBits 29 length
    let pointer ← pack [tag, offset, size, count]
    s.insert start pointer
  | wire, start, value, s => do
    let type ← typeOf value
    let bits ← cast value (.bits type.bitWidth)
    let bits ← if type.isSigned then signExtend bits wire.bits else pure bits
    s.insert start bits

def encodeFields (data pointers : Nat) (values : List Nat) :
    List NodeField → Segment → Build Segment
  | [], s => return s
  | f :: fields, s => do
    let value ← expect values[f.codeOrder]? .fieldCount
    let base := if f.type.isPointer then pointers else data
    let s ← encode f.type (base + f.bitOffset) value s
    encodeFields data pointers values fields s

/-- Encodes the struct `node` with the given values of its fields, and returns its pointer, which
will lie at bit `start`. -/
def encodeStruct (start : Nat) (node : StructNode) (values : List Nat) (s : Segment) :
    Build (Nat × Segment) := do
  let (data, s) := s.alloc ((node.dataWords + node.pointers) * 64)
  let distance := if node.isEmpty then emptyStructOffset else (data - start) / 64 - 1
  let tag ← constantBits 2 PointerKind.struct.tag
  let offset ← constantBits 30 distance
  let dataWords ← constantBits 16 node.dataWords
  let pointers ← constantBits 16 node.pointers
  let pointer ← pack [tag, offset, dataWords, pointers]
  let s ← encodeFields data (data + node.dataWords * 64) values node.fields s
  return (← labeled pointer "structPointer", s)

def encodeMessage (size : Nat) (node : StructNode) (values : List Nat) : Build Nat := do
  let s : Segment := { size }
  let (root, s) := s.alloc 64
  let (pointer, s) ← encodeStruct root node values s
  let s ← s.insert root pointer
  s.finish

def fieldValues (type : HwType) (value : Nat) : Build (List Nat) :=
  match type.struct? with
  | some fields => fields.mapM fun f => do
    let field ← structExtract value f.name
    labeled field f.name
  | none => return [value]

end Encoder

open Build in
/-- The circuit `encode<Name>(clk, valid, unencodedInput) -> (encoded)`. It is combinational and
does not look at `clk` and `valid`. -/
def MessageSchema.encoder (s : MessageSchema) : Except Failure Circuit := do
  let (node, size) ← Except.mapError .report do
    s.checkSupported
    let node ← s.node
    return (node, s.sizeWith node)
  let ports : List Port := [
    ⟨.input, "clk", .bit⟩, ⟨.input, "valid", .bit⟩, ⟨.input, "unencodedInput", s.type⟩,
    ⟨.output, "encoded", .bitArray size⟩]
  let circuit ← (Circuit.ofPorts s.encoderName ports).mapError .misuse
  let ((), circuit) ← circuit.build do
    let operand ← input "unencodedInput"
    let values ← Encoder.fieldValues s.type operand
    let encoded ← Encoder.encodeMessage size node values
    output [encoded]
  return circuit

end ChannelCodec
