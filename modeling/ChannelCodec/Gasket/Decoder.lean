import ChannelCodec.Gasket.Slice
import ChannelCodec.Message.Schema

/-! Circuits that decode. The fields are cut out of the message. What the message says about
itself is checked on the rising clock edge while `valid` holds: that the root pointer describes
the expected struct, directly behind it, and every list pointer the expected list. -/
namespace ChannelCodec
namespace Decoder
open Build

/-- The checks of a message and its two sections, as far as it has them. -/
structure Frame where
  checks : Checks
  data : Option Slice
  pointers : Option Slice

/-- The value of an option that the schema promises. -/
def promised {α : Type} (a : Option α) (detail : String) : Build α :=
  match a with
  | some a => return a
  | none => report (.internalSchema detail)

def cutInteger (s : Slice) (low size : Nat) (name : String) : Build Nat := do
  let bits ← slice s low size
  let number ← cast bits.array (.bits size)
  labeled number name

def decodeElements (list : Slice) (name : String) (element : HwType) :
    List Nat → Build (List Nat)
  | [] => return []
  | k :: rest => do
    let item ← Build.element list k
    label item (name ++ "_capnp_elem")
    let item ← downcast item element
    label item (name ++ "_elem")
    return item :: (← decodeElements list name element rest)

/-- Decodes the list `f` of `element`s to a value of the canonical array type of `type`. -/
def decodeList (frame : Frame) (type : HwType) (f : NodeField) (element : WireType) :
    Build Nat := do
  let (hwElement, length) ← promised type.array? s!"list field `{f.name}' does not hold an array"
  let pointers ← promised frame.pointers s!"field `{f.name}' has no pointer section to live in"
  let pointer ← slice pointers f.bitOffset 64
  label pointer.array (f.name ++ "_ptr")
  -- Two bits of kind, 30 of offset, three of element size and 29 of length.
  let tag ← slice pointer 0 2
  let offset ← cutInteger pointer 2 30 (f.name ++ "_offset")
  let elementSize ← slice pointer 32 3
  let count ← slice pointer 35 29
  frame.checks.requireEq tag.array PointerKind.list.tag s!"{f.name}: list pointer tag"
  frame.checks.requireEq elementSize.array element.elementSize.code s!"{f.name}: element size"
  frame.checks.require count.array .ule length s!"{f.name}: list length"
  if element.bits = 0 then constant type.canonical (.zero 0)
  else
    let place ← promised pointer.offset? s!"offset of the `{f.name}' pointer is not known"
    -- The offset counts words from the end of the pointer. It is made a count of bits from the
    -- start of the message, which needs six more of them.
    let zeros ← zeros 6
    let scaled ← concat [offset, zeros]
    let base ← constantBits 36 (place + 64)
    let start ← add scaled base
    label start (f.name ++ "_listOffset")
    let payload ← sliceAt pointer.origin start (length * element.bits)
    let list ← castToArray payload.array (.bits element.bits) length
    -- Signless elements as wide as in the message need no conversion one by one.
    if (← typeOf list.array) = type.canonical then return list.array
    else arrayCreate (← decodeElements list f.name hwElement (List.range length))

def decodeField (frame : Frame) (type : HwType) (f : NodeField) : Build Nat := do
  let value ← match f.type with
    | .void => constant type (.zero 0)
    | .list element => do cast (← decodeList frame type f element) type
    | _ => do
      let data ← promised frame.data s!"field `{f.name}' has no data section to live in"
      let bits ← slice data f.bitOffset type.bitWidth
      label bits.array (f.name ++ "_bits")
      cast bits.array type
  labeled value (f.name ++ "Value")

def decodeFields (frame : Frame) (s : MessageSchema) : List NodeField → Build (List Nat)
  | [] => return []
  | f :: fields => do
    let hw ← expect (s.fieldOf f) .fieldCount
    let value ← decodeField frame hw.type f
    return value :: (← decodeFields frame s fields)

def cutSection (message : Slice) (low words : Nat) (name : String) : Build (Option Slice) := do
  if words = 0 then return none
  let s ← slice message low (words * 64)
  return some (← labeledSlice s name)

def checkRoot (checks : Checks) (message : Slice) (node : StructNode) : Build Unit := do
  let pointer ← slice message 0 64
  label pointer.array "rootPointer"
  let typeAndOffset ← slice pointer 0 32
  label typeAndOffset.array "typeAndOffset"
  -- The sections follow directly, unless there are none.
  let offset := if node.isEmpty then emptyStructOffset else 0
  checks.requireEq typeAndOffset.array (offset * 4 + PointerKind.struct.tag) "typeAndOffset"
  let dataWords ← cutInteger pointer 32 16 "dataSectionSize"
  checks.requireEq dataWords node.dataWords "dataSectionSize"
  let pointers ← cutInteger pointer 48 16 "ptrSectionSize"
  checks.requireEq pointers node.pointers "ptrSectionSize"

def decodeMessage (s : MessageSchema) (node : StructNode) : Build Nat := do
  let clock ← input "clk"
  let valid ← input "valid"
  let message ← rootSlice (← input "encodedInput")
  let checks ← Checks.under clock valid
  checkRoot checks message node
  let data ← cutSection message 64 node.dataWords "dataSection"
  let pointers ← cutSection message (64 + node.dataWords * 64) node.pointers "ptrSection"
  let values ← decodeFields { checks, data, pointers } s node.fields
  match s.type.struct?, values with
  | some _, values => structCreate s.type values
  | none, value :: _ => cast value s.type
  | none, [] => misuse .fieldCount

end Decoder

open Build in
/-- The circuit `decode<Name>(clk, valid, encodedInput) -> (decoded)`. -/
def MessageSchema.decoder (s : MessageSchema) : Except Failure Circuit := do
  let (node, size) ← Except.mapError .report do
    s.checkSupported
    let node ← s.node
    return (node, s.sizeWith node)
  let ports : List Port := [
    ⟨.input, "clk", .bit⟩, ⟨.input, "valid", .bit⟩, ⟨.input, "encodedInput", .bitArray size⟩,
    ⟨.output, "decoded", s.type⟩]
  let circuit ← (Circuit.ofPorts s.decoderName ports).mapError .misuse
  let ((), circuit) ← circuit.build do
    let decoded ← Decoder.decodeMessage s node
    output [decoded]
  return circuit

end ChannelCodec
