import ChannelCodec.Message.Schema

/-! Reports of where the fields of a message lie. -/
namespace ChannelCodec

inductive Section where
  | data
  | pointer
  /-- Fields without bits take no room. -/
  | none
deriving DecidableEq, Repr

def Section.text : Section → String
  | .data => "data"
  | .pointer => "pointer"
  | .none => "none"

structure FieldReport where
  name : String
  hwType : HwType
  wireType : WireType
  location : Section
  /-- Offset from the start of the section. -/
  bitOffset : Nat
  /-- Offset from the start of the message. -/
  messageOffset : Nat
  /-- Words behind the struct. -/
  payloadWords : Nat
deriving DecidableEq, Repr

structure MessageReport where
  name : String
  id : Nat
  hwType : HwType
  size : Nat
  dataWords : Nat
  pointers : Nat
  fields : List FieldReport
deriving DecidableEq, Repr

namespace MessageSchema

def sectionOf : WireType → Section
  | .void => .none
  | .list _ => .pointer
  | _ => .data

def dataStart : Nat := 64

def pointerStart (node : StructNode) : Nat := dataStart + node.dataWords * 64

def fieldReport (node : StructNode) (f : NodeField) (hw : Field HwType) : FieldReport :=
  let location := sectionOf f.type
  let start := if location = .pointer then pointerStart node else dataStart
  { name := f.name, hwType := hw.type, wireType := f.type, location
    bitOffset := f.bitOffset, messageOffset := start + f.bitOffset
    payloadWords := payloadWords f.type hw.type }

def report (s : MessageSchema) : Except Diagnostic MessageReport := do
  let node ← s.node
  return {
    name := s.name, id := s.id, hwType := s.type, size := s.sizeWith node
    dataWords := node.dataWords, pointers := node.pointers
    fields := node.fields.filterMap fun f => (s.fieldOf f).map (fieldReport node f) }

end MessageSchema
end ChannelCodec
