import ChannelCodec.Diagnostic
import ChannelCodec.Schema.Placement
import ChannelCodec.Schema.Reader

/-! Compiled schemas: every field has its place in a message. -/
namespace ChannelCodec

structure NodeField where
  name : String
  /-- The position of the field in the text of its struct. -/
  codeOrder : Nat
  ordinal : Nat
  type : WireType
  /-- Offset in the data section or the pointer section, in units of the size of the field. -/
  offset : Nat
deriving DecidableEq, Repr

def NodeField.bitOffset (f : NodeField) : Nat := f.offset * f.type.bits

/-- A struct with the places of its fields, which stand in code order. -/
structure StructNode where
  name : String
  id : Nat
  dataWords : Nat
  pointers : Nat
  fields : List NodeField
deriving DecidableEq, Repr

def StructNode.isEmpty (n : StructNode) : Bool := n.dataWords + n.pointers = 0

structure CompiledSchema where
  id : Nat
  nodes : List StructNode
deriving DecidableEq, Repr

def CompiledSchema.find? (s : CompiledSchema) (id : Nat) : Option StructNode :=
  s.nodes.find? (·.id = id)

def WireType.place (t : WireType) (p : Placement) : Nat × Placement :=
  match t with
  | .void => (0, p)
  | .bool => p.addData 0
  | .int width | .uint width => p.addData width.log
  | .list _ => p.addPointer

namespace StructSource

def placeAll (p : Placement) : List FieldSource → List (Nat × Nat) × Placement
  | [] => ([], p)
  | f :: fields =>
    let (offset, p) := f.type.place p
    let (offsets, p) := placeAll p fields
    ((f.ordinal, offset) :: offsets, p)

def byOrdinal (s : StructSource) : List FieldSource :=
  s.fields.mergeSort fun f g => f.ordinal ≤ g.ordinal

/-- Places the fields by ascending ordinal, so that later fields do not move earlier ones. -/
def compiled (s : StructSource) : StructNode :=
  let (offsets, p) := placeAll {} s.byOrdinal
  { name := s.name, id := s.id, dataWords := p.dataWords, pointers := p.pointers
    fields := s.fields.mapIdx fun codeOrder f =>
      { name := f.name, codeOrder, ordinal := f.ordinal, type := f.type
        offset := (offsets.lookup f.ordinal).getD 0 } }

end StructSource

namespace SchemaSource

def compiled (s : SchemaSource) : CompiledSchema := ⟨s.id, s.structs.map StructSource.compiled⟩

def unreadable (file : String) (why : ScanFailure SchemaFault) : Diagnostic :=
  .parse <| s!"Failed to parse `{file}`: " ++
    match why with
    | .mismatch => "syntax error"
    | .fault place what => s!"{file}:{place.text}: {what.text}"

def compile (file text : String) : Except Diagnostic CompiledSchema :=
  ((read text).mapError (unreadable file)).map compiled

end SchemaSource
end ChannelCodec
