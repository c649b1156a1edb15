import ChannelCodec.Message.Declaration
import ChannelCodec.Schema.Compiled
import ChannelCodec.Schema.Fingerprint
import ChannelCodec.Width

/-! The message format of a hardware type. A message is a struct: a struct type gives it one field
per field of its own, in the same order, and any other type a single field, `i` for an integer
and `l` for an array. Where the fields lie is found out by compiling the declaration of the
struct. -/
namespace ChannelCodec

structure MessageSchema where
  /-- The type of the values carried, which may be an alias. -/
  type : HwType
deriving DecidableEq, Repr

namespace MessageSchema

/-- The message format for values of `t`, or for the values that go through the channel `t`. -/
def of (t : HwType) : MessageSchema := ⟨t.unwrapped⟩

def fields (s : MessageSchema) : List (Field HwType) :=
  match s.type.canonical with
  | .int .. => [⟨"i", s.type⟩]
  | .array .. => [⟨"l", s.type⟩]
  | .struct fields => fields
  | _ => []

def id (s : MessageSchema) : Nat := (fingerprint s.type.text).toNat

def name (s : MessageSchema) : String := s.type.structName s.id

def encoderName (s : MessageSchema) : String := "encode" ++ s.name
def decoderName (s : MessageSchema) : String := "decode" ++ s.name

def metadata (s : MessageSchema) : String := s.name ++ " " ++ idText s.id

def checkSupported (s : MessageSchema) : Except Diagnostic Unit := s.type.checkSupported

def isSupported (s : MessageSchema) : Bool :=
  match s.checkSupported with
  | .ok () => true
  | .error _ => false

/-- Writes the declaration of the message struct: the text that is written, and how the writing
ends. -/
def write (s : MessageSchema) : String × Except Diagnostic Unit :=
  match s.checkSupported with
  | .ok () => writeStruct s.name s.id s.fields
  | .error diagnostic => ("", .error diagnostic)

def declaration (s : MessageSchema) : Except Diagnostic String :=
  match s.write with
  | (text, .ok ()) => .ok text
  | (_, .error diagnostic) => .error diagnostic

/-- The identifier of the schema that holds nothing but a message struct. -/
def ownSchemaId : Nat := 2 ^ (64 : Nat) - 1

def compiled (s : MessageSchema) : Except Diagnostic CompiledSchema := do
  let text := idText ownSchemaId ++ ";\n" ++ (← s.declaration)
  (SchemaSource.compile "schema.capnp" text).mapError fun d =>
    .internalSchema s!"schema generated for `{s.type}' does not compile: {d.message}"

def missingStruct (s : MessageSchema) : Diagnostic :=
  .internalSchema s!"no struct with ID {hexadecimalId s.id} in the schema generated for `{s.type}'"

def node (s : MessageSchema) : Except Diagnostic StructNode := do
  match (← s.compiled).find? s.id with
  | some node => return node
  | none => throw s.missingStruct

/-- The words behind the struct that a field takes: those of a list, if its hardware type is an
array. -/
def payloadWords (wire : WireType) (type : HwType) : Nat :=
  match wire.element?, type.array? with
  | some element, some (_, length) => wordsFor (element.bits * length)
  | _, _ => 0

def fieldOf (s : MessageSchema) (f : NodeField) : Option (Field HwType) := s.fields[f.codeOrder]?

def payload (s : MessageSchema) (node : StructNode) : Nat :=
  total (node.fields.map fun f =>
    ((s.fieldOf f).map fun hw => payloadWords f.type hw.type).getD 0)

/-- The bits of a message with the struct `node`: the root pointer, both sections, and every
list filled up to whole words. -/
def sizeWith (s : MessageSchema) (node : StructNode) : Nat :=
  (1 + node.dataWords + node.pointers + s.payload node) * 64

def size (s : MessageSchema) : Except Diagnostic Nat := return s.sizeWith (← s.node)

end MessageSchema
end ChannelCodec
