import ChannelCodec.Gasket.Cache
import ChannelCodec.Json
import ChannelCodec.Message.Report
import ChannelCodec.SchemaFile

/-! What is generated for a list of types: a schema file, a report of message layouts, or the
circuits that encode and decode. -/
namespace ChannelCodec

inductive EmissionMode where
  | schema
  | layout
  | circuits
deriving DecidableEq, Repr

namespace EmissionMode

def text : EmissionMode → String
  | .schema => "schema"
  | .layout => "layout"
  | .circuits => "ir"

def all : List EmissionMode := [.schema, .layout, .circuits]

def parse (name : String) : Except String EmissionMode :=
  match all.find? (·.text = name) with
  | some mode => .ok mode
  | none => .error
      (s!"unknown emit mode `{name}'. Expected one of: " ++ ", ".intercalate (all.map text))

@[simp] theorem parse_text (mode : EmissionMode) : parse mode.text = .ok mode := by
  cases mode <;> rfl

end EmissionMode

def FieldReport.json (f : FieldReport) : Json := .object [
  ("name", .string f.name), ("hw_type", .string f.hwType.text),
  ("capnp_type", .string f.wireType.text), ("section", .string f.location.text),
  ("bit_offset", .number f.bitOffset), ("message_offset", .number f.messageOffset),
  ("payload_words", .number f.payloadWords)]

def MessageReport.json (r : MessageReport) : Json := .object [
  ("name", .string r.name), ("id", .string (hexadecimalId r.id)),
  ("hw_type", .string r.hwType.text), ("size", .number r.size),
  ("data_words", .number r.dataWords), ("pointers", .number r.pointers),
  ("fields", .array (r.fields.map FieldReport.json))]

namespace Emission

def layout (types : List HwType) (pretty : Bool) : Except Diagnostic String := do
  let reports ← (SchemaFile.schemas types).mapM MessageSchema.report
  let json := Json.array (reports.map MessageReport.json)
  return (if pretty then json.pretty 0 else json.compact) ++ "\n"

def requestAll : List HwType → Request Unit
  | [] => return ()
  | t :: types => do
    let _ ← Request.circuit .encode t
    let _ ← Request.circuit .decode t
    requestAll types

def design (types : List HwType) : Except Failure Design :=
  match (requestAll types).run {} with
  | .ok () w => .ok w.design
  | .error failure _ => .error failure

/-- The text of the encoders and decoders of types. A design that cannot be written is a failure
of its output. -/
def circuits (types : List HwType) : Except Failure String := do
  let d ← design types
  d.text.mapError fun why => .report (.ofDevice why.message)

end Emission

def emit (types : List HwType) (mode : EmissionMode) (verify pretty : Bool) :
    Except Failure String :=
  match mode with
  | .schema => (SchemaFile.generate types verify).mapError .report
  | .layout => (Emission.layout types pretty).mapError .report
  | .circuits => Emission.circuits types

end ChannelCodec
