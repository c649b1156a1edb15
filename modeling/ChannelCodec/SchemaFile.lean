import ChannelCodec.Message.Schema

/-! Schema files for the software at the other end of the channels. A file has one struct per
type, in the order in which the types first occur. -/
namespace ChannelCodec.SchemaFile

def banner : String :=
  "#########################################################\n" ++
  "## ESI generated schema. For use with CosimDpi.capnp\n" ++
  s!"## Schema version {Fingerprint.schemaVersion}\n" ++
  "#########################################################\n\n"

def schemas (types : List HwType) : List MessageSchema := (types.map MessageSchema.of).eraseDups

/-- Checks that all types can be carried and that no two of them have structs of one name. A clash
is reported with the earlier type of that name, which `named` holds. -/
def check (named : List MessageSchema) : List MessageSchema → Except Diagnostic Unit
  | [] => .ok ()
  | s :: rest => do
    s.checkSupported
    match named.find? (·.name = s.name) with
    | some other => throw (.misc
        s!"`{other.type}' and `{s.type}' would both be exported as struct `{s.name}'")
    | none => check (s :: named) rest

def fileId (schemas : List MessageSchema) : Nat :=
  (fingerprint (String.join (schemas.map fun s => hexadecimalPadded 16 s.id))).toNat

def text (schemas : List MessageSchema) : Except Diagnostic String := do
  let declarations ← schemas.mapM MessageSchema.declaration
  return banner ++ idText (fileId schemas) ++ ";\n\n" ++ String.join declarations

def generate (types : List HwType) (verify : Bool) : Except Diagnostic String := do
  let schemas := schemas types
  check [] schemas
  let text ← text schemas
  if verify then
    let _ ← (SchemaSource.compile "cosim.capnp" text).mapError fun d =>
      .internalSchema s!"exported schema does not compile: {d.message}"
  return text

end ChannelCodec.SchemaFile
