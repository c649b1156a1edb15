import ChannelCodec.Circuit.Design
import ChannelCodec.Gasket.Decoder
import ChannelCodec.Gasket.Encoder

/-! Sharing encoders and decoders. Within a design every type gets one encoder and one decoder at
most, however often it is sent or received; each use only adds an instance. -/
namespace ChannelCodec

inductive Conversion where
  | encode
  | decode
deriving DecidableEq, Repr

def Conversion.text : Conversion → String
  | .encode => "encode"
  | .decode => "decode"

def MessageSchema.converter (s : MessageSchema) : Conversion → Except Failure Circuit
  | .encode => s.encoder
  | .decode => s.decoder

structure CachedCircuit where
  conversion : Conversion
  type : HwType
  name : String
deriving DecidableEq, Repr

structure GasketCache where
  /-- The design that the cache belongs to, from its first request on. -/
  design : Option DesignId := none
  /-- The types whose schemas have been requested, in order. -/
  schemas : List HwType := []
  circuits : List CachedCircuit := []
deriving DecidableEq, Repr

/-- The caches and designs that requests work on. A request that fails keeps what it did before. -/
structure Workshop where
  cache : GasketCache := {}
  design : Design := {}

abbrev Request := EStateM Failure Workshop

namespace GasketCache

/-- The schema of a type, and its place among the schemas of the cache: equal places mean that
the schema is shared. -/
def schema (cache : GasketCache) (t : HwType) : MessageSchema × Nat × GasketCache :=
  let key := t.unwrapped
  match cache.schemas.findIdx? (· = key) with
  | some place => (.of key, place, cache)
  | none => (.of key, cache.schemas.length, { cache with schemas := cache.schemas ++ [key] })

def find? (cache : GasketCache) (conversion : Conversion) (type : HwType) : Option String :=
  (cache.circuits.find? fun c => c.conversion = conversion ∧ c.type = type).map (·.name)

/-- `name`, or the first of `name_1`, `name_2`, … that no circuit of the design has. There are
fewer circuits than candidates. -/
def uniqueName (d : Design) (name : String) : String :=
  let candidates := (List.range (d.circuits.length + 1)).map fun n =>
    name ++ "_" ++ toString (n + 1)
  ((name :: candidates).find? fun candidate => !d.contains candidate).getD name

end GasketCache

namespace Request

def report {α : Type} (d : Diagnostic) : Request α := throw (.report d)

def lift {α : Type} : Except Failure α → Request α
  | .ok a => return a
  | .error failure => throw failure

def liftReport {α : Type} : Except Diagnostic α → Request α
  | .ok a => return a
  | .error d => throw (.report d)

def bind : Request Unit := do
  let w ← get
  match w.cache.design with
  | none => set { w with cache := { w.cache with design := some w.design.id } }
  | some id =>
    if id ≠ w.design.id then
      report (.malformedStructure
        s!"gasket cache belongs to context {id.text}, not context {w.design.id.text}")

def schema (t : HwType) : Request MessageSchema := do
  let w ← get
  let (s, _, cache) := w.cache.schema t
  set { w with cache }
  return s

def noted (conversion : Conversion) (key : HwType) : Failure → Failure
  | .report d => .report (d.withNote (some s!"while generating the {conversion.text}r for `{key}'"))
  | failure => failure

def circuit (conversion : Conversion) (t : HwType) : Request String := do
  bind
  let key := t.unwrapped
  if let some name := (← get).cache.find? conversion key then return name
  let s ← schema key
  let c ← lift ((s.converter conversion).mapError (noted conversion key))
  let w ← get
  let name := GasketCache.uniqueName w.design c.name
  let design ← liftReport (w.design.add { c with name })
  let circuits := { conversion, type := key, name } :: w.cache.circuits
  set { w with design, cache := { w.cache with circuits } }
  return name

end Request

structure Site where
  builder : Builder
  workshop : Workshop

abbrev Use := EStateM Failure Site

namespace Use

def build {α : Type} (step : Build α) : Use α := fun s =>
  match step s.builder with
  | .ok a builder => .ok a { s with builder }
  | .error failure builder => .error failure { s with builder }

def request {α : Type} (r : Request α) : Use α := fun s =>
  match r s.workshop with
  | .ok a workshop => .ok a { s with workshop }
  | .error failure workshop => .error failure { s with workshop }

def checkControl (port : String) (v : Nat) : Use Unit := do
  let type ← build (Build.typeOf v)
  if type ≠ .bit then
    request (.report (.shapeMismatch s!"`{port}' must be an i1, got `{type}'"))

def instantiate (conversion : Conversion) (s : MessageSchema) (name : String)
    (inputs : List Nat) : Use Nat := do
  match (← get).workshop.design.find? name with
  | none =>
    request (.report (.malformedStructure s!"gasket module `{name}' is no longer in the context"))
  | some c =>
    let instanceName := conversion.text ++ s.name ++ "Inst"
    match ← build (Build.instantiate c.name c.ports instanceName inputs) with
    | v :: _ => return v
    | [] => request (.report (.malformedStructure s!"gasket module `{name}' has no outputs"))

def encode (clock valid value : Nat) : Use Nat := do
  checkControl "clk" clock
  checkControl "valid" valid
  let type ← build (Build.typeOf value)
  let name ← request (Request.circuit .encode type)
  let s ← request (Request.schema type)
  instantiate .encode s name [clock, valid, value]

def decode (clock valid value : Nat) (type : HwType) : Use Nat := do
  checkControl "clk" clock
  checkControl "valid" valid
  let s ← request (Request.schema type)
  request (.liftReport s.checkSupported)
  let expected := HwType.bitArray (← request (.liftReport s.size))
  let actual ← build (Build.typeOf value)
  if actual ≠ expected then
    request (.report
      (.shapeMismatch s!"decoder for `{s.type}' takes `{expected}', got `{actual}'"))
  let name ← request (Request.circuit .decode type)
  instantiate .decode s name [clock, valid, value]

end Use
end ChannelCodec
