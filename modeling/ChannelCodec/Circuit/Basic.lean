import ChannelCodec.Arena
import ChannelCodec.Circuit.Misuse
import ChannelCodec.Circuit.Operation
import ChannelCodec.NameSupply
import ChannelCodec.Repetition

/-! Circuits: ports, and operations on values between them. -/
namespace ChannelCodec

inductive Direction where
  | input
  | output
deriving DecidableEq, Repr

structure Port where
  direction : Direction
  name : String
  type : HwType
deriving DecidableEq, Repr

def Port.field (p : Port) : Field HwType := ⟨p.name, p.type⟩

def portsOf (direction : Direction) (ports : List Port) : List Port :=
  ports.filter (·.direction = direction)

structure Circuit where
  name : String
  ports : List Port
  /-- The inputs come first, one value per input port. -/
  values : Arena Value := ∅
  operations : Arena Operation := ∅
  /-- One value per output port, once the outputs have been set. -/
  outputs : List Nat := []
  names : NameSupply

namespace Circuit

def ofPorts (name : String) (ports : List Port) : Except Misuse Circuit :=
  match firstRepeated (ports.map (·.name)) with
  | some twice => .error (.duplicatePort twice)
  | none => .ok {
      name, ports
      values := Arena.empty.pushAll <| (portsOf .input ports).mapIdx fun n port =>
        { type := port.type, origin := .input n, name := some port.name }
      names := .reserving (ports.map (·.name)) }

def inputPorts (c : Circuit) : List Port := portsOf .input c.ports
def outputPorts (c : Circuit) : List Port := portsOf .output c.ports

def input? (c : Circuit) (name : String) : Option Nat :=
  c.inputPorts.findIdx? (·.name = name)

def type? (c : Circuit) (v : Nat) : Option HwType := (c.values.get? v).map (·.type)

def definingOperation? (c : Circuit) (v : Nat) : Option Operation := do
  match (← c.values.get? v).origin with
  | .input _ => none
  | .result operation _ => c.operations.get? operation

def operationsIn (c : Circuit) (block : Block) : List Nat :=
  (List.range c.operations.size).filter fun i =>
    match c.operations.get? i with
    | some o => o.block = block
    | none => false

def body (c : Circuit) : List Nat := c.operationsIn .body

/-- The circuits of which there are instances, in the order of their first one. -/
def callees (c : Circuit) : List String :=
  (c.operations.values.filterMap fun o =>
    match o.kind with
    | .instantiate callee _ => some callee
    | _ => none).eraseDups

def append (c : Circuit) (block : Block) (kind : OperationKind) (operands : List Nat)
    (types : List HwType) : Circuit :=
  let number := c.operations.nextKey
  let first := c.values.nextKey
  { c with
    values := c.values.pushAll <| types.mapIdx fun n type => { type, origin := .result number n }
    operations := c.operations.push
      { kind, operands, results := List.range' first types.length, block } }

end Circuit
end ChannelCodec
