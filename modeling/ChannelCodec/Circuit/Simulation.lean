import ChannelCodec.Circuit.Design
import ChannelCodec.Circuit.Evaluation

/-! Running circuits for one rising clock edge. Values are computed when they are first asked
for and kept; operations run in the order of their blocks, and an assertion that does not hold
is recorded. -/
namespace ChannelCodec

structure Violation where
  path : List String
  message : String
deriving DecidableEq, Repr

structure Run where
  outputs : List (String × Bits)
  violations : List Violation

namespace Run

def output (r : Run) (name : String) : Except Misuse Bits :=
  match r.outputs.lookup name with
  | some value => .ok value
  | none => .error (.unknownOutput name)

def hasViolations (r : Run) : Bool := !r.violations.isEmpty

def occurs (part : List Char) : List Char → Bool
  | [] => part.isEmpty
  | c :: text => part.isPrefixOf (c :: text) || occurs part text

def violated (r : Run) (part : String) : Bool :=
  r.violations.any fun v => occurs part.toList v.message.toList

end Run

namespace Simulation

structure State where
  known : Array (Option Bits)
  violations : Array Violation

abbrev Step := EStateM Failure State

/-- The results of an instance `name` of the circuit `callee` on operands, and the violations
that are recorded behind the given ones. -/
abbrev Call := (callee name : String) → List Bits → Array Violation →
  Except Failure (List Bits × Array Violation)

def report {α : Type} (detail : String) : Step α := throw (.report (.malformedStructure detail))

def lift {α : Type} : Except Misuse α → Step α
  | .ok a => return a
  | .error mistake => throw (.misuse mistake)

def known? (v : Nat) : Step (Option Bits) := return ((← get).known[v]?).join

def learn (v : Nat) (value : Bits) : Step Unit :=
  modify fun s => { s with known := s.known.setIfInBounds v (some value) }

def record (violation : Violation) : Step Unit :=
  modify fun s => { s with violations := s.violations.push violation }

def perform (c : Circuit) (call : Call) (o : Operation) (operands : List Bits) :
    Step (List Bits) := do
  match o.kind with
  | .compute gate =>
    let width := ((o.results.head?.bind c.type?).map HwType.bitWidth).getD 0
    let types := o.operands.filterMap c.type?
    return [← lift (gate.eval width types operands)]
  | .instantiate callee name =>
    let s ← get
    match call callee name operands s.violations with
    | .ok (results, violations) =>
      set { s with violations }
      return results
    | .error failure => throw failure
  | _ => return []

def value (c : Circuit) (call : Call) (v : Nat) : Step Bits := do
  match ← known? v with
  | some b => return b
  | none =>
    match c.definingOperation? v with
    | none => report s!"Port value {v} has not been set"
    | some o =>
      let operands ← o.operands.mapM fun w =>
        if _h : w < v then value c call w
        else report s!"Value {v} depends on value {w}"
      let results ← perform c call o operands
      -- All results are learnt, so an instance is not run again for another one of them.
      for (w, b) in o.results.zip results do learn w b
      match ← known? v with
      | some b => return b
      | none => report "Operation produced no value"
termination_by v
decreasing_by assumption

def condition (c : Circuit) (call : Call) (o : Operation) : Step Bool := do
  match o.operands with
  | v :: _ => return (← value c call v).bit 0
  | [] => throw (.misuse .operandCount)

def execute (c : Circuit) (call : Call) (path : List String) (i : Nat) : Step Unit := do
  match c.operations.get? i with
  | none => throw (.misuse (.unknownOperation i))
  | some o =>
    match o.kind with
    | .always | .branch =>
      if ← condition c call o then
        (c.operationsIn (.region i)).forM fun j =>
          if _h : i < j ∧ j < c.operations.size then execute c call path j
          else report s!"Operation {i} contains operation {j}"
    | .assertion message =>
      if !(← condition c call o) then record { path, message }
    | .compute _ | .instantiate .. =>
      match o.results with
      -- Asking for one result runs the operation, unless another one asked before.
      | v :: _ => let _ ← value c call v
      | [] =>
        let operands ← o.operands.mapM (value c call)
        let _ ← perform c call o operands
termination_by c.operations.size - i
decreasing_by omega

def instanceOutputs (c : Circuit) (call : Call) (path : List String) (inputs : List Bits) :
    Step (List Bits) := do
  for (v, b) in (List.range c.inputPorts.length).zip inputs do learn v b
  c.body.forM (execute c call path)
  c.outputs.mapM (value c call)

/-- The outputs of the instance of `c` at `path`, and the violations recorded behind the given
ones. Instances nest at most `depth` deep. -/
def outputs (d : Design) : Nat → Circuit → List String → List Bits → Array Violation →
    Except Failure (List Bits × Array Violation)
  | 0, c, _, _, _ =>
    .error (.report (.malformedStructure s!"Module `{c.name}' instantiates itself"))
  | depth + 1, c, path, inputs, violations =>
    let call : Call := fun callee name operands violations =>
      match d.find? callee with
      | some callee => outputs d depth callee (path ++ [name]) operands violations
      | none => .error <| .report <| .malformedStructure
          s!"Instance `{name}' of undefined module `{callee}'"
    match (instanceOutputs c call path inputs).run
        { known := Array.replicate c.values.size none, violations } with
    | .ok results s => .ok (results, s.violations)
    | .error failure _ => .error failure

def inputValues (given : List (String × Bits)) : List Port → Except Diagnostic (List Bits)
  | [] => .ok []
  | port :: ports =>
    match given.lookup port.name with
    | none => .error (.malformedStructure s!"No value given for input `{port.name}'")
    | some value =>
      if value.width = port.type.bitWidth then do
        return value :: (← inputValues given ports)
      else .error <| .malformedStructure <|
        s!"Input `{port.name}' expects {port.type.bitWidth} bits, got {value.width}"

end Simulation

open Simulation in
/-- Runs the circuit called `name` on inputs given by name. Circuits that have no instance of
themselves nest at most as deep as there are circuits. -/
def Design.run (d : Design) (name : String) (given : List (String × Bits)) :
    Except Failure Run := do
  let some c := d.find? name
    | throw (.report (.malformedStructure s!"No module named `{name}'"))
  let inputs ← (inputValues given c.inputPorts).mapError .report
  if let some (extra, _) := given.find? fun (n, _) => !c.inputPorts.any (·.name = n) then
    throw (.report (.malformedStructure s!"Module `{name}' has no input `{extra}'"))
  let (results, violations) ← outputs d d.circuits.length c [name] inputs #[]
  return { outputs := (c.outputPorts.map (·.name)).zip results, violations := violations.toList }

end ChannelCodec
