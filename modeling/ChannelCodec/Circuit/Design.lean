import ChannelCodec.Circuit.Text

/-! Designs: circuits that make instances of each other. -/
namespace ChannelCodec

/-- Tells designs apart. Which number a design has says nothing about it. -/
abbrev DesignId := Nat

/-- What messages call a design. -/
def DesignId.text (id : DesignId) : String := s!"#{id}"

/-- Circuits under distinct names, in the order in which they were added. -/
structure Design where
  id : DesignId := 0
  circuits : List Circuit := []

namespace Design

def names (d : Design) : List String := d.circuits.map (·.name)

def find? (d : Design) (name : String) : Option Circuit := d.circuits.find? (·.name = name)

def contains (d : Design) (name : String) : Bool := (d.find? name).isSome

theorem contains_iff {d : Design} {name : String} : d.contains name = true ↔ name ∈ d.names := by
  rw [contains, find?, List.find?_isSome, names, List.mem_map]
  simp only [decide_eq_true_eq]

def isEmpty (d : Design) : Bool := d.circuits.isEmpty

def add (d : Design) (c : Circuit) : Except Diagnostic Design :=
  if d.contains c.name then
    .error (.malformedStructure s!"Module `{c.name}' is already defined")
  else .ok { d with circuits := d.circuits ++ [c] }

inductive OrderFault where
  | undefinedCallee (name callee : String)
  | selfInstance (name : String)
deriving DecidableEq, Repr

def OrderFault.diagnostic : OrderFault → Diagnostic
  | .undefinedCallee name callee =>
    .malformedStructure s!"Module `{name}' instantiates undefined module `{callee}'"
  | .selfInstance name => .malformedStructure s!"Module `{name}' instantiates itself"

def undefinedCallee? (d : Design) : Option OrderFault :=
  d.circuits.findSome? fun c =>
    (c.callees.find? fun callee => !d.contains callee).map (.undefinedCallee c.name)

def callers (d : Design) (name : String) : List String :=
  (d.circuits.filter fun c => c.callees.contains name).map (·.name)

structure Search where
  seen : List String := []
  /-- The finished circuits, the last one first: every circuit stands in front of those of its
  callers that were first seen from it. -/
  finished : List String := []

def visit (d : Design) : Nat → Search → String → Except OrderFault Search
  | 0, s, _ => .ok s
  | depth + 1, s, name => do
    if s.seen.contains name then return s
    let callers := d.callers name
    -- A longer cycle is not seen here, but in the order that comes out.
    if callers.contains name then throw (.selfInstance name)
    let s ← callers.foldlM (visit d depth) { s with seen := name :: s.seen }
    return { s with finished := name :: s.finished }

/-- The first circuit of `order` with a callee that stands neither in front of it nor in
`earlier`, reported as that callee's instance of itself. -/
def misplaced? (d : Design) (earlier : List String) : List String → Option OrderFault
  | [] => none
  | name :: order =>
    let callees := ((d.find? name).map Circuit.callees).getD []
    match callees.find? fun callee => !earlier.contains callee with
    | some callee => some (.selfInstance callee)
    | none => d.misplaced? (name :: earlier) order

/-- The names of all circuits, each behind those of the circuits it has instances of. -/
def order? (d : Design) : Except OrderFault (List String) := do
  if let some fault := d.undefinedCallee? then throw fault
  let s ← d.names.foldlM (d.visit d.circuits.length) {}
  if let some fault := d.misplaced? [] s.finished then throw fault
  return s.finished

def dependencyOrder (d : Design) : Except Diagnostic (List String) :=
  d.order?.mapError OrderFault.diagnostic

def text (d : Design) : Except Diagnostic String := do
  let order ← d.dependencyOrder
  return String.join ((order.filterMap d.find?).map fun c => c.text ++ "\n")

end Design
end ChannelCodec
