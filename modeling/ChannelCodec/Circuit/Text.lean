import ChannelCodec.Circuit.Basic

/-! The written form of circuits: one line per port list, operation and output list, regions
indented. -/
namespace ChannelCodec
namespace Circuit

def valueText (c : Circuit) (v : Nat) : String :=
  match (c.values.get? v).bind (·.name) with
  | some name => "%" ++ name
  | none => "%" ++ toString v

def valueTexts (c : Circuit) (vs : List Nat) : String :=
  ", ".intercalate (vs.map c.valueText)

def typeText (c : Circuit) (v : Nat) : String := ((c.type? v).map HwType.text).getD ""

def typeTexts (c : Circuit) (vs : List Nat) : String :=
  ", ".intercalate (vs.map c.typeText)

def portText (p : Port) : String :=
  match p.direction with
  | .input => s!"in %{p.name}: {p.type}"
  | .output => s!"out {p.name}: {p.type}"

def gateText (c : Circuit) (gate : Gate) (operands results : List Nat) : String :=
  let values := c.valueTexts operands
  match gate with
  | .constant value => s!" {value.text} : {c.typeTexts results}"
  | .extract low => s!" {values} from {low} : ({c.typeTexts operands}) -> {c.typeTexts results}"
  | .compare predicate => s!" {predicate.text} {values} : {c.typeTexts (operands.take 1)}"
  | .structExtract field => s!" {values}[\"" ++ field ++ s!"\"] : {c.typeTexts (operands.take 1)}"
  | _ => s!" {values} : ({c.typeTexts operands}) -> {c.typeTexts results}"

def headText (c : Circuit) (o : Operation) : String :=
  let results := if o.results.isEmpty then "" else c.valueTexts o.results ++ " = "
  let values := c.valueTexts o.operands
  results ++ o.kind.mnemonic ++
    match o.kind with
    | .compute gate => c.gateText gate o.operands o.results
    | .instantiate callee name =>
      " \"" ++ name ++ s!"\" @{callee}({values}) : ({c.typeTexts o.operands}) -> " ++
        s!"({c.typeTexts o.results})"
    | .always => s!" posedge {values} \x7b"
    | .branch => s!" {values} \x7b"
    | .assertion message => s!" {values}, \"" ++ message ++ "\""

def operationLines (c : Circuit) (indent : Nat) (i : Nat) : List String :=
  match c.operations.get? i with
  | none => []
  | some o =>
    let spaces := String.ofList (List.replicate indent ' ')
    let head := spaces ++ c.headText o
    if o.kind.hasRegion then
      head :: (c.operationsIn (.region i)).flatMap (fun j =>
        if _h : i < j ∧ j < c.operations.size then c.operationLines (indent + 2) j else [])
        ++ [spaces ++ "\x7d"]
    else [head]
termination_by c.operations.size - i
decreasing_by omega

def outputLine (c : Circuit) : String :=
  if c.outputs.isEmpty then "  hw.output"
  else s!"  hw.output {c.valueTexts c.outputs} : {c.typeTexts c.outputs}"

def lines (c : Circuit) : List String :=
  (s!"hw.module @{c.name}(" ++ ", ".intercalate (c.ports.map portText) ++ ") \x7b") ::
    c.body.flatMap (c.operationLines 2) ++ [c.outputLine, "\x7d"]

def text (c : Circuit) : String := String.join (c.lines.map (· ++ "\n"))

end Circuit
end ChannelCodec
