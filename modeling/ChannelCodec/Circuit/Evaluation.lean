import ChannelCodec.Circuit.Operation
import ChannelCodec.Circuit.Misuse

/-! What gates compute. -/
namespace ChannelCodec

def HwType.elementWidth (t : HwType) : Nat :=
  match t.array? with
  | some (element, _) => element.bitWidth
  | none => 0

def HwType.fieldRange (t : HwType) (name : String) : Nat × Nat :=
  match t.fieldPlace? name with
  | some (low, type) => (low, type.bitWidth)
  | none => (0, 0)

/-- The result of a gate on operands of the given types, `width` bits wide where the gate does
not say itself. Reads past the end of an array give zeros. -/
def Gate.eval (gate : Gate) (width : Nat) (types : List HwType) (operands : List Bits) :
    Except Misuse Bits :=
  match gate, types, operands with
  | .constant value, _, _ => .ok value
  | .bitcast, _, [a] => .ok a
  | .extract low, _, [a] => .ok (a.slice low width)
  | .concat, _, parts => .ok (.concat parts)
  | .add, _, [a, b] =>
    match a.add? b with
    | some sum => .ok sum
    | none => .error .addWidths
  | .compare predicate, _, [a, b] =>
    match a.compare? b with
    | some order => .ok (.ofBool (predicate.holds order))
    | none => .error .compareWidths
  | .arraySlice, type :: _, [a, index]
  | .arrayGet, type :: _, [a, index] => .ok (a.slice (index.lowNat * type.elementWidth) width)
  | .arrayCreate, _, elements => .ok (.ofElements elements)
  | .arrayConcat, _, arrays => .ok (.ofElements arrays.reverse)
  | .structExtract field, type :: _, [a] =>
    let (low, width) := type.fieldRange field
    .ok (a.slice low width)
  | .structCreate, _, fields => .ok (.concat fields)
  | _, _, _ => .error .operandCount

end ChannelCodec
