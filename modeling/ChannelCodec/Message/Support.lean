import ChannelCodec.Diagnostic
import ChannelCodec.HwType.Text
import ChannelCodec.Identifier
import ChannelCodec.Schema.WireType
import ChannelCodec.Width

/-! Which hardware types can be carried in messages: integers of at most 64 bits, arrays of
those, and structs of integers and such arrays. -/
namespace ChannelCodec

def maxListLength : Nat := 2 ^ (29 : Nat) - 1

inductive Obstacle where
  | wideInteger
  | aliasName (name : String)
  | arrayOfArrays
  | arrayOfStructs
  | arrayOfNonIntegers
  | emptyArray
  | longArray
  | nestedStruct
  | emptyStruct
  | fieldName (name : String)
  | channel
deriving DecidableEq, Repr

def Obstacle.text : Obstacle → String
  | .wideInteger => "integers wider than 64 bits are not supported"
  | .aliasName name => s!"alias name `{name}' is not a valid identifier"
  | .arrayOfArrays => "arrays of arrays are not supported"
  | .arrayOfStructs => "arrays of structs are not supported"
  | .arrayOfNonIntegers => "only arrays of integers are supported"
  | .emptyArray => "zero-length arrays are not supported"
  | .longArray => s!"arrays are limited to {maxListLength} elements"
  | .nestedStruct => "structs containing structs are not supported"
  | .emptyStruct => "empty structs are not supported"
  | .fieldName name =>
    s!"field name `{name}' must be an identifier starting with a lower-case letter"
  | .channel => "channels cannot be carried inside a message"

def Obstacle.diagnostic (obstacle : Obstacle) (type : HwType) : Diagnostic :=
  .unsupportedType type.text obstacle.text

namespace HwType

def demand (p : Prop) [Decidable p] (type : HwType) (obstacle : Obstacle) :
    Except Diagnostic Unit :=
  if p then .ok () else .error (obstacle.diagnostic type)

def wireInteger (signedness : Signedness) (width : Nat) : WireType :=
  if width = 0 then .void
  else if width = 1 then .bool
  else if signedness = .signed then .int (.holding width)
  else .uint (.holding width)

/-- The wire type that carries the integers of a type. `none` if it is not an integer. -/
def wireElement? (t : HwType) : Option (Except Diagnostic WireType) :=
  t.int?.map fun (signedness, width) =>
    if width ≤ 64 then .ok (wireInteger signedness width)
    else .error (Obstacle.wideInteger.diagnostic t)

def wireType (t : HwType) : Except Diagnostic WireType :=
  match t.wireElement? with
  | some element => element
  | none =>
    match t.canonical with
    | .array _ element =>
      match element.wireElement? with
      | some wire => wire.map .list
      | none => .error (Obstacle.arrayOfNonIntegers.diagnostic t)
    | .struct _ => .error (Obstacle.nestedStruct.diagnostic t)
    | _ => .error (Obstacle.channel.diagnostic t)

def checkAliasName (shown : HwType) (name : String) : Except Diagnostic Unit :=
  demand (isPlainIdentifier name = true) shown (.aliasName name)

def checkAliases (shown : HwType) : HwType → Except Diagnostic Unit
  | .named name target => do
    checkAliasName shown name
    checkAliases shown target
  | _ => .ok ()

def checkElement (t : HwType) : Except Diagnostic Unit :=
  match t.int? with
  | some (_, width) => demand (width ≤ 64) t .wideInteger
  | none => .error (Obstacle.channel.diagnostic t)

def checkArray (t : HwType) (size : Nat) (element : HwType) : Except Diagnostic Unit := do
  if let .named name _ := element then checkAliasName t name
  demand (element.array?.isNone) t .arrayOfArrays
  demand (element.struct?.isNone) t .arrayOfStructs
  demand (size ≠ 0) t .emptyArray
  demand (size ≤ maxListLength) t .longArray
  checkElement element

def checkMember (t : HwType) : Except Diagnostic Unit :=
  match t.canonical with
  | .int _ width => demand (width ≤ 64) t .wideInteger
  | .array size element => checkArray t size element
  | .struct _ => .error (Obstacle.nestedStruct.diagnostic t)
  | _ => .error (Obstacle.channel.diagnostic t)

def checkFields (t : HwType) : List (Field HwType) → Except Diagnostic Unit
  | [] => .ok ()
  | f :: fields => do
    demand (isPlainIdentifier f.name && startsWith isAsciiLower f.name) t (.fieldName f.name)
    checkMember f.type
    checkFields t fields

def checkSupported (t : HwType) : Except Diagnostic Unit := do
  checkAliases t t
  match t.canonical with
  | .struct fields =>
    demand (fields ≠ []) t .emptyStruct
    checkFields t fields
  | _ => checkMember t

end HwType
end ChannelCodec
