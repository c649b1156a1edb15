import ChannelCodec.Message.Support
import ChannelCodec.Text.Numeral

/-! The declarations of message structs in a schema. -/
namespace ChannelCodec

def idText (id : Nat) : String := "@" ++ hexadecimalId id

def HwType.structName : HwType → Nat → String
  | .int signedness width, _ => capitalized (HwType.int signedness width).text
  | .array size element, _ => "ArrayOf" ++ toString size ++ "x" ++ element.structName 0
  | .struct _, id => "Struct" ++ toString id
  | .named name _, _ => capitalized name
  | .channel payload, id => payload.structName id

def paddedName (width : Nat) (name : String) : String :=
  name ++ String.ofList (List.replicate (width - name.length) ' ')

def fieldLine (width ordinal : Nat) (f : Field HwType) (wire : WireType) : String :=
  "  " ++ paddedName width f.name ++ " @" ++ toString ordinal ++ " :" ++ wire.text ++
    ";  # Actual type is " ++ f.type.text ++ ".\n"

/-- The lines of fields from ordinal `ordinal` on. They end in front of the first field that
cannot be carried. -/
def fieldLines (width ordinal : Nat) : List (Field HwType) → String × Except Diagnostic Unit
  | [] => ("", .ok ())
  | f :: fields =>
    match f.type.wireType with
    | .error diagnostic => ("", .error diagnostic)
    | .ok wire =>
      let (text, result) := fieldLines width (ordinal + 1) fields
      (fieldLine width ordinal f wire ++ text, result)

def nameWidth (fields : List (Field HwType)) : Nat :=
  (fields.map (·.name.utf8ByteSize)).foldl max 0

def writeStruct (name : String) (id : Nat) (fields : List (Field HwType)) :
    String × Except Diagnostic Unit :=
  let head := "struct " ++ name ++ " " ++ idText id ++ " \x7b\n"
  match fieldLines (nameWidth fields) 0 fields with
  | (lines, .ok ()) => (head ++ lines ++ "\x7d\n\n", .ok ())
  | (lines, .error diagnostic) => (head ++ lines, .error diagnostic)

end ChannelCodec
