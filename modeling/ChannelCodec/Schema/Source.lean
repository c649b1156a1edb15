import ChannelCodec.Identifier
import ChannelCodec.Repetition
import ChannelCodec.Schema.WireType
import ChannelCodec.Text.Numeral
import ChannelCodec.Width

/-! Schemas as they are written down, and the rules that a written schema has to keep. -/
namespace ChannelCodec

structure FieldSource where
  name : String
  /-- The place of the field in the history of its struct. -/
  ordinal : Nat
  type : WireType
deriving DecidableEq, Repr

structure StructSource where
  name : String
  id : Nat
  fields : List FieldSource
deriving DecidableEq, Repr

structure SchemaSource where
  id : Nat
  structs : List StructSource
deriving DecidableEq, Repr

inductive SchemaFault where
  | idTooLarge
  | idWithoutTag (id : Nat)
  | ordinalTooLarge
  | fieldCase (name : String)
  | structCase (name : String)
  | repeatedField (field struct : String)
  | duplicateOrdinal (ordinal : Nat) (struct : String)
  | skippedOrdinal (ordinal : Nat) (struct : String)
  | duplicateId (id : Nat) (struct : String)
  | repeatedStruct (name : String)
deriving DecidableEq, Repr

def SchemaFault.text : SchemaFault → String
  | .idTooLarge => "ID does not fit in 64 bits"
  | .idWithoutTag id => s!"Invalid ID {hexadecimalId id}: the high bit must be set"
  | .ordinalTooLarge => "Expected valid ordinal"
  | .fieldCase name => s!"Field name `{name}' must begin with a lower-case letter"
  | .structCase name => s!"Type name `{name}' must begin with a capital letter"
  | .repeatedField field struct => s!"`{field}' is already defined in struct `{struct}'"
  | .duplicateOrdinal ordinal struct => s!"Duplicate ordinal @{ordinal} in struct `{struct}'"
  | .skippedOrdinal ordinal struct =>
    s!"Skipped ordinal @{ordinal} in struct `{struct}': ordinals must be sequential"
  | .duplicateId id struct => s!"Duplicate ID {hexadecimalId id} on struct `{struct}'"
  | .repeatedStruct name => s!"`{name}' is already defined in this file"

def idFault? (id : Nat) : Option SchemaFault :=
  if 2 ^ (64 : Nat) ≤ id then some .idTooLarge
  else if id < 2 ^ (63 : Nat) then some (.idWithoutTag id)
  else none

def ordinalFault? (ordinal : Nat) : Option SchemaFault :=
  if 2 ^ (64 : Nat) ≤ ordinal then some .ordinalTooLarge else none

def FieldSource.fault? (f : FieldSource) : Option SchemaFault :=
  if startsWith isAsciiLower f.name then none else some (.fieldCase f.name)

/-- The first place where ordinals in ascending order are not `expected`, `expected + 1`, …. -/
def ordinalGap? (struct : String) (expected : Nat) : List Nat → Option SchemaFault
  | [] => none
  | ordinal :: ordinals =>
    if ordinal < expected then some (.duplicateOrdinal ordinal struct)
    else if expected < ordinal then some (.skippedOrdinal expected struct)
    else ordinalGap? struct (expected + 1) ordinals

namespace StructSource

def ordinals (s : StructSource) : List Nat := (s.fields.map (·.ordinal)).mergeSort

def fault? (s : StructSource) : Option SchemaFault :=
  if !startsWith isAsciiUpper s.name then some (.structCase s.name)
  else match firstRepeated (s.fields.map (·.name)) with
  | some twice => some (.repeatedField twice s.name)
  | none => ordinalGap? s.name 0 s.ordinals

end StructSource

namespace SchemaSource

/-- The first struct whose identifier or name is not new, given those in front of it. -/
def clash? (ids : List Nat) (names : List String) : List StructSource → Option SchemaFault
  | [] => none
  | s :: structs =>
    if ids.contains s.id then some (.duplicateId s.id s.name)
    else if names.contains s.name then some (.repeatedStruct s.name)
    else clash? (s.id :: ids) (s.name :: names) structs

def fault? (s : SchemaSource) : Option SchemaFault := clash? [s.id] [] s.structs

end SchemaSource
end ChannelCodec
