import ChannelCodec.Schema.Source
import ChannelCodec.Text.Scanner

/-! Reading the written form of schemas. Blanks and comments may stand between all words and
symbols; a comment goes from `#` to the end of its line. -/
namespace ChannelCodec.SchemaSource
namespace Reader
open Scanner

abbrev Reading (α : Type) := Scanner SchemaFault α

def isSpace (c : Char) : Bool := c = ' ' || c = '\t' || c = '\n' || c = '\r'

mutual
def skipSpaces : List Char → List Char
  | [] => []
  | c :: rest =>
    if isSpace c then skipSpaces rest
    else if c = '#' then skipComment rest
    else c :: rest
def skipComment : List Char → List Char
  | [] => []
  | c :: rest => if c = '\n' || c = '\r' then skipSpaces rest else skipComment rest
end

def spaces : Reading Unit := do moveTo (skipSpaces (← rest))

def symbol (word : String) : Reading Unit := do
  spaces
  literal word

def acceptSymbol (word : String) : Reading Bool := do
  spaces
  accept word

def check (place : List Char) (fault : Option SchemaFault) : Reading Unit := do
  if let some fault := fault then note place fault

def name : Reading String := do
  spaces
  let word := String.ofList (← many1 isIdentifierChar)
  if startsWith isAsciiLetter word then return word else failure

def id : Reading Nat := do
  spaces
  let place ← rest
  literal "0x"
  let id := ofHexDigits (← many1 isHexDigit)
  check place (idFault? id)
  return id

def ordinal : Reading Nat := do
  spaces
  let place ← rest
  let ordinal := Nat.ofDigitChars 10 (← many1 Char.isDigit) 0
  check place (ordinalFault? ordinal)
  return ordinal

def primitive? (word : String) : Option WireType :=
  match word with
  | "Void" => some .void
  | "Bool" => some .bool
  | "Int8" => some (.int .w8)
  | "Int16" => some (.int .w16)
  | "Int32" => some (.int .w32)
  | "Int64" => some (.int .w64)
  | "UInt8" => some (.uint .w8)
  | "UInt16" => some (.uint .w16)
  | "UInt32" => some (.uint .w32)
  | "UInt64" => some (.uint .w64)
  | _ => none

def type : Nat → Reading WireType
  | 0 => failure
  | depth + 1 => do
    spaces
    if ← accept "List" then
      symbol "("
      let element ← type depth
      symbol ")"
      return .list element
    else
      match primitive? (String.ofList (← many1 isIdentifierChar)) with
      | some t => return t
      | none => failure

def field (depth : Nat) : Reading FieldSource := do
  spaces
  let place ← rest
  let name ← name
  symbol "@"
  let ordinal ← ordinal
  symbol ":"
  let type ← type depth
  symbol ";"
  let f : FieldSource := { name, ordinal, type }
  check place f.fault?
  return f

def fields (depth : Nat) : Nat → Reading (List FieldSource)
  | 0 => failure
  | count + 1 => do
    if ← acceptSymbol "\x7d" then return []
    let f ← field depth
    return f :: (← fields depth count)

def struct (size : Nat) (place : List Char) : Reading StructSource := do
  let name ← name
  symbol "@"
  let id ← id
  symbol "\x7b"
  let fields ← fields size size
  let s : StructSource := { name, id, fields }
  check place s.fault?
  return s

def structs (size : Nat) : Nat → Reading (List StructSource)
  | 0 => failure
  | count + 1 => do
    spaces
    let place ← rest
    if ← accept "struct" then
      let s ← struct size place
      return s :: (← structs size count)
    else return []

/-- Reads a schema. All of its parts take a character at least, so that none of them repeats
more often than the text has characters. -/
def whole (text : List Char) : Reading SchemaSource := do
  let size := text.length + 1
  symbol "@"
  let id ← id
  symbol ";"
  let structs ← structs size size
  let s : SchemaSource := { id, structs }
  check text s.fault?
  return s

end Reader

def read (text : String) : Except (ScanFailure SchemaFault) SchemaSource :=
  (Reader.whole text.toList).read text.toList

end ChannelCodec.SchemaSource
