import ChannelCodec.Diagnostic
import ChannelCodec.HwType.Text
import ChannelCodec.Identifier
import ChannelCodec.Repetition
import ChannelCodec.Text.Scanner
import ChannelCodec.Width

/-! Reading the written form of hardware types. Blanks may stand between the parts of a type, but
not inside a word or between `i`, `si` or `ui` and the width behind it. -/
namespace ChannelCodec.HwType

inductive TextFault where
  /-- A width or size that does not fit in 64 bits. -/
  | width
  /-- Two fields of a struct share a name. -/
  | duplicateField (name : String)
deriving DecidableEq, Repr

def TextFault.text : TextFault → String
  | .width => "Expected valid bitwidth"
  | .duplicateField name => s!"Duplicate struct field `{name}'"

namespace Reader
open Scanner

def isSpace (c : Char) : Bool := c = ' ' || c = '\t' || c = '\n' || c = '\r'

abbrev Reading (α : Type) := Scanner TextFault α

def spaces : Reading Unit := do
  let _ ← many isSpace

def symbol (word : String) : Reading Unit := do
  spaces
  literal word

def acceptSymbol (word : String) : Reading Bool := do
  spaces
  accept word

def number : Reading Nat := do
  let place ← rest
  let digits ← many1 Char.isDigit
  let n := Nat.ofDigitChars 10 digits 0
  if 2 ^ (64 : Nat) ≤ n then note place .width
  return n

def name : Reading String := do
  spaces
  let word ← many1 isIdentifierChar
  let word := String.ofList word
  if startsWith Char.isDigit word then failure
  return word

mutual
def type : Nat → Reading HwType
  | 0 => failure
  | parts + 1 => do
    spaces
    let place ← rest
    if ← accept "!hw.array" then
      symbol "<"
      spaces
      let size ← number
      symbol "x"
      let element ← type parts
      symbol ">"
      return .array size element
    else if ← accept "!hw.struct" then
      symbol "<"
      if ← acceptSymbol ">" then return .struct []
      let fields ← fields parts
      symbol ">"
      if let some twice := firstRepeated (fields.map (·.name)) then
        note place (.duplicateField twice)
      return .struct fields
    else if ← accept "!hw.typealias" then
      symbol "<"
      symbol "@"
      let name ← name
      symbol ","
      let target ← type parts
      symbol ">"
      return .named name target
    else if ← accept "!esi.channel" then
      symbol "<"
      let payload ← type parts
      symbol ">"
      return .channel payload
    else if ← accept "si" then return .int .signed (← number)
    else if ← accept "ui" then return .int .unsigned (← number)
    else
      literal "i"
      return .int .signless (← number)
def fields : Nat → Reading (List (Field HwType))
  | 0 => failure
  | parts + 1 => do
    let name ← name
    symbol ":"
    let type ← type parts
    if ← acceptSymbol "," then return ⟨name, type⟩ :: (← fields parts)
    else return [⟨name, type⟩]
end

/-- Reads a type with spaces around it. Every part of a type takes a character at least, so a
text has no more parts than characters. -/
def whole (text : List Char) : Reading HwType := do
  let t ← type (text.length + 1)
  spaces
  return t

end Reader

def read (text : String) : Except (ScanFailure TextFault) HwType :=
  (Reader.whole text.toList).read text.toList

def unreadable (text : String) (why : ScanFailure TextFault) : Diagnostic :=
  .parse <| s!"Failed to parse type `{text}`: " ++
    match why with
    | .mismatch => "syntax error"
    | .fault place what => s!"{place.text}: {what.text}"

def parse (text : String) : Except Diagnostic HwType :=
  (read text).mapError (unreadable text)

end ChannelCodec.HwType
