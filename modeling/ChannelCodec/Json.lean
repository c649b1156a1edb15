import ChannelCodec.Text.Numeral

/-! JSON values and their text. The members of an object keep their order. -/
namespace ChannelCodec

inductive Json where
  | number (n : Nat)
  | string (s : String)
  | array (items : List Json)
  | object (members : List (String × Json))
deriving Repr

namespace Json

def escaped (c : Char) : String :=
  if c = '"' then "\\\""
  else if c = '\\' then "\\\\"
  else if c = '\n' then "\\n"
  else if c = '\r' then "\\r"
  else if c = '\t' then "\\t"
  else if c = '\x08' then "\\b"
  else if c = '\x0c' then "\\f"
  else if c.toNat < 32 then "\\u" ++ hexadecimalPadded 4 c.toNat
  else String.singleton c

def quoted (s : String) : String := "\"" ++ String.join (s.toList.map escaped) ++ "\""

mutual
def compact : Json → String
  | number n => toString n
  | string s => quoted s
  | array items => "[" ++ ",".intercalate (compactItems items) ++ "]"
  | object members => "\x7b" ++ ",".intercalate (compactMembers members) ++ "\x7d"
def compactItems : List Json → List String
  | [] => []
  | item :: items => item.compact :: compactItems items
def compactMembers : List (String × Json) → List String
  | [] => []
  | (name, value) :: members =>
    (quoted name ++ ":" ++ value.compact) :: compactMembers members
end

/-- Texts between brackets, each on a line of its own, two blanks further in than `indent`. -/
def bracketed (opening closing : String) (indent : Nat) (texts : List String) : String :=
  let line (n : Nat) := "\n" ++ String.ofList (List.replicate n ' ')
  if texts.isEmpty then opening ++ closing
  else opening ++ line (indent + 2) ++ ("," ++ line (indent + 2)).intercalate texts ++
    line indent ++ closing

mutual
def pretty (indent : Nat) : Json → String
  | number n => toString n
  | string s => quoted s
  | array items => bracketed "[" "]" indent (prettyItems (indent + 2) items)
  | object members => bracketed "\x7b" "\x7d" indent (prettyMembers (indent + 2) members)
def prettyItems (indent : Nat) : List Json → List String
  | [] => []
  | item :: items => item.pretty indent :: prettyItems indent items
def prettyMembers (indent : Nat) : List (String × Json) → List String
  | [] => []
  | (name, value) :: members =>
    (quoted name ++ ": " ++ value.pretty indent) :: prettyMembers indent members
end

end Json
end ChannelCodec
