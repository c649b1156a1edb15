/-! Names that schema and hardware description languages accept. -/
namespace ChannelCodec

def isAsciiLower (c : Char) : Bool := 'a' ≤ c && c ≤ 'z'
def isAsciiUpper (c : Char) : Bool := 'A' ≤ c && c ≤ 'Z'
def isAsciiLetter (c : Char) : Bool := isAsciiLower c || isAsciiUpper c

def isIdentifierChar (c : Char) : Bool := isAsciiLetter c || c.isDigit || c = '_'

def isPlainIdentifier (name : String) : Bool :=
  match name.toList with
  | [] => false
  | c :: rest => isAsciiLetter c && rest.all isIdentifierChar

def isTypeIdentifier (name : String) : Bool :=
  match name.toList with
  | [] => false
  | c :: rest => (isAsciiLetter c || c = '_') && rest.all isIdentifierChar

def startsWith (p : Char → Bool) (name : String) : Bool :=
  match name.toList with
  | [] => false
  | c :: _ => p c

def capitalized (name : String) : String :=
  match name.toList with
  | [] => ""
  | c :: rest => String.ofList (c.toUpper :: rest)

theorem isIdentifierChar_of_isAsciiLetter {c : Char} (h : isAsciiLetter c = true) :
    isIdentifierChar c = true := by
  simp [isIdentifierChar, h]

end ChannelCodec
