/-! Numerals of a fixed number of digits, and hexadecimal numerals. -/
namespace ChannelCodec

def binaryDigits : Nat → Nat → List Char
  | 0, _ => []
  | width + 1, n => (if n.testBit width then '1' else '0') :: binaryDigits width n

def hexadecimal (n : Nat) : String := String.ofList (Nat.toDigits 16 n)

def hexadecimalPadded (width n : Nat) : String :=
  let digits := Nat.toDigits 16 n
  String.ofList (List.replicate (width - digits.length) '0' ++ digits)

def hexadecimalId (id : Nat) : String := "0x" ++ hexadecimalPadded 16 id

def isHexDigit (c : Char) : Bool :=
  c.isDigit || ('a' ≤ c && c ≤ 'f') || ('A' ≤ c && c ≤ 'F')

def hexDigitValue (c : Char) : Nat :=
  if c.isDigit then c.toNat - '0'.toNat
  else if 'a' ≤ c then c.toNat - 'a'.toNat + 10
  else c.toNat - 'A'.toNat + 10

def ofHexDigits (digits : List Char) : Nat :=
  digits.foldl (fun n c => 16 * n + hexDigitValue c) 0

end ChannelCodec
