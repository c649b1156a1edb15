/-! The UTF-8 encoding of characters as bytes. -/
namespace ChannelCodec.Utf8

inductive Malformed where
  /-- The `length` bytes from `start` on begin no character. -/
  | invalid (length start : Nat)
  /-- The bytes end inside the character that begins at `start`. -/
  | incomplete (start : Nat)
deriving DecidableEq, Repr

def Malformed.text : Malformed → String
  | .invalid length start => s!"invalid utf-8 sequence of {length} bytes from index {start}"
  | .incomplete start => s!"incomplete utf-8 byte sequence from index {start}"

def isContinuation (b : UInt8) : Bool := 0x80 ≤ b && b ≤ 0xbf

/-- The second bytes of a character of three bytes that begins with `b`: neither a character
that fits in two bytes nor half of a surrogate pair. -/
def secondOfThree (b c : UInt8) : Bool :=
  isContinuation c && (b != 0xe0 || 0xa0 ≤ c) && (b != 0xed || c ≤ 0x9f)

/-- The second bytes of a character of four bytes that begins with `b`: neither a character
that fits in three bytes nor one beyond the last character. -/
def secondOfFour (b c : UInt8) : Bool :=
  isContinuation c && (b != 0xf0 || 0x90 ≤ c) && (b != 0xf4 || c ≤ 0x8f)

def payload (b : UInt8) : Nat := b.toNat % 64

def decodeFrom (start : Nat) : List UInt8 → Except Malformed (List Char)
  | [] => .ok []
  | b :: rest =>
    if b < 0x80 then (Char.ofNat b.toNat :: ·) <$> decodeFrom (start + 1) rest
    else if 0xc2 ≤ b && b ≤ 0xdf then
      match rest with
      | [] => .error (.incomplete start)
      | c :: rest =>
        if isContinuation c then
          (Char.ofNat (b.toNat % 32 * 64 + payload c) :: ·) <$> decodeFrom (start + 2) rest
        else .error (.invalid 1 start)
    else if 0xe0 ≤ b && b ≤ 0xef then
      match rest with
      | [] => .error (.incomplete start)
      | c :: rest =>
        if secondOfThree b c then
          match rest with
          | [] => .error (.incomplete start)
          | d :: rest =>
            if isContinuation d then
              (Char.ofNat ((b.toNat % 16 * 64 + payload c) * 64 + payload d) :: ·)
                <$> decodeFrom (start + 3) rest
            else .error (.invalid 2 start)
        else .error (.invalid 1 start)
    else if 0xf0 ≤ b && b ≤ 0xf4 then
      match rest with
      | [] => .error (.incomplete start)
      | c :: rest =>
        if secondOfFour b c then
          match rest with
          | [] => .error (.incomplete start)
          | d :: rest =>
            if isContinuation d then
              match rest with
              | [] => .error (.incomplete start)
              | e :: rest =>
                if isContinuation e then
                  (Char.ofNat
                      (((b.toNat % 8 * 64 + payload c) * 64 + payload d) * 64 + payload e) :: ·)
                    <$> decodeFrom (start + 4) rest
                else .error (.invalid 3 start)
            else .error (.invalid 2 start)
        else .error (.invalid 1 start)
    else .error (.invalid 1 start)

def decode (bytes : List UInt8) : Except Malformed String :=
  String.ofList <$> decodeFrom 0 bytes

end ChannelCodec.Utf8
