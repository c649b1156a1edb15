import ChannelCodec.Bits.Basic
import ChannelCodec.Text.Numeral

/-! The written forms of bit vectors. -/
namespace ChannelCodec.Bits

def text (b : Bits) : String :=
  toString b.width ++ "'b" ++ String.ofList (binaryDigits b.width b.toNat)

/-- The width and one hexadecimal number, or a list of words if one word does not hold all. -/
def compactText (b : Bits) : String :=
  if b.width ≤ 64 then toString b.width ++ "'h" ++ hexadecimal b.lowNat
  else toString b.width ++ "'words[" ++
    ", ".intercalate (b.toWords.map fun w => hexadecimal w.toNat) ++ "]"

end ChannelCodec.Bits
