/-! Fingerprints of texts: 64-bit numbers that depend on nothing but the text. Blocks of 64 bytes
are mixed one by one into a running hash. -/
namespace ChannelCodec.Fingerprint

/-- The version of the generated schemas. It starts every hash, so a new version changes all
fingerprints. -/
def schemaVersion : UInt64 := 1

/-- The bit that identifiers of types and files always have. -/
def idTag : UInt64 := 0x8000000000000000

def k0 : UInt64 := 0xc3a5c85c97cb3127
def k2 : UInt64 := 0x9ae16a3b2f90404f

def rotated (x n : UInt64) : UInt64 := (x >>> n) ||| (x <<< (64 - n))

def folded (x : UInt64) : UInt64 := x ^^^ (x >>> 47)

abbrev Block := Vector UInt64 8

/-- The two sums that one half of a block, `a b c d`, gives from a start value. -/
def half (start a b c d : UInt64) : UInt64 × UInt64 :=
  let x := start + a
  let y := x + b
  let z := y + c
  (z + d, rotated (x + d) 52 + rotated z 31 + (rotated x 37 + rotated y 7))

/-- The part of a block's mixture that does not depend on the running hash. -/
def core (block : Block) : UInt64 × UInt64 :=
  let (vf, vs) := half ((block[6] + 64) * k0) block[0] block[1] block[2] block[3]
  let (wf, ws) := half block[2] block[4] block[5] block[6] block[7]
  (folded ((vf + ws) * k2 + (wf + vs) * k0) * k0, vs)

def mix (hash : UInt64) (block : Block) : UInt64 :=
  let (r, vs) := core block
  folded ((hash ^^^ r) + vs) * k2

/-- The words of a byte sequence, the lowest byte of each first. Fewer than eight bytes at the end
are left out. -/
def wordsOf : List UInt8 → List UInt64
  | a :: b :: c :: d :: e :: f :: g :: h :: rest =>
    (a.toUInt64 ||| (b.toUInt64 <<< 8) ||| (c.toUInt64 <<< 16) ||| (d.toUInt64 <<< 24) |||
      (e.toUInt64 <<< 32) ||| (f.toUInt64 <<< 40) ||| (g.toUInt64 <<< 48) |||
      (h.toUInt64 <<< 56)) :: wordsOf rest
  | _ => []

def blocksOf : List UInt64 → List Block
  | a :: b :: c :: d :: e :: f :: g :: h :: rest => #v[a, b, c, d, e, f, g, h] :: blocksOf rest
  | _ => []

def runningHash (bytes : List UInt8) : UInt64 :=
  (blocksOf (wordsOf bytes)).foldl mix schemaVersion

/-- A byte sequence filled up to whole blocks with spaces. -/
def padded (bytes : List UInt8) : List UInt8 :=
  bytes ++ List.replicate ((64 - bytes.length % 64) % 64) 0x20

end Fingerprint

def fingerprint (text : String) : UInt64 :=
  Fingerprint.runningHash (Fingerprint.padded text.toUTF8.toList) ||| Fingerprint.idTag

end ChannelCodec
