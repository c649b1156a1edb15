import ChannelCodec.Circuit.Builder

/-! Casts, slices and concatenations, the vocabulary of encoders and decoders. A bit array is
indexed from its least significant bit, so that bit `k` of a message is element `k` of the array
that holds it. -/
namespace ChannelCodec

/-- An array, with its place in the array out of which it was cut. -/
inductive Slice where
  /-- A whole array. -/
  | root (index array size : Nat)
  /-- A part of another slice, from a known or an unknown offset on. -/
  | part (index array size : Nat) (parent : Slice) (offset : Option Nat)
deriving DecidableEq, Repr

namespace Slice

def index : Slice → Nat
  | root index .. | part index .. => index

def array : Slice → Nat
  | root _ array _ | part _ array .. => array

def size : Slice → Nat
  | root _ _ size | part _ _ size .. => size

def origin : Slice → Slice
  | part _ _ _ parent _ => parent.origin
  | s => s

/-- The offset in the origin, if all offsets on the way are known. -/
def offset? : Slice → Option Nat
  | root .. => some 0
  | part _ _ _ parent offset => do return (← offset) + (← parent.offset?)

end Slice

namespace Build

def nextSlice : Build Nat := modifyGet fun b => (b.slices, { b with slices := b.slices + 1 })

def zeros (width : Nat) : Build Nat := constantBits width 0

def cast (v : Nat) (type : HwType) : Build Nat := do
  if (← typeOf v) = type then return v else bitcast v type

def rootSlice (v : Nat) : Build Slice := do
  let type ← typeOf v
  let (_, size) ← expect type.array? (.rootOfNonArray type)
  return .root (← nextSlice) v size

def castToBits (v : Nat) : Build Slice := do
  rootSlice (← cast v (.bitArray (← widthOf v)))

def castToArray (v : Nat) (element : HwType) (size : Nat) : Build Slice := do
  rootSlice (← cast v (.array size element))

def padding (bits : Nat) : Build Slice := do castToBits (← zeros bits)

def downcast (v : Nat) (type : HwType) : Build Nat := do
  let (_, width) ← expect type.int? (.downcastTarget type)
  let plain ← cast v (.bits (← widthOf v))
  let low ←
    if type.isSigned && 1 < width then do
      let magnitude ← extract plain 0 (width - 1)
      let sign ← extract plain (width - 1) 1
      concat [sign, magnitude]
    else extract plain 0 width
  cast low type

/-- The signless integer `v` with copies of its top bit in front, `width` bits in all. An integer
without bits, or with so many or more, stays as it is. -/
def signExtend (v width : Nat) : Build Nat := do
  let own ← widthOf v
  if own = 0 ∨ width ≤ own then return v
  let sign ← extract v (own - 1) 1
  concat (List.replicate (width - own) sign ++ [v])

def pack (vs : List Nat) : Build Nat := do
  require (vs ≠ []) .packNothing
  let parts ← vs.reverse.mapM castToBits
  arrayConcat (parts.map Slice.array)

def cut (s : Slice) (position : Nat) (offset : Option Nat) (size : Nat) : Build Slice := do
  let array ← arraySlice s.array position size
  return .part (← nextSlice) array size s offset

def slice (s : Slice) (low size : Nat) : Build Slice := do
  require (low + size ≤ s.size) (.partRange low (low + size) s.size)
  cut s (← constantBits (indexWidth s.size) low) (some low) size

/-- `size` elements of a slice from the element on that the integer `low` gives, cut or filled
up to the width of an index. -/
def sliceAt (s : Slice) (low size : Nat) : Build Slice := do
  let wanted := indexWidth s.size
  let own ← widthOf low
  let position ←
    if wanted < own then extract low 0 wanted
    else if own < wanted then do
      let zeros ← zeros (wanted - own)
      concat [zeros, low]
    else pure low
  cut s position none size

def element (s : Slice) (k : Nat) : Build Nat := do
  arrayGet s.array (← constantBits (indexWidth s.size) k)

def label (v : Nat) (name : String) : Build Unit := do
  if name ≠ "" then
    let _ ← setName v name

def labeled (v : Nat) (name : String) : Build Nat := do
  label v name
  return v

def labeledSlice (s : Slice) (name : String) : Build Slice := do
  label s.array name
  return s

end Build

/-- The region in which a circuit checks its inputs. -/
structure Checks where
  region : Nat
deriving DecidableEq, Repr

namespace Checks
open Build

def under (clock valid : Nat) : Build Checks := do
  let before ← block
  let edge ← always clock
  enter (.region edge)
  let region ← branch valid
  enter before
  return { region }

/-- Checks that `v` compares with `expected` as `predicate` says. `what` names `v` in the report
of a failure. -/
def require (c : Checks) (v : Nat) (predicate : Predicate) (expected : Nat) (what : String) :
    Build Unit := do
  let type ← typeOf v
  Build.require (type.isInteger || type.isBitArray) (.checkOfNonBits type)
  let width := type.bitWidth
  let number ← cast v (.bits width)
  let before ← block
  enter (.region c.region)
  let bound ← constantBits width expected
  let holds ← compare predicate number bound
  let _ ← assertion holds s!"{what} {predicate.text} {expected}"
  enter before

def requireEq (c : Checks) (v expected : Nat) (what : String) : Build Unit :=
  c.require v .eq expected what

end Checks
end ChannelCodec
