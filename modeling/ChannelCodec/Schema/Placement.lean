import ChannelCodec.Width

/-! Placing the fields of a struct in its data section and its pointer section. A data field of
`2 ^ lg` bits goes into the smallest hole of at least that size that earlier fields have left,
and opens a new word only when there is none; what is left of the hole or the word becomes
holes again, one of each power of two. -/
namespace ChannelCodec

/-- The free regions of a data section, for sizes of 1, 2, 4, 8, 16 and 32 bits, or a final part
of that list: for each size the offset of a free region, in units of its size, if there is
one. -/
abbrev Holes := List (Option Nat)

namespace Holes

def none : Holes := List.replicate 6 Option.none

/-- Takes a region of the first size out of the holes. A larger hole is split, and leaves its
second half. -/
def take? : Holes → Option (Nat × Holes)
  | [] => Option.none
  | some offset :: larger => some (offset, Option.none :: larger)
  | Option.none :: larger =>
    match take? larger with
    | Option.none => Option.none
    | some (offset, larger) => some (2 * offset, some (2 * offset + 1) :: larger)

/-- Makes the rest of a word free, from `offset` on in units of the first size. -/
def fill : Holes → Nat → Holes
  | [], _ => []
  | _ :: larger, offset => some offset :: fill larger ((offset + 1) / 2)

end Holes

structure Placement where
  dataWords : Nat := 0
  pointers : Nat := 0
  holes : Holes := Holes.none
deriving DecidableEq, Repr

namespace Placement

/-- Places a data field of `2 ^ lg` bits. Returns its offset in units of its size. -/
def addData (p : Placement) (lg : Nat) : Nat × Placement :=
  let smaller := p.holes.take lg
  let larger := p.holes.drop lg
  match Holes.take? larger with
  | some (offset, larger) => (offset, { p with holes := smaller ++ larger })
  | none =>
    -- The field opens a word, and what it leaves of it becomes holes.
    let offset := p.dataWords * 2 ^ (6 - lg)
    (offset, { p with
      dataWords := p.dataWords + 1
      holes := smaller ++ Holes.fill larger (offset + 1) })

def addPointer (p : Placement) : Nat × Placement :=
  (p.pointers, { p with pointers := p.pointers + 1 })

end Placement
end ChannelCodec
