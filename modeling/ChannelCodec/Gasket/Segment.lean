import ChannelCodec.Gasket.Slice

/-! Messages under construction. Values are put at their places in any order; room for lists is
taken behind what has been taken so far; and in the end all gaps are filled with zeros. -/
namespace ChannelCodec

structure Placed where
  start : Nat
  stop : Nat
  value : Nat
deriving DecidableEq, Repr

structure Segment where
  /-- The bits of the finished message. -/
  size : Nat
  /-- The bits taken so far. -/
  allocated : Nat := 0
  /-- In the order of their places. -/
  placed : List Placed := []
deriving DecidableEq, Repr

namespace Segment

def alloc (s : Segment) (bits : Nat) : Nat × Segment :=
  (s.allocated, { s with allocated := s.allocated + bits })

def insertPlaced (p : Placed) : List Placed → List Placed
  | [] => [p]
  | q :: placed => if q.start < p.start then q :: insertPlaced p placed else p :: q :: placed

def lastBefore? (s : Segment) (stop : Nat) : Option Placed :=
  (s.placed.takeWhile (·.start < stop)).getLast?

open Build in
/-- Puts `value` at bit `start`. Values without bits are dropped; no other one may go past the
end or overlap a value that is there. -/
def insert (s : Segment) (start value : Nat) : Build Segment := do
  let width ← widthOf value
  if width = 0 then return s
  let stop := start + width
  require (stop ≤ s.size) (.insertPastEnd start stop s.size)
  -- The values that are there do not overlap, so the last one in front of `stop` decides.
  if let some other := s.lastBefore? stop then
    require (other.stop ≤ start) (.insertOverlap start stop other.start other.stop)
  return { s with placed := insertPlaced { start, stop, value } s.placed }

open Build in
/-- The values from bit `reached` on, with zeros in the gaps and up to `size`. -/
def parts (size reached : Nat) : List Placed → Build (List Nat)
  | [] => do
    if reached < size then return [(← padding (size - reached)).array] else return []
  | p :: placed => do
    if reached < p.start then
      let gap ← padding (p.start - reached)
      return gap.array :: p.value :: (← parts size p.stop placed)
    else return p.value :: (← parts size p.stop placed)

def finish (s : Segment) : Build Nat := do
  Build.pack (← parts s.size 0 s.placed)

end Segment
end ChannelCodec
