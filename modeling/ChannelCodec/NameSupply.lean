/-! A supply of names that never gives out the same one twice. -/
namespace ChannelCodec

/-- The names that are no longer free and, for every stem that has been tried, the number to
try next behind it. -/
structure NameSupply where
  taken : List String
  next : List (String × Nat) := []

namespace NameSupply

def reserving (names : List String) : NameSupply := { taken := names }

def take (s : NameSupply) (name : String) : NameSupply := { s with taken := name :: s.taken }

def setNext (s : NameSupply) (stem : String) (n : Nat) : NameSupply :=
  { s with next := (stem, n) :: s.next.filter (·.1 ≠ stem) }

/-- The first attempt with a stem tries the stem itself; each later one tries the stem with the
next number behind it. -/
def attempt (s : NameSupply) (stem : String) : String × NameSupply :=
  match s.next.lookup stem with
  | none => (stem, s.setNext stem 0)
  | some n => (stem ++ toString n, s.setNext stem (n + 1))

/-- A new name from `stem`, within a number of attempts. An attempt that leads to a taken name makes
that name the stem of the next one. -/
def freshFrom (s : NameSupply) (stem : String) : Nat → String × NameSupply
  | 0 => (stem, s)
  | attempts + 1 =>
    let (name, s) := s.attempt stem
    if s.taken.contains name then s.freshFrom name attempts else (name, s.take name)

/-- A name that was never given out and starts with `stem`. Of any two failed attempts in a row, one
meets a taken name that is longer than its stem, so there are at most two of them for every taken
name, and one more. -/
def fresh (s : NameSupply) (stem : String) : String × NameSupply :=
  s.freshFrom stem (2 * (s.taken.length + 1))

def freshAll (s : NameSupply) : List String → List String
  | [] => []
  | stem :: stems =>
    let (name, s) := s.fresh stem
    name :: s.freshAll stems

end NameSupply
end ChannelCodec
