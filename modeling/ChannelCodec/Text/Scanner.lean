import ChannelCodec.Text.Position

/-! Reading values off the front of a text. A scanner refuses a text that its grammar does not
match. Of the faults that the grammar cannot see it keeps the first one and reads on, so that a
mismatch anywhere in the text is found before any of them is reported. -/
namespace ChannelCodec

/-- The text still to be read, and the first fault noted so far with the text from there on. -/
structure Cursor (ε : Type) where
  rest : List Char
  fault : Option (List Char × ε) := none

/-- Reads an `α`, or refuses the text. Its faults are of type `ε`. -/
abbrev Scanner (ε α : Type) := StateT (Cursor ε) Option α

namespace Scanner
variable {ε : Type}

def rest : Scanner ε (List Char) := return (← get).rest

def moveTo (rest : List Char) : Scanner ε Unit := modify fun c => { c with rest }

/-- Notes a fault at `place`, unless one has been noted before. -/
def note (place : List Char) (fault : ε) : Scanner ε Unit :=
  modify fun c => { c with fault := c.fault <|> some (place, fault) }

def accept (word : String) : Scanner ε Bool := do
  match word.toList.isPrefixOf? (← rest) with
  | some rest => moveTo rest; return true
  | none => return false

def literal (word : String) : Scanner ε Unit := do
  if ← accept word then return () else failure

def many (p : Char → Bool) : Scanner ε (List Char) := do
  let text ← rest
  moveTo (text.dropWhile p)
  return text.takeWhile p

def many1 (p : Char → Bool) : Scanner ε (List Char) := do
  match ← many p with
  | [] => failure
  | cs => return cs

def finish : Scanner ε Unit := do
  match ← rest with
  | [] => return ()
  | _ :: _ => failure

end Scanner

inductive ScanFailure (ε : Type) where
  /-- The grammar does not match. -/
  | mismatch
  /-- The grammar matches, but what it matched is at fault. -/
  | fault (place : Position) (what : ε)
deriving DecidableEq, Repr

def Scanner.read {ε α : Type} (scanner : Scanner ε α) (text : List Char) :
    Except (ScanFailure ε) α :=
  match StateT.run (do let a ← scanner; finish; return a : Scanner ε α) { rest := text } with
  | none => .error .mismatch
  | some (a, { fault := none, .. }) => .ok a
  | some (_, { fault := some (place, what), .. }) => .error (.fault (.ofRest text place) what)

end ChannelCodec
