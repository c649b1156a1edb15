/-! Places in a text, as people count them. -/
namespace ChannelCodec

/-- A line and a column, both counted from 1. A column is one character wide. -/
structure Position where
  line : Nat := 1
  column : Nat := 1
deriving DecidableEq, Repr

namespace Position

def step (p : Position) (c : Char) : Position :=
  if c = '\n' then ⟨p.line + 1, 1⟩ else ⟨p.line, p.column + 1⟩

def after (text : List Char) : Position := text.foldl step {}

/-- Where the final part `rest` of `text` starts. -/
def ofRest (text rest : List Char) : Position :=
  after (text.take (text.length - rest.length))

def text (p : Position) : String := s!"{p.line}:{p.column}"

end Position
end ChannelCodec
