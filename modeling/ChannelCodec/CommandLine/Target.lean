/-! Where a session writes what it emits. -/
namespace ChannelCodec

inductive Target where
  /-- Nowhere: what is written is dropped. -/
  | nowhere
  | standardOutput
  | standardError
  | file (path : String)
deriving DecidableEq, Repr

namespace Target

/-- The target that a word of the command line names. Words without a meaning of their own are
paths of files. -/
def parse (word : String) : Target :=
  if word = "-" ∨ word = "<out>" then .standardOutput
  else if word = "<err>" then .standardError
  else if word = "<null>" then .nowhere
  else .file word

def text : Target → String
  | .nowhere => "<null>"
  | .standardOutput => "-"
  | .standardError => "<err>"
  | .file path => path

theorem parse_text_parse (word : String) : parse (parse word).text = parse word := by
  unfold parse
  split
  · simp [text]
  · split
    · simp [text]
    · split <;> simp [text, *]

end Target
end ChannelCodec
