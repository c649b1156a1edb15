/-! Reports of what went wrong. A diagnostic says of which kind the failure is and may carry
a note about where it arose; the wording of every kind stands in `Diagnostic.Kind.text`. -/
namespace ChannelCodec

inductive Diagnostic.Kind where
  /-- A hardware type without a message format. -/
  | unsupportedType (type reason : String)
  /-- A generated schema that its own compiler refuses. -/
  | internalSchema (detail : String)
  /-- An operand that does not have the shape a schema asks for. -/
  | shapeMismatch (detail : String)
  /-- Circuits that do not fit together. -/
  | malformedStructure (detail : String)
  /-- A text that is no type or no schema. -/
  | parse (detail : String)
  | invalidFile (detail : String)
  | writeError (detail : String)
  | misc (detail : String)
deriving DecidableEq, Repr

def Diagnostic.Kind.text : Diagnostic.Kind → String
  | .unsupportedType type reason => s!"Unsupported type `{type}': {reason}"
  | .internalSchema detail => s!"internal error: schema round-trip failed: {detail}"
  | .shapeMismatch detail => s!"Shape mismatch: {detail}"
  | .malformedStructure detail => s!"Malformed structure: {detail}"
  | .parse detail => s!"Parse error: {detail}"
  | .invalidFile detail => s!"Invalid file: {detail}"
  | .writeError detail => s!"Failed to write output: {detail}"
  | .misc detail => detail

structure Diagnostic where
  kind : Diagnostic.Kind
  note : Option String := none
deriving DecidableEq, Repr

namespace Diagnostic

def message (d : Diagnostic) : String :=
  match d.note with
  | none => d.kind.text
  | some note => d.kind.text ++ "\n" ++ note

def withNote (d : Diagnostic) (note : Option String) : Diagnostic := { d with note }

def isUnsupportedType (d : Diagnostic) : Bool :=
  match d.kind with
  | .unsupportedType .. => true
  | _ => false

def isInternal (d : Diagnostic) : Bool :=
  match d.kind with
  | .internalSchema _ => true
  | _ => false

def unsupportedType (type reason : String) : Diagnostic := ⟨.unsupportedType type reason, none⟩
def internalSchema (detail : String) : Diagnostic := ⟨.internalSchema detail, none⟩
def shapeMismatch (detail : String) : Diagnostic := ⟨.shapeMismatch detail, none⟩
def malformedStructure (detail : String) : Diagnostic := ⟨.malformedStructure detail, none⟩
def parse (detail : String) : Diagnostic := ⟨.parse detail, none⟩
def invalidFile (detail : String) : Diagnostic := ⟨.invalidFile detail, none⟩
def writeError (detail : String) : Diagnostic := ⟨.writeError detail, none⟩
def misc (detail : String) : Diagnostic := ⟨.misc detail, none⟩

def ofDevice (cause : String) : Diagnostic := writeError s!"IO Error: {cause}"

def ofFormatting (cause : String) : Diagnostic := writeError s!"Formatting Error: {cause}"

@[simp] theorem message_of_no_note (kind : Kind) : message ⟨kind, none⟩ = kind.text := rfl

@[simp] theorem message_withNote_some (d : Diagnostic) (note : String) :
    (d.withNote (some note)).message = d.kind.text ++ "\n" ++ note := rfl

end Diagnostic
end ChannelCodec
