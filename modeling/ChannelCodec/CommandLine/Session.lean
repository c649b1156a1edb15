import ChannelCodec.CommandLine.Options
import ChannelCodec.HwType.Reader
import ChannelCodec.Text.Blank

/-! Sessions of the command line tool: the types are read, the output is opened, and what was
asked for is written to it. Files are reached through a record of operations, so that a session
means the same for the files of a system and for files in memory. -/
namespace ChannelCodec

/-- What a session does to files, by their paths. The answer to a refused operation is the
reason. -/
structure FileAccess (m : Type → Type) where
  read : String → m (Except String String)
  /-- Makes a file empty, and creates it if there is none. -/
  clear : String → m (Except String Unit)
  write : String → String → m (Except String Unit)

inductive Outcome where
  | refused (error : UsageError)
  | help
  | failed (failure : Failure)
  | finished (output errors : String)

namespace Outcome

def exitCode : Outcome → Nat
  | .refused _ => 1
  | .help => 0
  | .failed (.report _) => 1
  | .failed (.misuse _) => 101
  | .finished .. => 0

def errorText? : Outcome → Option String
  | .failed (.report d) => some d.message
  | _ => none

def output : Outcome → String
  | .finished output _ => output
  | _ => ""

def errors : Outcome → String
  | .refused error => error.message ++ "\n"
  | .help => ""
  | .failed (.report d) => s!"Error: {d.message}\n"
  | .failed (.misuse mistake) => mistake.message ++ "\n"
  | .finished _ errors => errors

end Outcome

namespace Session

def isTypeLine (line : String) : Bool :=
  match line.toList with
  | [] => false
  | '/' :: '/' :: _ => false
  | _ => true

def linesOf (content : String) : List String :=
  (textLines content.toList).map fun line => .ofList (trimmed line)

def types (arguments : List String) (content : String) : Except Diagnostic (List HwType) := do
  let types ← ((arguments ++ linesOf content).filter isTypeLine).mapM HwType.parse
  if types.isEmpty then
    throw (.misc "No types given. Pass them as arguments or with --file")
  return types

variable {m : Type → Type} [Monad m]

def reached {α : Type} (wording : String → Diagnostic) (answer : m (Except String α)) :
    ExceptT Failure m α :=
  ExceptT.mk ((fun a => a.mapError fun why => .report (wording why)) <$> answer)

/-- The content of the file with further types, which is empty if there is no such file. -/
def content (files : FileAccess m) (o : Options) : ExceptT Failure m String :=
  match o.file? with
  | none => return ""
  | some path => reached (fun why => .invalidFile s!"{path}: {why}") (files.read path)

/-- Opens a target. A file loses its content at once. -/
def openTarget (files : FileAccess m) : Target → ExceptT Failure m Unit
  | .file path =>
    reached (fun why => .invalidFile s!"Failed to create {path}: {why}") (files.clear path)
  | _ => return ()

def deliver (files : FileAccess m) (text : String) : Target → ExceptT Failure m Outcome
  | .nowhere => return .finished "" ""
  | .standardOutput => return .finished text ""
  | .standardError => return .finished "" text
  | .file path => do
    reached .ofDevice (files.write path text)
    return .finished "" ""

/-- Emits what options ask for. The types are read before the target is opened, and the target is
opened before anything is generated. -/
def emission (files : FileAccess m) (o : Options) : ExceptT Failure m Outcome := do
  let content ← content files o
  let types ← ExceptT.mk (pure ((types o.types content).mapError Failure.report))
  openTarget files o.target
  let text ← ExceptT.mk (pure (emit types o.mode o.verify false))
  deliver files text o.target

def run (files : FileAccess m) (arguments : List String) : m Outcome :=
  match Options.parse arguments with
  | .error e => return .refused e
  | .ok .help => return .help
  | .ok (.emission o) => do
    match ← (emission files o).run with
    | .ok outcome => return outcome
    | .error failure => return .failed failure

@[simp] theorem run_help (files : FileAccess m) : run files ["--help"] = pure .help := rfl

end Session
end ChannelCodec
