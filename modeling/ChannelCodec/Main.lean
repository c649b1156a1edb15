import ChannelCodec.CommandLine.Session
import ChannelCodec.Text.Utf8

/-! The command line tool: sessions on the files of the system. -/
namespace ChannelCodec.Main

def systemError : IO.Error → String
  | .alreadyExists _ code details | .inappropriateType _ code details
  | .noFileOrDirectory _ code details | .invalidArgument _ code details
  | .permissionDenied _ code details | .resourceExhausted _ code details
  | .otherError code details | .resourceBusy code details | .hardwareFault code details
  | .unsupportedOperation code details => s!"{details} (os error {code})"
  | other => toString other

def attempt {α : Type} (act : IO α) : IO (Except String α) := do
  try return .ok (← act)
  catch e => return .error (systemError e)

def systemFiles : FileAccess IO where
  read path := do
    match ← attempt (do (← IO.FS.Handle.mk path .read).readBinToEnd) with
    | .error why => return .error why
    | .ok bytes => return (Utf8.decode bytes.toList).mapError fun _ =>
        "stream did not contain valid UTF-8"
  clear path := attempt (IO.FS.writeFile path "")
  write path text := attempt (IO.FS.writeFile path text)

def usage : String :=
  "Usage: channel-codec [<types...>] [-f <file>] [-e <emit>] [-o <output>] " ++
  "[--log-level <log-level>] [--no-verify]\n"

def run (arguments : List String) : IO UInt32 := do
  let outcome ← Session.run systemFiles arguments
  match outcome with
  | .help => IO.print usage
  | _ => IO.print outcome.output
  (← IO.getStdout).flush
  IO.eprint outcome.errors
  return outcome.exitCode.toUInt32

end ChannelCodec.Main

def main (arguments : List String) : IO UInt32 := ChannelCodec.Main.run arguments
