import ChannelCodec.CommandLine.Target
import ChannelCodec.Emission

/-! The options of a command line. An argument that starts with a hyphen is an option up to the
argument `--`, and all others are types. Every option but one takes the argument after it as its
value, whatever that looks like, and may be given once. -/
namespace ChannelCodec

inductive LogLevel where
  | off
  | error
  | warn
  | info
  | debug
  | trace
deriving DecidableEq, Repr

namespace LogLevel

def all : List LogLevel := [.off, .error, .warn, .info, .debug, .trace]

def text : LogLevel → String
  | .off => "off"
  | .error => "error"
  | .warn => "warn"
  | .info => "info"
  | .debug => "debug"
  | .trace => "trace"

def parse? (name : String) : Option LogLevel :=
  all.find? fun level => level.text.toList = name.toList.map Char.toLower

@[simp] theorem parse?_text (level : LogLevel) : parse? level.text = some level := by
  cases level <;> decide

end LogLevel

inductive ValueOption where
  | file
  | mode
  | target
  | logLevel
deriving DecidableEq, Repr

def ValueOption.parse? : String → Option ValueOption
  | "-f" | "--file" => some .file
  | "-e" | "--emit" => some .mode
  | "-o" | "--output" => some .target
  | "--log-level" => some .logLevel
  | _ => none

def noVerifyOption : String := "--no-verify"

inductive UsageError where
  | unknownOption (argument : String)
  | missingValue (argument : String)
  | repeatedOption (argument : String)
  | invalidValue (argument value reason : String)
  /-- Options do not follow a request for help. -/
  | optionAfterHelp (argument : String)
deriving DecidableEq, Repr

def UsageError.message : UsageError → String
  | .unknownOption argument => s!"Unrecognized argument: {argument}"
  | .missingValue argument => s!"No value provided for option '{argument}'."
  | .repeatedOption argument => s!"Option '{argument}' is given more than once."
  | .invalidValue argument value reason =>
    s!"Error parsing option '{argument}' with value '{value}': {reason}"
  | .optionAfterHelp argument => s!"Option '{argument}' after a request for help."

structure Options where
  types : List String := []
  file? : Option String := none
  mode? : Option EmissionMode := none
  target? : Option Target := none
  logLevel? : Option LogLevel := none
  verify : Bool := true
deriving DecidableEq, Repr

inductive Invocation where
  | help
  | emission (options : Options)
deriving DecidableEq, Repr

namespace Options

def mode (o : Options) : EmissionMode := o.mode?.getD .schema
def target (o : Options) : Target := o.target?.getD .standardOutput
def logLevel (o : Options) : LogLevel := o.logLevel?.getD .warn

def requireUnset (argument : String) (given : Bool) : Except UsageError Unit :=
  if given then .error (.repeatedOption argument) else .ok ()

def assign (o : Options) (option : ValueOption) (argument value : String) :
    Except UsageError Options :=
  match option with
  | .file => do
    requireUnset argument o.file?.isSome
    return { o with file? := some value }
  | .mode => do
    requireUnset argument o.mode?.isSome
    let mode ← (EmissionMode.parse value).mapError (.invalidValue argument value)
    return { o with mode? := some mode }
  | .target => do
    requireUnset argument o.target?.isSome
    return { o with target? := some (.parse value) }
  | .logLevel => do
    requireUnset argument o.logLevel?.isSome
    match LogLevel.parse? value with
    | some level => return { o with logLevel? := some level }
    | none => throw (.invalidValue argument value "unknown log level")

def isHelp (argument : String) : Bool := argument = "--help" || argument = "help"

/-- Reads the rest of a command line after some options, and after a request for help if
`help` holds. -/
def parseAfter (o : Options) (help : Bool) : List String → Except UsageError Invocation
  | [] => .ok (if help then .help else .emission o)
  | argument :: rest =>
    if isHelp argument then parseAfter o true rest
    else if argument = "--" then
      .ok (if help then .help else .emission { o with types := o.types ++ rest })
    else if argument.toList.head? ≠ some '-' then
      parseAfter { o with types := o.types ++ [argument] } help rest
    else if help then .error (.optionAfterHelp argument)
    else if argument = noVerifyOption then parseAfter { o with verify := false } help rest
    else match ValueOption.parse? argument with
      | none => .error (.unknownOption argument)
      | some option =>
        match rest with
        | [] => .error (.missingValue argument)
        | value :: rest =>
          match o.assign option argument value with
          | .error e => .error e
          | .ok o => parseAfter o help rest

def parse (arguments : List String) : Except UsageError Invocation := parseAfter {} false arguments

@[simp] theorem parse_all_types (types : List String) :
    parse ("--" :: types) = .ok (.emission { types }) := by
  simp [parse, parseAfter, isHelp]

end Options
end ChannelCodec
