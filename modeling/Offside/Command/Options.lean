import Offside.Diagnostic.Rendering
import Offside.Options

/-!
Switches and the input path of a command.
-/

namespace Offside.Command

/-- The path that stands for standard input. -/
def stdinPath : String := "-"

/-- What standard input is called in a diagnostic. -/
def stdinName : String := "<stdin>"

inductive OptionError
  | missingPath
  | unexpected (argument : String)
  | unknown (option : String)
  | color (mode : String)
  deriving DecidableEq, Inhabited

def OptionError.message : OptionError → String
  | .missingPath => "missing input path"
  | .unexpected argument => "unexpected argument `" ++ argument ++ "`"
  | .unknown option => "unknown option `" ++ option ++ "`"
  | .color mode => "invalid color mode `" ++ mode ++ "` (expected auto, always or never)"

structure Options where
  path : String
  start : StartRule
  flags : Flags
  /-- what the input is known to be in -/
  encoding? : Option String
  /-- how a log would be laid out -/
  traceTree : Bool
  color : ColorMode
  deriving DecidableEq, Inhabited

namespace Options

def displayName (o : Options) : String := if o.path = stdinPath then stdinName else o.path

/-- What an argument holds behind its key. -/
def valueOf? (key argument : String) : Option String :=
  if key.toList.isPrefixOf argument.toList then
    some (String.ofList (argument.toList.drop key.toList.length))
  else none

def colorOf (mode : String) : Except OptionError ColorMode :=
  if mode = "auto" then .ok .auto
  else if mode = "always" then .ok .always
  else if mode = "never" then .ok .never
  else .error (.color mode)

/-- An argument that is not one of the plain switches. -/
def takeValue (argument : String) (path? : Option String) (o : Options) :
    Except OptionError (Option String × Options) :=
  match valueOf? "--encoding=" argument, valueOf? "--color=" argument, valueOf? "--" argument with
  | some name, _, _ => .ok (path?, { o with encoding? := some name })
  | none, some mode, _ => do
    let color ← colorOf mode
    pure (path?, { o with color })
  | none, none, some _ => .error (.unknown argument)
  | none, none, none =>
    match path? with
    | none => .ok (some argument, o)
    | some _ => .error (.unexpected argument)

def take (acc : Option String × Options) (argument : String) :
    Except OptionError (Option String × Options) :=
  let (path?, o) := acc
  match argument with
  | "--single" => .ok (path?, { o with start := .single })
  | "--eval" => .ok (path?, { o with start := .eval })
  | "--no-implied-dedent" =>
    .ok (path?, { o with flags := { o.flags with dontImplyDedent := true } })
  | "--ignore-cookie" => .ok (path?, { o with flags := { o.flags with ignoreCookie := true } })
  | "--async-always" => .ok (path?, { o with flags := { o.flags with asyncAlways := true } })
  | "--trace-tree" => .ok (path?, { o with traceTree := true })
  | _ => takeValue argument path? o

/-- Reads the arguments after the name of the command. -/
def ofArguments (arguments : List String) : Except OptionError Options := do
  let (path?, o) ← arguments.foldlM take (none, ⟨"", .file, Flags.unset, none, false, .auto⟩)
  match path? with
  | some path => pure { o with path }
  | none => .error .missingPath

end Options
end Offside.Command
