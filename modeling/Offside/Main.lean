import Offside.Command

/-!
The command line program: it reads the input that a command asks for and prints the answer.
-/

namespace Offside.Main

/-- What the system calls the commonest failures, by their numbers. -/
def systemText : UInt32 → Option String
  | 1 => some "Operation not permitted"
  | 2 => some "No such file or directory"
  | 5 => some "Input/output error"
  | 13 => some "Permission denied"
  | 20 => some "Not a directory"
  | 21 => some "Is a directory"
  | 36 => some "File name too long"
  | 40 => some "Too many levels of symbolic links"
  | _ => none

/-- The number of a failure to read, if it has one. Some come with the sign turned. -/
def codeOf? (e : IO.Error) : Option UInt32 :=
  let code? := match e with
    | .noFileOrDirectory _ code _ => some code
    | .permissionDenied _ code _ => some code
    | .inappropriateType _ code _ => some code
    | .invalidArgument _ code _ => some code
    | .resourceExhausted _ code _ => some code
    | .illegalOperation code _ => some code
    | .hardwareFault code _ => some code
    | .otherError code _ => some code
    | _ => none
  code?.map fun code => if 0x80000000 ≤ code then 0 - code else code

def reason (e : IO.Error) : String :=
  match codeOf? e with
  | some code =>
    match systemText code with
    | some text => text ++ " (os error " ++ toString code ++ ")"
    | none => toString e
  | none => toString e

def readAllBytes (input : IO.FS.Stream) : IO ByteArray := do
  let mut bytes := ByteArray.empty
  let mut more := true
  while more do
    let chunk ← input.read 65536
    bytes := bytes ++ chunk
    more := !chunk.isEmpty
  pure bytes

def readInput (path : String) : IO (Except String (List UInt8)) := do
  try
    let bytes ←
      if path == Command.stdinPath then readAllBytes (← IO.getStdin) else IO.FS.readBinFile path
    pure (.ok bytes.toList)
  catch e => pure (.error (reason e))

def answer : Command.Request → IO Command.Answer
  | .answered a => pure a
  | .read verb o => do
    let isTerminal ← (← IO.getStderr).isTty
    pure (Command.run verb o isTerminal (← readInput o.path))

end Offside.Main

def main (arguments : List String) : IO UInt32 := do
  let a ← Offside.Main.answer (.ofCommandLine arguments)
  IO.print a.out
  (← IO.getStdout).flush
  IO.eprint a.diagnostics
  IO.eprint a.notes
  pure (UInt32.ofNat a.code)
