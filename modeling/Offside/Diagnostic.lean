import Offside.TokenSource
import Offside.Text.Utf8
import Offside.Text.Blank
import Offside.Text.Lines

/-!
Diagnostics: why a parse failed, where, and what the line looks like there. The message and the
class under which it is reported follow from the kind of the failure and, for indentation, from
the tokens involved.
-/

namespace Offside

inductive FailureKind
  /-- nothing has failed -/
  | ok
  | endOfFile
  | undecodable
  | outOfMemory
  /-- a token that no rule admits -/
  | unexpectedToken
  /-- more than one statement where one was asked for -/
  | manyStatements
  /-- a tree that does not end as it must -/
  | internal
  | badToken
  | endOfLineInLiteral
  | endOfFileInLiteral
  | dedent
  | tabSpace
  | tooDeep
  | lineContinuation
  deriving DecidableEq, Inhabited

namespace FailureKind

def all : List FailureKind :=
  [.ok, .endOfFile, .undecodable, .outOfMemory, .unexpectedToken, .manyStatements, .internal,
   .badToken, .endOfLineInLiteral, .endOfFileInLiteral, .dedent, .tabSpace, .tooDeep,
   .lineContinuation]

def ofLexError : LexError → FailureKind
  | .endOfFile => .endOfFile
  | .badToken => .badToken
  | .endOfLineInLiteral => .endOfLineInLiteral
  | .endOfFileInLiteral => .endOfFileInLiteral
  | .dedent => .dedent
  | .tabSpace => .tabSpace
  | .tooDeep => .tooDeep
  | .lineContinuation => .lineContinuation
  | .undecodable => .undecodable
  | .outOfMemory => .outOfMemory

/-- The class under which a failure is reported. -/
def category : FailureKind → String
  | .ok => "Ok"
  | .outOfMemory => "MemoryError"
  | .undecodable => "UnicodeDecodeError"
  | .dedent | .tooDeep => "IndentationError"
  | .tabSpace => "TabError"
  | .internal => "SystemError"
  | _ => "SyntaxError"

end FailureKind

structure Diagnostic where
  kind : FailureKind
  filename : String
  /-- from one; zero if reading never began -/
  line : Nat
  /-- where in the text the parse stood, in bytes -/
  offset : Nat
  text? : Option String
  /-- the token that was refused -/
  token? : Option Kind
  /-- the only kind of token that would have been taken -/
  expected? : Option Kind
  deriving DecidableEq, Inhabited

namespace Diagnostic

/-- What an input without a name is called. -/
def namelessInput : String := "<string>"

def ofKind (kind : FailureKind) (filename? : Option String) : Diagnostic :=
  ⟨kind, filename?.getD namelessInput, 0, 0, none, none, none⟩

def isOk (d : Diagnostic) : Bool := d.kind == .ok

/-- Whether a refused token is a matter of indentation. -/
def concernsIndentation (d : Diagnostic) : Bool :=
  d.kind == .unexpectedToken &&
    (d.expected? == some .indent || d.token? == some .indent || d.token? == some .dedent)

def message (d : Diagnostic) : String :=
  match d.kind with
  | .ok => "no error"
  | .unexpectedToken =>
    if d.expected? = some .indent then "expected an indented block"
    else if d.token? = some .indent then "unexpected indent"
    else if d.token? = some .dedent then "unexpected unindent"
    else "invalid syntax"
  | .endOfFile => "unexpected EOF while parsing"
  | .undecodable => "could not decode source text"
  | .outOfMemory => "out of memory while parsing"
  | .manyStatements => "multiple statements found while compiling a single statement"
  | .internal => "internal parser error"
  | .badToken => "invalid token"
  | .endOfLineInLiteral => "EOL while scanning string literal"
  | .endOfFileInLiteral => "EOF while scanning triple-quoted string literal"
  | .dedent => "unindent does not match any outer indentation level"
  | .tabSpace => "inconsistent use of tabs and spaces in indentation"
  | .tooDeep => "too many levels of indentation"
  | .lineContinuation => "unexpected character after line continuation character"

def category (d : Diagnostic) : String :=
  if d.concernsIndentation then "IndentationError" else d.kind.category

/-- The text before and after the place of the failure. A place behind the line break that ends
the text is taken to be before it. -/
def splitText (offset : Nat) (text : List Char) : List Char × List Char :=
  let (before, after) := Text.splitAtByte offset text
  if after.isEmpty && before.getLast? == some '\n' then
    let kept := Text.dropEndWhile Text.isBreak before
    (kept, before.drop kept.length)
  else (before, after)

/-- The line on which the failure is, and the bytes of it before the failure. -/
def errorLine? (d : Diagnostic) : Option (List Char × Nat) :=
  d.text?.map fun text =>
    let (before, after) := splitText d.offset text.toList
    let left := (before.reverse.takeWhile (· != '\n')).reverse
    let right := after.takeWhile (· != '\n')
    (Text.dropEndWhile (· == '\r') (left ++ right), Text.byteLength left)

/-- The character of the line at which the failure is, from one. -/
def column? (d : Diagnostic) : Option Nat :=
  d.errorLine?.map fun (line, offset) => max 1 (Text.splitAtByte offset line).1.length

end Diagnostic
end Offside
