import Offside.Command.Options
import Offside.Grammar.Description
import Offside.Parse
import Offside.Tree.Dump

/-!
Commands. A command line either has its answer at once or asks for an input; the answer is what
the process prints and the code it exits with. Reading the input is not done here.
-/

namespace Offside.Command

/-- What a command answers. Failures of the input go to `diagnostics`, in colors if these are
asked for; other failures go to `notes`. Both are printed on standard error. -/
structure Answer where
  code : Nat
  out : String
  diagnostics : String
  notes : String
  deriving DecidableEq, Inhabited

namespace Answer

def success (out : String) : Answer := ⟨0, out, "", ""⟩

def diagnostic (colors : Bool) (out : String) (d : Diagnostic) : Answer :=
  ⟨1, out, d.renderWith colors, ""⟩

def error (reason : String) : String := "error: " ++ reason ++ "\n"

end Answer

/-- The commands that read an input. -/
inductive Verb
  /-- print the tree -/
  | parse
  /-- print `ok` if there is a tree -/
  | check
  /-- print the tokens -/
  | tokens
  deriving DecidableEq, Inhabited

def tokenLine (t : Token) : String :=
  let column := match t.column? with
    | some c => toString c
    | none => "-"
  toString t.line ++ ":" ++ column ++ " " ++ t.kind.name ++ " " ++ Text.quoted t.text ++ "\n"

/-- The tokens that the lexer gives by itself, up to an error if there is one. -/
def listTokens (o : Options) (colors : Bool) (input : List UInt8) : Answer :=
  match Source.decode o.flags.decodeMode o.encoding? input with
  | .error _ => .diagnostic colors "" (.ofKind .undecodable (some o.displayName))
  | .ok source =>
    let (tokens, error?, lexer) := (Lexer.ofSource o.flags.asyncAlways source).drain
    let out := String.join (tokens.map tokenLine)
    match error? with
    | none => .success out
    | some e =>
      .diagnostic colors out
        { Diagnostic.ofKind (.ofLexError e) (some o.displayName) with
          line := lexer.cursor.line.toNat
          offset := lexer.cursor.lineOffset
          text? := lexer.cursor.lineBuffer? }

/-- Parses the input and shows the tree. -/
def parseAndShow (o : Options) (colors : Bool) (view : Node → String)
    (input : Except String (List UInt8)) : Answer :=
  match (Parse.reading o.start (.ofFlags o.flags) (some o.displayName) o.encoding? input).1 with
  | .ok tree => .success (view tree)
  | .error (.parse d) => .diagnostic colors "" d
  | .error e => ⟨1, "", "", Answer.error e.message⟩

/-- Runs a command on what reading its input gave. -/
def run (verb : Verb) (o : Options) (isTerminal : Bool) (input : Except String (List UInt8)) :
    Answer :=
  let colors := o.color.applies isTerminal
  match verb with
  | .parse => parseAndShow o colors Node.dump input
  | .check => parseAndShow o colors (fun _ => "ok\n") input
  | .tokens =>
    match input with
    | .ok bytes => listTokens o colors bytes
    | .error reason => ⟨1, "", "", Answer.error (Parse.ReadError.io o.path reason).message⟩

/-- Prints the tables of the reference grammar. -/
def describeGrammar : Answer :=
  match Reference.grammar with
  | .ok g => .success g.describe
  | .error e => ⟨1, "", "", Answer.error ("grammar failed to build: " ++ e.message)⟩

def usage : String := String.join <| List.map (· ++ "\n")
  ["Usage: knot <command> [options] <file|->",
   "",
   "Commands:",
   "  parse     Print the concrete syntax tree",
   "  check     Print `ok` or the syntax error",
   "  tokens    Print the token stream",
   "  grammar   Print the compiled grammar tables",
   "",
   "Options:",
   "  --single             Parse one interactive statement",
   "  --eval               Parse one expression list",
   "  --no-implied-dedent  Do not close open blocks at end of input",
   "  --ignore-cookie      Read input as UTF-8, ignoring coding cookies",
   "  --async-always       Treat async and await as keywords everywhere",
   "  --encoding=<name>    Encoding the input is known to be in",
   "  --color=<mode>       auto, always or never",
   "  --trace-tree         Indented span output (with RUST_LOG)"]

/-- A command line that cannot be run. -/
def misuse (reason : String) : Answer := ⟨2, "", "", Answer.error reason ++ usage⟩

/-- What a command line asks for. -/
inductive Request
  | answered (answer : Answer)
  | read (verb : Verb) (options : Options)
  deriving DecidableEq, Inhabited

def Request.ofVerb (verb : Verb) (arguments : List String) : Request :=
  match Options.ofArguments arguments with
  | .ok o => .read verb o
  | .error e => .answered (misuse e.message)

/-- Reads a command line without the name of the program. -/
def Request.ofCommandLine : List String → Request
  | [] => .answered ⟨2, "", "", usage⟩
  | command :: arguments =>
    match command with
    | "parse" => .ofVerb .parse arguments
    | "check" => .ofVerb .check arguments
    | "tokens" => .ofVerb .tokens arguments
    | "grammar" => .answered describeGrammar
    | "help" | "--help" | "-h" => .answered ⟨0, "", "", usage⟩
    | _ => .answered (misuse ("unknown command `" ++ command ++ "`"))

end Offside.Command
