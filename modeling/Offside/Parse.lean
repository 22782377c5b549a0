import Offside.Parse.Run
import Offside.Lexer
import Offside.Pushdown
import Offside.Grammar.Reference

/-!
Parses of bytes, of texts and of files by the reference grammar.
-/

namespace Offside.Parse

/-- Where a byte is: its line, from one, and the bytes before it on that line. -/
def locateByte (bytes : List UInt8) (position : Nat) : Nat × Nat :=
  let before := bytes.take position
  (before.count 10 + 1, (before.reverse.takeWhile (· != 10)).length)

/-- The diagnostic of an input that could not be read as text. Only a byte that cannot be read
has a place. -/
def ofDecodeError (bytes : List UInt8) (filename? : Option String) (e : DecodeError) :
    Diagnostic :=
  let d := Diagnostic.ofKind .undecodable filename?
  match e with
  | .invalidByte _ _ position =>
    let (line, offset) := locateByte bytes position
    { d with line, offset }
  | _ => d

/-- Every step uses up some of a lexer's weight, but for the end markers and for the dedents that
are queued at the first of them. -/
def fuel (lx : Lexer) : Nat := 2 * lx.weight + 4

/-- Parses a source by a grammar. There is no outcome if the grammar has no rule to start from;
otherwise the fuel is enough. -/
def attempt? (g : Grammar) (start : StartRule) (options : Options) (filename? : Option String)
    (s : Source) : Option (Outcome Lexer Pushdown) :=
  (Pushdown.start? g start.symbol Pushdown.defaultMaxDepth).bind fun automaton =>
    let lexer := Lexer.ofSource options.flags.asyncAlways s
    tokens (fuel lexer) start options filename? lexer automaton

/-- Parses a source by what came of a grammar's text. -/
def sourceBy (grammar : Except GrammarError Grammar) (start : StartRule) (options : Options)
    (filename? : Option String) (s : Source) : Except Diagnostic Node × Options :=
  match grammar.toOption.bind fun g => attempt? g start options filename? s with
  | some outcome => (outcome.result, outcome.options)
  | none => (.error (Diagnostic.ofKind .internal filename?), options)

/-- Parses a source by the reference grammar. -/
def source (start : StartRule) (options : Options) (filename? : Option String) (s : Source) :
    Except Diagnostic Node × Options :=
  sourceBy Reference.grammar start options filename? s

/-- Parses bytes. `encoding?` is what the caller knows them to be in. -/
def bytes (start : StartRule) (options : Options) (filename? encoding? : Option String)
    (input : List UInt8) : Except Diagnostic Node × Options :=
  match Source.decode options.flags.decodeMode encoding? input with
  | .error e => (.error (ofDecodeError input filename? e), options)
  | .ok s => source start options filename? s

def text (start : StartRule) (options : Options) (filename? : Option String)
    (input : List Char) : Except Diagnostic Node × Options :=
  bytes start options filename? none (Text.encode input)

/-- Why a parse that reads its own input gave no tree. -/
inductive ReadError
  /-- reading failed, for a reason that the system told -/
  | io (path reason : String)
  | parse (diagnostic : Diagnostic)
  deriving DecidableEq, Inhabited

def ReadError.message : ReadError → String
  | .io path reason => "cannot read " ++ path ++ ": " ++ reason
  | .parse d => d.message

/-- Parses what reading an input gave. -/
def reading (start : StartRule) (options : Options) (filename? encoding? : Option String)
    (input : Except String (List UInt8)) : Except ReadError Node × Options :=
  match input with
  | .error reason => (.error (.io (filename?.getD Diagnostic.namelessInput) reason), options)
  | .ok input =>
    let (result, options) := bytes start options filename? encoding? input
    (result.mapError .parse, options)

end Offside.Parse
