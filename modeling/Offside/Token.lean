import Offside.Token.Kind
import Offside.Span

/-!
Tokens. A lexeme is a token as the lexer meets it: its text, where that text lies, and the line
it was met on. A token is what a grammar sees: the column has replaced the byte positions.
-/

namespace Offside

/-- `column? = none` marks a token that has no place on its line. -/
structure Token where
  kind : Kind
  text : String
  line : Nat
  column? : Option Nat
  deriving DecidableEq, Inhabited

/-- A lexeme without a span stands for no text: the end of the input, or a change of
indentation. -/
structure Lexeme where
  kind : Kind
  span? : Option Span
  text : String
  line : Nat
  lineStart : Nat
  deriving DecidableEq, Inhabited

namespace Lexeme

/-- Bytes from the line's start, unless the lexeme starts on an earlier line. -/
def column? (x : Lexeme) : Option Nat :=
  x.span?.bind fun s => if x.lineStart ≤ s.start then some (s.start - x.lineStart) else none

def token (x : Lexeme) : Token := ⟨x.kind, x.text, x.line, x.column?⟩

end Lexeme
end Offside
