import Offside.Token

/-!
Sources of tokens. A source hands out lexemes one at a time and tells where it stands. Whoever
reads from it may ask it to close its open blocks with dedents.
-/

namespace Offside

/-- Why a source cannot hand out a token. -/
inductive LexError
  /-- the input ended where more was required -/
  | endOfFile
  /-- a character that starts no token -/
  | badToken
  /-- the line ended inside a literal between single quotes -/
  | endOfLineInLiteral
  /-- the input ended inside a literal between triple quotes -/
  | endOfFileInLiteral
  /-- a dedent to a column that no enclosing block uses -/
  | dedent
  /-- indentation whose depth hangs on the width of a tab -/
  | tabSpace
  /-- too many nested blocks -/
  | tooDeep
  /-- something other than a line break after a backslash -/
  | lineContinuation
  /-- bytes that cannot be read as text -/
  | undecodable
  /-- no room -/
  | outOfMemory
  deriving DecidableEq, Inhabited

inductive StopReason
  /-- tokens are still coming -/
  | running
  /-- the input ended with nothing left open -/
  | finished
  /-- the input ended with something left open, so that more of it was needed -/
  | exhausted
  | failed (error : LexError)
  deriving DecidableEq, Inhabited

class TokenSource (σ : Type) where
  next : σ → Except LexError Lexeme × σ
  /-- Open blocks. -/
  depth : σ → Nat
  /-- Hand out so many dedents before anything else, and regard all blocks as closed. -/
  queueDedents : Nat → σ → σ
  /-- The encoding that was declared or detected. -/
  encoding? : σ → Option String
  line : σ → Nat
  /-- The line at which the source stands, as far as it is known. -/
  buffered? : σ → Option String
  /-- Where in the buffered line the source stands. -/
  offset : σ → Nat
  /-- What has not been read. -/
  remaining : σ → List Char
  stopReason : σ → StopReason

end Offside
