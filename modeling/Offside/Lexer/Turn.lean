import Offside.Lexer.Cursor
import Offside.Lexer.Indentation
import Offside.Lexer.Literal
import Offside.Lexer.Plain
import Offside.Lexer.Pragma
import Offside.Source
import Offside.Text.Blank

/-!
One turn of the lexer. Layout is settled here: lines that hold no code give no tokens, a line's
indentation opens or closes blocks, brackets and backslashes join lines, and strings may span
them. At the end of the input open blocks are closed only if the input ends at the start of a
line. The line of a newline token is the line that it ends.
-/

namespace Offside

/-- Moves over a literal, onto the line that it ends on. -/
def Cursor.overLiteral (x : Literal.Extent) (cur : Cursor) : Cursor :=
  let behind := { cur.skip x.read with line := cur.line + x.newlines }
  match x.lastLineStart? with
  | some n =>
    { behind with
      lineStart := cur.offset + Text.byteLength (x.read.take n)
      lineText := cur.rest.drop n }
  | none => behind

theorem Cursor.rest_overLiteral (x : Literal.Extent) (cur : Cursor) :
    (cur.overLiteral x).rest = cur.rest.drop x.read.length := by
  unfold overLiteral
  split <;> exact rest_skip x.read cur

/-- The definition in which `async` and `await` are keywords. -/
structure AsyncScope where
  /-- open blocks around the definition -/
  depth : Nat
  /-- whether its first line has ended -/
  lineEnded : Bool
  deriving DecidableEq, Inhabited

structure Lexer where
  text : List Char
  encoding? : Option String
  cursor : Cursor
  /-- A newline token was handed out, and its line has not been left yet. -/
  lineEnded : Bool
  atLineStart : Bool
  /-- The line at whose start the indentation was last measured holds no code. -/
  blankLine : Bool
  pendingIndent : Bool
  pendingDedents : Nat
  /-- open brackets -/
  nesting : Nat
  indents : Indents
  asyncAlways : Bool
  asyncScope? : Option AsyncScope
  stop : StopReason
  deriving DecidableEq, Inhabited

namespace Lexer

/-- A lexer at the start of a source. With `asyncAlways` the words `async` and `await` are
keywords everywhere. -/
def ofSource (asyncAlways : Bool) (source : Source) : Lexer where
  text := source.text
  encoding? := source.encoding?
  cursor := Cursor.start source.text
  lineEnded := false
  atLineStart := true
  blankLine := false
  pendingIndent := false
  pendingDedents := 0
  nesting := 0
  indents := Indents.empty
  asyncAlways := asyncAlways
  asyncScope? := none
  stop := .running

/-- What a turn of the lexer comes to. -/
inductive Outcome
  | lexeme (x : Lexeme)
  /-- something was read that gives no token -/
  | nothing
  | failed (error : LexError)
  deriving DecidableEq

def advance (read : List Char) (lx : Lexer) : Lexer :=
  { lx with cursor := lx.cursor.advance read }

/-- Leaves the line of a newline token. -/
def leaveLine (lx : Lexer) : Lexer :=
  if lx.lineEnded then { lx with lineEnded := false, cursor := lx.cursor.openLine } else lx

/-- The next of the indents and dedents that are due, and the lexer after it. -/
def takeDue? (lx : Lexer) : Option (Lexeme × Lexer) :=
  if 0 < lx.pendingDedents then
    some (lx.cursor.bare .dedent, { lx with pendingDedents := lx.pendingDedents - 1 })
  else if lx.pendingIndent then
    some (lx.cursor.bare .indent, { lx with pendingIndent := false })
  else none

/-- Ends the scope of `async` when a line after its first is no deeper than its definition. -/
def leaveAsyncScope (lx : Lexer) : Lexer :=
  match lx.asyncScope? with
  | some scope =>
    if scope.lineEnded && lx.indents.depth ≤ scope.depth then { lx with asyncScope? := none }
    else lx
  | none => lx

/-- Compares a line of code with the open blocks. -/
def applyIndent (m : Measure) (lx : Lexer) : Option LexError × Lexer :=
  match lx.indents.apply m with
  | (.error e, indents) => (some e, { lx with indents })
  | (.ok change, indents) =>
    let lx := { lx with indents }
    (none, leaveAsyncScope <| match change with
      | .same => lx
      | .deeper => { lx with pendingIndent := true }
      | .shallower n => { lx with pendingDedents := n })

/-- Measures the indentation of the line that starts at the cursor. A line without code and a
line inside brackets have none; the end of the input closes every block. -/
def measureLine (lx : Lexer) : Option LexError × Lexer :=
  let blanks := lx.cursor.rest.takeWhile Text.isLayout
  let lx := { lx.advance blanks with atLineStart := false }
  match lx.cursor.rest with
  | [] =>
    let lx := { lx with blankLine := false }
    if 0 < lx.nesting then (none, lx) else lx.applyIndent Measure.zero
  | c :: _ =>
    let blank := c == '#' || Text.isBreak c
    let lx := { lx with blankLine := blank }
    if blank || 0 < lx.nesting then (none, lx) else lx.applyIndent (Measure.ofBlanks blanks)

def endOfInput (lx : Lexer) : Outcome × Lexer :=
  (.lexeme (lx.cursor.bare .endMarker),
    { lx with stop := if 0 < lx.nesting then .exhausted else .finished })

/-- Reads a comment, which is a token if it is a pragma. A pragma alone on its line takes the
line break along. -/
def comment (lx : Lexer) : Outcome × Lexer :=
  let body := lx.cursor.rest.takeWhile fun c => !Text.isBreak c
  let after := lx.advance body
  match Pragma.tag? body with
  | none => (.nothing, after)
  | some tag =>
    let x := (lx.cursor.skip (body.take (body.length - tag.length))).lexeme .typeIgnore tag
    match Text.lineBreak? after.cursor.rest with
    | some (br, _) =>
      if after.blankLine then (.lexeme x, { after.advance br with atLineStart := true })
      else (.lexeme x, after)
    | none => (.lexeme x, after)

/-- Reads a line break, which is a token if it ends a line of code outside brackets. -/
def lineBreak (br : List Char) (lx : Lexer) : Outcome × Lexer :=
  if lx.blankLine || 0 < lx.nesting then
    (.nothing, { lx.advance br with atLineStart := true })
  else
    (.lexeme (lx.cursor.lexeme .newline []),
      { lx with
        cursor := lx.cursor.skip br
        atLineStart := true
        lineEnded := true
        asyncScope? := lx.asyncScope?.map fun scope => { scope with lineEnded := true } })

/-- Reads a backslash that joins two lines. -/
def continuation (lx : Lexer) : Outcome × Lexer :=
  let after := lx.advance ['\\']
  match Text.lineBreak? after.cursor.rest with
  | none => (.failed .lineContinuation, after)
  | some (br, []) => (.failed .endOfFile, after.advance br)
  | some (br, _ :: _) => (.nothing, after.advance br)

/-- Reads a literal, in which the lines have been counted. -/
def literal (extent : Literal.Extent) (lx : Lexer) : Outcome × Lexer :=
  let after := { lx with cursor := lx.cursor.overLiteral extent }
  match extent.error? with
  | some e => (.failed e, after)
  | none => (.lexeme (lx.cursor.lexeme .literal extent.read), after)

/-- Whether the word that starts a definition follows. -/
def definitionFollows (text : List Char) : Bool :=
  match Plain.scan? (text.dropWhile Text.isLayout) with
  | some (.word, read, _) => read == "def".toList
  | _ => false

/-- The kind of a word that may be a keyword, before `rest`. -/
def classifyAsync (keyword : Kind) (rest : List Char) (lx : Lexer) : Kind × Lexer :=
  if lx.asyncAlways || lx.asyncScope?.isSome then (keyword, lx)
  else if keyword = .async ∧ definitionFollows rest then
    (keyword, { lx with asyncScope? := some ⟨lx.indents.depth, false⟩ })
  else (.word, lx)

def classify (kind : Kind) (read rest : List Char) (lx : Lexer) : Kind × Lexer :=
  if kind = .word ∧ read = "async".toList then lx.classifyAsync .async rest
  else if kind = .word ∧ read = "await".toList then lx.classifyAsync .await rest
  else (kind, lx)

/-- Counts the open brackets. A closing bracket that closes nothing is let through. -/
def nest (kind : Kind) (lx : Lexer) : Lexer :=
  if Plain.opens kind then { lx with nesting := lx.nesting + 1 }
  else if Plain.closes kind then { lx with nesting := lx.nesting - 1 }
  else lx

/-- Reads a word, a numeral or an operator. The character that starts none of them is passed
over with the failure. -/
def plain (c : Char) (text : List Char) (lx : Lexer) : Outcome × Lexer :=
  match Plain.scan? text with
  | none => (.failed .badToken, lx.advance [c])
  | some (kind, read, rest) =>
    let (kind, after) := ((lx.advance read).nest kind).classify kind read rest
    (.lexeme (lx.cursor.lexeme kind read), after)

/-- Reads on from a place where no indentation is due. -/
def body (lx : Lexer) : Outcome × Lexer :=
  let lx := lx.advance (lx.cursor.rest.takeWhile Text.isLayout)
  match lx.cursor.rest with
  | [] => lx.endOfInput
  | '#' :: _ => lx.comment
  | '\\' :: _ => lx.continuation
  | c :: rest =>
    match Text.lineBreak? (c :: rest) with
    | some (br, _) => lx.lineBreak br
    | none =>
      match Literal.scan? (c :: rest) with
      | some extent => lx.literal extent
      | none => lx.plain c (c :: rest)

/-- One turn: a token that is due, a line's indentation, or the next piece of text. -/
def turn (lx : Lexer) : Outcome × Lexer :=
  match lx.takeDue? with
  | some (x, lx) => (.lexeme x, lx)
  | none =>
    match if lx.atLineStart then lx.measureLine else (none, lx) with
    | (some e, lx) => (.failed e, lx)
    | (none, lx) =>
      match lx.takeDue? with
      | some (x, lx) => (.lexeme x, lx)
      | none => lx.body

end Lexer
end Offside
