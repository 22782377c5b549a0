import Offside.Grammar.Pattern
import Offside.Grammar.Error
import Offside.Text.Blank
import Offside.Text.Lines

/-!
Rule texts. A rule starts in the first column and goes on over the lines that do not; a number
sign starts a comment. Its right-hand side is written with bars for choices, brackets for what
may be left out, a star or a plus for repetition, and parentheses.
-/

namespace Offside

/-- A leaf of a right-hand side as it is written. -/
inductive Item
  /-- the name of a rule or of a token kind -/
  | name (text : String)
  /-- a keyword or an operator, without its quotes -/
  | quoted (text : String)
  deriving DecidableEq, Inhabited

structure Rule where
  name : String
  body : Pattern Item
  /-- the line on which the rule starts, from one -/
  line : Nat
  deriving Inhabited

namespace Rule

inductive Mark
  | name | quoted | colon | bar | lpar | rpar | lsqb | rsqb | star | plus
  deriving DecidableEq, Inhabited

/-- A piece of a rule. The text of a quoted piece has no quotes. -/
structure Piece where
  mark : Mark
  text : String
  deriving DecidableEq, Inhabited

/-- The piece as it is written. -/
def Piece.written (p : Piece) : String :=
  if p.mark = .quoted then "'" ++ p.text ++ "'" else p.text

def isNameStart (c : Char) : Bool := c.isAlpha || c == '_'

def isNameChar (c : Char) : Bool := c.isAlphanum || c == '_'

def isSpace (c : Char) : Bool := c == ' ' || c == '\t' || c == '\r' || c == '\n'

def markOf? (c : Char) : Option Mark :=
  match c with
  | ':' => some .colon
  | '|' => some .bar
  | '(' => some .lpar
  | ')' => some .rpar
  | '[' => some .lsqb
  | ']' => some .rsqb
  | '*' => some .star
  | '+' => some .plus
  | _ => none

/-- The characters up to the next quote on the same line. -/
def isQuotedChar (c : Char) : Bool := c != '\'' && c != '\n'

theorem length_lt_of_dropWhile {p : Char → Bool} {text after : List Char} {c : Char}
    (h : text.dropWhile p = c :: after) : after.length < text.length := by
  have := (List.dropWhile_suffix p (l := text)).length_le
  rw [h, List.length_cons] at this
  omega

/-- Cuts a rule into pieces. Those already found are `found`, last piece first. -/
def piecesFrom (found : List Piece) (text : List Char) : Except RuleFault (List Piece) :=
  match text with
  | [] => .ok found.reverse
  | c :: rest =>
    if isSpace c then piecesFrom found rest
    else if c = '#' then piecesFrom found (rest.dropWhile (· != '\n'))
    else if isNameStart c then
      piecesFrom (⟨.name, String.ofList (c :: rest.takeWhile isNameChar)⟩ :: found)
        (rest.dropWhile isNameChar)
    else if c = '\'' then
      let inside := rest.takeWhile isQuotedChar
      match h : rest.dropWhile isQuotedChar with
      | q :: after =>
        have : after.length < rest.length := length_lt_of_dropWhile h
        if q = '\'' ∧ inside ≠ [] then
          piecesFrom (⟨.quoted, String.ofList inside⟩ :: found) after
        else .error (.unexpected (String.ofList (c :: inside)))
      | [] => .error (.unexpected (String.ofList (c :: inside)))
    else
      match markOf? c with
      | some mark => piecesFrom (⟨mark, String.singleton c⟩ :: found) rest
      | none => .error (.unexpected (String.singleton c))
termination_by text.length
decreasing_by
  all_goals simp only [List.length_cons]
  · omega
  · have := (List.dropWhile_suffix (fun x => x != '\n') (l := rest)).length_le; omega
  · have := (List.dropWhile_suffix isNameChar (l := rest)).length_le; omega
  · omega
  · omega

def pieces (text : List Char) : Except RuleFault (List Piece) := piecesFrom [] text

/-- A choice that is being read: the alternatives that are complete and the one that is not,
each last member first. -/
structure Choice where
  alternatives : List (Pattern Item)
  row : List (Pattern Item)
  /-- whether the last pattern of the row may be repeated -/
  repeatable : Bool
  deriving Inhabited

namespace Choice

def empty : Choice := ⟨[], [], false⟩

def add (p : Pattern Item) (repeatable : Bool) (c : Choice) : Choice :=
  { c with row := p :: c.row, repeatable }

/-- Puts the last pattern of the row under a repetition. -/
def wrapLast (f : Pattern Item → Pattern Item) (c : Choice) : Choice :=
  match c.row with
  | [] => c
  | p :: row => { c with row := f p :: row, repeatable := false }

/-- Completes the alternative. -/
def bar (c : Choice) : Except RuleFault Choice :=
  if c.row.isEmpty then .error .emptyAlternative
  else .ok ⟨Pattern.ofRow c.row.reverse :: c.alternatives, [], false⟩

def close (c : Choice) : Except RuleFault (Pattern Item) := do
  let c ← c.bar
  pure (Pattern.ofChoice c.alternatives.reverse)

end Choice

inductive Bracket
  | round | square
  deriving DecidableEq, Inhabited

/-- The end of a bracket as a message names it. -/
def Bracket.closing : Bracket → String
  | .round => "')'"
  | .square => "']'"

/-- Reads a right-hand side. The choice that is open is `c`; around it are the brackets that are
open, innermost first, each with the choice that it stands in. -/
def readBody (around : List (Bracket × Choice)) (c : Choice) :
    List Piece → Except RuleFault (Pattern Item)
  | [] => do
    let p ← c.close
    match around with
    | [] => pure p
    | (b, _) :: _ => .error (.expectedAtEnd b.closing)
  | piece :: rest =>
    match piece.mark, c.repeatable with
    | .name, _ => readBody around (c.add (.leaf (.name piece.text)) true) rest
    | .quoted, _ => readBody around (c.add (.leaf (.quoted piece.text)) true) rest
    | .lpar, _ => readBody ((.round, c) :: around) Choice.empty rest
    | .lsqb, _ => readBody ((.square, c) :: around) Choice.empty rest
    | .star, true => readBody around (c.wrapLast .star) rest
    | .plus, true => readBody around (c.wrapLast .plus) rest
    | .bar, _ => do readBody around (← c.bar) rest
    | mark, _ => do
      let p ← c.close
      match around, mark with
      | [], _ => .error (.unexpected piece.written)
      | (.round, outer) :: around, .rpar => readBody around (outer.add p true) rest
      | (.square, outer) :: around, .rsqb => readBody around (outer.add (.opt p) false) rest
      | (b, _) :: _, _ => .error (.expected b.closing piece.written)

/-- Reads a rule from its pieces. -/
def ofPieces (line : Nat) : List Piece → Except RuleFault Rule
  | [] => .error (.expectedAtEnd "a rule name")
  | first :: rest =>
    if first.mark ≠ .name then .error (.expected "a rule name" first.written)
    else
      match rest with
      | [] => .error (.expectedAtEnd "':'")
      | second :: rest =>
        if second.mark ≠ .colon then .error (.expected "':'" second.written)
        else do
          let body ← readBody [] Choice.empty rest
          pure ⟨first.text, body, line⟩

/-- The text of a rule and the line on which it starts. -/
structure Block where
  line : Nat
  text : List Char
  deriving DecidableEq, Inhabited

/-- Whether a line starts a rule. -/
def startsRule : List Char → Bool
  | [] => false
  | c :: _ => !Text.isBlank c && c != '#'

/-- Puts a line before the lines after it: those that go on the rule that is open there, each
with a line feed in front, and the rules that start later. -/
def addRow (row : List Char) (line : Nat) (after : List Char × List Block) :
    List Char × List Block :=
  if startsRule row then ([], ⟨line, row ++ after.1⟩ :: after.2)
  else ('\n' :: (row ++ after.1), after.2)

/-- Collects lines into rules. Lines before the first rule are dropped. -/
def blocksFrom (line : Nat) : List (List Char) → List Char × List Block
  | [] => ([], [])
  | row :: rows => addRow row line (blocksFrom (line + 1) rows)

def blocks (text : List Char) : List Block := (blocksFrom 1 (Text.rows text)).2

def ofBlock (b : Block) : Except GrammarError Rule :=
  match pieces b.text >>= ofPieces b.line with
  | .ok r => .ok r
  | .error fault => .error (.malformed b.line fault)

/-- The rules of a rule text, or what is wrong with the first one that cannot be read. -/
def readAll (text : List Char) : Except GrammarError (List Rule) := (blocks text).mapM ofBlock

end Rule
end Offside
