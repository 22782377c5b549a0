import Offside.Text.Utf8
import Offside.Text.Blank

/-!
Coding cookies. A source may name its encoding in a comment on its first line, or on its second
line if the first holds no code. Lines end at line feeds here, and a line that is not UTF-8 ends
the search.
-/

namespace Offside.Source

def isNameChar (c : Char) : Bool := c.isAlphanum || c == '-' || c == '_' || c == '.'

/-- The word that introduces an encoding name. -/
def cookieWord : List Char := "coding".toList

/-- The name that a text declares at its very start: the word, a colon or an equals sign, blanks,
and a name. -/
def cookieAt? (text : List Char) : Option (List Char) :=
  if cookieWord.isPrefixOf text then
    match text.drop cookieWord.length with
    | c :: rest =>
      if c = ':' ∨ c = '=' then
        let name := (rest.dropWhile fun c => c == ' ' || c == '\t').takeWhile isNameChar
        if name.isEmpty then none else some name
      else none
    | [] => none
  else none

/-- The first name declared in a comment. -/
def cookieWithin? : List Char → Option (List Char)
  | [] => none
  | c :: rest =>
    match cookieAt? (c :: rest) with
    | some name => some name
    | none => cookieWithin? rest

/-- The name declared by a line that is a comment. -/
def cookieOfLine? (line : List Char) : Option (List Char) :=
  match line.dropWhile Text.isLayout with
  | '#' :: comment => cookieWithin? comment
  | _ => none

/-- Whether a line leaves the search open: it is blank or a comment. -/
def holdsNoCode (line : List Char) : Bool :=
  match line.dropWhile Text.isLayout with
  | [] => true
  | c :: _ => c == '#' || c == '\n' || c == '\r'

/-- A line with its line feed, and the bytes after it. -/
def cutLine (bytes : List UInt8) : List UInt8 × List UInt8 :=
  match bytes.dropWhile (· != 10) with
  | [] => (bytes, [])
  | b :: rest => (bytes.takeWhile (· != 10) ++ [b], rest)

/-- Searches a number of lines. -/
def cookieInLines? : Nat → List UInt8 → Option (List Char)
  | 0, _ => none
  | n + 1, bytes =>
    let (lineBytes, rest) := cutLine bytes
    match Text.decode lineBytes with
    | .error _ => none
    | .ok line =>
      match cookieOfLine? line with
      | some name => some name
      | none => if holdsNoCode line then cookieInLines? n rest else none

/-- The encoding name that the first two lines declare. -/
def cookie? (bytes : List UInt8) : Option String := (cookieInLines? 2 bytes).map String.ofList

end Offside.Source
