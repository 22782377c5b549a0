/-!
Pragmas. A comment that asks for types to be ignored is a token, whose text is the tag behind the
word `ignore`. The word must end there.
-/

namespace Offside.Pragma

def isNarrowBlank (c : Char) : Bool := c == ' ' || c == '\t'

/-- What follows a word at the start of a text. -/
def after? (word : String) (text : List Char) : Option (List Char) :=
  if word.toList.isPrefixOf text then some (text.drop word.toList.length) else none

/-- Whether a character would make the word before it longer. -/
def continuesWord (c : Char) : Bool := c == '_' || c.isAlphanum || 128 ≤ c.toNat

/-- The tag of a comment that is a pragma. -/
def tag? (comment : List Char) : Option (List Char) := do
  let rest ← after? "#" comment
  let rest ← after? "type:" (rest.dropWhile isNarrowBlank)
  let tag ← after? "ignore" (rest.dropWhile isNarrowBlank)
  match tag with
  | c :: _ => if continuesWord c then none else some tag
  | [] => some tag

end Offside.Pragma
