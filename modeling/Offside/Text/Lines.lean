/-!
Line breaks. A source text ends a line at a line feed, at a carriage return, or at the two
together, which count once. A rule text ends a line at a line feed alone and drops one carriage
return before it.
-/

namespace Offside.Text

def isBreak (c : Char) : Bool := c == '\n' || c == '\r'

/-- The line break a text starts with, and the text after it. -/
def lineBreak? : List Char → Option (List Char × List Char)
  | '\r' :: '\n' :: rest => some (['\r', '\n'], rest)
  | '\r' :: rest => some (['\r'], rest)
  | '\n' :: rest => some (['\n'], rest)
  | _ => none

theorem append_of_lineBreak? {text br rest : List Char} (h : lineBreak? text = some (br, rest)) :
    br ++ rest = text ∧ br ≠ [] := by
  unfold lineBreak? at h
  split at h
  · simp only [Option.some.injEq, Prod.mk.injEq] at h; obtain ⟨rfl, rfl⟩ := h; simp
  · simp only [Option.some.injEq, Prod.mk.injEq] at h; obtain ⟨rfl, rfl⟩ := h; simp
  · simp only [Option.some.injEq, Prod.mk.injEq] at h; obtain ⟨rfl, rfl⟩ := h; simp
  · simp at h

/-- Drops the carriage return at the end of a line given last character first. -/
def closeLine : List Char → List Char
  | '\r' :: line => line.reverse
  | line => line.reverse

/-- Lines of a rule text, with the current line given last character first. -/
def rowsFrom (line : List Char) : List Char → List (List Char)
  | [] => if line.isEmpty then [] else [line.reverse]
  | c :: rest =>
    if c = '\n' then closeLine line :: rowsFrom [] rest else rowsFrom (c :: line) rest

/-- Lines of a rule text. A last line without a line feed is a line if it is not empty. -/
def rows (text : List Char) : List (List Char) := rowsFrom [] text

end Offside.Text
