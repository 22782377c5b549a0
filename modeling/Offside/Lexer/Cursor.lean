import Offside.Text.Utf8
import Offside.Text.Lines
import Offside.Token

/-!
Cursors. A cursor stands between two characters of a text and knows the text from there on, the
bytes before it, its line, and where that line starts. It crosses line breaks in one of two ways:
`advance` starts a line after each one, and `skip` leaves that to a later `openLine`. Lines are
counted in 32 bits: in a text with more of them the count starts over.
-/

namespace Offside

structure Cursor where
  rest : List Char
  offset : Nat
  /-- the number of the line, from 1; behind the largest number of 32 bits comes 0 -/
  line : UInt32
  lineStart : Nat
  /-- the text from the start of the line on -/
  lineText : List Char
  deriving DecidableEq, Inhabited

namespace Cursor

def start (text : List Char) : Cursor := ⟨text, 0, 1, 0, text⟩

def skipChar (c : Char) (cur : Cursor) : Cursor :=
  { cur with rest := cur.rest.drop 1, offset := cur.offset + c.utf8Size }

/-- Moves over `read`, which the rest starts with, on the same line. -/
def skip (read : List Char) (cur : Cursor) : Cursor :=
  read.foldl (fun cur c => cur.skipChar c) cur

def openLine (cur : Cursor) : Cursor :=
  { cur with line := cur.line + 1, lineStart := cur.offset, lineText := cur.rest }

/-- Moves over `read`, which the rest starts with, and counts its line breaks. -/
def advance : List Char → Cursor → Cursor
  | [], cur => cur
  | '\r' :: '\n' :: read, cur => advance read ((cur.skipChar '\r').skipChar '\n').openLine
  | c :: read, cur =>
    if Text.isBreak c then advance read (cur.skipChar c).openLine
    else advance read (cur.skipChar c)

/-- A lexeme that takes up `read`, from the cursor on. -/
def lexeme (kind : Kind) (read : List Char) (cur : Cursor) : Lexeme :=
  match Span.ofRange? cur.offset (cur.offset + Text.byteLength read) with
  | some s => ⟨kind, some s, String.ofList read, cur.line.toNat, min cur.lineStart maxPosition⟩
  | none => ⟨kind, none, "", cur.line.toNat, min cur.lineStart maxPosition⟩

/-- A lexeme that takes up no text and has no place on its line. -/
def bare (kind : Kind) (cur : Cursor) : Lexeme :=
  ⟨kind, none, "", cur.line.toNat, min cur.lineStart maxPosition⟩

/-- The line up to its line feed, if there is anything on it. -/
def lineBuffer? (cur : Cursor) : Option String :=
  let line := cur.lineText.takeWhile (· != '\n')
  let line := if cur.lineText.length = line.length then line else line ++ ['\n']
  if line.isEmpty then none else some (String.ofList line)

/-- Bytes between the start of the line and the cursor. -/
def lineOffset (cur : Cursor) : Nat := cur.offset - cur.lineStart

@[simp] theorem skip_nil (cur : Cursor) : cur.skip [] = cur := rfl

@[simp] theorem skip_cons (c : Char) (read : List Char) (cur : Cursor) :
    cur.skip (c :: read) = (cur.skipChar c).skip read := rfl

theorem rest_skip (read : List Char) (cur : Cursor) :
    (cur.skip read).rest = cur.rest.drop read.length := by
  induction read generalizing cur with
  | nil => simp
  | cons c read ih => rw [skip_cons, ih]; simp [skipChar]

/-- Cursors advance over a joined break, over a break of one character, or over a character that is
none. -/
theorem advance_induction {motive : List Char → Cursor → Prop} (nil : ∀ cur, motive [] cur)
    (joined : ∀ read cur, motive read ((cur.skipChar '\r').skipChar '\n').openLine →
      motive ('\r' :: '\n' :: read) cur)
    (lineBreak : ∀ c read cur, (∀ rest, c = '\r' → read = '\n' :: rest → False) →
      Text.isBreak c = true → advance (c :: read) cur = advance read (cur.skipChar c).openLine →
      motive read (cur.skipChar c).openLine → motive (c :: read) cur)
    (other : ∀ c read cur, (∀ rest, c = '\r' → read = '\n' :: rest → False) →
      Text.isBreak c = false → advance (c :: read) cur = advance read (cur.skipChar c) →
      motive read (cur.skipChar c) → motive (c :: read) cur)
    (read : List Char) (cur : Cursor) : motive read cur := by
  induction read, cur using advance.induct with
  | case1 cur => exact nil cur
  | case2 read cur ih => exact joined read cur ih
  | case3 c read cur hjoined hbreak ih =>
    refine lineBreak c read cur hjoined hbreak ?_ ih
    rw [advance.eq_3 _ _ _ hjoined, if_pos hbreak]
  | case4 c read cur hjoined hbreak ih =>
    refine other c read cur hjoined (eq_false_of_ne_true hbreak) ?_ ih
    rw [advance.eq_3 _ _ _ hjoined, if_neg hbreak]

theorem offset_advance (read : List Char) (cur : Cursor) :
    (cur.advance read).offset = cur.offset + Text.byteLength read := by
  induction read, cur using advance_induction with
  | nil => rfl
  | joined read cur ih =>
    refine Eq.trans ih ?_
    simp only [skipChar, openLine, Text.byteLength_cons]
    omega
  | lineBreak c read cur _ _ hstep ih =>
    rw [hstep, ih]
    simp only [skipChar, openLine, Text.byteLength_cons]
    omega
  | other c read cur _ _ hstep ih =>
    rw [hstep, ih]
    simp only [skipChar, Text.byteLength_cons]
    omega

theorem rest_advance (read : List Char) (cur : Cursor) :
    (cur.advance read).rest = cur.rest.drop read.length := by
  induction read, cur using advance_induction with
  | nil => rfl
  | joined read cur ih =>
    refine Eq.trans ih ?_
    simp only [skipChar, openLine, List.drop_drop, List.length_cons]
    congr 1
    omega
  | lineBreak c read cur _ _ hstep ih =>
    rw [hstep, ih]
    simp [skipChar, openLine]
  | other c read cur _ _ hstep ih =>
    rw [hstep, ih]
    simp [skipChar]

end Cursor
end Offside
