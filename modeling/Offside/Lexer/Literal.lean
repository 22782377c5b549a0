import Offside.TokenSource
import Offside.Text.Lines

/-!
String literals. A literal is up to two prefix letters, an opening of one or three equal quotes,
a body, and a closing of as many quotes. In the body a backslash takes the character after it
along, or the line break after it; a literal with single quotes ends at its line's end. The line
breaks in a literal are counted while it is scanned, behind backslashes and without.
-/

namespace Offside.Literal

def isQuote (c : Char) : Bool := c == '\'' || c == '"'

def isPrefixLetter (c : Char) : Bool :=
  let c := c.toLower
  c == 'r' || c == 'b' || c == 'u' || c == 'f'

/-- How a literal starts. -/
structure Opening where
  /-- the prefix letters -/
  letters : List Char
  quote : Char
  /-- quotes that open the literal and quotes that close it: one or three -/
  width : Nat
  /-- what follows the opening -/
  rest : List Char
  deriving DecidableEq, Inhabited

/-- The opening that follows the prefix letters. -/
def openingAfter? (letters : List Char) : List Char → Option Opening
  | [] => none
  | q :: rest =>
    if isQuote q then
      match rest with
      | q₁ :: q₂ :: rest' =>
        if q₁ = q ∧ q₂ = q then some ⟨letters, q, 3, rest'⟩ else some ⟨letters, q, 1, rest⟩
      | _ => some ⟨letters, q, 1, rest⟩
    else none

/-- The opening that a text starts with. -/
def opening? : List Char → Option Opening
  | a :: b :: rest =>
    if isPrefixLetter a then
      if isPrefixLetter b then openingAfter? [a, b] rest else openingAfter? [a] (b :: rest)
    else openingAfter? [] (a :: b :: rest)
  | text => openingAfter? [] text

/-- The part of a text that a literal takes up, why it has no end, and the lines in it. -/
structure Extent where
  read : List Char
  error? : Option LexError
  /-- line breaks in it, counted in 32 bits -/
  newlines : UInt32
  /-- characters of it before the line that it ends on, unless it is on one line -/
  lastLineStart? : Option Nat
  deriving DecidableEq, Inhabited

/-- What a scan of a literal has come to. -/
structure Scan where
  /-- what has been read, last character first -/
  read : List Char
  /-- characters read -/
  size : Nat
  newlines : UInt32
  lastLineStart? : Option Nat

namespace Scan

/-- A scan that has read the opening, which is on one line. -/
def start (opening : List Char) : Scan := ⟨opening.reverse, opening.length, 0, none⟩

def take (c : Char) (s : Scan) : Scan := { s with read := c :: s.read, size := s.size + 1 }

/-- A line break has been read. -/
def openLine (s : Scan) : Scan :=
  { s with newlines := s.newlines + 1, lastLineStart? := some s.size }

def stop (error? : Option LexError) (s : Scan) : Extent :=
  ⟨s.read.reverse, error?, s.newlines, s.lastLineStart?⟩

end Scan

/-- Scans a body to its end. `seen` closing quotes stand right before `text`. -/
def scanFrom (quote : Char) (width : Nat) (s : Scan) (seen : Nat) (text : List Char) : Extent :=
  match text with
  | [] => s.stop (some (if width = 3 then .endOfFileInLiteral else .endOfLineInLiteral))
  | c :: rest =>
    if c = quote then
      if seen + 1 = width then (s.take c).stop none
      else scanFrom quote width (s.take c) (seen + 1) rest
    else if c = '\\' then
      match rest with
      | [] => scanFrom quote width (s.take c) 0 []
      | d :: rest =>
        match d, rest with
        | '\r', '\n' :: rest =>
          scanFrom quote width (((s.take c).take '\r').take '\n').openLine 0 rest
        | d, rest =>
          if Text.isBreak d then scanFrom quote width ((s.take c).take d).openLine 0 rest
          else scanFrom quote width ((s.take c).take d) 0 rest
    else if Text.isBreak c then
      if width = 3 then
        match c, rest with
        | '\r', '\n' :: rest => scanFrom quote width ((s.take '\r').take '\n').openLine 0 rest
        | c, rest => scanFrom quote width (s.take c).openLine 0 rest
      else s.stop (some .endOfLineInLiteral)
    else scanFrom quote width (s.take c) 0 rest
termination_by text.length

/-- The extent of a literal with a given opening. -/
def extent (o : Opening) : Extent :=
  scanFrom o.quote o.width (.start (o.letters ++ List.replicate o.width o.quote)) 0 o.rest

/-- The extent of the literal that a text starts with. -/
def scan? (text : List Char) : Option Extent := (opening? text).map extent

theorem scanFrom_read_ne_nil (quote : Char) (width : Nat) (s : Scan) (seen : Nat)
    (text : List Char) (h : s.read ≠ []) : (scanFrom quote width s seen text).read ≠ [] := by
  fun_induction scanFrom quote width s seen text <;> simp_all [Scan.stop, Scan.take, Scan.openLine]

theorem openingAfter?_width {letters text : List Char} {o : Opening}
    (h : openingAfter? letters text = some o) : 0 < o.width := by
  unfold openingAfter? at h
  grind

theorem opening?_width {text : List Char} {o : Opening} (h : opening? text = some o) :
    0 < o.width := by
  unfold opening? at h
  grind [openingAfter?_width]

theorem scan?_read_ne_nil {text : List Char} {x : Extent} (h : scan? text = some x) :
    x.read ≠ [] := by
  unfold scan? at h
  obtain ⟨o, ho, rfl⟩ := Option.map_eq_some_iff.1 h
  have hw := opening?_width ho
  refine scanFrom_read_ne_nil _ _ _ _ _ fun hn => ?_
  simp only [Scan.start, List.reverse_eq_nil_iff, List.append_eq_nil_iff,
    List.replicate_eq_nil_iff] at hn
  omega

end Offside.Literal
