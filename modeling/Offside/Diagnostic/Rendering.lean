import Offside.Diagnostic

/-!
Diagnostics as a terminal shows them: where the failure is, the line, a caret below the last
character that was read, and the message.
-/

namespace Offside

/-- When to use colors. -/
inductive ColorMode
  /-- on a terminal -/
  | auto
  | always
  | never
  deriving DecidableEq, Inhabited

def ColorMode.applies (isTerminal : Bool) : ColorMode → Bool
  | .auto => isTerminal
  | .always => true
  | .never => false

namespace Diagnostic

/-- The sequences that turn a color on. -/
inductive Paint
  | bold | red | green
  deriving DecidableEq

def Paint.sequence : Paint → String
  | .bold => "\x1b[1m"
  | .red => "\x1b[1;31m"
  | .green => "\x1b[1;32m"

def painted (colors : Bool) (paint : Paint) (text : String) : String :=
  if colors then paint.sequence ++ text ++ "\x1b[0m" else text

/-- Blanks as wide as a text. A tab stays a tab, so that both are as wide on any terminal. -/
def caretPadding (text : List Char) : List Char := text.map fun c => if c = '\t' then '\t' else ' '

/-- The line without the blanks around it, and the blanks that put a caret below the character
before the failure. -/
def caretLines (line : List Char) (offset : Nat) : List Char × List Char :=
  let trimmed := line.dropWhile Text.isBlank
  let indent := Text.byteLength line - Text.byteLength trimmed
  let before := (Text.splitAtByte (offset - indent) trimmed).1
  (Text.dropEndWhile Text.isBlank trimmed, caretPadding before.dropLast)

def renderWith (colors : Bool) (d : Diagnostic) : String :=
  let place := "  File \"" ++ painted colors .bold d.filename ++ "\", line " ++ toString d.line ++
    "\n"
  let excerpt := match d.errorLine? with
    | none => ""
    | some (line, offset) =>
      let (shown, padding) := caretLines line offset
      "    " ++ String.ofList shown ++ "\n    " ++ String.ofList padding ++
        painted colors .green "^" ++ "\n"
  place ++ excerpt ++ painted colors .red d.category ++ ": " ++ d.message ++ "\n"

/-- Without colors. -/
def render (d : Diagnostic) : String := d.renderWith false

end Diagnostic
end Offside
