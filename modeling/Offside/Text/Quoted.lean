import Offside.Text.Printed

/-!
Quoted text. A text is written between double quotes; a quote, a backslash, and every character
that is not written as itself become escapes, so that the written form stays on one line.
-/

namespace Offside.Text

/-- The code point of a character in braces, in lower-case hexadecimal without padding. -/
def pointEscape (c : Char) : List Char :=
  '\\' :: 'u' :: '\x7b' :: (Nat.toDigits 16 c.toNat ++ ['\x7d'])

def escapeChar (c : Char) : List Char :=
  if c = '\x00' then ['\\', '0']
  else if c = '\t' then ['\\', 't']
  else if c = '\r' then ['\\', 'r']
  else if c = '\n' then ['\\', 'n']
  else if c = '"' then ['\\', '"']
  else if c = '\\' then ['\\', '\\']
  else if isPrinted c then [c]
  else pointEscape c

def escape (text : List Char) : List Char := text.flatMap escapeChar

/-- The written form of a text. -/
def quoted (text : String) : String := String.ofList ('"' :: (escape text.toList ++ ['"']))

end Offside.Text
