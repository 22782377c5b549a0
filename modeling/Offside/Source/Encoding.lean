import Offside.Text.Utf8

/-!
Encodings and their names. Three codecs are known, each under several names. Names are compared
in a canonical spelling, in which the families of UTF-8 and of Latin-1 have one member each.
-/

namespace Offside.Source

/-- How many characters of a name decide its family. -/
def familyLength : Nat := 12

/-- Lower case, with a hyphen for an underscore. -/
def foldNameChar (c : Char) : Char := if c = '_' then '-' else c.toLower

/-- Whether a name is a stem, or a stem with a hyphenated tail. -/
def inFamily (stem : String) (name : List Char) : Bool :=
  name == stem.toList || (stem.toList ++ ['-']).isPrefixOf name

/-- The spelling under which names are compared. -/
def canonicalName (name : String) : String :=
  let folded := name.toList.map foldNameChar
  let short := folded.take familyLength
  if inFamily "utf-8" short then "utf-8"
  else if inFamily "latin-1" short || inFamily "iso-8859-1" short || inFamily "iso-latin-1" short
  then "iso-8859-1"
  else String.ofList folded

inductive Codec
  | utf8 | latin1 | ascii
  deriving DecidableEq, Inhabited

namespace Codec

/-- What a message calls the codec. -/
def label : Codec → String
  | .utf8 => "utf-8"
  | .latin1 => "iso-8859-1"
  | .ascii => "ascii"

def names : Codec → List String
  | .utf8 => ["utf-8", "utf8"]
  | .latin1 => ["iso-8859-1", "latin1", "l1", "iso8859-1", "8859", "cp819"]
  | .ascii => ["ascii", "us-ascii", "646"]

/-- The codec of a name in canonical spelling. -/
def ofName? (name : String) : Option Codec :=
  [utf8, latin1, ascii].find? fun c => c.names.contains name

/-- The character that a byte stands for when bytes are code points. -/
def charOfByte (b : UInt8) : Char := Char.ofNat b.toNat

/-- The characters, or how many bytes stand before the first one that cannot be read. -/
def read (codec : Codec) (bytes : List UInt8) : Except Nat (List Char) :=
  match codec with
  | .utf8 => Text.decode bytes
  | .latin1 => .ok (bytes.map charOfByte)
  | .ascii =>
    match bytes.findIdx? fun b => 128 ≤ b.toNat with
    | some i => .error i
    | none => .ok (bytes.map charOfByte)

/-- The bytes of a text, unless it holds a character that the codec lacks. -/
def write? (codec : Codec) (text : List Char) : Option (List UInt8) :=
  match codec with
  | .utf8 => some (Text.encode text)
  | .latin1 => text.mapM fun c => if c.toNat < 256 then some (UInt8.ofNat c.toNat) else none
  | .ascii => text.mapM fun c => if c.toNat < 128 then some (UInt8.ofNat c.toNat) else none

end Codec
end Offside.Source
