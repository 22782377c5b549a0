import Offside.Source.Encoding
import Offside.Source.Cookie
import Offside.Span

/-!
Sources: bytes read as text. The encoding is the one the caller declares, else the one a cookie
names, else the one a byte-order mark tells, else UTF-8. The encoding is reported unless it is
only the default. Reading raw means UTF-8 whatever the source says of itself.
-/

namespace Offside

inductive DecodeMode
  | cookie | raw
  deriving DecidableEq, Inhabited

inductive DecodeError
  | unknownEncoding (name : String)
  | bomMismatch (name : String)
  | conflict (declared cookie : String)
  | invalidByte (codec : Source.Codec) (byte : UInt8) (position : Nat)
  | tooLarge (size : Nat)
  deriving DecidableEq

structure Source where
  text : List Char
  encoding? : Option String
  deriving DecidableEq, Inhabited

/-- Two digits of lower-case hexadecimal. -/
def hexByte (b : UInt8) : String :=
  String.ofList [(b.toNat / 16).digitChar, (b.toNat % 16).digitChar]

def DecodeError.message : DecodeError → String
  | .unknownEncoding name => "unknown encoding: " ++ name
  | .bomMismatch name => "encoding problem: " ++ name ++ " with BOM"
  | .conflict declared cookie =>
    "encoding problem: " ++ cookie ++ " declared in a source read as " ++ declared
  | .invalidByte codec byte position =>
    "'" ++ codec.label ++ "' codec can't decode byte 0x" ++ hexByte byte ++ " in position " ++
      toString position
  | .tooLarge size => "source of " ++ toString size ++ " bytes is too large"

namespace Source

/-- The byte-order mark of UTF-8. -/
def mark : List UInt8 := [0xEF, 0xBB, 0xBF]

/-- The bytes after a byte-order mark, and whether there was one. -/
def cutMark (bytes : List UInt8) : List UInt8 × Bool :=
  if mark.isPrefixOf bytes then (bytes.drop mark.length, true) else (bytes, false)

/-- Reads `body`, which follows the first `base` bytes of a source. -/
def readBody (codec : Codec) (body : List UInt8) (base : Nat) :
    Except DecodeError (List Char) :=
  match codec.read body with
  | .ok text => .ok text
  | .error i => .error (.invalidByte codec (body[i]?.getD 0) (base + i))

/-- The encoding a source is read in, from what is known of it. -/
def chooseEncoding (declared? cookie? : Option String) (marked : Bool) :
    Except DecodeError (Option String) :=
  match declared?, cookie? with
  | some declared, some cookie =>
    if declared = cookie then .ok (some declared) else .error (.conflict declared cookie)
  | some name, none | none, some name => .ok (some name)
  | none, none => .ok (if marked then some "utf-8" else none)

/-- The codec of an encoding. A mark admits UTF-8 alone. -/
def codecOf (encoding? : Option String) (marked : Bool) : Except DecodeError Codec :=
  match encoding? with
  | none => .ok .utf8
  | some name =>
    match Codec.ofName? name with
    | none => .error (.unknownEncoding name)
    | some codec => if marked && codec != .utf8 then .error (.bomMismatch name) else .ok codec

def decode (mode : DecodeMode) (declared? : Option String) (bytes : List UInt8) :
    Except DecodeError Source :=
  if maxPosition < bytes.length then .error (.tooLarge bytes.length)
  else
    let (body, marked) := cutMark bytes
    let base := bytes.length - body.length
    match mode with
    | .raw => do
      let text ← readBody .utf8 body base
      pure ⟨text, some "utf-8"⟩
    | .cookie => do
      let encoding? ← chooseEncoding (declared?.map canonicalName)
        ((cookie? body).map canonicalName) marked
      let codec ← codecOf encoding? marked
      let text ← readBody codec body base
      pure ⟨text, encoding?⟩

/-- Reads text that is already Unicode, as the bytes of UTF-8. -/
def ofText (mode : DecodeMode) (text : List Char) : Except DecodeError Source :=
  decode mode none (Text.encode text)

end Source
end Offside
