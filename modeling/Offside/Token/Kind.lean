/-!
Token kinds: the terminal alphabet. A kind has the name that rule texts use for it and,
when it is an operator or a bracket, one spelling. Keywords are not kinds: they are names
that a rule singles out by their text.
-/

namespace Offside

inductive Kind
  | endMarker | word | numeral | literal | newline | indent | dedent | lpar | rpar | lsqb | rsqb
  | colon | comma | semi | plus | minus | star | slash | vbar | amper | less | greater | assign
  | dot | percent | lbrace | rbrace | eqEqual | notEqual | lessEqual | greaterEqual | tilde
  | circumflex | leftShift | rightShift | doubleStar | plusEqual | minusEqual | starEqual
  | slashEqual | doubleSlash | atSign | arrow | ellipsis | async | await | typeIgnore
  | errorToken
  deriving DecidableEq, Inhabited

namespace Kind

/-- Every kind, in numbering order. -/
def all : List Kind :=
  [.endMarker, .word, .numeral, .literal, .newline, .indent, .dedent, .lpar, .rpar, .lsqb, .rsqb,
   .colon, .comma, .semi, .plus, .minus, .star, .slash, .vbar, .amper, .less, .greater, .assign,
   .dot, .percent, .lbrace, .rbrace, .eqEqual, .notEqual, .lessEqual, .greaterEqual, .tilde,
   .circumflex, .leftShift, .rightShift, .doubleStar, .plusEqual, .minusEqual, .starEqual,
   .slashEqual, .doubleSlash, .atSign, .arrow, .ellipsis, .async, .await, .typeIgnore,
   .errorToken]

/-- Position of the kind in the numbering, from zero. -/
def number (k : Kind) : Nat := k.ctorIdx

/-- The name a rule text uses. -/
def name : Kind → String
  | .endMarker => "ENDMARKER"
  | .word => "NAME"
  | .numeral => "NUMBER"
  | .literal => "STRING"
  | .newline => "NEWLINE"
  | .indent => "INDENT"
  | .dedent => "DEDENT"
  | .lpar => "LPAR"
  | .rpar => "RPAR"
  | .lsqb => "LSQB"
  | .rsqb => "RSQB"
  | .colon => "COLON"
  | .comma => "COMMA"
  | .semi => "SEMI"
  | .plus => "PLUS"
  | .minus => "MINUS"
  | .star => "STAR"
  | .slash => "SLASH"
  | .vbar => "VBAR"
  | .amper => "AMPER"
  | .less => "LESS"
  | .greater => "GREATER"
  | .assign => "EQUAL"
  | .dot => "DOT"
  | .percent => "PERCENT"
  | .lbrace => "LBRACE"
  | .rbrace => "RBRACE"
  | .eqEqual => "EQEQUAL"
  | .notEqual => "NOTEQUAL"
  | .lessEqual => "LESSEQUAL"
  | .greaterEqual => "GREATEREQUAL"
  | .tilde => "TILDE"
  | .circumflex => "CIRCUMFLEX"
  | .leftShift => "LEFTSHIFT"
  | .rightShift => "RIGHTSHIFT"
  | .doubleStar => "DOUBLESTAR"
  | .plusEqual => "PLUSEQUAL"
  | .minusEqual => "MINEQUAL"
  | .starEqual => "STAREQUAL"
  | .slashEqual => "SLASHEQUAL"
  | .doubleSlash => "DOUBLESLASH"
  | .atSign => "AT"
  | .arrow => "RARROW"
  | .ellipsis => "ELLIPSIS"
  | .async => "ASYNC"
  | .await => "AWAIT"
  | .typeIgnore => "TYPE_IGNORE"
  | .errorToken => "ERRORTOKEN"

/-- The spelling of an operator or a bracket. -/
def spelling? : Kind → Option String
  | .lpar => some "("
  | .rpar => some ")"
  | .lsqb => some "["
  | .rsqb => some "]"
  | .colon => some ":"
  | .comma => some ","
  | .semi => some ";"
  | .plus => some "+"
  | .minus => some "-"
  | .star => some "*"
  | .slash => some "/"
  | .vbar => some "|"
  | .amper => some "&"
  | .less => some "<"
  | .greater => some ">"
  | .assign => some "="
  | .dot => some "."
  | .percent => some "%"
  | .lbrace => some "\x7b"
  | .rbrace => some "\x7d"
  | .eqEqual => some "=="
  | .notEqual => some "!="
  | .lessEqual => some "<="
  | .greaterEqual => some ">="
  | .tilde => some "~"
  | .circumflex => some "^"
  | .leftShift => some "<<"
  | .rightShift => some ">>"
  | .doubleStar => some "**"
  | .plusEqual => some "+="
  | .minusEqual => some "-="
  | .starEqual => some "*="
  | .slashEqual => some "/="
  | .doubleSlash => some "//"
  | .atSign => some "@"
  | .arrow => some "->"
  | .ellipsis => some "..."
  | _ => none

def ofName? (s : String) : Option Kind := all.find? fun k => k.name == s

/-- Inequality has a second spelling besides the one that `spelling?` gives. -/
def ofSpelling? (s : String) : Option Kind :=
  if s == "<>" then some .notEqual else all.find? fun k => k.spelling? == some s

/-- What a message calls the kind: a quoted spelling, else the name. -/
def display (k : Kind) : String :=
  match k.spelling? with
  | some s => "'" ++ s ++ "'"
  | none => k.name

theorem mem_all (k : Kind) : k ∈ all := by cases k <;> decide

end Kind
end Offside
