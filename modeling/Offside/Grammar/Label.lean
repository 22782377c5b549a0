import Offside.Grammar.Rule
import Offside.Token.Kind
import Offside.Symbol

/-!
Labels: what an arc of a rule's automaton consumes. The labels of a grammar are numbered in the
order in which its rules first mention them.
-/

namespace Offside

inductive Label
  /-- any token of a kind -/
  | token (kind : Kind)
  /-- the word with a certain text -/
  | keyword (text : String)
  /-- all that a rule derives -/
  | rule (symbol : Symbol)
  deriving DecidableEq, Inhabited

namespace Label

def isTerminal : Label → Bool
  | rule _ => false
  | _ => true

/-- The kind of the tokens that a terminal consumes. -/
def kind? : Label → Option Kind
  | token k => some k
  | keyword _ => some .word
  | rule _ => none

def display : Label → String
  | token k => k.display
  | keyword text => "'" ++ text ++ "'"
  | rule s => s.name

/-- Whether a quoted item is a keyword and not an operator. -/
def isKeyword (text : String) : Bool :=
  match text.toList with
  | c :: _ => Rule.isNameStart c
  | [] => false

/-- The label of an item. A name is a rule's before it is a token kind's. -/
def ofItem : Item → Except GrammarError Label
  | .quoted text =>
    if isKeyword text then .ok (.keyword text)
    else
      match Kind.ofSpelling? text with
      | some k => .ok (.token k)
      | none => .error (.unknownOperator text)
  | .name text =>
    match Symbol.ofName? text, Kind.ofName? text with
    | some s, _ => .ok (.rule s)
    | none, some k => .ok (.token k)
    | none, none => .error (.unknownName text)

/-- The number of a label and the labels with it among them. -/
def intern (labels : List Label) (l : Label) : Nat × List Label :=
  match labels.idxOf? l with
  | some i => (i, labels)
  | none => (labels.length, labels ++ [l])

mutual

/-- Replaces each item of a pattern by its label's number, from left to right. -/
def number (labels : List Label) : Pattern Item → Except GrammarError (Pattern Nat × List Label)
  | .leaf item => do
    let l ← ofItem item
    let (i, labels) := intern labels l
    pure (.leaf i, labels)
  | .alt ps => do
    let (ps, labels) ← numberAll labels ps
    pure (.alt ps, labels)
  | .seq ps => do
    let (ps, labels) ← numberAll labels ps
    pure (.seq ps, labels)
  | .opt p => do
    let (p, labels) ← number labels p
    pure (.opt p, labels)
  | .star p => do
    let (p, labels) ← number labels p
    pure (.star p, labels)
  | .plus p => do
    let (p, labels) ← number labels p
    pure (.plus p, labels)

def numberAll (labels : List Label) :
    List (Pattern Item) → Except GrammarError (List (Pattern Nat) × List Label)
  | [] => pure ([], labels)
  | p :: ps => do
    let (p, labels) ← number labels p
    let (ps, labels) ← numberAll labels ps
    pure (p :: ps, labels)

end

end Label
end Offside
