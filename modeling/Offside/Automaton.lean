import Offside.Tree

/-!
Automata that read tokens one at a time. An automaton answers each token, and holds the features
that the input has asked for, as bits whose meaning is its own.
-/

namespace Offside

/-- Features as bits. All but one are only carried along. -/
abbrev Future := UInt32

/-- The feature under which inequality is spelled with angle brackets and in no other way. -/
def angleInequality : Future := 1

def Future.has (feature bits : Future) : Bool := bits &&& feature == feature

/-- The answer to a token. -/
inductive Verdict
  /-- more tokens are needed -/
  | more
  | accept (tree : Node)
  /-- No input goes on like this. If just one kind of token could have come, it is told. -/
  | reject (expected? : Option Kind)
  | outOfMemory
  deriving DecidableEq, Inhabited

class Automaton (α : Type) where
  feed : Token → α → Verdict × α
  future : α → Future
  setFuture : Future → α → α

end Offside
