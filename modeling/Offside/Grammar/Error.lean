/-!
What can be wrong with a rule text.
-/

namespace Offside

/-- Why a single rule cannot be read. -/
inductive RuleFault
  | unexpected (text : String)
  | expected (what : String) (found : String)
  | expectedAtEnd (what : String)
  | emptyAlternative
  deriving DecidableEq, Inhabited

def RuleFault.message : RuleFault → String
  | .unexpected text => "unexpected `" ++ text ++ "`"
  | .expected what found => "expected " ++ what ++ ", found `" ++ found ++ "`"
  | .expectedAtEnd what => "expected " ++ what ++ " at end of rule"
  | .emptyAlternative => "empty alternative"

/-- Why a rule text gives no tables. Rules and labels are named as the text or a message names
them. -/
inductive GrammarError
  /-- the rule that starts on a line cannot be read -/
  | malformed (line : Nat) (fault : RuleFault)
  | unknownName (name : String)
  | unknownOperator (text : String)
  | duplicateRule (rule : String)
  | missingRule (rule : String)
  | leftRecursive (rule : String)
  | ambiguous (rule label : String)
  deriving DecidableEq, Inhabited

def GrammarError.message : GrammarError → String
  | .malformed line fault => "line " ++ toString line ++ ": " ++ fault.message
  | .unknownName name => "unknown rule or token name `" ++ name ++ "`"
  | .unknownOperator text => "unknown operator '" ++ text ++ "'"
  | .duplicateRule rule => "rule `" ++ rule ++ "` is defined twice"
  | .missingRule rule => "no rule for `" ++ rule ++ "`"
  | .leftRecursive rule => "rule `" ++ rule ++ "` is left-recursive"
  | .ambiguous rule label =>
    "rule `" ++ rule ++ "` is ambiguous: " ++ label ++ " can continue it in more than one way"

end Offside
