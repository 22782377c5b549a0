import Offside.Grammar

/-!
A grammar written out: for each rule a line with its first set, and below it a line for each
state with its arcs. A star marks a state that accepts.
-/

namespace Offside.Grammar

def arcText (g : Grammar) (arc : Nat × Nat) : Option String :=
  g.labels[arc.1]?.map fun l => " " ++ l.display ++ "->" ++ toString arc.2

def stateLine (g : Grammar) (i : Nat) (s : TableState) : String :=
  "  " ++ toString i ++ (if s.accepting then "*" else "") ++
    String.join (s.arcs.filterMap (arcText g)) ++ "\n"

def firstText (g : Grammar) (t : RuleTable) : String :=
  String.intercalate " " (t.first.filterMap fun i => g.labels[i]?.map Label.display)

def ruleText (g : Grammar) (t : RuleTable) : String :=
  t.symbol.name ++ " (" ++ toString t.states.length ++ " states) first: " ++ firstText g t ++
    "\n" ++ String.join (t.states.mapIdx (stateLine g))

def describe (g : Grammar) : String := String.join (g.rules.map (ruleText g))

end Offside.Grammar
