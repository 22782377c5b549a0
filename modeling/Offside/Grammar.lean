import Offside.Grammar.First

/-!
Grammars: the tables that a rule text gives. Each rule has an automaton whose states know, for
each terminal they can consume, whether to consume it or to begin another rule with it. A
terminal that a state could use in two ways makes the rule ambiguous.
-/

namespace Offside

/-- What a state does with a terminal. -/
inductive Action
  /-- consume it and go on in a state -/
  | shift (next : Nat)
  /-- begin a rule with it, and go on in a state after that -/
  | push (symbol : Symbol) (next : Nat)
  deriving DecidableEq, Inhabited

/-- A state with its arcs and its actions, both by rising labels. -/
structure TableState where
  accepting : Bool
  arcs : List (Nat × Nat)
  actions : List (Nat × Action)
  deriving DecidableEq, Inhabited

namespace TableState

def action? (s : TableState) (label : Nat) : Option Action := s.actions.lookup label

/-- A rule is complete in a state that accepts and leads nowhere. -/
def isFinal (s : TableState) : Bool := s.accepting && s.arcs.isEmpty

end TableState

/-- The automaton of a rule and the terminals it can begin with. The first state is the start. -/
structure RuleTable where
  symbol : Symbol
  states : List TableState
  first : List Nat
  deriving DecidableEq, Inhabited

/-- Rules are in the order of their symbols, labels in the order of their numbers. -/
structure Grammar where
  labels : List Label
  rules : List RuleTable
  deriving DecidableEq, Inhabited

namespace Grammar

/-- Keeps actions in the order of their labels. A label that has an action already gives
none. -/
def insertAction (label : Nat) (a : Action) :
    List (Nat × Action) → Option (List (Nat × Action))
  | [] => some [(label, a)]
  | (l, b) :: rest =>
    if label < l then some ((label, a) :: (l, b) :: rest)
    else if label = l then none
    else (insertAction label a rest).map ((l, b) :: ·)

/-- Gives each of several labels the same action, or tells the first one that has one already. -/
def insertActions (a : Action) :
    List Nat → List (Nat × Action) → Except Nat (List (Nat × Action))
  | [], actions => .ok actions
  | label :: labels, actions =>
    match insertAction label a actions with
    | some actions => insertActions a labels actions
    | none => .error label

/-- The actions that one arc calls for. -/
def addArc (labels : List Label) (firsts : First.Sets) (actions : List (Nat × Action))
    (arc : Nat × Nat) : Except Nat (List (Nat × Action)) :=
  match labels[arc.1]? with
  | some (.rule s) => insertActions (.push s arc.2) (First.get firsts s) actions
  | some _ => insertActions (.shift arc.2) [arc.1] actions
  | none => .ok actions

def labelText (labels : List Label) (i : Nat) : String := (labels[i]?.map Label.display).getD ""

def tableState (labels : List Label) (firsts : First.Sets) (s : Symbol) (state : DfaState) :
    Except GrammarError TableState :=
  match state.arcs.foldlM (addArc labels firsts) [] with
  | .ok actions => .ok ⟨state.accepting, state.arcs, actions⟩
  | .error label => .error (.ambiguous s.name (labelText labels label))

def ruleTable (labels : List Label) (firsts : First.Sets) (rule : Symbol × List DfaState) :
    Except GrammarError RuleTable := do
  let states ← rule.2.mapM (tableState labels firsts rule.1)
  pure ⟨rule.1, states, First.get firsts rule.1⟩

/-- Reads the rules one after the other into automata over one list of labels. -/
def addRule (acc : List Label × RuleDfas) (rule : Rule) :
    Except GrammarError (List Label × RuleDfas) :=
  match Symbol.ofName? rule.name with
  | none => .error (.unknownName rule.name)
  | some s =>
    if (acc.2.lookup s).isSome then .error (.duplicateRule rule.name)
    else do
      let (p, labels) ← Label.number acc.1 rule.body
      pure (labels, acc.2 ++ [(s, Dfa.ofPattern p)])

/-- Every rule that is mentioned must be there. -/
def checkRules (dfas : RuleDfas) (labels : List Label) : Except GrammarError Unit :=
  labels.forM fun l =>
    match l with
    | .rule s => if (dfas.lookup s).isSome then .ok () else .error (.missingRule s.name)
    | _ => .ok ()

def ofRules (rules : List Rule) : Except GrammarError Grammar := do
  let (labels, dfas) ← rules.foldlM addRule ([], [])
  checkRules dfas labels
  let firsts ← First.compute labels dfas
  let tables ← dfas.mapM (ruleTable labels firsts)
  pure ⟨labels, Symbol.all.filterMap fun s => tables.find? fun t => t.symbol == s⟩

def ofText (text : List Char) : Except GrammarError Grammar := do
  ofRules (← Rule.readAll text)

def rule? (g : Grammar) (s : Symbol) : Option RuleTable := g.rules.find? fun t => t.symbol == s

/-- The label that consumes a token. A word that is a keyword is nothing but that keyword. -/
def classify (g : Grammar) (kind : Kind) (text : String) : Option Nat :=
  match if kind = .word then g.labels.idxOf? (.keyword text) else none with
  | some i => some i
  | none => g.labels.idxOf? (.token kind)

/-- The kind of the one terminal that a state can consume, if there is just one. -/
def expected? (g : Grammar) (s : TableState) : Option Kind :=
  match s.actions with
  | [(label, _)] => g.labels[label]?.bind Label.kind?
  | _ => none

end Grammar
end Offside
