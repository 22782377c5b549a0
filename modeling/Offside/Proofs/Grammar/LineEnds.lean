import Offside.Proofs.Tree.Derivation

/-!
Grammars of lines. A rule may end with a newline or not, and where it has just come to the end of
a line, no other newline belongs to it; newlines between the lines, and the end marker, belong to
the root alone. What is checked of the tables here is all that the end of a text rests on.
-/

namespace Offside.Grammar

/-- Whether what a label stands for may end with a newline, if these rules may. -/
def endsLine (g : Grammar) (ends : List Symbol) (a : Nat) : Bool :=
  match g.labels[a]? with
  | some (.token k) => k == .newline
  | some (.rule s) => ends.contains s
  | _ => false

/-- Whether the end marker completes a rule from a state. -/
def closable (g : Grammar) (t : RuleTable) (s : TableState) : Bool :=
  match (g.labels.idxOf? (.token .endMarker)).bind s.action? with
  | some (.shift next) => ((t.states[next]?).map TableState.isFinal).getD false
  | _ => false

/-- Whether the rules that may end with a newline are among these. -/
structure LineEnds (g : Grammar) (root : Symbol) (ends : List Symbol) : Prop where
  root_outermost : Label.rule root ∉ g.labels
  /-- the rules are closed under ending with what may end with a newline -/
  closed : ∀ t ∈ g.rules, .rule t.symbol ∈ g.labels → ∀ s ∈ t.states, ∀ arc ∈ s.arcs,
    g.endsLine ends arc.1 = true → ∀ s' ∈ t.states[arc.2]?, s'.accepting = true → t.symbol ∈ ends
  /-- inside a rule no newline follows the end of a line -/
  not_newline : ∀ t ∈ g.rules, .rule t.symbol ∈ g.labels → ∀ s ∈ t.states, ∀ arc ∈ s.arcs,
    g.endsLine ends arc.1 = true → ∀ s' ∈ t.states[arc.2]?,
      ∀ l ∈ g.labels.idxOf? (.token .newline), s'.action? l = none
  /-- inside a rule there is no end marker -/
  not_endMarker : ∀ t ∈ g.rules, .rule t.symbol ∈ g.labels → ∀ s ∈ t.states,
    ∀ l ∈ g.labels.idxOf? (.token .endMarker), s.action? l = none
  /-- the end marker completes the root wherever it can be read -/
  root_over : ∀ t ∈ g.rule? root, ∀ s ∈ t.states, ∀ l ∈ g.labels.idxOf? (.token .endMarker),
    s.action? l ≠ none → g.closable t s = true
  /-- the root may end at once -/
  root_start : ∀ t ∈ g.rule? root, t.states[0]?.any (g.closable t) = true
  /-- the root may end after every line -/
  root_closable : ∀ t ∈ g.rule? root, ∀ s ∈ t.states, ∀ arc ∈ s.arcs,
    g.endsLine ends arc.1 = true → ∀ s' ∈ t.states[arc.2]?, g.closable t s' = true

instance (g : Grammar) (root : Symbol) (ends : List Symbol) : Decidable (g.LineEnds root ends) :=
  decidable_of_iff
    (Label.rule root ∉ g.labels ∧
      (∀ t ∈ g.rules, .rule t.symbol ∈ g.labels → ∀ s ∈ t.states, ∀ arc ∈ s.arcs,
        g.endsLine ends arc.1 = true → ∀ s' ∈ t.states[arc.2]?,
          s'.accepting = true → t.symbol ∈ ends) ∧
      (∀ t ∈ g.rules, .rule t.symbol ∈ g.labels → ∀ s ∈ t.states, ∀ arc ∈ s.arcs,
        g.endsLine ends arc.1 = true → ∀ s' ∈ t.states[arc.2]?,
          ∀ l ∈ g.labels.idxOf? (.token .newline), s'.action? l = none) ∧
      (∀ t ∈ g.rules, .rule t.symbol ∈ g.labels → ∀ s ∈ t.states,
        ∀ l ∈ g.labels.idxOf? (.token .endMarker), s.action? l = none) ∧
      (∀ t ∈ g.rule? root, ∀ s ∈ t.states, ∀ l ∈ g.labels.idxOf? (.token .endMarker),
        s.action? l ≠ none → g.closable t s = true) ∧
      (∀ t ∈ g.rule? root, t.states[0]?.any (g.closable t) = true) ∧
      ∀ t ∈ g.rule? root, ∀ s ∈ t.states, ∀ arc ∈ s.arcs,
        g.endsLine ends arc.1 = true → ∀ s' ∈ t.states[arc.2]?, g.closable t s' = true)
    ⟨fun ⟨h₁, h₂, h₃, h₄, h₅, h₆, h₇⟩ => ⟨h₁, h₂, h₃, h₄, h₅, h₆, h₇⟩,
      fun ⟨h₁, h₂, h₃, h₄, h₅, h₆, h₇⟩ => ⟨h₁, h₂, h₃, h₄, h₅, h₆, h₇⟩⟩

/-- Whether the end marker belongs to the root alone, and completes it. -/
structure EndMarked (g : Grammar) (root : Symbol) : Prop where
  not_endMarker : ∀ t ∈ g.rules, .rule t.symbol ∈ g.labels → ∀ s ∈ t.states,
    ∀ l ∈ g.labels.idxOf? (.token .endMarker), s.action? l = none
  root_over : ∀ t ∈ g.rule? root, ∀ s ∈ t.states, ∀ l ∈ g.labels.idxOf? (.token .endMarker),
    s.action? l ≠ none → g.closable t s = true

instance (g : Grammar) (root : Symbol) : Decidable (g.EndMarked root) :=
  decidable_of_iff
    ((∀ t ∈ g.rules, .rule t.symbol ∈ g.labels → ∀ s ∈ t.states,
        ∀ l ∈ g.labels.idxOf? (.token .endMarker), s.action? l = none) ∧
      ∀ t ∈ g.rule? root, ∀ s ∈ t.states, ∀ l ∈ g.labels.idxOf? (.token .endMarker),
        s.action? l ≠ none → g.closable t s = true)
    ⟨fun ⟨h₁, h₂⟩ => ⟨h₁, h₂⟩, fun ⟨h₁, h₂⟩ => ⟨h₁, h₂⟩⟩

theorem LineEnds.endMarked {g : Grammar} {root : Symbol} {ends : List Symbol}
    (h : g.LineEnds root ends) : g.EndMarked root := ⟨h.not_endMarker, h.root_over⟩

/-- Whether nothing but the end marker completes a rule. -/
def ClosedByMarker (g : Grammar) (root : Symbol) : Prop :=
  ∀ t ∈ g.rule? root, ∀ s ∈ t.states, ∀ arc ∈ s.arcs, ∀ s' ∈ t.states[arc.2]?,
    s'.accepting = true → g.labels[arc.1]? = some (.token .endMarker)

instance (g : Grammar) (root : Symbol) : Decidable (g.ClosedByMarker root) :=
  inferInstanceAs (Decidable (∀ t ∈ g.rule? root, ∀ s ∈ t.states, ∀ arc ∈ s.arcs,
    ∀ s' ∈ t.states[arc.2]?, s'.accepting = true → g.labels[arc.1]? = some (.token .endMarker)))

end Offside.Grammar
