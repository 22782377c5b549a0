import Offside.Grammar.Pattern
import Offside.Grammar.Ascending

/-!
Nondeterministic automata of patterns. A choice and a row get states of their own to start from;
the repetitions and the option only add a silent arc between the ends of what they repeat.
-/

namespace Offside

/-- An arc without a label is silent: it consumes nothing. -/
structure SilentArc where
  source : Nat
  label? : Option Nat
  target : Nat
  deriving DecidableEq, Inhabited

structure Nfa where
  start : Nat
  stop : Nat
  arcs : List SilentArc
  deriving DecidableEq, Inhabited

namespace Nfa

/-- Adds silent arcs. -/
def join (pairs : List (Nat × Nat)) (arcs : List SilentArc) : List SilentArc :=
  pairs.map (fun p => ⟨p.1, none, p.2⟩) ++ arcs

mutual

/-- The automaton of a pattern, with states numbered from `fresh` on, and the first number that
it does not use. -/
def build (fresh : Nat) : Pattern Nat → Nfa × Nat
  | .leaf a => (⟨fresh, fresh + 1, [⟨fresh, some a, fresh + 1⟩]⟩, fresh + 2)
  | .alt ps =>
    let (arcs, next) := buildChoice fresh (fresh + 1) (fresh + 2) ps
    (⟨fresh, fresh + 1, arcs⟩, next)
  | .seq ps =>
    let (arcs, stop, next) := buildRow fresh (fresh + 1) ps
    (⟨fresh, stop, arcs⟩, next)
  | .opt p =>
    let (m, next) := build fresh p
    (⟨m.start, m.stop, join [(m.start, m.stop)] m.arcs⟩, next)
  | .plus p =>
    let (m, next) := build fresh p
    (⟨m.start, m.stop, join [(m.stop, m.start)] m.arcs⟩, next)
  | .star p =>
    let (m, next) := build fresh p
    (⟨m.start, m.start, join [(m.stop, m.start)] m.arcs⟩, next)

/-- Automata side by side between two states. -/
def buildChoice (start stop fresh : Nat) : List (Pattern Nat) → List SilentArc × Nat
  | [] => ([], fresh)
  | p :: ps =>
    let (m, next) := build fresh p
    let (arcs, next) := buildChoice start stop next ps
    (join [(start, m.start), (m.stop, stop)] m.arcs ++ arcs, next)

/-- Automata one behind the other, and the state in which the last one stops. -/
def buildRow (start fresh : Nat) : List (Pattern Nat) → List SilentArc × Nat × Nat
  | [] => ([], start, fresh)
  | p :: ps =>
    let (m, next) := build fresh p
    let (arcs, stop, next) := buildRow m.stop next ps
    (join [(start, m.start)] m.arcs ++ arcs, stop, next)

end

def ofPattern (p : Pattern Nat) : Nfa := (build 0 p).1

/-- States that a silent arc leads to from a state. -/
def silentTargets (m : Nfa) (q : Nat) : List Nat :=
  m.arcs.filterMap fun a => if a.source = q ∧ a.label? = none then some a.target else none

/-- Adds the states in `work`, and all that silent arcs lead to from there, to `seen`. -/
def reach (m : Nfa) : Nat → List Nat → List Nat → List Nat
  | 0, _, seen => seen
  | _ + 1, [], seen => seen
  | fuel + 1, q :: work, seen =>
    if q ∈ seen then reach m fuel work seen
    else reach m fuel (m.silentTargets q ++ work) (q :: seen)

/-- The states reached from some states by silent arcs. Each arc is followed once, so there are
no more states to look at than arcs and states to begin with. -/
def closure (m : Nfa) (qs : List Nat) : List Nat :=
  Ascending.ofList (m.reach (m.arcs.length + qs.length + 1) qs [])

/-- The labels on which some states can be left. -/
def labelsFrom (m : Nfa) (qs : List Nat) : List Nat :=
  Ascending.ofList (m.arcs.filterMap fun a => if a.source ∈ qs then a.label? else none)

/-- The states reached from some states by one label and then silently. -/
def move (m : Nfa) (qs : List Nat) (label : Nat) : List Nat :=
  m.closure (m.arcs.filterMap fun a =>
    if a.source ∈ qs ∧ a.label? = some label then some a.target else none)

end Nfa
end Offside
