import Offside.Grammar.Dfa
import Offside.Grammar.Label

/-!
First sets: the terminals with which what a rule derives can begin. They are found by going down
through the rules that a rule can begin with; a rule met again on the way down is
left-recursive.
-/

namespace Offside

/-- The automata of the rules of a grammar, in the order of the rules. -/
abbrev RuleDfas := List (Symbol × List DfaState)

namespace First

/-- First sets found so far. -/
abbrev Sets := List (Symbol × List Nat)

def startArcs (dfas : RuleDfas) (s : Symbol) : List (Nat × Nat) :=
  match dfas.lookup s with
  | some (state :: _) => state.arcs
  | _ => []

def get (sets : Sets) (s : Symbol) : List Nat := (sets.lookup s).getD []

/-- How many rules are not on the way down. -/
def room (path : List Symbol) : Nat := (Symbol.all.filter (· ∉ path)).length

theorem room_cons_lt {path : List Symbol} {s : Symbol} (h : s ∉ path) :
    room (s :: path) < room path := by
  unfold room
  have hs : s ∈ Symbol.all.filter (· ∉ path) := by simp [h, Symbol.mem_all]
  have he : Symbol.all.filter (· ∉ s :: path) =
      (Symbol.all.filter (· ∉ path)).filter (· ≠ s) := by
    rw [List.filter_filter]
    congr 1
    funext x
    simp only [List.mem_cons, not_or, Bool.decide_and, decide_not]
  rw [he]
  exact List.length_filter_lt_length_iff_exists.2 ⟨s, hs, by simp⟩

/-- Adds the first set of a rule, and of the rules it needs, to those found so far. The rules
under which this one was met are `path`. -/
def add (labels : List Label) (dfas : RuleDfas) (path : List Symbol) (s : Symbol)
    (sets : Sets) : Except GrammarError Sets :=
  if h : s ∈ path then .error (.leftRecursive s.name)
  else if (sets.lookup s).isSome then .ok sets
  else do
    have : room (s :: path) < room path := room_cons_lt h
    let (sets, first) ← (startArcs dfas s).foldlM (fun (sets, first) arc =>
      match labels[arc.1]? with
      | some (.rule sub) => do
        let sets ← add labels dfas (s :: path) sub sets
        pure (sets, Ascending.union (get sets sub) first)
      | some _ => pure (sets, Ascending.insert arc.1 first)
      | none => pure (sets, first)) (sets, [])
    pure ((s, first) :: sets)
termination_by room path

/-- The first sets of all rules. -/
def compute (labels : List Label) (dfas : RuleDfas) : Except GrammarError Sets :=
  dfas.foldlM (fun sets rule => add labels dfas [] rule.1 sets) []

end First
end Offside
