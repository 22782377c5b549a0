import Offside.Grammar.Nfa

/-!
Deterministic automata of patterns. A state stands for a set of states of the nondeterministic
automaton; the sets are numbered in the order in which a search by rising labels meets them.
States that accept alike and have the same arcs are then made one.
-/

namespace Offside

/-- A state, with its arcs by rising labels. -/
structure DfaState where
  accepting : Bool
  arcs : List (Nat × Nat)
  deriving DecidableEq, Inhabited

namespace Dfa

/-- Numbers the targets of a set, labels in order, and adds the sets that are new to `known`. -/
def arcsOf (m : Nfa) (qs : List Nat) :
    List Nat → List (List Nat) → List (Nat × Nat) × List (List Nat)
  | [], known => ([], known)
  | label :: labels, known =>
    let target := m.move qs label
    match known.idxOf? target with
    | some i =>
      let (arcs, known) := arcsOf m qs labels known
      ((label, i) :: arcs, known)
    | none =>
      let (arcs, known') := arcsOf m qs labels (known ++ [target])
      ((label, known.length) :: arcs, known')

/-- Gives each known set from number `i` on its state. -/
def explore (m : Nfa) : Nat → Nat → List (List Nat) → List DfaState
  | 0, _, _ => []
  | fuel + 1, i, known =>
    match known[i]? with
    | none => []
    | some qs =>
      let (arcs, known) := arcsOf m qs (m.labelsFrom qs) known
      ⟨qs.contains m.stop, arcs⟩ :: explore m fuel (i + 1) known

/-- All states of an automaton, by number. -/
def stateCount (m : Nfa) : Nat := (m.arcs.map fun a => max a.source a.target).foldl max 0 + 1

/-- The states that can be reached, the start first. There are no more sets than `2 ^ n`. -/
def ofNfa (m : Nfa) : List DfaState :=
  explore m (1 <<< stateCount m) 0 [m.closure [m.start]]

/-- The first number from `i` on of a state equal to `s`. -/
def twin? (s : DfaState) (i : Nat) : List DfaState → Option Nat
  | [] => none
  | t :: ts => if s = t then some i else twin? s (i + 1) ts

/-- The first two equal states, numbered from `i` on. -/
def twins? (i : Nat) : List DfaState → Option (Nat × Nat)
  | [] => none
  | s :: ss =>
    match twin? s (i + 1) ss with
    | some j => some (i, j)
    | none => twins? (i + 1) ss

/-- The number of a state after state `j` has been made one with state `i`. -/
def renumber (i j target : Nat) : Nat :=
  if target = j then i else if j < target then target - 1 else target

/-- Makes state `j` one with state `i`. -/
def merge (i j : Nat) (states : List DfaState) : List DfaState :=
  (states.eraseIdx j).map fun s =>
    { s with arcs := s.arcs.map fun a => (a.1, renumber i j a.2) }

theorem twin?_lt {s : DfaState} {i j : Nat} {states : List DfaState}
    (h : twin? s i states = some j) : i ≤ j ∧ j < i + states.length := by
  induction states generalizing i with
  | nil => simp [twin?] at h
  | cons t ts ih =>
    unfold twin? at h
    split at h
    · simp only [Option.some.injEq] at h; simp only [List.length_cons]; omega
    · have := ih h; simp only [List.length_cons]; omega

theorem twins?_lt {k i j : Nat} {states : List DfaState} (h : twins? k states = some (i, j)) :
    k ≤ i ∧ i < j ∧ j < k + states.length := by
  induction states generalizing k with
  | nil => simp [twins?] at h
  | cons s ss ih =>
    unfold twins? at h
    split at h
    · next hj =>
      have := twin?_lt hj
      simp only [Option.some.injEq, Prod.mk.injEq] at h
      simp only [List.length_cons]; omega
    · have := ih h; simp only [List.length_cons]; omega

theorem length_merge_lt {i j : Nat} {states : List DfaState}
    (h : twins? 0 states = some (i, j)) : (merge i j states).length < states.length := by
  have := twins?_lt h
  simp only [merge, List.length_map, List.length_eraseIdx]
  split <;> omega

/-- Makes equal states one until no two are left. -/
def simplify (states : List DfaState) : List DfaState :=
  match h : twins? 0 states with
  | none => states
  | some (i, j) =>
    have : (merge i j states).length < states.length := length_merge_lt h
    simplify (merge i j states)
termination_by states.length

def ofPattern (p : Pattern Nat) : List DfaState := simplify (ofNfa (Nfa.ofPattern p))

end Dfa
end Offside
