import Offside.Grammar.Dfa

/-!
Runs of a deterministic automaton. A run reads labels one after the other and gives the state that
they lead to; a word is accepted if there is such a state and it accepts.
-/

namespace Offside.Dfa

/-- The state after one label. -/
def next? (states : List DfaState) (q a : Nat) : Option Nat :=
  states[q]?.bind fun s => s.arcs.lookup a

/-- The state after several labels. -/
def run (states : List DfaState) (q : Nat) : List Nat → Option Nat
  | [] => some q
  | a :: w => (next? states q a).bind fun r => run states r w

def isAccepting (states : List DfaState) (q : Nat) : Bool :=
  (states[q]?.map DfaState.accepting).getD false

def acceptsFrom (states : List DfaState) (q : Nat) (w : List Nat) : Bool :=
  ((run states q w).map (isAccepting states)).getD false

/-- Whether a word is read from the first state to a state that accepts. -/
def accepts (states : List DfaState) (w : List Nat) : Bool := acceptsFrom states 0 w

variable {states : List DfaState} {q r a : Nat} {w v : List Nat}

@[simp] theorem run_nil : run states q [] = some q := rfl

theorem run_cons : run states q (a :: w) = (next? states q a).bind fun r => run states r w := rfl

theorem run_append : run states q (w ++ v) = (run states q w).bind fun r => run states r v := by
  induction w generalizing q with
  | nil => rfl
  | cons a w ih =>
    rw [List.cons_append, run_cons, run_cons, Option.bind_assoc]
    exact Option.bind_congr fun r _ => ih

theorem run_concat : run states q (w ++ [a]) = (run states q w).bind fun r => next? states r a := by
  rw [run_append]
  refine Option.bind_congr fun r _ => ?_
  rw [run_cons]
  exact Option.bind_fun_some _

theorem acceptsFrom_nil : acceptsFrom states q [] = isAccepting states q := rfl

theorem acceptsFrom_cons :
    acceptsFrom states q (a :: w) =
      ((next? states q a).map (acceptsFrom states · w)).getD false := by
  unfold acceptsFrom
  rw [run_cons]
  cases next? states q a with
  | none => rfl
  | some r => rfl

theorem acceptsFrom_iff :
    acceptsFrom states q w = true ↔ ∃ r, run states q w = some r ∧ isAccepting states r = true := by
  unfold acceptsFrom
  cases run states q w with
  | none => simp
  | some r => simp

end Offside.Dfa
