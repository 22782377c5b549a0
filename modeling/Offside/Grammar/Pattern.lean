/-!
Patterns: the right-hand sides of rules, over any alphabet of leaves.
-/

namespace Offside

inductive Pattern (α : Type)
  | leaf (a : α)
  /-- one of several -/
  | alt (ps : List (Pattern α))
  /-- all of several, one after the other -/
  | seq (ps : List (Pattern α))
  | opt (p : Pattern α)
  /-- any number of times, none among them -/
  | star (p : Pattern α)
  /-- at least once -/
  | plus (p : Pattern α)
  deriving Inhabited

namespace Pattern

mutual

/-- The leaves from left to right. -/
def leaves {α : Type} : Pattern α → List α
  | leaf a => [a]
  | alt ps => leavesAll ps
  | seq ps => leavesAll ps
  | opt p => leaves p
  | star p => leaves p
  | plus p => leaves p

def leavesAll {α : Type} : List (Pattern α) → List α
  | [] => []
  | p :: ps => leaves p ++ leavesAll ps

end

mutual

def map {α β : Type} (f : α → β) : Pattern α → Pattern β
  | leaf a => leaf (f a)
  | alt ps => alt (mapAll f ps)
  | seq ps => seq (mapAll f ps)
  | opt p => opt (map f p)
  | star p => star (map f p)
  | plus p => plus (map f p)

def mapAll {α β : Type} (f : α → β) : List (Pattern α) → List (Pattern β)
  | [] => []
  | p :: ps => map f p :: mapAll f ps

end

/-- Several patterns in a row. A single one stands for itself. -/
def ofRow {α : Type} : List (Pattern α) → Pattern α
  | [p] => p
  | ps => seq ps

/-- A choice of patterns. A single one stands for itself. -/
def ofChoice {α : Type} : List (Pattern α) → Pattern α
  | [p] => p
  | ps => alt ps

end Pattern
end Offside
