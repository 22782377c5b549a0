import Offside.Tree
import Offside.Text.Quoted

/-!
The dump of a tree: a line for each node, parents before children, two spaces of indentation for
each level. A token's line ends with its position, which is what tells equal tokens apart.
-/

namespace Offside.Node

def positionText (line : Nat) : Option Nat → String
  | some c => " @" ++ toString line ++ ":" ++ toString c
  | none => " @" ++ toString line

/-- The line of a node without its indentation. -/
def heading : Node → String
  | mk (.token k) t l c _ => k.name ++ " " ++ Text.quoted (t.getD "") ++ positionText l c
  | mk (.symbol s) (some t) _ _ _ => s.name ++ " " ++ Text.quoted t
  | mk (.symbol s) none _ _ _ => s.name

def indentation (depth : Nat) : String := String.ofList (List.replicate (2 * depth) ' ')

mutual

/-- Nodes with their depths, parents before children, in front of `after`. -/
def outlineOnto (after : List (Nat × Node)) (depth : Nat) : Node → List (Nat × Node)
  | mk k t l c ns => (depth, mk k t l c ns) :: outlineOntoAll after (depth + 1) ns

def outlineOntoAll (after : List (Nat × Node)) (depth : Nat) : List Node → List (Nat × Node)
  | [] => after
  | n :: ns => outlineOnto (outlineOntoAll after depth ns) depth n

end

/-- Nodes with their depths, parents before children. The root has depth zero. -/
def outline (n : Node) : List (Nat × Node) := outlineOnto [] 0 n

def dump (n : Node) : String :=
  String.join (n.outline.map fun (depth, m) => indentation depth ++ m.heading ++ "\n")

end Offside.Node
