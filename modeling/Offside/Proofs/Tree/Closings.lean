import Offside.Proofs.Tree.Derivation

/-!
The nodes of a tree in the order in which they end: children before their parent, and left before
right. What comes before a leaf in this order has ended before the leaf was read.
-/

namespace Offside

namespace Node

mutual

/-- All nodes of a tree in the order in which they end, the root last. -/
def closings : Node → List Node
  | mk k t l c ns => closingsAll ns ++ [mk k t l c ns]

def closingsAll : List Node → List Node
  | [] => []
  | n :: ns => closings n ++ closingsAll ns

end

theorem closingsAll_eq (ns : List Node) : closingsAll ns = ns.flatMap closings := by
  induction ns with
  | nil => rfl
  | cons n ns ih => rw [closingsAll, ih, List.flatMap_cons]

theorem closings_eq (n : Node) : n.closings = n.children.flatMap closings ++ [n] := by
  cases n
  rw [closings, closingsAll_eq]
  rfl

@[simp] theorem closings_leaf (t : Token) : (leaf t).closings = [leaf t] := closings_eq _

@[simp] theorem closings_branch (s : Symbol) (line : Nat) (column? : Option Nat) (ns : List Node) :
    (branch s line column? ns).closings = ns.flatMap closings ++ [branch s line column? ns] :=
  closings_eq _

end Node

/-- All nodes of a derivation tree are derivation trees. -/
theorem Grammar.Derivation.of_mem_closings {g : Grammar} {n m : Node} (h : g.Derivation n)
    (hm : m ∈ n.closings) : g.Derivation m := by
  induction h with
  | @leaf t ht =>
    rw [Node.closings_leaf, List.mem_singleton] at hm
    exact hm ▸ .leaf ht
  | branch hrule hlabels haccepts hchildren ih =>
    rw [Node.closings_branch, List.mem_append, List.mem_singleton] at hm
    rcases hm with hm | rfl
    · obtain ⟨c, hc, hm⟩ := List.mem_flatMap.1 hm
      exact ih c hc hm
    · exact .branch hrule hlabels haccepts hchildren

end Offside
