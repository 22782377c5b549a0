import Offside.Tree

/-!
The shape of a tree: how deep its rules are nested, what is left of it when the places of its
rules are forgotten, and which tokens it holds and how they are spelled.
-/

namespace Offside

def Token.spelling (t : Token) : Kind × String := (t.kind, t.text)

/-- Leaves out what only ends lines. -/
def dropNewlines (spellings : List (Kind × String)) : List (Kind × String) :=
  spellings.filter fun s => s.1 ≠ .newline

theorem dropNewlines_append (as bs : List (Kind × String)) :
    dropNewlines (as ++ bs) = dropNewlines as ++ dropNewlines bs :=
  List.filter_append as bs

namespace Node

mutual

/-- How many rules a path from the root down can pass. -/
def nesting : Node → Nat
  | mk (.token _) _ _ _ _ => 0
  | mk (.symbol _) _ _ _ ns => nestingAll ns + 1

def nestingAll : List Node → Nat
  | [] => 0
  | n :: ns => max (nesting n) (nestingAll ns)

end

mutual

/-- The tree without the places of its rules. -/
def unplaced : Node → Node
  | mk (.token k) t l c ns => mk (.token k) t l c ns
  | mk (.symbol s) t _ _ ns => mk (.symbol s) t 0 none (unplacedAll ns)

def unplacedAll : List Node → List Node
  | [] => []
  | n :: ns => unplaced n :: unplacedAll ns

end

mutual

/-- All tokens of a tree from left to right, those below a token too. -/
def everyToken : Node → List Token
  | mk (.token k) t l c ns => ⟨k, t.getD "", l, c⟩ :: everyTokenAll ns
  | mk (.symbol _) _ _ _ ns => everyTokenAll ns

def everyTokenAll : List Node → List Token
  | [] => []
  | n :: ns => everyToken n ++ everyTokenAll ns

end

/-- Kinds and texts of all tokens of a tree. -/
def spellings (n : Node) : List (Kind × String) := n.everyToken.map Token.spelling

theorem everyTokenAll_eq (ns : List Node) : everyTokenAll ns = ns.flatMap everyToken := by
  induction ns with
  | nil => rfl
  | cons n ns ih => rw [everyTokenAll, ih, List.flatMap_cons]

@[simp] theorem everyToken_leaf (t : Token) : (leaf t).everyToken = [t] := rfl

@[simp] theorem everyToken_branch (s : Symbol) (line : Nat) (column? : Option Nat)
    (ns : List Node) : (branch s line column? ns).everyToken = ns.flatMap everyToken := by
  rw [branch, everyToken, everyTokenAll_eq]

@[simp] theorem kind_withChildren (n : Node) (ns : List Node) :
    (n.withChildren ns).kind = n.kind := by
  cases n
  rfl

@[simp] theorem children_withChildren (n : Node) (ns : List Node) :
    (n.withChildren ns).children = ns := by
  cases n
  rfl

theorem withChildren_children (n : Node) : n.withChildren n.children = n := by
  cases n
  rfl

theorem everyToken_withChildren {n : Node} {s : Symbol} (h : n.kind = .symbol s) (ns : List Node) :
    (n.withChildren ns).everyToken = ns.flatMap everyToken := by
  obtain ⟨k, t, l, c, ns'⟩ := n
  obtain rfl : k = .symbol s := h
  rw [withChildren, everyToken, everyTokenAll_eq]

theorem everyToken_leaf_withChildren (t : Token) (ns : List Node) :
    ((leaf t).withChildren ns).everyToken = t :: ns.flatMap everyToken := by
  rw [leaf, withChildren, everyToken, everyTokenAll_eq]
  rfl

@[simp] theorem nesting_branch (s : Symbol) (line : Nat) (column? : Option Nat) (ns : List Node) :
    (branch s line column? ns).nesting = nestingAll ns + 1 := by
  rw [branch, nesting]

@[simp] theorem unplaced_branch (s : Symbol) (line : Nat) (column? : Option Nat)
    (ns : List Node) : (branch s line column? ns).unplaced = branch s 0 none (ns.map unplaced) := by
  have hall : ∀ ns : List Node, unplacedAll ns = ns.map unplaced := by
    intro ns
    induction ns with
    | nil => rfl
    | cons n ns ih => rw [unplacedAll, ih, List.map_cons]
  rw [branch, unplaced, hall, branch]

end Node
end Offside
