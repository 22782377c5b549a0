import Offside.Token
import Offside.Symbol

/-!
Concrete trees. A node is a token or a symbol with the nodes it was read as, in reading order.
Besides the tokens of the input a tree may hold a node that names its encoding, which is the one
symbol that carries a text, and the pragmas, which hang below the token that ends a module.
-/

namespace Offside

inductive NodeKind
  | token (kind : Kind)
  | symbol (symbol : Symbol)
  deriving DecidableEq, Inhabited

/-- One numbering for both: see `Symbol.firstNumber`. -/
def NodeKind.number : NodeKind → Nat
  | .token k => k.number
  | .symbol s => s.number

inductive Node
  | mk (kind : NodeKind) (text? : Option String) (line : Nat) (column? : Option Nat)
      (children : List Node)
  deriving Inhabited

namespace Node

def kind : Node → NodeKind
  | mk k _ _ _ _ => k

def text? : Node → Option String
  | mk _ t _ _ _ => t

def line : Node → Nat
  | mk _ _ l _ _ => l

def column? : Node → Option Nat
  | mk _ _ _ c _ => c

def children : Node → List Node
  | mk _ _ _ _ ns => ns

def leaf (t : Token) : Node := mk (.token t.kind) (some t.text) t.line t.column? []

def branch (s : Symbol) (line : Nat) (column? : Option Nat) (children : List Node) : Node :=
  mk (.symbol s) none line column? children

def isSymbol (s : Symbol) (n : Node) : Bool := n.kind == .symbol s

def isToken (k : Kind) (n : Node) : Bool := n.kind == .token k

def symbol? (n : Node) : Option Symbol :=
  match n.kind with
  | .symbol s => some s
  | .token _ => none

theorem symbol?_eq_some_iff {n : Node} {s : Symbol} : n.symbol? = some s ↔ n.kind = .symbol s := by
  unfold symbol?
  cases n.kind <;> simp

theorem isSymbol_iff {n : Node} {s : Symbol} : n.isSymbol s = true ↔ n.symbol? = some s := by
  rw [isSymbol, beq_iff_eq, symbol?_eq_some_iff]

def token? (n : Node) : Option Kind :=
  match n.kind with
  | .token k => some k
  | .symbol _ => none

def child? (n : Node) (i : Nat) : Option Node := n.children[i]?

def lastChild? (n : Node) : Option Node := n.children.getLast?

def withText (t : Option String) : Node → Node
  | mk k _ l c ns => mk k t l c ns

def withChildren (ns : List Node) : Node → Node
  | mk k t l c _ => mk k t l c ns

/-- Adds a node after the last child. -/
def push (n child : Node) : Node := n.withChildren (n.children ++ [child])

mutual

/-- Nodes of a tree, the root among them. -/
def count : Node → Nat
  | mk _ _ _ _ ns => 1 + countAll ns

def countAll : List Node → Nat
  | [] => 0
  | n :: ns => count n + countAll ns

end

mutual

/-- Tokens of a tree from left to right, in front of `after`. A token below a token is left
out. -/
def tokensOnto (after : List Token) : Node → List Token
  | mk (.token k) t l c _ => ⟨k, t.getD "", l, c⟩ :: after
  | mk (.symbol _) _ _ _ ns => tokensOntoAll after ns

def tokensOntoAll (after : List Token) : List Node → List Token
  | [] => after
  | n :: ns => tokensOnto (tokensOntoAll after ns) n

end

def tokens (n : Node) : List Token := tokensOnto [] n

mutual

theorem tokensOnto_eq (after : List Token) : ∀ n : Node, tokensOnto after n = n.tokens ++ after
  | mk (.token _) _ _ _ _ => rfl
  | mk (.symbol _) _ _ _ ns => by
    simp only [tokens, tokensOnto]
    rw [tokensOntoAll_eq after ns, tokensOntoAll_eq [] ns, List.append_nil]

theorem tokensOntoAll_eq (after : List Token) :
    ∀ ns : List Node, tokensOntoAll after ns = ns.flatMap tokens ++ after
  | [] => rfl
  | n :: ns => by
    rw [tokensOntoAll, tokensOnto_eq, tokensOntoAll_eq after ns, List.flatMap_cons,
      List.append_assoc]

end

@[simp] theorem tokens_leaf (t : Token) : (leaf t).tokens = [t] := rfl

@[simp] theorem tokens_branch (s : Symbol) (line : Nat) (column? : Option Nat)
    (children : List Node) : (branch s line column? children).tokens = children.flatMap tokens := by
  rw [tokens, branch, tokensOnto, tokensOntoAll_eq, List.append_nil]

mutual

def equal : Node → Node → Bool
  | mk k t l c ns, mk k' t' l' c' ns' =>
    k == k' && t == t' && l == l' && c == c' && equalAll ns ns'

def equalAll : List Node → List Node → Bool
  | [], [] => true
  | n :: ns, n' :: ns' => equal n n' && equalAll ns ns'
  | _, _ => false

end

mutual

theorem equal_iff : ∀ a b : Node, equal a b = true ↔ a = b
  | mk k t l c ns, mk k' t' l' c' ns' => by
    simp [equal, equalAll_iff ns ns', and_assoc]

theorem equalAll_iff : ∀ as bs : List Node, equalAll as bs = true ↔ as = bs
  | [], [] => by simp [equalAll]
  | [], _ :: _ => by simp [equalAll]
  | _ :: _, [] => by simp [equalAll]
  | a :: as, b :: bs => by simp [equalAll, equal_iff a b, equalAll_iff as bs]

end

instance : DecidableEq Node := fun a b => decidable_of_iff _ (equal_iff a b)

end Node
end Offside
