import Offside.Proofs.Grammar.Lawful
import Offside.Tree

/-!
Derivation trees of a grammar. A node is labelled by what an arc must carry to consume it, and in
a derivation tree the labels of the children of a rule are accepted by the automaton of the rule.
-/

namespace Offside

namespace Grammar

/-- The label that consumes a node. -/
def labelOf? (g : Grammar) (n : Node) : Option Nat :=
  match n.kind with
  | .token k => g.classify k (n.text?.getD "")
  | .symbol s => g.labels.idxOf? (.rule s)

@[simp] theorem labelOf?_leaf (g : Grammar) (t : Token) :
    g.labelOf? (.leaf t) = g.classify t.kind t.text := rfl

@[simp] theorem labelOf?_branch (g : Grammar) (s : Symbol) (line : Nat) (column? : Option Nat)
    (children : List Node) :
    g.labelOf? (.branch s line column? children) = g.labels.idxOf? (.rule s) := rfl

/-- The nodes are consumed by these labels. -/
def Labelled (g : Grammar) (ns : List Node) (labels : List Nat) : Prop :=
  ns.map g.labelOf? = labels.map some

instance (g : Grammar) (ns : List Node) (labels : List Nat) : Decidable (g.Labelled ns labels) :=
  inferInstanceAs (Decidable (_ = _))

theorem labelled_nil {g : Grammar} : g.Labelled [] [] := rfl

theorem Labelled.append {g : Grammar} {ns ns' : List Node} {labels labels' : List Nat}
    (h : g.Labelled ns labels) (h' : g.Labelled ns' labels') :
    g.Labelled (ns ++ ns') (labels ++ labels') := by
  unfold Labelled at *
  rw [List.map_append, List.map_append, h, h']

theorem labelled_singleton {g : Grammar} {n : Node} {l : Nat} (h : g.labelOf? n = some l) :
    g.Labelled [n] [l] := by
  unfold Labelled
  rw [List.map_singleton, List.map_singleton, h]

/-- A tree that follows the rules of a grammar. -/
inductive Derivation (g : Grammar) : Node → Prop
  | leaf {t : Token} (h : (g.classify t.kind t.text).isSome) : Derivation g (.leaf t)
  | branch {s : Symbol} {line : Nat} {column? : Option Nat} {children : List Node}
      {t : RuleTable} {labels : List Nat} (hrule : g.rule? s = some t)
      (hlabels : g.Labelled children labels) (haccepts : Dfa.accepts t.dfa labels = true)
      (hchildren : ∀ n ∈ children, Derivation g n) :
      Derivation g (.branch s line column? children)

theorem idxOf?_eq_some_of_nodup {labels : List Label} (h : labels.Nodup) {i : Nat} {l : Label}
    (hi : labels[i]? = some l) : labels.idxOf? l = some i := by
  obtain ⟨hlt, heq⟩ := List.getElem?_eq_some_iff.1 hi
  refine List.idxOf?_eq_some_iff.2 ⟨hlt, heq, fun j hj hne => ?_⟩
  have := (List.Nodup.getElem_inj_iff h).1 (hne.trans heq.symm)
  omega

theorem getElem?_of_idxOf? {labels : List Label} {i : Nat} {l : Label}
    (h : labels.idxOf? l = some i) : labels[i]? = some l := by
  obtain ⟨hlt, heq, _⟩ := List.idxOf?_eq_some_iff.1 h
  rw [List.getElem?_eq_getElem hlt, heq]

/-- A token of a tree that is no word is one that the rules name by its kind. -/
theorem Derivation.mem_labels {g : Grammar} {n : Node} (h : g.Derivation n) {t : Token}
    (ht : t ∈ n.tokens) (hword : t.kind ≠ .word) : .token t.kind ∈ g.labels := by
  induction h with
  | @leaf u hleaf =>
    rw [Node.tokens_leaf, List.mem_singleton] at ht
    subst ht
    obtain ⟨l, hl⟩ := Option.isSome_iff_exists.1 hleaf
    rw [classify, if_neg hword] at hl
    exact List.mem_of_getElem? (getElem?_of_idxOf? hl)
  | branch _ _ _ _ ih =>
    rw [Node.tokens_branch] at ht
    obtain ⟨n, hn, ht⟩ := List.mem_flatMap.1 ht
    exact ih n hn ht

end Grammar

namespace Node

/-- Every rule stands where its first token stands. -/
inductive Anchored : Node → Prop
  | leaf (t : Token) : Anchored (.leaf t)
  | branch {s : Symbol} {t : Token} {ts : List Token} {children : List Node}
      (hfirst : children.flatMap Node.tokens = t :: ts) (hchildren : ∀ n ∈ children, Anchored n) :
      Anchored (.branch s t.line t.column? children)

theorem Anchored.of_mem {s : Symbol} {line : Nat} {column? : Option Nat} {children : List Node}
    (h : Anchored (.branch s line column? children)) : ∀ n ∈ children, Anchored n := by
  cases h with
  | branch _ hchildren => exact hchildren

theorem Anchored.children_ne_nil {s : Symbol} {line : Nat} {column? : Option Nat}
    {children : List Node} (h : Anchored (.branch s line column? children)) : children ≠ [] := by
  rintro rfl
  cases h with
  | branch hfirst _ => simp at hfirst

end Node
end Offside
