import Offside.Proofs.Tree.Derivation
import Offside.Pushdown

/-!
The stack of a pushdown automaton. What each rule in progress has read leads its automaton to its
state; all but the innermost one have already read the rule inside them as well.
-/

namespace Offside

open Grammar

namespace Frame

/-- The tokens that a rule in progress has read itself. -/
def tokens (f : Frame) : List Token := f.children.reverse.flatMap Node.tokens

/-- The children, and then some labels that have no node yet, lead to the state. -/
structure Reads (g : Grammar) (f : Frame) (pending : List Nat) : Prop where
  rule : g.rule? f.table.symbol = some f.table
  state : ∃ labels, g.Labelled f.children.reverse labels ∧
    Dfa.run f.table.dfa 0 (labels ++ pending) = some f.state
  derivation : ∀ n ∈ f.children, g.Derivation n
  anchored : ∀ n ∈ f.children, n.Anchored

@[simp] theorem tokens_goto (f : Frame) (next : Nat) : (f.goto next).tokens = f.tokens := rfl

@[simp] theorem tokens_adopt (f : Frame) (n : Node) :
    (f.adopt n).tokens = f.tokens ++ n.tokens := by
  simp only [tokens, adopt, List.reverse_cons, List.flatMap_append, List.flatMap_singleton]

@[simp] theorem tokens_node (f : Frame) : f.node.tokens = f.tokens := by
  rw [node, Node.tokens_branch, tokens]

theorem dfa_getElem? {f : Frame} {s : TableState} (hs : f.tableState? = some s) :
    f.table.dfa[f.state]? = some s.toDfaState := by
  unfold tableState? at hs
  rw [RuleTable.dfa, List.getElem?_map, hs, Option.map_some]

theorem next?_dfa {g : Grammar} (hg : g.Lawful) {f : Frame}
    (hf : g.rule? f.table.symbol = some f.table) {s : TableState} (hs : f.tableState? = some s)
    {a next : Nat} (harc : (a, next) ∈ s.arcs) :
    Dfa.next? f.table.dfa f.state a = some next := by
  rw [Dfa.next?, dfa_getElem? hs, Option.bind_some]
  exact lookup_of_mem (hg.arcs_nodup (mem_of_rule? hf).1 (List.mem_of_getElem? hs)) harc

theorem reads_enter {g : Grammar} {t : RuleTable} (ht : g.rule? t.symbol = some t) (line : Nat)
    (column? : Option Nat) : (enter t line column?).Reads g [] :=
  { rule := ht
    state := ⟨[], labelled_nil, rfl⟩
    derivation := fun _ h => absurd h List.not_mem_nil
    anchored := fun _ h => absurd h List.not_mem_nil }

/-- A rule goes on along an arc for which the node is yet to come. -/
theorem Reads.goto {g : Grammar} (hg : g.Lawful) {f : Frame} (h : f.Reads g []) {s : TableState}
    (hs : f.tableState? = some s) {a next : Nat} (harc : (a, next) ∈ s.arcs) :
    (f.goto next).Reads g [a] := by
  obtain ⟨labels, hlabels, hrun⟩ := h.state
  rw [List.append_nil] at hrun
  refine { h with state := ⟨labels, hlabels, ?_⟩ }
  calc Dfa.run f.table.dfa 0 (labels ++ [a])
      = (Dfa.run f.table.dfa 0 labels).bind fun r => Dfa.next? f.table.dfa r a := Dfa.run_concat
    _ = some next := by rw [hrun, Option.bind_some, next?_dfa hg h.rule hs harc]

/-- The node that was yet to come is there. -/
theorem Reads.adopt {g : Grammar} {f : Frame} {a : Nat} (h : f.Reads g [a]) {n : Node}
    (hlabel : g.labelOf? n = some a) (hderivation : g.Derivation n) (hanchored : n.Anchored) :
    (f.adopt n).Reads g [] := by
  obtain ⟨labels, hlabels, hrun⟩ := h.state
  refine
    { rule := h.rule
      state := ⟨labels ++ [a], ?_, by rw [List.append_nil]; exact hrun⟩
      derivation := fun m hm => ?_
      anchored := fun m hm => ?_ }
  · rw [Frame.adopt, List.reverse_cons]
    exact hlabels.append (labelled_singleton hlabel)
  · rcases List.mem_cons.1 hm with rfl | hm
    · exact hderivation
    · exact h.derivation m hm
  · rcases List.mem_cons.1 hm with rfl | hm
    · exact hanchored
    · exact h.anchored m hm

/-- A rule that may end gives a derivation tree. -/
theorem Reads.derivation_node {g : Grammar} {f : Frame} (h : f.Reads g []) {s : TableState}
    (hs : f.tableState? = some s) (haccepting : s.accepting = true) : g.Derivation f.node := by
  obtain ⟨labels, hlabels, hrun⟩ := h.state
  rw [List.append_nil] at hrun
  refine .branch h.rule hlabels (Dfa.acceptsFrom_iff.2 ⟨f.state, hrun, ?_⟩)
    fun n hn => h.derivation n (List.mem_reverse.1 hn)
  rw [Dfa.isAccepting, dfa_getElem? hs]
  exact haccepting

end Frame

namespace Pushdown

/-- Rules in progress, innermost first, each one inside the next, the last one a certain symbol. -/
inductive Stacked (g : Grammar) (root : Symbol) : List Nat → List Frame → Prop
  | outermost {f : Frame} {pending : List Nat} (hf : f.Reads g pending)
      (hroot : f.table.symbol = root) : Stacked g root pending [f]
  | inner {f outer : Frame} {below : List Frame} {pending : List Nat} {a : Nat}
      (hf : f.Reads g pending) (ha : g.labels[a]? = some (.rule f.table.symbol))
      (hbelow : Stacked g root [a] (outer :: below)) : Stacked g root pending (f :: outer :: below)

variable {g : Grammar} {root : Symbol} {pending : List Nat} {f : Frame} {below : List Frame}

theorem Stacked.top (h : Stacked g root pending (f :: below)) : f.Reads g pending := by
  cases h with
  | outermost hf _ => exact hf
  | inner hf _ _ => exact hf

/-- The innermost rule may be replaced by a later stage of it. -/
theorem Stacked.replace {f' : Frame} {pending' : List Nat}
    (h : Stacked g root pending (f :: below)) (hf' : f'.Reads g pending')
    (htable : f'.table = f.table) : Stacked g root pending' (f' :: below) := by
  cases h with
  | outermost _ hroot => exact .outermost hf' (by rw [htable, hroot])
  | inner _ ha hbelow => exact .inner hf' (by rw [htable]; exact ha) hbelow

/-- The tokens that all rules in progress have read. -/
def tokensOf : List Frame → List Token
  | [] => []
  | f :: below => tokensOf below ++ f.tokens

/-- Every rule stands where the first of its tokens stands, if `rest` come after those read. -/
def Placed : List Frame → List Token → Prop
  | [], _ => True
  | f :: below, rest =>
    (∃ t ts, f.tokens ++ rest = t :: ts ∧ f.line = t.line ∧ f.column? = t.column?) ∧
      Placed below (f.tokens ++ rest)

theorem Placed.append {stack : List Frame} {rest : List Token} (h : Placed stack rest)
    (more : List Token) : Placed stack (rest ++ more) := by
  induction stack generalizing rest with
  | nil => trivial
  | cons f below ih =>
    obtain ⟨⟨t, ts, hfirst, hplace⟩, hbelow⟩ := h
    refine ⟨⟨t, ts ++ more, ?_, hplace⟩, ?_⟩
    · rw [← List.append_assoc, hfirst, List.cons_append]
    · rw [← List.append_assoc]
      exact ih hbelow

theorem tokens_ne_nil {ns : List Node} (hne : ns ≠ []) (hanchored : ∀ n ∈ ns, n.Anchored) :
    ns.flatMap Node.tokens ≠ [] := by
  cases ns with
  | nil => exact absurd rfl hne
  | cons n ns =>
    intro h
    rw [List.flatMap_cons, List.append_eq_nil_iff] at h
    cases hanchored n List.mem_cons_self with
    | leaf t => exact absurd h.1 (List.cons_ne_nil _ _)
    | branch hfirst _ =>
      rw [Node.tokens_branch, hfirst] at h
      exact absurd h.1 (List.cons_ne_nil _ _)

/-- The node of a rule that has read something stands where its first token stands. -/
theorem anchored_node {rest : List Token} (hf : f.Reads g pending) (hne : f.children ≠ [])
    (hplaced : Placed (f :: below) rest) : f.node.Anchored := by
  obtain ⟨⟨t, ts, hfirst, hline, hcolumn⟩, _⟩ := hplaced
  have htokens : f.tokens ≠ [] := tokens_ne_nil (by simpa using hne)
    fun n hn => hf.anchored n (List.mem_reverse.1 hn)
  obtain ⟨t', ts', htokens⟩ := List.exists_cons_of_ne_nil htokens
  rw [htokens, List.cons_append] at hfirst
  obtain ⟨rfl, _⟩ := List.cons.inj hfirst
  rw [Frame.node, hline, hcolumn]
  exact .branch htokens fun n hn => hf.anchored n (List.mem_reverse.1 hn)

end Pushdown
end Offside
