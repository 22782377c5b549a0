import Offside.Proofs.Grammar.Forms
import Offside.Proofs.Pushdown.Completeness
import Mathlib

/-!
Grammars of blocks. An indent opens a block and a dedent closes one. If the states of each rule can
be given levels, such that an arc goes up with an indent, down with a dedent, and stays with all
else, and a rule starts and ends at level zero, then every tree closes as many blocks as it opens.
-/

namespace Offside

/-- Blocks that a token opens, less those that it closes. -/
def Kind.rise : Kind → Int
  | .indent => 1
  | .dedent => -1
  | _ => 0

/-- Blocks that tokens leave open, if they close no others. -/
def rise (ts : List Token) : Int := (ts.map fun t => t.kind.rise).sum

@[simp] theorem rise_nil : rise [] = 0 := rfl

@[simp] theorem rise_cons (t : Token) (ts : List Token) :
    rise (t :: ts) = t.kind.rise + rise ts := by
  rw [rise, List.map_cons, List.sum_cons]
  rfl

@[simp] theorem rise_append (ts us : List Token) : rise (ts ++ us) = rise ts + rise us := by
  rw [rise, List.map_append, List.sum_append]
  rfl

namespace Grammar

/-- How far an arc with this label goes up. -/
def rise (g : Grammar) (a : Nat) : Int :=
  match g.labels[a]? with
  | some (.token k) => k.rise
  | _ => 0

/-- Whether the states of the rules are at these levels. -/
structure Balanced (g : Grammar) (level : Symbol → Nat → Int) : Prop where
  start : ∀ t ∈ g.rules, level t.symbol 0 = 0
  arc : ∀ t ∈ g.rules, ∀ q < t.states.length, ∀ s ∈ t.states[q]?, ∀ arc ∈ s.arcs,
    level t.symbol arc.2 = level t.symbol q + g.rise arc.1
  accepting : ∀ t ∈ g.rules, ∀ q < t.states.length, ∀ s ∈ t.states[q]?, s.accepting = true →
    level t.symbol q = 0

instance (g : Grammar) (level : Symbol → Nat → Int) : Decidable (g.Balanced level) :=
  decidable_of_iff
    ((∀ t ∈ g.rules, level t.symbol 0 = 0) ∧
      (∀ t ∈ g.rules, ∀ q < t.states.length, ∀ s ∈ t.states[q]?, ∀ arc ∈ s.arcs,
        level t.symbol arc.2 = level t.symbol q + g.rise arc.1) ∧
      ∀ t ∈ g.rules, ∀ q < t.states.length, ∀ s ∈ t.states[q]?, s.accepting = true →
        level t.symbol q = 0)
    ⟨fun ⟨h₁, h₂, h₃⟩ => ⟨h₁, h₂, h₃⟩, fun ⟨h₁, h₂, h₃⟩ => ⟨h₁, h₂, h₃⟩⟩

variable {g : Grammar} {level : Symbol → Nat → Int}

theorem Balanced.run (h : g.Balanced level) {t : RuleTable} (ht : t ∈ g.rules) {labels : List Nat}
    {q r : Nat} (hrun : Dfa.run t.dfa q labels = some r) :
    level t.symbol r = level t.symbol q + (labels.map g.rise).sum := by
  induction labels generalizing q with
  | nil =>
    obtain rfl := Option.some.inj hrun
    rw [List.map_nil, List.sum_nil, Int.add_zero]
  | cons a labels ih =>
    rw [Dfa.run_cons] at hrun
    obtain ⟨next, hnext, hrun⟩ := Option.bind_eq_some_iff.1 hrun
    obtain ⟨s, hs, harc⟩ := Pushdown.arc_of_next? hnext
    have hq : q < t.states.length := (List.getElem?_eq_some_iff.1 hs).1
    rw [ih hrun, h.arc t ht q hq s hs _ harc, List.map_cons, List.sum_cons, Int.add_assoc]

theorem rise_classify {t : Token} {a : Nat} (h : g.classify t.kind t.text = some a) :
    g.rise a = t.kind.rise := by
  rw [rise, getElem?_of_classify h, terminal]
  by_cases hword : t.kind = .word ∧ .keyword t.text ∈ g.labels
  · rw [if_pos hword, hword.1]
    rfl
  · rw [if_neg hword]

/-- Nodes go up as far as their labels, if each of them does. -/
theorem rise_flatMap {ns : List Node} {labels : List Nat} (h : g.Labelled ns labels)
    (hrise : ∀ n ∈ ns, ∀ a ∈ g.labelOf? n, g.rise a = Offside.rise n.tokens) :
    Offside.rise (ns.flatMap Node.tokens) = (labels.map g.rise).sum := by
  induction ns generalizing labels with
  | nil =>
    obtain rfl : labels = [] := by simpa [Labelled] using h.symm
    rfl
  | cons n ns ih =>
    cases labels with
    | nil => simp [Labelled] at h
    | cons a labels =>
      obtain ⟨ha, hrest⟩ := List.cons.inj h
      rw [List.flatMap_cons, rise_append, List.map_cons, List.sum_cons,
        hrise n List.mem_cons_self a ha, ih hrest fun m hm => hrise m (List.mem_cons_of_mem _ hm)]

/-- What a rule derives closes as many blocks as it opens. -/
theorem Balanced.rise_tokens (h : g.Balanced level) {n : Node} (hn : g.Derivation n) :
    (∀ a ∈ g.labelOf? n, g.rise a = Offside.rise n.tokens) ∧
      (∀ s, n.kind = .symbol s → Offside.rise n.tokens = 0) := by
  induction hn with
  | @leaf t _ =>
    refine ⟨fun a ha => ?_, fun s hs => by cases hs⟩
    rw [rise_classify ha, Node.tokens_leaf, rise_cons, rise_nil, Int.add_zero]
  | @branch s line column? children table labels hrule hlabels haccepts _ ih =>
    obtain ⟨q, hrun, hq⟩ := Dfa.acceptsFrom_iff.1 haccepts
    obtain ⟨s', hs', haccepting⟩ := Pushdown.accepting_of_isAccepting hq
    obtain ⟨htable, rfl⟩ := mem_of_rule? hrule
    have hlt : q < table.states.length := (List.getElem?_eq_some_iff.1 hs').1
    have hlevel := h.run htable hrun
    rw [h.accepting table htable q hlt s' hs' haccepting, h.start table htable,
      Int.zero_add] at hlevel
    have hzero : Offside.rise (children.flatMap Node.tokens) = 0 :=
      (rise_flatMap hlabels fun n hn => (ih n hn).1).trans hlevel.symm
    rw [Node.tokens_branch]
    refine ⟨fun a ha => ?_, fun _ _ => hzero⟩
    have hlabel : g.labels[a]? = some (.rule table.symbol) := getElem?_of_idxOf? ha
    rw [hzero, rise, hlabel]

end Grammar
end Offside
