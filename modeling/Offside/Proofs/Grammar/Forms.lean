import Offside.Proofs.Tree.Derivation
import Mathlib.Logic.Relation

/-!
Sentential forms: rows of labels that come from a symbol by putting, again and again, a word of a
rule in the place of the rule. They tell what can follow a rule and what can come last, and
`Separated` is what a grammar must keep apart so that its tables never have to guess.
-/

namespace Offside.Grammar

/-- A rule in a form is replaced by a word that its automaton accepts. -/
inductive Expands (g : Grammar) : List Label → List Label → Prop
  | expand {before after form : List Label} {s : Symbol} {t : RuleTable} {labels : List Nat}
      (hrule : g.rule? s = some t) (haccepts : Dfa.accepts t.dfa labels = true)
      (hform : labels.map (g.labels[·]?) = form.map some) :
      Expands g (before ++ .rule s :: after) (before ++ form ++ after)

/-- The forms that come from a form. -/
def Leads (g : Grammar) : List Label → List Label → Prop := Relation.ReflTransGen g.Expands

/-- A terminal can come right after a rule. -/
def Follows (g : Grammar) (root s : Symbol) (l : Nat) : Prop :=
  ∃ before after lab, g.labels[l]? = some lab ∧ lab.isTerminal = true ∧
    g.Leads [.rule root] (before ++ .rule s :: lab :: after)

/-- A rule can come last. -/
def EndsIn (g : Grammar) (root s : Symbol) : Prop :=
  ∃ before, g.Leads [.rule root] (before ++ [.rule s])

/-- What can be read in one way only: rules that are not empty, and rules that are over before
something they could go on with follows. -/
structure Separated (g : Grammar) (root : Symbol) : Prop where
  not_empty : ∀ t ∈ g.rules, ∀ s, t.states[0]? = some s → s.accepting = false
  not_followed : ∀ t ∈ g.rules, ∀ s ∈ t.states, s.accepting = true →
    ∀ l, g.Follows root t.symbol l → s.action? l = none

/-- At the end of the input no rule is over that could go on. -/
def ClosedAtEnd (g : Grammar) (root : Symbol) : Prop :=
  ∀ t ∈ g.rules, g.EndsIn root t.symbol → ∀ s ∈ t.states, s.accepting = true → s.arcs = []

/-- The terminal that a token is. -/
def terminal (g : Grammar) (kind : Kind) (text : String) : Label :=
  if kind = .word ∧ .keyword text ∈ g.labels then .keyword text else .token kind

/-- What a node is in a form. -/
def inForm (g : Grammar) (n : Node) : Label :=
  match n.kind with
  | .token k => g.terminal k (n.text?.getD "")
  | .symbol s => .rule s

@[simp] theorem inForm_leaf (g : Grammar) (t : Token) :
    g.inForm (.leaf t) = g.terminal t.kind t.text := rfl

@[simp] theorem inForm_branch (g : Grammar) (s : Symbol) (line : Nat) (column? : Option Nat)
    (children : List Node) : g.inForm (.branch s line column? children) = .rule s := rfl

theorem classify_eq (g : Grammar) (kind : Kind) (text : String) :
    g.classify kind text = g.labels.idxOf? (g.terminal kind text) := by
  unfold classify terminal
  by_cases hkind : kind = .word
  · by_cases hmem : Label.keyword text ∈ g.labels
    · rw [if_pos hkind, if_pos ⟨hkind, hmem⟩]
      cases hidx : g.labels.idxOf? (.keyword text) with
      | none => exact absurd hmem (List.idxOf?_eq_none_iff.1 hidx)
      | some i => rfl
    · rw [if_pos hkind, if_neg (by simp [hmem]), List.idxOf?_eq_none_iff.2 hmem]
  · rw [if_neg hkind, if_neg (by simp [hkind])]

theorem isTerminal_terminal (g : Grammar) (kind : Kind) (text : String) :
    (g.terminal kind text).isTerminal = true := by
  unfold terminal
  split <;> rfl

theorem labelOf?_eq (g : Grammar) (n : Node) : g.labelOf? n = g.labels.idxOf? (g.inForm n) := by
  unfold labelOf? inForm
  cases n.kind with
  | token k => exact classify_eq g _ _
  | symbol s => rfl

theorem getElem?_of_labelOf? {g : Grammar} {n : Node} {l : Nat} (h : g.labelOf? n = some l) :
    g.labels[l]? = some (g.inForm n) :=
  getElem?_of_idxOf? (labelOf?_eq g n ▸ h)

theorem getElem?_of_classify {g : Grammar} {t : Token} {l : Nat}
    (h : g.classify t.kind t.text = some l) : g.labels[l]? = some (g.terminal t.kind t.text) :=
  getElem?_of_idxOf? (classify_eq g _ _ ▸ h)

/-- A row of nodes, and a row of tokens, as a form. -/
def formOf (g : Grammar) (ns : List Node) : List Label := ns.map g.inForm

def wordOf (g : Grammar) (ts : List Token) : List Label :=
  ts.map fun t => g.terminal t.kind t.text

theorem formOf_cons (g : Grammar) (n : Node) (ns : List Node) :
    g.formOf (n :: ns) = g.inForm n :: g.formOf ns := rfl

theorem Labelled.form {g : Grammar} {ns : List Node} {labels : List Nat}
    (h : g.Labelled ns labels) : labels.map (g.labels[·]?) = (g.formOf ns).map some := by
  induction ns generalizing labels with
  | nil =>
    obtain rfl : labels = [] := by simpa [Labelled] using h.symm
    rfl
  | cons n ns ih =>
    cases labels with
    | nil => simp [Labelled] at h
    | cons l labels =>
      obtain ⟨hl, hlabels⟩ : g.labelOf? n = some l ∧ g.Labelled ns labels := by
        simpa [Labelled] using h
      rw [List.map_cons, ih hlabels, getElem?_of_labelOf? hl]
      rfl

theorem Expands.context {g : Grammar} {form form' : List Label} (h : g.Expands form form')
    (before after : List Label) :
    g.Expands (before ++ form ++ after) (before ++ form' ++ after) := by
  obtain @⟨before', after', form, s, t, labels, hrule, haccepts, hform⟩ := h
  have hexpand : g.Expands (before ++ before' ++ .rule s :: (after' ++ after))
      (before ++ before' ++ form ++ (after' ++ after)) := .expand hrule haccepts hform
  simpa only [List.append_assoc, List.cons_append] using hexpand

theorem Leads.context {g : Grammar} {form form' : List Label} (h : g.Leads form form')
    (before after : List Label) : g.Leads (before ++ form ++ after) (before ++ form' ++ after) := by
  induction h with
  | refl => exact .refl
  | tail _ hstep ih => exact ih.tail (hstep.context before after)

/-- Rows of trees lead to their tokens if the trees do. -/
theorem leads_formOf {g : Grammar} {ns : List Node}
    (h : ∀ n ∈ ns, g.Leads [g.inForm n] (g.wordOf n.tokens)) :
    g.Leads (g.formOf ns) (g.wordOf (ns.flatMap Node.tokens)) := by
  induction ns with
  | nil => exact .refl
  | cons n ns ih =>
    have hn := (h n List.mem_cons_self).context [] (g.formOf ns)
    have hns := (ih fun m hm => h m (List.mem_cons_of_mem _ hm)).context (g.wordOf n.tokens) []
    rw [List.append_nil, List.append_nil] at hns
    rw [List.flatMap_cons, wordOf, List.map_append]
    exact hn.trans hns

/-- A node of a rule leads to its children. -/
theorem leads_children {g : Grammar} {s : Symbol} {t : RuleTable} {children : List Node}
    {labels : List Nat} (hrule : g.rule? s = some t) (hlabels : g.Labelled children labels)
    (haccepts : Dfa.accepts t.dfa labels = true) :
    g.Leads [.rule s] (g.formOf children) := by
  have hexpand : g.Expands ([] ++ .rule s :: []) ([] ++ g.formOf children ++ []) :=
    .expand hrule haccepts hlabels.form
  rw [List.append_nil] at hexpand
  exact .single hexpand

/-- A derivation tree leads to its tokens. -/
theorem Derivation.leads {g : Grammar} {n : Node} (h : g.Derivation n) :
    g.Leads [g.inForm n] (g.wordOf n.tokens) := by
  induction h with
  | leaf => exact .refl
  | branch hrule hlabels haccepts _ ih =>
    rw [Node.tokens_branch]
    exact (leads_children hrule hlabels haccepts).trans (leads_formOf ih)

end Offside.Grammar
