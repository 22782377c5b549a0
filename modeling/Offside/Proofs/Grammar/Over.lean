import Offside.Proofs.Grammar.Forms
import Offside.Proofs.Pushdown.Completeness

/-!
What tables say of the ends of rules, and of repeated children. Some rules can only come last in
one another, and none of the rules around them goes on with a certain token; so that token is
refused wherever such a rule is over. And a rule may have a child of one kind at most once.
-/

namespace Offside.Grammar

/-- Where one of the rules is over, a token of the kind can only complete more of them. -/
def Refuses (g : Grammar) (k : Kind) (symbols : List Symbol) : Prop :=
  ∀ t ∈ g.rules, ∀ s ∈ t.states, ∀ arc ∈ s.arcs, ∀ x ∈ symbols,
    g.labels[arc.1]? = some (.rule x) → ∀ s' ∈ t.states[arc.2]?,
      (∀ l ∈ g.labels.idxOf? (.token k), s'.action? l = none) ∧
        (s'.accepting = true → t.symbol ∈ symbols)

instance (g : Grammar) (k : Kind) (symbols : List Symbol) : Decidable (g.Refuses k symbols) :=
  inferInstanceAs (Decidable (∀ t ∈ g.rules, ∀ s ∈ t.states, ∀ arc ∈ s.arcs, ∀ x ∈ symbols,
    g.labels[arc.1]? = some (.rule x) → ∀ s' ∈ t.states[arc.2]?,
      (∀ l ∈ g.labels.idxOf? (.token k), s'.action? l = none) ∧
        (s'.accepting = true → t.symbol ∈ symbols)))

/-- A rule reads a child of this kind once at most: the states behind one are told apart from those
where none was read. -/
def ReadsOnce (g : Grammar) (s child : Symbol) (behind : List Nat) : Prop :=
  ∀ t ∈ g.rule? s, ∀ q < t.states.length, ∀ st ∈ t.states[q]?, ∀ arc ∈ st.arcs,
    (g.labels[arc.1]? = some (.rule child) → q ∉ behind ∧ arc.2 ∈ behind) ∧
      (q ∈ behind → arc.2 ∈ behind)

instance (g : Grammar) (s child : Symbol) (behind : List Nat) :
    Decidable (g.ReadsOnce s child behind) :=
  inferInstanceAs (Decidable (∀ t ∈ g.rule? s, ∀ q < t.states.length, ∀ st ∈ t.states[q]?,
    ∀ arc ∈ st.arcs,
      (g.labels[arc.1]? = some (.rule child) → q ∉ behind ∧ arc.2 ∈ behind) ∧
        (q ∈ behind → arc.2 ∈ behind)))

variable {g : Grammar} {s child : Symbol} {behind : List Nat}

/-- Children of one kind, among those that a run of the rule has read. -/
theorem ReadsOnce.run (h : g.ReadsOnce s child behind) {t : RuleTable} (ht : g.rule? s = some t)
    {ns : List Node} : ∀ {labels : List Nat} {q r : Nat}, g.Labelled ns labels →
      Dfa.run t.dfa q labels = some r →
        (ns.filter (Node.isSymbol child)).length + (if q ∈ behind then 1 else 0) ≤
          if r ∈ behind then 1 else 0 := by
  induction ns with
  | nil =>
    intro labels q r hlabels hrun
    obtain rfl : labels = [] := by simpa [Labelled] using hlabels.symm
    obtain rfl := Option.some.inj hrun
    simp
  | cons n ns ih =>
    intro labels q r hlabels hrun
    cases labels with
    | nil => simp [Labelled] at hlabels
    | cons a labels =>
      obtain ⟨ha, hlabels⟩ := List.cons.inj hlabels
      rw [Dfa.run_cons] at hrun
      obtain ⟨next, hnext, hrun⟩ := Option.bind_eq_some_iff.1 hrun
      obtain ⟨st, hst, harc⟩ := Pushdown.arc_of_next? hnext
      obtain ⟨hchild, hbehind⟩ := h t ht q (List.getElem?_eq_some_iff.1 hst).1 st hst _ harc
      have hrest := ih hlabels hrun
      cases hn : n.isSymbol child with
      | true =>
        have hlabel : g.labels[a]? = some (.rule child) := by
          rw [getElem?_of_labelOf? ha, inForm, beq_iff_eq.1 hn]
        obtain ⟨hq, hr⟩ := hchild hlabel
        rw [List.filter_cons_of_pos hn, List.length_cons, if_neg hq]
        rw [if_pos hr] at hrest
        exact hrest
      | false =>
        rw [List.filter_cons_of_neg (by simp [hn])]
        by_cases hq : q ∈ behind
        · rw [if_pos (hbehind hq)] at hrest
          rw [if_pos hq]
          exact hrest
        · rw [if_neg hq]
          split at hrest <;> omega

/-- Two children of that kind are one. -/
theorem ReadsOnce.filter_children (h : g.ReadsOnce s child behind) {n : Node}
    (hn : g.Derivation n) (hkind : n.kind = .symbol s) :
    (n.children.filter (Node.isSymbol child)).length ≤ 1 := by
  cases hn with
  | leaf => cases hkind
  | @branch s' line column? children t labels hrule hlabels haccepts _ =>
    obtain rfl : s' = s := NodeKind.symbol.inj hkind
    obtain ⟨q, hrun, _⟩ := Dfa.acceptsFrom_iff.1 haccepts
    have hcount := h.run hrule hlabels hrun
    show (children.filter (Node.isSymbol child)).length ≤ 1
    split at hcount <;> split at hcount <;> omega

end Offside.Grammar
