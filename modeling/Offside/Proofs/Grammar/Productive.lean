import Offside.Proofs.Dfa.Live
import Offside.Proofs.Grammar.Forms

/-!
Productive grammars: every rule has a tree. Reading a rule text leaves no automaton with a dead
end, so in a productive grammar whatever a rule has read can be completed by nodes.
-/

namespace Offside.Grammar

/-- The automata have no dead ends, and need no letters but labels. -/
def Continuable (labels : List Label) (dfas : RuleDfas) : Prop :=
  ∀ rule ∈ dfas, ∃ letters, Dfa.Continues letters rule.2 ∧ ∀ a ∈ letters, a < labels.length

theorem Continuable.addRule {acc acc' : List Label × RuleDfas} {rule : Rule}
    (hacc : Continuable acc.1 acc.2) (hbody : rule.body.Choosable)
    (h : addRule acc rule = .ok acc') : Continuable acc'.1 acc'.2 := by
  unfold Grammar.addRule at h
  split at h
  · cases h
  · split at h
    · cases h
    · obtain ⟨⟨p, labels⟩, hp, h⟩ := bind_eq_ok.1 h
      cases h
      have hnumbered := Label.number_spec hbody hp
      intro r hr
      rcases List.mem_append.1 hr with hr | hr
      · obtain ⟨letters, hcontinues, hletters⟩ := hacc r hr
        exact ⟨letters, hcontinues,
          fun a ha => Nat.lt_of_lt_of_le (hletters a ha) hnumbered.labels.length_le⟩
      · rw [List.mem_singleton.1 hr]
        exact ⟨p.leaves, Dfa.continues_ofPattern (hnumbered.choosable p List.mem_cons_self),
          hnumbered.leaves p List.mem_cons_self⟩

/-- The automaton of a table is that of its rule. -/
theorem TableOf.dfa_eq {labels : List Label} {firsts : First.Sets}
    {rule : Symbol × List DfaState} {t : RuleTable} (h : TableOf labels firsts rule t) :
    t.dfa = rule.2 := by
  obtain ⟨s, states⟩ := rule
  have hstates := h.states
  rw [RuleTable.dfa]
  dsimp only at hstates ⊢
  generalize t.states = entries at hstates
  clear h
  induction hstates with
  | nil => rfl
  | cons hentry _ ih =>
    obtain ⟨haccepting, harcs, _⟩ := tableState_spec hentry
    rw [List.map_cons, ih, TableState.toDfaState, haccepting, harcs]

/-- What a rule of a rule text has read can be read on until the rule is complete. -/
theorem exists_continuation {text : List Char} {g : Grammar} (hg : ofText text = .ok g)
    {t : RuleTable} (ht : t ∈ g.rules) {u : List Nat} {q : Nat}
    (hrun : Dfa.run t.dfa 0 u = some q) :
    ∃ v, Dfa.acceptsFrom t.dfa q v = true ∧ ∀ a ∈ v, a < g.labels.length := by
  obtain ⟨rules, hrules, hg⟩ := bind_eq_ok.1 hg
  obtain ⟨⟨labels, dfas⟩, hread, hg⟩ := bind_eq_ok.1 hg
  obtain ⟨_, _, hg⟩ := bind_eq_ok.1 hg
  obtain ⟨firsts, _, hg⟩ := bind_eq_ok.1 hg
  obtain ⟨tables, htables, hg⟩ := bind_eq_ok.1 hg
  obtain rfl := Except.ok.inj hg
  have hbodies := Rule.choosable_of_readAll hrules
  have hall : Continuable labels dfas :=
    foldlM_induction (motive := fun _ acc => Continuable acc.1 acc.2) hread
      (fun _ h => absurd h List.not_mem_nil)
      fun _ rule _ _ hrule hacc hstep => hacc.addRule (hbodies rule hrule) hstep
  have hforall := (forall₂_of_mapM htables).imp fun _ _ => ruleTable_spec
  obtain ⟨rule, hrule, htable⟩ := exists_of_mem_right hforall (mem_tables ht)
  obtain ⟨letters, hcontinues, hletters⟩ := hall rule hrule
  rw [htable.dfa_eq] at hrun ⊢
  obtain ⟨v, hv, hmem⟩ := hcontinues u q hrun
  exact ⟨v, hv, fun a ha => hletters a (hmem a ha)⟩

/-- Every rule has a tree, and one that is placed right if that is asked for. -/
def Productive (g : Grammar) (placed : Prop) : Prop :=
  ∀ s, (g.rule? s).isSome → ∃ n, g.Derivation n ∧ n.kind = .symbol s ∧ (placed → n.Anchored)

variable {g : Grammar}

/-- Some word is no keyword. -/
theorem exists_word (labels : List Label) : ∃ text, Label.keyword text ∉ labels := by
  have hinjective : Function.Injective Label.keyword := fun _ _ h => Label.keyword.inj h
  by_contra hnone
  simp only [not_exists, not_not] at hnone
  have hsub : Set.range Label.keyword ⊆ {l | l ∈ labels} := by
    rintro _ ⟨text, rfl⟩
    exact hnone text
  exact (Set.infinite_range_of_injective hinjective) (labels.finite_toSet.subset hsub)

/-- Every terminal consumes some token of its kind. -/
theorem exists_text (hg : g.Lawful) {a : Nat} {l : Label} (ha : g.labels[a]? = some l) {k : Kind}
    (hk : l.kind? = some k) : ∃ text, g.classify k text = some a := by
  have hidx := idxOf?_eq_some_of_nodup hg.labels_nodup ha
  cases l with
  | token k' =>
    obtain rfl := Option.some.inj hk
    obtain ⟨text, htext⟩ := exists_word g.labels
    refine ⟨text, ?_⟩
    rw [classify_eq, terminal, if_neg (by simp [htext]), hidx]
  | keyword text =>
    obtain rfl := Option.some.inj hk
    refine ⟨text, ?_⟩
    rw [classify_eq, terminal, if_pos ⟨rfl, List.mem_of_getElem? ha⟩, hidx]
  | rule s => cases hk

/-- In a productive grammar every label consumes some tree. -/
theorem exists_node (hg : g.Lawful) {placed : Prop} (hproductive : g.Productive placed) {a : Nat}
    (ha : a < g.labels.length) :
    ∃ n, g.labelOf? n = some a ∧ g.Derivation n ∧ (placed → n.Anchored) := by
  obtain ⟨l, hl⟩ : ∃ l, g.labels[a]? = some l := ⟨_, List.getElem?_eq_getElem ha⟩
  cases hkind : l.kind? with
  | some k =>
    obtain ⟨text, htext⟩ := exists_text hg hl hkind
    exact ⟨.leaf ⟨k, text, 0, none⟩, htext, .leaf (Option.isSome_iff_exists.2 ⟨a, htext⟩),
      fun _ => .leaf _⟩
  | none =>
    obtain ⟨s, rfl⟩ : ∃ s, l = .rule s := by
      cases l with
      | rule s => exact ⟨s, rfl⟩
      | token | keyword => cases hkind
    obtain ⟨n, hn, hkind, hplaced⟩ := hproductive s (hg.rule_isSome (List.mem_of_getElem? hl))
    refine ⟨n, ?_, hn, hplaced⟩
    rw [labelOf?, hkind]
    exact idxOf?_eq_some_of_nodup hg.labels_nodup hl

theorem exists_nodes (hg : g.Lawful) {placed : Prop} (hproductive : g.Productive placed)
    {labels : List Nat} (hlabels : ∀ a ∈ labels, a < g.labels.length) :
    ∃ ns, g.Labelled ns labels ∧ ∀ n ∈ ns, g.Derivation n ∧ (placed → n.Anchored) := by
  induction labels with
  | nil => exact ⟨[], labelled_nil, fun _ h => absurd h List.not_mem_nil⟩
  | cons a labels ih =>
    obtain ⟨ha, hlabels⟩ := List.forall_mem_cons.1 hlabels
    obtain ⟨n, hlabel, hn⟩ := exists_node hg hproductive ha
    obtain ⟨ns, hns, hall⟩ := ih hlabels
    exact ⟨n :: ns, (labelled_singleton hlabel).append hns, List.forall_mem_cons.2 ⟨hn, hall⟩⟩

end Offside.Grammar
