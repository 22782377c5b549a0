import Offside.Proofs.Dfa.Language
import Offside.Proofs.Grammar.Actions
import Offside.Proofs.Grammar.FirstSets

/-!
Lawful grammars. All that a run may rely on follows from the tables having been read off some rule
text without a complaint: `Lawful` collects it, and the main statement is that every rule text gives
a lawful grammar or none.
-/

namespace Offside

/-- The state without its actions. -/
def TableState.toDfaState (s : TableState) : DfaState := ⟨s.accepting, s.arcs⟩

/-- The automaton of a rule. -/
def RuleTable.dfa (t : RuleTable) : List DfaState := t.states.map TableState.toDfaState

namespace Label

theorem intern_nodup {labels : List Label} (l : Label) (h : labels.Nodup) :
    (intern labels l).2.Nodup := by
  unfold intern
  split
  · exact h
  · next hnone =>
    refine List.nodup_append.2 ⟨h, List.nodup_singleton _, fun a ha b hb => ?_⟩
    rintro rfl
    rw [List.mem_singleton.1 hb] at ha
    exact List.idxOf?_eq_none_iff.1 hnone ha

mutual

theorem number_nodup {labels labels' : List Label} (h : labels.Nodup) :
    ∀ {p : Pattern Item} {p' : Pattern Nat}, number labels p = .ok (p', labels') → labels'.Nodup
  | .leaf item, _, hok => by
    rw [number] at hok
    obtain ⟨l, _, hok⟩ := bind_eq_ok.1 hok
    cases hok
    exact intern_nodup l h
  | .alt ps, _, hok => by
    rw [number] at hok
    obtain ⟨_, hps, hok⟩ := bind_eq_ok.1 hok
    cases hok
    exact numberAll_nodup h hps
  | .seq ps, _, hok => by
    rw [number] at hok
    obtain ⟨_, hps, hok⟩ := bind_eq_ok.1 hok
    cases hok
    exact numberAll_nodup h hps
  | .opt p, _, hok => by
    rw [number] at hok
    obtain ⟨_, hp, hok⟩ := bind_eq_ok.1 hok
    cases hok
    exact number_nodup h hp
  | .star p, _, hok => by
    rw [number] at hok
    obtain ⟨_, hp, hok⟩ := bind_eq_ok.1 hok
    cases hok
    exact number_nodup h hp
  | .plus p, _, hok => by
    rw [number] at hok
    obtain ⟨_, hp, hok⟩ := bind_eq_ok.1 hok
    cases hok
    exact number_nodup h hp

theorem numberAll_nodup {labels labels' : List Label} (h : labels.Nodup) :
    ∀ {ps : List (Pattern Item)} {ps' : List (Pattern Nat)},
      numberAll labels ps = .ok (ps', labels') → labels'.Nodup
  | [], _, hok => by
    cases hok
    exact h
  | p :: ps, _, hok => by
    rw [numberAll] at hok
    obtain ⟨⟨_, labels₁⟩, hp, hok⟩ := bind_eq_ok.1 hok
    obtain ⟨⟨_, labels₂⟩, hps, hok⟩ := bind_eq_ok.1 hok
    cases hok
    exact numberAll_nodup (number_nodup h hp) hps

end

end Label

namespace Grammar

/-- The first set of a symbol. -/
def first (g : Grammar) (s : Symbol) : List Nat := ((g.rule? s).map RuleTable.first).getD []

structure Lawful (g : Grammar) : Prop where
  labels_nodup : g.labels.Nodup
  rule_isSome {s : Symbol} : Label.rule s ∈ g.labels → (g.rule? s).isSome
  arcs_nodup {t : RuleTable} {s : TableState} :
    t ∈ g.rules → s ∈ t.states → (s.arcs.map Prod.fst).Nodup
  action_iff {t : RuleTable} {s : TableState} {l : Nat} {a : Action} :
    t ∈ g.rules → s ∈ t.states →
      (s.action? l = some a ↔ ∃ arc ∈ s.arcs, Offers g.labels g.first arc l a)
  /-- a rule begins with what its start has an action on -/
  mem_first_iff {t : RuleTable} {l : Nat} :
    t ∈ g.rules → (l ∈ t.first ↔ ∃ s, t.states[0]? = some s ∧ (s.action? l).isSome)
  /-- no rule begins with itself -/
  exists_rank : ∃ rank : Symbol → Nat, (∀ s, rank s < Symbol.all.length) ∧
    ∀ t ∈ g.rules, ∀ s, t.states[0]? = some s → ∀ arc ∈ s.arcs, ∀ sub,
      g.labels[arc.1]? = some (.rule sub) → rank sub < rank t.symbol

theorem mem_of_rule? {g : Grammar} {s : Symbol} {t : RuleTable} (h : g.rule? s = some t) :
    t ∈ g.rules ∧ t.symbol = s :=
  ⟨List.mem_of_find?_eq_some h, by simpa using List.find?_some h⟩

/-- What reading rules leaves behind: labels and symbols without repetition, and automata of
patterns. -/
structure RulesRead (labels : List Label) (dfas : RuleDfas) : Prop where
  labels_nodup : labels.Nodup
  symbols_nodup : (dfas.map Prod.fst).Nodup
  ofPattern : ∀ rule ∈ dfas, ∃ p, rule.2 = Dfa.ofPattern p

theorem addRule_spec {acc acc' : List Label × RuleDfas} {rule : Rule}
    (hacc : RulesRead acc.1 acc.2) (h : addRule acc rule = .ok acc') :
    RulesRead acc'.1 acc'.2 := by
  unfold addRule at h
  split at h
  · cases h
  · next s hs =>
    split at h
    · cases h
    · next hlookup =>
      obtain ⟨⟨p, labels⟩, hp, h⟩ := bind_eq_ok.1 h
      cases h
      refine ⟨Label.number_nodup hacc.labels_nodup hp, ?_, fun r hr => ?_⟩
      · rw [List.map_append, List.nodup_append]
        refine ⟨hacc.symbols_nodup, List.nodup_singleton _, fun x hx y hy hxy => ?_⟩
        obtain rfl := List.mem_singleton.1 hy
        obtain ⟨r, hr, rfl⟩ := List.mem_map.1 hx
        have := List.lookup_eq_none_iff.1 (Option.not_isSome_iff_eq_none.1 hlookup) r hr
        simp [hxy] at this
      · rcases List.mem_append.1 hr with hr | hr
        · exact hacc.ofPattern r hr
        · rw [List.mem_singleton.1 hr]
          exact ⟨p, rfl⟩

theorem foldlM_addRule_spec {rules : List Rule} {acc : List Label × RuleDfas}
    (h : rules.foldlM addRule ([], []) = .ok acc) : RulesRead acc.1 acc.2 := by
  have hstart : RulesRead [] [] :=
    { labels_nodup := List.nodup_nil
      symbols_nodup := List.nodup_nil
      ofPattern := fun _ h => absurd h List.not_mem_nil }
  exact foldlM_induction (motive := fun _ acc => RulesRead acc.1 acc.2) h hstart
    fun _ _ _ _ _ hacc hstep => addRule_spec hacc hstep

theorem checkRules_spec {dfas : RuleDfas} {labels : List Label}
    (h : checkRules dfas labels = .ok ()) {s : Symbol} (hs : Label.rule s ∈ labels) :
    (dfas.lookup s).isSome := by
  have hok := ok_of_forM h _ hs
  dsimp only at hok
  split at hok
  · assumption
  · cases hok

theorem any_find?_symbol (tables : List RuleTable) (x s : Symbol) :
    ((tables.find? fun t => t.symbol == x).any fun t => t.symbol == s) =
      (x == s && (tables.find? fun t => t.symbol == s).isSome) := by
  by_cases hxs : x = s
  · subst hxs
    cases hfind : tables.find? fun t => t.symbol == x with
    | none => simp
    | some t => simpa using List.find?_some hfind
  · rw [beq_false_of_ne hxs, Bool.false_and]
    cases hfind : tables.find? fun t => t.symbol == x with
    | none => rfl
    | some t =>
      obtain rfl : t.symbol = x := by simpa using List.find?_some hfind
      simpa using hxs

/-- A grammar with its tables in the order of their symbols. -/
def ordered (labels : List Label) (tables : List RuleTable) : Grammar :=
  ⟨labels, Symbol.all.filterMap fun s => tables.find? fun t => t.symbol == s⟩

/-- Putting the tables in order loses none. -/
theorem rule?_ordered (labels : List Label) (tables : List RuleTable) (s : Symbol) :
    rule? (ordered labels tables) s =
      tables.find? fun t => t.symbol == s := by
  unfold rule? ordered
  rw [List.find?_filterMap]
  simp only [any_find?_symbol]
  cases hfind : tables.find? fun t => t.symbol == s with
  | none =>
    have hnone : (Symbol.all.find? fun x => x == s && (none : Option RuleTable).isSome) = none :=
      List.find?_eq_none.2 (by simp)
    rw [hnone]
    rfl
  | some t =>
    have hsome : (Symbol.all.find? fun x => x == s && (some t).isSome).isSome :=
      List.find?_isSome.2 ⟨s, Symbol.mem_all s, by simp⟩
    obtain ⟨x, hx⟩ := Option.isSome_iff_exists.1 hsome
    obtain rfl : x = s := by simpa using List.find?_some hx
    rw [hx]
    exact hfind

/-- How a table comes from the automaton of its rule. -/
structure TableOf (labels : List Label) (firsts : First.Sets) (rule : Symbol × List DfaState)
    (t : RuleTable) : Prop where
  symbol : t.symbol = rule.1
  states : List.Forall₂ (fun state entry => tableState labels firsts rule.1 state = .ok entry)
    rule.2 t.states
  first : t.first = First.get firsts rule.1

theorem ruleTable_spec {labels : List Label} {firsts : First.Sets}
    {rule : Symbol × List DfaState} {t : RuleTable} (h : ruleTable labels firsts rule = .ok t) :
    TableOf labels firsts rule t := by
  unfold ruleTable at h
  obtain ⟨states, hstates, h⟩ := bind_eq_ok.1 h
  cases h
  exact ⟨rfl, forall₂_of_mapM hstates, rfl⟩

/-- A state offers a terminal exactly if its arcs can begin with it. -/
theorem begins_iff_offers {labels : List Label} {firsts : First.Sets} {arcs : List (Nat × Nat)}
    {l : Nat} : First.Begins labels firsts arcs l ↔
      ∃ a, ∃ arc ∈ arcs, Offers labels (First.get firsts) arc l a := by
  constructor
  · rintro ⟨arc, harc, h⟩
    unfold Offers
    cases hlab : labels[arc.1]? with
    | none =>
      rw [hlab] at h
      exact h.elim
    | some lab =>
      rw [hlab] at h
      cases lab with
      | token => exact ⟨.shift arc.2, arc, harc, by rw [hlab]; exact ⟨rfl, h⟩⟩
      | keyword => exact ⟨.shift arc.2, arc, harc, by rw [hlab]; exact ⟨rfl, h⟩⟩
      | rule s => exact ⟨.push s arc.2, arc, harc, by rw [hlab]; exact ⟨rfl, h⟩⟩
  · rintro ⟨a, arc, harc, h⟩
    refine ⟨arc, harc, ?_⟩
    unfold Offers at h
    cases hlab : labels[arc.1]? with
    | none =>
      rw [hlab] at h
      exact h.elim
    | some lab =>
      rw [hlab] at h
      cases lab with
      | token => exact h.2
      | keyword => exact h.2
      | rule s => exact h.2

section

variable {labels : List Label} {dfas : RuleDfas} {firsts : First.Sets} {tables : List RuleTable}

theorem mem_tables {t : RuleTable} (ht : t ∈ (ordered labels tables).rules) : t ∈ tables := by
  obtain ⟨s, _, hs⟩ := List.mem_filterMap.1 ht
  exact List.mem_of_find?_eq_some hs

theorem rule?_isSome (hforall : List.Forall₂ (TableOf labels firsts) dfas tables) {s : Symbol}
    (hs : (dfas.lookup s).isSome) : ((ordered labels tables).rule? s).isSome := by
  obtain ⟨states, hstates⟩ := Option.isSome_iff_exists.1 hs
  obtain ⟨t, ht, htable⟩ := exists_of_mem_left hforall (mem_of_lookup hstates)
  rw [rule?_ordered]
  exact List.find?_isSome.2 ⟨t, ht, by simpa using htable.symbol⟩

theorem first_eq (hforall : List.Forall₂ (TableOf labels firsts) dfas tables) {s : Symbol}
    (hs : (dfas.lookup s).isSome) : (ordered labels tables).first s = First.get firsts s := by
  obtain ⟨t, ht⟩ := Option.isSome_iff_exists.1 (rule?_isSome hforall hs)
  obtain ⟨hmem, rfl⟩ := mem_of_rule? ht
  obtain ⟨rule, _, htable⟩ := exists_of_mem_right hforall (mem_tables hmem)
  rw [first, ht, Option.map_some, Option.getD_some, htable.first, htable.symbol]

theorem offers_iff (hforall : List.Forall₂ (TableOf labels firsts) dfas tables)
    (hcheck : checkRules dfas labels = .ok ()) {arc : Nat × Nat} {l : Nat} {a : Action} :
    Offers labels (ordered labels tables).first arc l a ↔
      Offers labels (First.get firsts) arc l a := by
  unfold Offers
  cases hlab : labels[arc.1]? with
  | none => rfl
  | some lab =>
    cases lab with
    | token => rfl
    | keyword => rfl
    | rule s =>
      have hs := checkRules_spec hcheck (List.mem_of_getElem? hlab)
      simp only [first_eq hforall hs]

/-- The arcs of the start state of a table are those of its automaton. -/
theorem startArcs_eq (hnodup : (dfas.map Prod.fst).Nodup) {rule : Symbol × List DfaState}
    (hrule : rule ∈ dfas) {t : RuleTable} (htable : TableOf labels firsts rule t) {s : TableState}
    (hs : t.states[0]? = some s) : First.startArcs dfas t.symbol = s.arcs := by
  obtain ⟨state, hstate, hentry⟩ := getElem?_of_forall₂ htable.states.flip hs
  rw [First.startArcs, htable.symbol, lookup_of_mem hnodup hrule]
  obtain ⟨x, states⟩ := rule
  cases states with
  | nil => cases hstate
  | cons state' states =>
    obtain rfl := Option.some.inj hstate
    exact (tableState_spec hentry).2.1.symm

theorem startArcs_eq_nil (hnodup : (dfas.map Prod.fst).Nodup) {rule : Symbol × List DfaState}
    (hrule : rule ∈ dfas) {t : RuleTable} (htable : TableOf labels firsts rule t)
    (hs : t.states[0]? = none) : First.startArcs dfas t.symbol = [] := by
  have hlength := htable.states.length_eq
  rw [First.startArcs, htable.symbol, lookup_of_mem hnodup hrule]
  obtain ⟨x, states⟩ := rule
  cases states with
  | nil => rfl
  | cons state states =>
    have := List.getElem?_eq_none_iff.1 hs
    simp only [List.length_cons] at hlength
    omega

theorem lawful_ordered (hread : RulesRead labels dfas) (hcheck : checkRules dfas labels = .ok ())
    (hcomputed : First.Computed labels dfas firsts)
    (hsets : ∀ rule ∈ dfas, (firsts.lookup rule.1).isSome)
    (hforall : List.Forall₂ (TableOf labels firsts) dfas tables) :
    (ordered labels tables).Lawful := by
  have htableOf {t : RuleTable} (ht : t ∈ (ordered labels tables).rules) :
      ∃ rule ∈ dfas, TableOf labels firsts rule t :=
    exists_of_mem_right hforall (mem_tables ht)
  have hentry {t : RuleTable} {s : TableState} (ht : t ∈ (ordered labels tables).rules)
      (hs : s ∈ t.states) : ∃ rule ∈ dfas, TableOf labels firsts rule t ∧
        ∃ state ∈ rule.2, tableState labels firsts rule.1 state = .ok s := by
    obtain ⟨rule, hrule, htable⟩ := htableOf ht
    obtain ⟨state, hstate, hok⟩ := exists_of_mem_right htable.states hs
    exact ⟨rule, hrule, htable, state, hstate, hok⟩
  have haction {t : RuleTable} {s : TableState} {l : Nat} {a : Action}
      (ht : t ∈ (ordered labels tables).rules) (hs : s ∈ t.states) :
      s.action? l = some a ↔ ∃ arc ∈ s.arcs, Offers labels (First.get firsts) arc l a := by
    obtain ⟨rule, hrule, htable, state, hstate, hok⟩ := hentry ht hs
    obtain ⟨_, harcs, hiff⟩ := tableState_spec hok
    rw [hiff, harcs]
  refine
    { labels_nodup := hread.labels_nodup
      rule_isSome := fun hs => rule?_isSome hforall (checkRules_spec hcheck hs)
      arcs_nodup := fun {t s} ht hs => ?_
      action_iff := fun {t s l a} ht hs => ?_
      mem_first_iff := fun {t l} ht => ?_
      exists_rank := ⟨First.rank firsts, fun s => ?_, fun t ht s hs arc harc sub hsub => ?_⟩ }
  · obtain ⟨rule, hrule, htable, state, hstate, hok⟩ := hentry ht hs
    obtain ⟨p, hp⟩ := hread.ofPattern rule hrule
    rw [(tableState_spec hok).2.1]
    exact (Dfa.ofPattern_ascending p state (hp ▸ hstate)).imp Nat.ne_of_lt
  · rw [haction ht hs]
    exact exists_congr fun arc => and_congr_right fun _ => (offers_iff hforall hcheck).symm
  · obtain ⟨rule, hrule, htable⟩ := htableOf ht
    rw [htable.first, hcomputed.mem_get_iff (hsets rule hrule), ← htable.symbol,
      begins_iff_offers]
    cases hstart : t.states[0]? with
    | none =>
      rw [startArcs_eq_nil hread.symbols_nodup hrule htable hstart]
      simp
    | some s =>
      rw [startArcs_eq hread.symbols_nodup hrule htable hstart]
      constructor
      · rintro ⟨a, h⟩
        refine ⟨s, rfl, ?_⟩
        rw [(haction ht (List.mem_of_getElem? hstart)).2 h]
        rfl
      · rintro ⟨s', hs', h⟩
        obtain rfl := Option.some.inj hs'
        obtain ⟨a, ha⟩ := Option.isSome_iff_exists.1 h
        exact ⟨a, (haction ht (List.mem_of_getElem? hstart)).1 ha⟩
  · by_cases hs : (firsts.lookup s).isSome
    · exact Nat.lt_of_lt_of_le (First.rank_lt_length hs) hcomputed.length_le
    · rw [First.rank_eq_zero hs]
      decide
  · obtain ⟨rule, hrule, htable⟩ := htableOf ht
    have hsome := hsets rule hrule
    rw [← htable.symbol] at hsome
    rw [← startArcs_eq hread.symbols_nodup hrule htable hs] at harc
    exact hcomputed.rank_lt hsome harc hsub

end

/-- Every rule text gives a lawful grammar or none. -/
theorem lawful_of_ofText {text : List Char} {g : Grammar} (h : ofText text = .ok g) :
    g.Lawful := by
  obtain ⟨rules, _, h⟩ := bind_eq_ok.1 h
  obtain ⟨⟨labels, dfas⟩, hread, h⟩ := bind_eq_ok.1 h
  obtain ⟨_, hcheck, h⟩ := bind_eq_ok.1 h
  obtain ⟨firsts, hfirsts, h⟩ := bind_eq_ok.1 h
  obtain ⟨tables, htables, h⟩ := bind_eq_ok.1 h
  obtain rfl := Except.ok.inj h
  obtain ⟨hcomputed, hsets⟩ := First.compute_spec hfirsts
  exact lawful_ordered (foldlM_addRule_spec hread) hcheck hcomputed hsets
    ((forall₂_of_mapM htables).imp fun _ _ => ruleTable_spec)

end Grammar
end Offside
