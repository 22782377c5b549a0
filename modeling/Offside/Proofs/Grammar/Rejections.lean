import Offside.Proofs.Grammar.Conflicts
import Offside.Proofs.Grammar.LeftRecursion

/-!
Rejected grammars. A rule text whose rules can be read, and mention nothing that is not there, is
refused for left recursion or for a contested state and for nothing else. The first is asked of the
whole text before the second.
-/

namespace Offside

/-- A fault in what is written, which shows before any table is made. -/
def GrammarError.IsFault : GrammarError → Prop
  | .leftRecursive _ => False
  | .ambiguous _ _ => False
  | _ => True

namespace Label

theorem isFault_of_ofItem {item : Item} {e : GrammarError} (h : ofItem item = .error e) :
    e.IsFault := by
  unfold ofItem at h
  split at h
  · split at h
    · cases h
    · split at h
      · cases h
      · cases h
        trivial
  · split at h
    · cases h
    · cases h
    · cases h
      trivial

mutual

theorem isFault_of_number {labels : List Label} {e : GrammarError} :
    ∀ {p : Pattern Item}, number labels p = .error e → e.IsFault
  | .leaf item, h => by
    rw [number] at h
    rcases bind_eq_error.1 h with h | ⟨_, _, h⟩
    · exact isFault_of_ofItem h
    · cases h
  | .alt ps, h => by
    rw [number] at h
    rcases bind_eq_error.1 h with h | ⟨_, _, h⟩
    · exact isFault_of_numberAll h
    · cases h
  | .seq ps, h => by
    rw [number] at h
    rcases bind_eq_error.1 h with h | ⟨_, _, h⟩
    · exact isFault_of_numberAll h
    · cases h
  | .opt p, h => by
    rw [number] at h
    rcases bind_eq_error.1 h with h | ⟨_, _, h⟩
    · exact isFault_of_number h
    · cases h
  | .star p, h => by
    rw [number] at h
    rcases bind_eq_error.1 h with h | ⟨_, _, h⟩
    · exact isFault_of_number h
    · cases h
  | .plus p, h => by
    rw [number] at h
    rcases bind_eq_error.1 h with h | ⟨_, _, h⟩
    · exact isFault_of_number h
    · cases h

theorem isFault_of_numberAll {labels : List Label} {e : GrammarError} :
    ∀ {ps : List (Pattern Item)}, numberAll labels ps = .error e → e.IsFault
  | [], h => by cases h
  | p :: ps, h => by
    rw [numberAll] at h
    rcases bind_eq_error.1 h with h | ⟨_, _, h⟩
    · exact isFault_of_number h
    · rcases bind_eq_error.1 h with h | ⟨_, _, h⟩
      · exact isFault_of_numberAll h
      · cases h

end

end Label

namespace Grammar

variable {text : List Char} {labels : List Label} {dfas : RuleDfas} {firsts : First.Sets}

/-- The automata of a rule text, if its rules can be read and none is missing. -/
def resolve (text : List Char) : Except GrammarError (List Label × RuleDfas) := do
  let rules ← Rule.readAll text
  let read ← rules.foldlM addRule ([], [])
  checkRules read.2 read.1
  pure read

/-- The tables of automata. -/
def tabulate (read : List Label × RuleDfas) : Except GrammarError Grammar := do
  let firsts ← First.compute read.1 read.2
  let tables ← read.2.mapM (ruleTable read.1 firsts)
  pure (ordered read.1 tables)

theorem ofText_eq (text : List Char) : ofText text = resolve text >>= tabulate := by
  unfold ofText resolve tabulate ofRules ordered
  cases Rule.readAll text with
  | error e => rfl
  | ok rules =>
    dsimp only [bind, Except.bind]
    cases rules.foldlM addRule ([], []) with
    | error e => rfl
    | ok read =>
      dsimp only
      cases checkRules read.2 read.1 with
      | error e => rfl
      | ok => rfl

theorem isFault_of_readAll {e : GrammarError} (h : Rule.readAll text = .error e) : e.IsFault := by
  obtain ⟨block, _, hblock⟩ := exists_of_mapM_eq_error h
  unfold Rule.ofBlock at hblock
  split at hblock
  · cases hblock
  · cases hblock
    trivial

theorem isFault_of_addRule {acc : List Label × RuleDfas} {rule : Rule} {e : GrammarError}
    (h : addRule acc rule = .error e) : e.IsFault := by
  unfold addRule at h
  split at h
  · cases h
    trivial
  · split at h
    · cases h
      trivial
    · rcases bind_eq_error.1 h with h | ⟨_, _, h⟩
      · exact Label.isFault_of_number h
      · cases h

theorem isFault_of_checkRules {e : GrammarError} (h : checkRules dfas labels = .error e) :
    e.IsFault := by
  obtain ⟨label, _, hlabel⟩ := exists_of_forM_eq_error h
  split at hlabel
  · split at hlabel
    · cases hlabel
    · cases hlabel
      trivial
  · cases hlabel

theorem isFault_of_resolve {e : GrammarError} (h : resolve text = .error e) : e.IsFault := by
  rcases bind_eq_error.1 h with h | ⟨_, _, h⟩
  · exact isFault_of_readAll h
  · rcases bind_eq_error.1 h with h | ⟨read, _, h⟩
    · obtain ⟨_, _, _, _, _, _, hrule⟩ := exists_of_foldlM_eq_error h
      exact isFault_of_addRule hrule
    · rcases bind_eq_error.1 h with h | ⟨_, _, h⟩
      · exact isFault_of_checkRules h
      · cases h

theorem rulesRead_of_resolve (h : resolve text = .ok (labels, dfas)) : RulesRead labels dfas := by
  obtain ⟨rules, _, h⟩ := bind_eq_ok.1 h
  obtain ⟨read, hread, h⟩ := bind_eq_ok.1 h
  obtain ⟨_, _, h⟩ := bind_eq_ok.1 h
  cases h
  exact foldlM_addRule_spec hread

theorem RulesRead.arcs_nodup (hread : RulesRead labels dfas) {rule : Symbol × List DfaState}
    (hrule : rule ∈ dfas) {state : DfaState} (hstate : state ∈ rule.2) : state.arcs.Nodup := by
  obtain ⟨p, hp⟩ := hread.ofPattern rule hrule
  have hascending := Dfa.ofPattern_ascending p state (hp ▸ hstate)
  exact List.Nodup.of_map Prod.fst (hascending.imp Nat.ne_of_lt)

/-- Some state of a rule is contested at a terminal. -/
structure Conflict (labels : List Label) (dfas : RuleDfas) (firsts : First.Sets)
    (rule : Symbol × List DfaState) (l : Nat) : Prop where
  rule_mem : rule ∈ dfas
  contested : ∃ state ∈ rule.2, Contested labels firsts state l

theorem conflict_of_mapM (hread : RulesRead labels dfas)
    (hproper : ∀ s, First.Proper labels (First.get firsts s)) {e : GrammarError}
    (h : dfas.mapM (ruleTable labels firsts) = .error e) :
    ∃ rule l, e = .ambiguous rule.1.name (labelText labels l) ∧
      Conflict labels dfas firsts rule l := by
  obtain ⟨rule, hrule, htable⟩ := exists_of_mapM_eq_error h
  rcases bind_eq_error.1 htable with hstates | ⟨_, _, h⟩
  · obtain ⟨state, hstate, hentry⟩ := exists_of_mapM_eq_error hstates
    obtain ⟨l, he, hcontested⟩ :=
      contested_of_tableState hproper (hread.arcs_nodup hrule hstate) hentry
    exact ⟨rule, l, he, hrule, state, hstate, hcontested⟩
  · cases h

theorem no_conflict_of_mapM (hread : RulesRead labels dfas) {tables : List RuleTable}
    (h : dfas.mapM (ruleTable labels firsts) = .ok tables) (rule : Symbol × List DfaState)
    (l : Nat) :
    ¬Conflict labels dfas firsts rule l := by
  rintro ⟨hrule, state, hstate, hcontested⟩
  obtain ⟨t, _, htable⟩ := exists_of_mem_left (forall₂_of_mapM h) hrule
  obtain ⟨entry, _, hentry⟩ := exists_of_mem_left (ruleTable_spec htable).states hstate
  exact not_contested_of_tableState hread.labels_nodup hentry l hcontested

/-- What comes of the automata of a rule text. -/
inductive Judged (text : List Char) (labels : List Label) (dfas : RuleDfas) : Prop
  | leftRecursive {s : Symbol} (h : ofText text = .error (.leftRecursive s.name))
      (hs : First.LeftRecursive labels dfas s)
  | ambiguous {firsts : First.Sets} {rule : Symbol × List DfaState} {l : Nat}
      (hacyclic : ∀ s, ¬First.LeftRecursive labels dfas s)
      (hfirsts : First.compute labels dfas = .ok firsts)
      (h : ofText text = .error (.ambiguous rule.1.name (labelText labels l)))
      (hl : Conflict labels dfas firsts rule l)
  | accepted {firsts : First.Sets} {g : Grammar}
      (hacyclic : ∀ s, ¬First.LeftRecursive labels dfas s)
      (hfirsts : First.compute labels dfas = .ok firsts) (h : ofText text = .ok g)
      (hnone : ∀ rule l, ¬Conflict labels dfas firsts rule l)

theorem judged_of_resolve (h : resolve text = .ok (labels, dfas)) : Judged text labels dfas := by
  have hread := rulesRead_of_resolve h
  have htext : ofText text = tabulate (labels, dfas) := by
    rw [ofText_eq, h]
    rfl
  cases hfirsts : First.compute labels dfas with
  | error e =>
    obtain ⟨s, rfl, hs⟩ := First.leftRecursive_of_compute hfirsts
    refine .leftRecursive ?_ hs
    rw [htext, tabulate, hfirsts]
    rfl
  | ok firsts =>
    have hacyclic := First.not_leftRecursive_of_compute hfirsts
    cases htables : dfas.mapM (ruleTable labels firsts) with
    | error e =>
      obtain ⟨rule, l, rfl, hl⟩ := conflict_of_mapM hread (First.proper_of_compute hfirsts) htables
      refine .ambiguous hacyclic hfirsts ?_ hl
      rw [htext, tabulate, hfirsts]
      dsimp only [bind, Except.bind]
      rw [htables]
    | ok tables =>
      refine .accepted (g := ordered labels tables) hacyclic hfirsts ?_
        (no_conflict_of_mapM hread htables)
      rw [htext, tabulate, hfirsts]
      dsimp only [bind, Except.bind]
      rw [htables]
      rfl

/-- A rule text whose rules are written without a fault is refused for left recursion exactly if
going down from some rule leads back to it, and such a rule is named; else for ambiguity exactly if
two arcs of a state can consume one terminal, and the rule and the terminal are named; and it is
accepted in all other cases. -/
theorem ofText_of_no_fault (h : ∀ e, ofText text = .error e → ¬e.IsFault) :
    ∃ labels dfas, resolve text = .ok (labels, dfas) ∧
      ((∃ name, ofText text = .error (.leftRecursive name)) ↔
        ∃ s, First.LeftRecursive labels dfas s) ∧
      (∀ name, ofText text = .error (.leftRecursive name) →
        ∃ s, s.name = name ∧ First.LeftRecursive labels dfas s) ∧
      ((∀ s, ¬First.LeftRecursive labels dfas s) →
        ∃ firsts, First.compute labels dfas = .ok firsts ∧
          ((∃ name label, ofText text = .error (.ambiguous name label)) ↔
            ∃ rule l, Conflict labels dfas firsts rule l) ∧
          (∀ name label, ofText text = .error (.ambiguous name label) →
            ∃ rule l, rule.1.name = name ∧ labelText labels l = label ∧
              Conflict labels dfas firsts rule l) ∧
          ((∃ g, ofText text = .ok g) ↔ ∀ rule l, ¬Conflict labels dfas firsts rule l)) := by
  cases hresolve : resolve text with
  | error e =>
    have htext : ofText text = .error e := by
      rw [ofText_eq, hresolve]
      rfl
    exact absurd (isFault_of_resolve hresolve) (h e htext)
  | ok read =>
    obtain ⟨labels, dfas⟩ := read
    refine ⟨labels, dfas, rfl, ?_⟩
    cases judged_of_resolve hresolve with
    | leftRecursive htext hs =>
      simp only [htext, Except.error.injEq, GrammarError.leftRecursive.injEq]
      exact ⟨⟨fun _ => ⟨_, hs⟩, fun _ => ⟨_, rfl⟩⟩, fun name hname => ⟨_, hname, hs⟩,
        fun hacyclic => absurd hs (hacyclic _)⟩
    | @ambiguous firsts rule l hacyclic hfirsts htext hl =>
      simp only [htext, Except.error.injEq, GrammarError.ambiguous.injEq, reduceCtorEq,
        exists_false, false_iff, IsEmpty.forall_iff, implies_true, true_and]
      refine ⟨fun ⟨s, hs⟩ => hacyclic s hs, fun _ => ⟨firsts, hfirsts, ?_, ?_, ?_⟩⟩
      · exact ⟨fun _ => ⟨rule, l, hl⟩, fun _ => ⟨_, _, rfl, rfl⟩⟩
      · exact fun name label ⟨hname, hlabel⟩ => ⟨rule, l, hname, hlabel, hl⟩
      · exact fun hnone => hnone rule l hl
    | @accepted firsts g hacyclic hfirsts htext hnone =>
      simp only [htext, reduceCtorEq, exists_false, false_iff, IsEmpty.forall_iff, implies_true,
        true_and]
      refine ⟨fun ⟨s, hs⟩ => hacyclic s hs, fun _ => ⟨firsts, hfirsts, ?_, ?_⟩⟩
      · exact fun ⟨rule, l, hl⟩ => hnone rule l hl
      · exact ⟨fun _ => hnone, fun _ => ⟨g, rfl⟩⟩

/-- Terms that may begin with an expression, which is a term. -/
theorem ofText_of_no_fault_expr :
    (∀ e, ofText "expr: term\nterm: [NUMBER] expr NAME\n".toList = .error e → ¬e.IsFault) ∧
      ∃ labels dfas, resolve "expr: term\nterm: [NUMBER] expr NAME\n".toList = .ok (labels, dfas) ∧
        ∃ s, s.name = "expr" ∧ First.LeftRecursive labels dfas s := by
  have htext : ofText "expr: term\nterm: [NUMBER] expr NAME\n".toList =
      .error (.leftRecursive "expr") := by decide +kernel
  have hfault : ∀ e, ofText "expr: term\nterm: [NUMBER] expr NAME\n".toList = .error e →
      ¬e.IsFault := by
    intro e he
    obtain rfl := Except.error.inj (htext.symm.trans he)
    exact id
  obtain ⟨labels, dfas, hresolve, _, hname, _⟩ := ofText_of_no_fault hfault
  exact ⟨hfault, labels, dfas, hresolve, hname "expr" htext⟩

end Grammar
end Offside
