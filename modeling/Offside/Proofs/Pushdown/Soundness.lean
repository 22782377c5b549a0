import Offside.Proofs.Pushdown.Stack

/-!
Soundness of pushdown automata. Between tokens the stack holds what has been read, and a rule with
nothing in it is never completed, because the token that began it has an action in it. So the
tree that is accepted in the end derives the tokens.
-/

namespace Offside.Pushdown

open Grammar

/-- A tree of a symbol with the given tokens, placed where they are. -/
structure Sound (g : Grammar) (root : Symbol) (ts : List Token) (tree : Node) : Prop where
  derivation : g.Derivation tree
  kind : tree.kind = .symbol root
  anchored : tree.Anchored
  tokens : tree.tokens = ts

/-- The stack of an automaton that has read some tokens and waits for the next. -/
structure Waiting (g : Grammar) (root : Symbol) (ts : List Token) (stack : List Frame) : Prop where
  stacked : Stacked g root [] stack
  placed : Placed stack []
  tokens : tokensOf stack = ts
  top : ∀ f ∈ stack.head?, f.children ≠ []

/-- The stack of an automaton that has read some tokens and is at work on one more. -/
structure Working (g : Grammar) (root : Symbol) (ts : List Token) (t : Token) (l : Nat)
    (stack : List Frame) : Prop where
  stacked : Stacked g root [] stack
  placed : Placed stack [t]
  tokens : tokensOf stack = ts
  /-- the innermost rule has read something, or the token can begin it, or it is the root -/
  top : ∀ f ∈ stack.head?, f.children ≠ [] ∨ l ∈ g.first f.table.symbol ∨ stack = [f]

/-- What is known after an answer. -/
inductive Outcome (g : Grammar) (root : Symbol) (ts : List Token) : Verdict × Pushdown → Prop
  | more {p : Pushdown} (hgrammar : p.grammar = g) (hstarted : p.started = true)
      (h : Waiting g root ts p.stack) : Outcome g root ts (.more, p)
  | accept {tree : Node} {p : Pushdown} (h : Sound g root ts tree) :
      Outcome g root ts (.accept tree, p)
  | reject {expected? : Option Kind} {p : Pushdown} : Outcome g root ts (.reject expected?, p)
  | outOfMemory {p : Pushdown} : Outcome g root ts (.outOfMemory, p)

variable {g : Grammar} {root : Symbol} {ts : List Token}

theorem isFinal_accepting {f : Frame} (h : f.isFinal = true) :
    ∃ s, f.tableState? = some s ∧ s.accepting = true := by
  unfold Frame.isFinal at h
  cases hs : f.tableState? with
  | none =>
    rw [hs] at h
    cases h
  | some s =>
    rw [hs, Option.map_some, Option.getD_some, TableState.isFinal, Bool.and_eq_true] at h
    exact ⟨s, rfl, h.1⟩

/-- Completing a rule that has read something moves its node to the rule around it. -/
theorem stacked_pop (hg : g.Lawful) {f outer : Frame} {below : List Frame} {rest : List Token}
    (hstacked : Stacked g root [] (f :: outer :: below)) {s : TableState}
    (hs : f.tableState? = some s) (haccepting : s.accepting = true) (hne : f.children ≠ [])
    (hplaced : Placed (f :: outer :: below) rest) :
    Stacked g root [] (outer.adopt f.node :: below) ∧ Placed (outer.adopt f.node :: below) rest ∧
      tokensOf (outer.adopt f.node :: below) = tokensOf (f :: outer :: below) := by
  cases hstacked with
  | @inner _ _ _ _ a hf ha hbelow =>
    have hnode := anchored_node hf hne hplaced
    have hlabel : g.labelOf? f.node = some a := idxOf?_eq_some_of_nodup hg.labels_nodup ha
    have hadopt := hbelow.top.adopt hlabel (hf.derivation_node hs haccepting) hnode
    obtain ⟨_, hfirst, hbelow'⟩ := hplaced
    refine ⟨hbelow.replace hadopt rfl, ?_, ?_⟩
    · simp only [Placed, Frame.tokens_adopt, Frame.tokens_node, List.append_assoc]
      exact ⟨hfirst, hbelow'⟩
    · simp only [tokensOf, Frame.tokens_adopt, Frame.tokens_node, List.append_assoc]

/-- Completing the outermost rule gives a tree. -/
theorem sound_pop {f : Frame} {rest : List Token} (hstacked : Stacked g root [] [f])
    {s : TableState} (hs : f.tableState? = some s) (haccepting : s.accepting = true)
    (hne : f.children ≠ []) (hplaced : Placed [f] rest) :
    Sound g root (tokensOf [f]) f.node := by
  cases hstacked with
  | outermost hf hroot =>
    exact
      { derivation := hf.derivation_node hs haccepting
        kind := by rw [← hroot]; rfl
        anchored := anchored_node hf hne hplaced
        tokens := Frame.tokens_node f }

theorem pop_inner {p : Pushdown} {f outer : Frame} {below : List Frame}
    (h : p.stack = f :: outer :: below) :
    p.pop = (none, { p with
      future := futureAfter f.node p.future, stack := outer.adopt f.node :: below }) := by
  unfold pop
  rw [h]

theorem pop_outermost {p : Pushdown} {f : Frame} (h : p.stack = [f]) :
    p.pop = (some f.node, { p with future := futureAfter f.node p.future, stack := [] }) := by
  unfold pop
  rw [h]

/-- What completing a rule keeps leads from the start to the end of completing rules. -/
theorem unwind_induction {P : Pushdown → Prop} {Q : Verdict × Pushdown → Prop}
    (hmore : ∀ p, P p → Q (.more, p))
    (haccept : ∀ p f, P p → p.stack = [f] → f.isFinal = true →
      Q (.accept f.node, { p with future := futureAfter f.node p.future, stack := [] }))
    (hpop : ∀ p f outer below, P p → p.stack = f :: outer :: below → f.isFinal = true →
      P { p with future := futureAfter f.node p.future, stack := outer.adopt f.node :: below })
    (p : Pushdown) (h : P p) : Q p.unwind := by
  rw [unwind]
  split
  · exact hmore p h
  · next f below hstack =>
    split
    · next hfinal =>
      cases below with
      | nil =>
        split
        · next tree p' hpopped =>
          rw [pop_outermost hstack] at hpopped
          obtain ⟨htree, rfl⟩ := Prod.mk.inj hpopped
          obtain rfl := Option.some.inj htree
          exact haccept p f h hstack hfinal
        · next p' hpopped =>
          rw [pop_outermost hstack] at hpopped
          cases hpopped
      | cons outer below =>
        split
        · next tree p' hpopped =>
          rw [pop_inner hstack] at hpopped
          cases hpopped
        · next p' hpopped =>
          have hlt : p'.stack.length < p.stack.length := by
            rw [length_stack_pop hstack hpopped, hstack]
            exact Nat.lt_succ_self _
          rw [pop_inner hstack] at hpopped
          obtain ⟨_, rfl⟩ := Prod.mk.inj hpopped
          exact unwind_induction hmore haccept hpop _ (hpop p f outer below h hstack hfinal)
    · exact hmore p h
termination_by p.stack.length

theorem unwind_outcome (hg : g.Lawful) (p : Pushdown) (hgrammar : p.grammar = g)
    (hstarted : p.started = true) (h : Waiting g root ts p.stack) :
    Outcome g root ts p.unwind := by
  refine unwind_induction
    (P := fun p => p.grammar = g ∧ p.started = true ∧ Waiting g root ts p.stack) ?_ ?_ ?_ p
    ⟨hgrammar, hstarted, h⟩
  · rintro p ⟨hgrammar, hstarted, h⟩
    exact .more hgrammar hstarted h
  · rintro p f ⟨_, _, h⟩ hstack hfinal
    obtain ⟨s, hs, haccepting⟩ := isFinal_accepting hfinal
    have hne := h.top f (by rw [hstack]; rfl)
    have hsound := sound_pop (hstack ▸ h.stacked) hs haccepting hne (hstack ▸ h.placed)
    rw [← hstack, h.tokens] at hsound
    exact .accept hsound
  · rintro p f outer below ⟨hgrammar, hstarted, h⟩ hstack hfinal
    obtain ⟨s, hs, haccepting⟩ := isFinal_accepting hfinal
    have hne := h.top f (by rw [hstack]; rfl)
    obtain ⟨hstacked, hplaced, htokens⟩ :=
      stacked_pop hg (hstack ▸ h.stacked) hs haccepting hne (hstack ▸ h.placed)
    refine ⟨hgrammar, hstarted, hstacked, hplaced, ?_, fun f' hf' => ?_⟩
    · rw [htokens, ← hstack, h.tokens]
    · obtain rfl := Option.some.inj hf'
      exact List.cons_ne_nil _ _

theorem action?_iff (hg : g.Lawful) {f : Frame} (hf : g.rule? f.table.symbol = some f.table)
    {s : TableState} (hs : f.tableState? = some s) {l : Nat} {a : Action} :
    s.action? l = some a ↔ ∃ arc ∈ s.arcs, Offers g.labels g.first arc l a :=
  hg.action_iff (mem_of_rule? hf).1 (List.mem_of_getElem? hs)

/-- To consume a token is to go along an arc with its label. -/
theorem arc_of_shift (hg : g.Lawful) {f : Frame} (hf : g.rule? f.table.symbol = some f.table)
    {s : TableState} (hs : f.tableState? = some s) {l next : Nat}
    (h : s.action? l = some (.shift next)) : (l, next) ∈ s.arcs := by
  obtain ⟨⟨a, next'⟩, harc, hoffer⟩ := (action?_iff hg hf hs).1 h
  unfold Offers at hoffer
  split at hoffer
  · cases hoffer.1
  · obtain ⟨heq, rfl⟩ := hoffer
    obtain rfl : next = next' := by simpa using heq
    exact harc
  · exact hoffer.elim

/-- To begin a rule with a token is to go along an arc with the label of the rule. -/
theorem arc_of_push (hg : g.Lawful) {f : Frame} (hf : g.rule? f.table.symbol = some f.table)
    {s : TableState} (hs : f.tableState? = some s) {l next : Nat} {x : Symbol}
    (h : s.action? l = some (.push x next)) :
    ∃ a, (a, next) ∈ s.arcs ∧ g.labels[a]? = some (.rule x) ∧ l ∈ g.first x := by
  obtain ⟨⟨a, next'⟩, harc, hoffer⟩ := (action?_iff hg hf hs).1 h
  unfold Offers at hoffer
  split at hoffer
  · next x' hx' =>
    obtain ⟨heq, hfirst⟩ := hoffer
    obtain ⟨rfl, rfl⟩ : x = x' ∧ next = next' := by simpa using heq
    exact ⟨a, harc, hx', hfirst⟩
  · cases hoffer.1
  · exact hoffer.elim

/-- A rule that has just been begun with a token. -/
def Fresh (g : Grammar) (l : Nat) (f : Frame) : Prop := f.state = 0 ∧ l ∈ g.first f.table.symbol

instance (g : Grammar) (l : Nat) (f : Frame) : Decidable (Fresh g l f) :=
  inferInstanceAs (Decidable (_ ∧ _))

/-- A fresh rule has an action on what it was begun with. -/
theorem Fresh.isSome_action? (hg : g.Lawful) {f : Frame}
    (hf : g.rule? f.table.symbol = some f.table) {l : Nat} (hfresh : Fresh g l f) {s : TableState}
    (hs : f.tableState? = some s) : (s.action? l).isSome := by
  obtain ⟨hstate, hl⟩ := hfresh
  rw [first, hf, Option.map_some, Option.getD_some, hg.mem_first_iff (mem_of_rule? hf).1] at hl
  obtain ⟨s', hs', hsome⟩ := hl
  rw [Frame.tableState?, hstate, hs'] at hs
  obtain rfl := Option.some.inj hs
  exact hsome

theorem state_of_no_children {f : Frame} (hf : f.Reads g []) (hempty : f.children = []) :
    f.state = 0 := by
  obtain ⟨labels, hlabels, hrun⟩ := hf.state
  rw [hempty, List.reverse_nil] at hlabels
  obtain rfl : labels = [] := by simpa [Labelled] using hlabels.symm
  exact (Option.some.inj hrun).symm

theorem grammar_shift (p : Pushdown) (t : Token) (next : Nat) :
    (p.shift t next).grammar = p.grammar := by
  unfold shift
  split <;> rfl

theorem started_shift (p : Pushdown) (t : Token) (next : Nat) :
    (p.shift t next).started = p.started := by
  unfold shift
  split <;> rfl

theorem waiting_shift (hg : g.Lawful) {p : Pushdown} {f : Frame} {below : List Frame} {t : Token}
    {l next : Nat} {s : TableState} (h : Working g root ts t l (f :: below))
    (hstack : p.stack = f :: below) (hs : f.tableState? = some s)
    (hl : g.classify t.kind t.text = some l) (hshift : s.action? l = some (.shift next)) :
    Waiting g root (ts ++ [t]) (p.shift t next).stack := by
  have hf := h.stacked.top
  have harc := arc_of_shift hg hf.rule hs hshift
  have hadopt := (hf.goto hg hs harc).adopt (n := .leaf t) hl
    (.leaf (Option.isSome_iff_exists.2 ⟨l, hl⟩)) (.leaf t)
  obtain ⟨hfirst, hbelow⟩ := h.placed
  unfold shift
  rw [hstack]
  refine ⟨h.stacked.replace hadopt rfl, ?_, ?_, fun f' hf' => ?_⟩
  · simp only [Placed, Frame.tokens_adopt, Frame.tokens_goto, Node.tokens_leaf, List.append_nil]
    exact ⟨hfirst, hbelow⟩
  · simp only [tokensOf, Frame.tokens_adopt, Frame.tokens_goto, Node.tokens_leaf]
    rw [← List.append_assoc, ← h.tokens]
    rfl
  · obtain rfl := Option.some.inj hf'
    exact List.cons_ne_nil _ _

theorem working_pop (hg : g.Lawful) {f outer : Frame} {below : List Frame} {t : Token} {l : Nat}
    {s : TableState} (h : Working g root ts t l (f :: outer :: below))
    (hs : f.tableState? = some s) (haction : s.action? l = none) (haccepting : s.accepting = true) :
    Working g root ts t l (outer.adopt f.node :: below) := by
  have hne : f.children ≠ [] := by
    intro hempty
    rcases h.top f rfl with hne | hfirst | hroot
    · exact hne hempty
    · have hf := h.stacked.top
      have hfresh : Fresh g l f := ⟨state_of_no_children hf hempty, hfirst⟩
      have hsome := hfresh.isSome_action? hg hf.rule hs
      rw [haction] at hsome
      cases hsome
    · simp at hroot
  obtain ⟨hstacked, hplaced, htokens⟩ := stacked_pop hg h.stacked hs haccepting hne h.placed
  refine ⟨hstacked, hplaced, htokens.trans h.tokens, fun f' hf' => Or.inl ?_⟩
  obtain rfl := Option.some.inj hf'
  exact List.cons_ne_nil _ _

theorem working_push (hg : g.Lawful) {f : Frame} {below : List Frame} {t : Token} {l next : Nat}
    {s : TableState} {x : Symbol} {table : RuleTable} (h : Working g root ts t l (f :: below))
    (hs : f.tableState? = some s) (hpush : s.action? l = some (.push x next))
    (htable : g.rule? x = some table) :
    Working g root ts t l (Frame.enter table t.line t.column? :: f.goto next :: below) := by
  have hf := h.stacked.top
  obtain ⟨a, harc, ha, hfirst⟩ := arc_of_push hg hf.rule hs hpush
  obtain ⟨_, rfl⟩ := mem_of_rule? htable
  refine ⟨.inner (Frame.reads_enter htable _ _) ha (h.stacked.replace (hf.goto hg hs harc) rfl),
    ⟨⟨t, [], rfl, rfl, rfl⟩, h.placed⟩, ?_, fun f' hf' => ?_⟩
  · simp only [tokensOf, Frame.tokens_goto]
    rw [← h.tokens]
    exact List.append_nil _
  · obtain rfl := Option.some.inj hf'
    exact Or.inr (Or.inl hfirst)

theorem moveOf_shift {l next : Nat} {f : Frame} (h : moveOf g l f = .shift next) :
    ∃ s, f.tableState? = some s ∧ s.action? l = some (.shift next) := by
  unfold moveOf at h
  split at h
  · cases h
  · next s hs =>
    split at h
    · next next' hnext =>
      cases h
      exact ⟨s, hs, hnext⟩
    · cases h
    · split at h <;> cases h

theorem moveOf_push {l next : Nat} {x : Symbol} {f : Frame} (h : moveOf g l f = .push x next) :
    ∃ s, f.tableState? = some s ∧ s.action? l = some (.push x next) := by
  unfold moveOf at h
  split at h
  · cases h
  · next s hs =>
    split at h
    · cases h
    · next x' next' hpush =>
      cases h
      exact ⟨s, hs, hpush⟩
    · split at h <;> cases h

theorem moveOf_pop {l : Nat} {f : Frame} (h : moveOf g l f = .pop) :
    ∃ s, f.tableState? = some s ∧ s.action? l = none ∧ s.accepting = true := by
  unfold moveOf at h
  split at h
  · cases h
  · next s hs =>
    split at h
    · cases h
    · cases h
    · next hnone =>
      split at h
      · next haccepting => exact ⟨s, hs, hnone, haccepting⟩
      · cases h

/-- What completing and beginning rules keeps leads from the start of a token to its end. -/
theorem run_induction {t : Token} {l : Nat} {P : Pushdown → Prop} {Q : Verdict × Pushdown → Prop}
    (hreject : ∀ expected? p, Q (.reject expected?, p)) (hfull : ∀ p, Q (.outOfMemory, p))
    (hshift : ∀ p f below s next, P p → p.stack = f :: below → f.tableState? = some s →
      s.action? l = some (.shift next) → Q (p.shift t next).unwind)
    (hpop : ∀ p f outer below s, P p → p.stack = f :: outer :: below → f.tableState? = some s →
      s.action? l = none → s.accepting = true →
      P { p with future := futureAfter f.node p.future, stack := outer.adopt f.node :: below })
    (hpush : ∀ p f below s x next table, P p → p.stack = f :: below → f.tableState? = some s →
      s.action? l = some (.push x next) → p.grammar.rule? x = some table →
      P { p with stack := Frame.enter table t.line t.column? :: f.goto next :: below })
    (fuel : Nat) (p : Pushdown) (h : P p) : Q (run l t fuel p) := by
  induction fuel generalizing p with
  | zero => exact hreject none p
  | succ fuel ih =>
    unfold run
    split
    · exact hreject none p
    · next f below hstack =>
      split
      · exact hreject _ p
      · next next hmove =>
        obtain ⟨s, hs, haction⟩ := moveOf_shift hmove
        exact hshift p f below s next h hstack hs haction
      · next hmove =>
        obtain ⟨s, hs, haction, haccepting⟩ := moveOf_pop hmove
        cases below with
        | nil =>
          rw [pop_outermost hstack]
          exact hreject none _
        | cons outer below =>
          rw [pop_inner hstack]
          exact ih _ (hpop p f outer below s h hstack hs haction haccepting)
      · next x next hmove =>
        obtain ⟨s, hs, haction⟩ := moveOf_push hmove
        unfold push
        rw [hstack]
        dsimp only
        split
        · next hmore =>
          split at hmore
          · cases hmore
          · split at hmore
            · cases hmore
            · next table htable =>
              obtain ⟨_, rfl⟩ := Prod.mk.inj hmore
              exact ih _ (hpush p f below s x next table h hstack hs haction htable)
        · next verdict p' hne hother =>
          split at hother
          · obtain ⟨rfl, _⟩ := Prod.mk.inj hother
            exact hfull p'
          · split at hother
            · obtain ⟨rfl, _⟩ := Prod.mk.inj hother
              exact hreject none p'
            · obtain ⟨rfl, _⟩ := Prod.mk.inj hother
              exact (hne rfl).elim

theorem run_outcome (hg : g.Lawful) {t : Token} {l : Nat}
    (hl : g.classify t.kind t.text = some l) (fuel : Nat) (p : Pushdown) (hgrammar : p.grammar = g)
    (hstarted : p.started = true) (h : Working g root ts t l p.stack) :
    Outcome g root (ts ++ [t]) (run l t fuel p) := by
  refine run_induction
    (P := fun p => p.grammar = g ∧ p.started = true ∧ Working g root ts t l p.stack)
    (fun _ _ => .reject) (fun _ => .outOfMemory) ?_ ?_ ?_ fuel p ⟨hgrammar, hstarted, h⟩
  · rintro p f below s next ⟨hgrammar, hstarted, h⟩ hstack hs haction
    exact unwind_outcome hg _ (by rw [grammar_shift, hgrammar]) (by rw [started_shift, hstarted])
      (waiting_shift hg (hstack ▸ h) hstack hs hl haction)
  · rintro p f outer below s ⟨hgrammar, hstarted, h⟩ hstack hs haction haccepting
    exact ⟨hgrammar, hstarted, working_pop hg (hstack ▸ h) hs haction haccepting⟩
  · rintro p f below s x next table ⟨hgrammar, hstarted, h⟩ hstack hs haction htable
    rw [hgrammar] at htable
    exact ⟨hgrammar, hstarted, working_push hg (hstack ▸ h) hs haction htable⟩

/-- An automaton that has read some tokens: it waits, or it is fresh and there are none. -/
structure Reading (g : Grammar) (root : Symbol) (ts : List Token) (p : Pushdown) : Prop where
  grammar : p.grammar = g
  waiting : p.started = true ∧ Waiting g root ts p.stack ∨
    p.started = false ∧ ts = [] ∧ ∃ t, g.rule? root = some t ∧ p.stack = [Frame.enter t 0 none]

theorem reading_start {s : Symbol} {maxDepth : Nat} {p : Pushdown}
    (h : start? g s maxDepth = some p) : Reading g s [] p := by
  obtain ⟨t, ht, rfl⟩ := Option.map_eq_some_iff.1 h
  exact ⟨rfl, Or.inr ⟨rfl, rfl, t, ht, rfl⟩⟩

theorem started_start? {s : Symbol} {maxDepth : Nat} {p : Pushdown}
    (h : start? g s maxDepth = some p) : p.started = false := by
  obtain ⟨t, _, rfl⟩ := Option.map_eq_some_iff.1 h
  rfl

/-- A fresh automaton takes its place from the first token. -/
theorem working_locate {p : Pushdown} (h : Reading g root ts p) (t : Token) (l : Nat) :
    (p.locate t).grammar = g ∧ (p.locate t).started = true ∧
      Working g root ts t l (p.locate t).stack := by
  unfold locate
  rcases h.waiting with ⟨hstarted, hwaiting⟩ | ⟨hstarted, rfl, table, htable, hstack⟩
  · rw [if_pos hstarted]
    exact ⟨h.grammar, hstarted,
      { stacked := hwaiting.stacked
        placed := hwaiting.placed.append [t]
        tokens := hwaiting.tokens
        top := fun f hf => Or.inl (hwaiting.top f hf) }⟩
  · rw [if_neg (by rw [hstarted]; exact Bool.false_ne_true), hstack]
    obtain ⟨_, rfl⟩ := mem_of_rule? htable
    exact ⟨h.grammar, rfl,
      { stacked := .outermost (Frame.reads_enter htable _ _) rfl
        placed := ⟨⟨t, [], rfl, rfl, rfl⟩, trivial⟩
        tokens := rfl
        top := fun f hf => Or.inr (Or.inr (by
          obtain rfl := Option.some.inj hf
          rfl)) }⟩

theorem feed_outcome (hg : g.Lawful) {p : Pushdown} (h : Reading g root ts p) (t : Token) :
    Outcome g root (ts ++ [t]) (feed t p) := by
  unfold feed
  rw [h.grammar]
  split
  · exact .reject
  · next l hl =>
    obtain ⟨hgrammar, hstarted, hworking⟩ := working_locate h t l
    exact run_outcome hg hl _ _ hgrammar hstarted hworking

theorem reading_of_feed (hg : g.Lawful) {p p' : Pushdown} (h : Reading g root ts p) {t : Token}
    (hfeed : feed t p = (.more, p')) : Reading g root (ts ++ [t]) p' := by
  have houtcome := feed_outcome hg h t
  rw [hfeed] at houtcome
  cases houtcome with
  | more hgrammar hstarted hwaiting => exact ⟨hgrammar, Or.inl ⟨hstarted, hwaiting⟩⟩

theorem sound_of_feed (hg : g.Lawful) {p p' : Pushdown} (h : Reading g root ts p) {t : Token}
    {tree : Node} (hfeed : feed t p = (.accept tree, p')) : Sound g root (ts ++ [t]) tree := by
  have houtcome := feed_outcome hg h t
  rw [hfeed] at houtcome
  cases houtcome with
  | accept hsound => exact hsound

/-- The answers to several tokens. -/
def answers : List Token → Pushdown → List Verdict
  | [], _ => []
  | t :: ts, p => (feed t p).1 :: answers ts (feed t p).2

/-- Feeding tokens gives a tree: more is asked for after each but the last. -/
def Accepts (p : Pushdown) (ts : List Token) (tree : Node) : Prop :=
  answers ts p = List.replicate (ts.length - 1) .more ++ [.accept tree]

theorem answers_sound (hg : g.Lawful) {p : Pushdown} {done rest : List Token} {tree : Node}
    (h : Reading g root done p) (haccepts : Accepts p rest tree) :
    Sound g root (done ++ rest) tree := by
  induction rest generalizing done p with
  | nil => simp [Accepts, answers] at haccepts
  | cons t rest ih =>
    have houtcome := feed_outcome hg h t
    rw [Accepts, answers] at haccepts
    generalize hfeed : feed t p = answer at houtcome haccepts
    cases rest with
    | nil =>
      obtain hverdict : answer.1 = .accept tree := by simpa [answers] using haccepts
      cases houtcome with
      | more => cases hverdict
      | accept hsound =>
        obtain rfl := Verdict.accept.inj hverdict
        exact hsound
      | reject => cases hverdict
      | outOfMemory => cases hverdict
    | cons t' rest =>
      simp only [List.length_cons, Nat.add_sub_cancel, List.replicate_succ, List.cons_append,
        List.cons.injEq] at haccepts
      obtain ⟨hverdict, haccepts⟩ := haccepts
      cases houtcome with
      | more hgrammar hstarted hwaiting =>
        have hsound := ih ⟨hgrammar, Or.inl ⟨hstarted, hwaiting⟩⟩ haccepts
        rwa [List.append_assoc] at hsound
      | accept => cases hverdict
      | reject => cases hverdict
      | outOfMemory => cases hverdict

/-! A grammar of lines of words. -/

namespace WordLines

def text : List Char := "file_input: stmt* ENDMARKER\nstmt: NAME+ NEWLINE\n".toList

def file : RuleTable :=
  { symbol := .fileInput
    states := [⟨false, [(0, 0), (1, 1)], [(1, .shift 1), (2, .push .stmt 0)]⟩, ⟨true, [], []⟩]
    first := [1, 2] }

def line : RuleTable :=
  { symbol := .stmt
    states := [⟨false, [(2, 1)], [(2, .shift 1)]⟩,
      ⟨false, [(2, 1), (3, 2)], [(2, .shift 1), (3, .shift 2)]⟩, ⟨true, [], []⟩]
    first := [2] }

def grammar : Grammar :=
  { labels := [.rule .stmt, .token .endMarker, .token .word, .token .newline]
    rules := [file, line] }

theorem ofText_text : Grammar.ofText text = .ok grammar := by decide +kernel

/-- The automaton that reads lines, no more than two rules deep. -/
def automaton : Pushdown := ⟨grammar, [Frame.enter file 0 none], 0, 2, false⟩

theorem start?_eq : Pushdown.start? grammar .fileInput 2 = some automaton := rfl

/-- Two lines, one of two words and one of one. -/
def tokens : List Token :=
  [⟨.word, "a", 1, some 0⟩, ⟨.word, "b", 1, some 2⟩, ⟨.newline, "", 1, some 3⟩,
    ⟨.word, "c", 2, some 0⟩, ⟨.newline, "", 2, some 1⟩, ⟨.endMarker, "", 3, none⟩]

def firstLine : List Node :=
  [.leaf ⟨.word, "a", 1, some 0⟩, .leaf ⟨.word, "b", 1, some 2⟩, .leaf ⟨.newline, "", 1, some 3⟩]

def secondLine : List Node := [.leaf ⟨.word, "c", 2, some 0⟩, .leaf ⟨.newline, "", 2, some 1⟩]

def parts : List Node :=
  [.branch .stmt 1 (some 0) firstLine, .branch .stmt 2 (some 0) secondLine,
    .leaf ⟨.endMarker, "", 3, none⟩]

def tree : Node := .branch .fileInput 1 (some 0) parts

theorem derivation_tree : grammar.Derivation tree := by
  have hleaf (t : Token) (ht : t ∈ tokens) : grammar.Derivation (.leaf t) := by
    have hall : ∀ t ∈ tokens, (grammar.classify t.kind t.text).isSome := by decide
    exact .leaf (hall t ht)
  have hfirst : grammar.Labelled firstLine [2, 2, 3] := by decide
  have hsecond : grammar.Labelled secondLine [2, 3] := by decide
  have hparts : grammar.Labelled parts [0, 0, 1] := by decide
  refine .branch rfl hparts (by decide) fun n hn => ?_
  simp only [parts, List.mem_cons, List.not_mem_nil, or_false] at hn
  rcases hn with rfl | rfl | rfl
  · refine .branch rfl hfirst (by decide) fun n hn => ?_
    simp only [firstLine, List.mem_cons, List.not_mem_nil, or_false] at hn
    rcases hn with rfl | rfl | rfl <;> exact hleaf _ (by decide)
  · refine .branch rfl hsecond (by decide) fun n hn => ?_
    simp only [secondLine, List.mem_cons, List.not_mem_nil, or_false] at hn
    rcases hn with rfl | rfl <;> exact hleaf _ (by decide)
  · exact hleaf _ (by decide)

theorem anchored_tree : tree.Anchored := by
  refine .branch (t := ⟨.word, "a", 1, some 0⟩) rfl fun n hn => ?_
  simp only [parts, List.mem_cons, List.not_mem_nil, or_false] at hn
  rcases hn with rfl | rfl | rfl
  · refine .branch (t := ⟨.word, "a", 1, some 0⟩) rfl fun n hn => ?_
    simp only [firstLine, List.mem_cons, List.not_mem_nil, or_false] at hn
    rcases hn with rfl | rfl | rfl <;> exact .leaf _
  · refine .branch (t := ⟨.word, "c", 2, some 0⟩) rfl fun n hn => ?_
    simp only [secondLine, List.mem_cons, List.not_mem_nil, or_false] at hn
    rcases hn with rfl | rfl <;> exact .leaf _
  · exact .leaf _

end WordLines

/-- A pushdown automaton accepts nothing but derivation trees of its symbol: if more is asked for
after each token but the last, the tree that the last one gives follows the rules, has all the
tokens in order as its leaves, and places each rule where its first token stands. -/
theorem accepts_sound {text : List Char} {s : Symbol} {maxDepth : Nat} {p : Pushdown}
    {ts : List Token} {tree : Node} (hg : Grammar.ofText text = .ok g)
    (hp : start? g s maxDepth = some p) (haccepts : Accepts p ts tree) :
    g.Derivation tree ∧ tree.kind = .symbol s ∧ tree.Anchored ∧ tree.tokens = ts := by
  have h := answers_sound (lawful_of_ofText hg) (reading_start hp) haccepts
  exact ⟨h.derivation, h.kind, h.anchored, h.tokens⟩

theorem accepts_sound_wordLines :
    Accepts WordLines.automaton WordLines.tokens WordLines.tree ∧
      WordLines.grammar.Derivation WordLines.tree ∧ WordLines.tree.kind = .symbol .fileInput ∧
      WordLines.tree.Anchored ∧ WordLines.tree.tokens = WordLines.tokens := by
  have haccepts : Accepts WordLines.automaton WordLines.tokens WordLines.tree := by
    unfold Accepts
    decide +kernel
  exact ⟨haccepts, accepts_sound WordLines.ofText_text WordLines.start?_eq haccepts⟩

end Offside.Pushdown
