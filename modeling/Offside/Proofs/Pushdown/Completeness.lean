import Offside.Proofs.Grammar.Forms
import Offside.Proofs.Pushdown.Moves
import Offside.Proofs.Tree.Shape

/-!
Completeness of pushdown automata. Along a derivation tree every move is forced: the first token of
a rule begins it, and a rule that is over is not gone on with, because its grammar keeps apart what
goes on in it and what follows it. So the stack takes the tokens of every tree and rebuilds it.
-/

namespace Offside.Pushdown

open Grammar

variable {g : Grammar} {root : Symbol} {maxDepth : Nat}

/-- The label of the next token, if there is one. -/
def nextLabel (g : Grammar) (rest : List Token) : Option Nat :=
  rest.head?.bind fun t => g.classify t.kind t.text

/-- All tokens are consumed by some label. -/
def Classified (g : Grammar) (ts : List Token) : Prop :=
  ∀ t ∈ ts, (g.classify t.kind t.text).isSome

theorem classified_tokens {n : Node} (h : g.Derivation n) : Classified g n.tokens := by
  induction h with
  | leaf ht =>
    intro t' ht'
    rw [Node.tokens_leaf] at ht'
    rw [List.mem_singleton.1 ht']
    exact ht
  | branch _ _ _ _ ih =>
    intro t' ht'
    rw [Node.tokens_branch] at ht'
    obtain ⟨n, hn, ht'⟩ := List.mem_flatMap.1 ht'
    exact ih n hn t' ht'

theorem nextLabel_eq_none {rest : List Token} (hrest : Classified g rest)
    (h : nextLabel g rest = none) : rest = [] := by
  cases rest with
  | nil => rfl
  | cons t rest =>
    have hsome := hrest t List.mem_cons_self
    have hnone : g.classify t.kind t.text = none := h
    rw [hnone] at hsome
    cases hsome

/-- An arc can be used on the first token of what it consumes. -/
structure BeginsWith (g : Grammar) (n : Node) (t : Token) (l : Nat) : Prop where
  classify : g.classify t.kind t.text = some l
  first : ∀ s, n.kind = .symbol s → l ∈ g.first s
  offers : ∀ arc : Nat × Nat, g.labelOf? n = some arc.1 →
    ∃ a, Offers g.labels g.first arc l a

theorem offers_shift {t : Token} {l : Nat} (hl : g.classify t.kind t.text = some l) (next : Nat) :
    Offers g.labels g.first (l, next) l (.shift next) := by
  have hlabel := getElem?_of_classify hl
  have hterminal := isTerminal_terminal g t.kind t.text
  unfold Offers
  rw [hlabel]
  cases hcase : g.terminal t.kind t.text with
  | token => exact ⟨rfl, rfl⟩
  | keyword => exact ⟨rfl, rfl⟩
  | rule =>
    rw [hcase] at hterminal
    cases hterminal

theorem offers_push {a l : Nat} {s : Symbol} (ha : g.labels[a]? = some (.rule s))
    (hl : l ∈ g.first s) (next : Nat) : Offers g.labels g.first (a, next) l (.push s next) := by
  unfold Offers
  rw [ha]
  exact ⟨rfl, hl⟩

theorem arc_of_next? {t : RuleTable} {q a next : Nat} (h : Dfa.next? t.dfa q a = some next) :
    ∃ s, t.states[q]? = some s ∧ (a, next) ∈ s.arcs := by
  obtain ⟨state, hstate, hlookup⟩ := Option.bind_eq_some_iff.1 h
  rw [RuleTable.dfa, List.getElem?_map] at hstate
  obtain ⟨s, hs, rfl⟩ := Option.map_eq_some_iff.1 hstate
  exact ⟨s, hs, mem_of_lookup hlookup⟩

theorem accepting_of_isAccepting {t : RuleTable} {q : Nat} (h : Dfa.isAccepting t.dfa q = true) :
    ∃ s, t.states[q]? = some s ∧ s.accepting = true := by
  rw [Dfa.isAccepting, RuleTable.dfa, List.getElem?_map] at h
  cases hs : t.states[q]? with
  | none =>
    rw [hs] at h
    cases h
  | some s =>
    rw [hs] at h
    exact ⟨s, rfl, h⟩

/-- A derivation tree has a first token, and it is one that the tree can begin with. -/
theorem beginsWith_of_derivation (hg : g.Lawful) (hsep : g.Separated root) {n : Node}
    (h : g.Derivation n) : ∃ t ts l, n.tokens = t :: ts ∧ BeginsWith g n t l := by
  induction h with
  | @leaf t ht =>
    obtain ⟨l, hl⟩ := Option.isSome_iff_exists.1 ht
    refine ⟨t, [], l, rfl, hl, fun s hs => (by cases hs), fun arc harc => ?_⟩
    obtain rfl : l = arc.1 := Option.some.inj (hl.symm.trans harc)
    exact ⟨.shift arc.2, offers_shift hl arc.2⟩
  | @branch s line column? children table labels hrule hlabels haccepts hchildren ih =>
    obtain ⟨htable, rfl⟩ := mem_of_rule? hrule
    cases children with
    | nil =>
      obtain rfl : labels = [] := by simpa [Labelled] using hlabels.symm
      obtain ⟨st, hst, haccepting⟩ := accepting_of_isAccepting haccepts
      rw [hsep.not_empty table htable st hst] at haccepting
      cases haccepting
    | cons n children =>
      cases labels with
      | nil => simp [Labelled] at hlabels
      | cons a labels =>
        obtain ⟨ha, _⟩ : g.labelOf? n = some a ∧ g.Labelled children labels := by
          simpa [Labelled] using hlabels
        obtain ⟨q, hrun, _⟩ := Dfa.acceptsFrom_iff.1 haccepts
        rw [Dfa.run_cons] at hrun
        obtain ⟨next, hnext, _⟩ := Option.bind_eq_some_iff.1 hrun
        obtain ⟨st, hst, harc⟩ := arc_of_next? hnext
        obtain ⟨t, ts, l, htokens, hbegins⟩ := ih n List.mem_cons_self
        have hfirst : l ∈ g.first table.symbol := by
          rw [first, hrule, Option.map_some, Option.getD_some, hg.mem_first_iff htable]
          obtain ⟨act, hact⟩ := hbegins.offers (a, next) ha
          refine ⟨st, hst, ?_⟩
          rw [(hg.action_iff htable (List.mem_of_getElem? hst)).2 ⟨_, harc, hact⟩]
          rfl
        refine ⟨t, ts ++ children.flatMap Node.tokens, l, ?_, hbegins.classify, ?_, ?_⟩
        · rw [Node.tokens_branch, List.flatMap_cons, htokens, List.cons_append]
        · intro s hs
          obtain rfl : table.symbol = s := NodeKind.symbol.inj hs
          exact hfirst
        · intro arc harc'
          exact ⟨.push table.symbol arc.2, offers_push (getElem?_of_idxOf? harc') hfirst arc.2⟩

/-- In every place where a rule can use an arc for a node, its tokens are taken, and then the rule
has the node, but for rules that the next token completes. -/
def TakesNode (g : Grammar) (root : Symbol) (maxDepth : Nat) (n : Node) : Prop :=
  ∀ (f : Frame) (below : List Frame) (s : TableState) (a next : Nat) (rest : List Token)
    (before : List Label), g.rule? f.table.symbol = some f.table → f.tableState? = some s →
    (a, next) ∈ s.arcs → g.labelOf? n = some a → Classified g rest →
    g.Leads [.rule root] (before ++ g.inForm n :: g.wordOf rest) →
    below.length + 1 + n.nesting ≤ maxDepth →
    ∃ stack n', TakesAll g maxDepth n.tokens (f :: below) stack ∧
      Owes (g.ClosedAtEnd root) (nextLabel g rest) stack ((f.goto next).adopt n' :: below) ∧
      n'.unplaced = n.unplaced

theorem takesNode_leaf (hg : g.Lawful) {t : Token} : TakesNode g root maxDepth (.leaf t) := by
  intro f below s a next rest before hf hs harc hl _ _ _
  rw [labelOf?_leaf] at hl
  have haction : s.action? a = some (.shift next) :=
    (action?_iff hg hf hs).2 ⟨_, harc, offers_shift hl next⟩
  exact ⟨_, .leaf t, .cons hl (.shift hs haction) (.nil _), .nil _, rfl⟩

/-- The next token completes the rules that are owed to it. -/
theorem takesAll_of_owes {closed : Prop} {ts rest : List Token}
    {stack₁ stack₂ stack₃ stack₄ : List Frame}
    (howes : Owes closed (nextLabel g (ts ++ rest)) stack₁ stack₂)
    (htakes : TakesAll g maxDepth ts stack₂ stack₃)
    (howes' : Owes closed (nextLabel g rest) stack₃ stack₄) :
    ∃ stack, TakesAll g maxDepth ts stack₁ stack ∧ Owes closed (nextLabel g rest) stack stack₄ := by
  cases htakes with
  | nil => exact ⟨stack₁, .nil _, howes.trans howes'⟩
  | @cons t ts l _ _ _ hl ht hrest =>
    have hnext : nextLabel g (t :: ts ++ rest) = some l := hl
    rw [hnext] at howes
    exact ⟨stack₃, .cons hl (howes.takes ht) hrest, howes'⟩

/-- The tokens of several nodes are taken by the rule that reads the nodes. -/
theorem takes_children {cs : List Node} (h : ∀ c ∈ cs, TakesNode g root maxDepth c)
    (hcs : ∀ c ∈ cs, g.Derivation c) (f : Frame) (below : List Frame) (labels : List Nat) (q : Nat)
    (rest : List Token) (before : List Label) (hf : g.rule? f.table.symbol = some f.table)
    (hlabels : g.Labelled cs labels) (hrun : Dfa.run f.table.dfa f.state labels = some q)
    (hrest : Classified g rest)
    (hleads : g.Leads [.rule root] (before ++ (g.formOf cs ++ g.wordOf rest)))
    (hdepth : below.length + 1 + Node.nestingAll cs ≤ maxDepth) :
    ∃ (stack : List Frame) (cs' : List Node),
      TakesAll g maxDepth (cs.flatMap Node.tokens) (f :: below) stack ∧
      Owes (g.ClosedAtEnd root) (nextLabel g rest) stack
        ({ f with state := q, children := cs'.reverse ++ f.children } :: below) ∧
      cs'.map Node.unplaced = cs.map Node.unplaced := by
  induction cs generalizing f labels before with
  | nil =>
    obtain rfl : labels = [] := by simpa [Labelled] using hlabels.symm
    obtain rfl : f.state = q := Option.some.inj hrun
    exact ⟨f :: below, [], .nil _, .nil _, rfl⟩
  | cons c cs ih =>
    cases labels with
    | nil => simp [Labelled] at hlabels
    | cons a labels =>
      obtain ⟨ha, hlabels⟩ : g.labelOf? c = some a ∧ g.Labelled cs labels := by
        simpa [Labelled] using hlabels
      rw [Dfa.run_cons] at hrun
      obtain ⟨next, hnext, hrun⟩ := Option.bind_eq_some_iff.1 hrun
      obtain ⟨s, hs, harc⟩ := arc_of_next? hnext
      have hcs' : ∀ c' ∈ cs, g.Derivation c' := fun c' hc' => hcs c' (List.mem_cons_of_mem _ hc')
      have hrest' : Classified g (cs.flatMap Node.tokens ++ rest) := by
        intro t ht
        rcases List.mem_append.1 ht with ht | ht
        · obtain ⟨c', hc', ht⟩ := List.mem_flatMap.1 ht
          exact classified_tokens (hcs' c' hc') t ht
        · exact hrest t ht
      have hleads' : g.Leads [.rule root]
          (before ++ g.inForm c :: g.wordOf (cs.flatMap Node.tokens ++ rest)) := by
        have hexpand := (leads_formOf fun c' hc' => (hcs' c' hc').leads).context
          (before ++ [g.inForm c]) (g.wordOf rest)
        simp only [List.append_assoc, List.cons_append, List.nil_append] at hexpand
        rw [wordOf, List.map_append]
        exact hleads.trans hexpand
      rw [Node.nestingAll] at hdepth
      obtain ⟨stack₁, c', htakes₁, howes₁, hc'⟩ := h c List.mem_cons_self f below s a next
        (cs.flatMap Node.tokens ++ rest) before hf hs harc ha hrest' hleads' (by omega)
      obtain ⟨stack₂, cs', htakes₂, howes₂, hunplaced⟩ := ih
        (fun c' hc' => h c' (List.mem_cons_of_mem _ hc')) hcs' ((f.goto next).adopt c') labels
        (before ++ [g.inForm c]) hf hlabels hrun
        (by
          simpa only [formOf_cons, List.append_assoc, List.cons_append, List.nil_append]
            using hleads)
        (by omega)
      obtain ⟨stack, htakes, howes⟩ := takesAll_of_owes howes₁ htakes₂ howes₂
      refine ⟨stack, c' :: cs', ?_, ?_, ?_⟩
      · rw [List.flatMap_cons]
        exact htakes₁.append htakes
      · simpa only [Frame.adopt, Frame.goto, List.reverse_cons, List.append_assoc,
          List.cons_append, List.nil_append] using howes
      · rw [List.map_cons, List.map_cons, hc', hunplaced]

/-- What a rule that is over owes to the next token, or to the end. -/
theorem separated_ends (hsep : g.Separated root) {t : RuleTable} (ht : t ∈ g.rules)
    {s : TableState} (hs : s ∈ t.states) (haccepting : s.accepting = true) {before : List Label}
    {rest : List Token} (hrest : Classified g rest)
    (hleads : g.Leads [.rule root] (before ++ .rule t.symbol :: g.wordOf rest)) :
    (∀ l, nextLabel g rest = some l → s.action? l = none) ∧
      (g.ClosedAtEnd root → nextLabel g rest = none → s.arcs = []) := by
  constructor
  · intro l hl
    cases rest with
    | nil => cases hl
    | cons t' rest =>
      have hclassify : g.classify t'.kind t'.text = some l := hl
      exact hsep.not_followed t ht s hs haccepting l ⟨before, g.wordOf rest, _,
        getElem?_of_classify hclassify, isTerminal_terminal g _ _, hleads⟩
  · intro hclosed hnone
    obtain rfl := nextLabel_eq_none hrest hnone
    exact hclosed t ht ⟨before, hleads⟩ s hs haccepting

theorem takesNode_branch (hg : g.Lawful) (hsep : g.Separated root) {s : Symbol} {line : Nat}
    {column? : Option Nat} {children : List Node} {t : RuleTable} {labels : List Nat}
    (hrule : g.rule? s = some t) (hlabels : g.Labelled children labels)
    (haccepts : Dfa.accepts t.dfa labels = true) (hchildren : ∀ n ∈ children, g.Derivation n)
    (ih : ∀ n ∈ children, TakesNode g root maxDepth n) :
    TakesNode g root maxDepth (.branch s line column? children) := by
  intro f below st a next rest before hf hst harc ha hrest hleads hdepth
  obtain ⟨htable, rfl⟩ := mem_of_rule? hrule
  rw [labelOf?_branch] at ha
  rw [inForm_branch] at hleads
  rw [Node.nesting_branch] at hdepth
  obtain ⟨q, hrun, haccepting⟩ := Dfa.acceptsFrom_iff.1 haccepts
  obtain ⟨st', hst', haccepting⟩ := accepting_of_isAccepting haccepting
  have hderivation : g.Derivation (.branch t.symbol line column? children) :=
    .branch hrule hlabels haccepts hchildren
  obtain ⟨t₁, ts, l, htokens, hbegins⟩ := beginsWith_of_derivation hg hsep hderivation
  rw [Node.tokens_branch] at htokens
  have haction : st.action? l = some (.push t.symbol next) :=
    (action?_iff hg hf hst).2 ⟨_, harc,
      offers_push (getElem?_of_idxOf? ha) (hbegins.first t.symbol rfl) next⟩
  have hleads' : g.Leads [.rule root] (before ++ (g.formOf children ++ g.wordOf rest)) := by
    have hexpand := (leads_children hrule hlabels haccepts).context before (g.wordOf rest)
    simp only [List.append_assoc, List.cons_append, List.nil_append] at hexpand
    exact hleads.trans hexpand
  obtain ⟨stack, cs', htakes, howes, hunplaced⟩ := takes_children ih hchildren
    (Frame.enter t t₁.line t₁.column?) (f.goto next :: below) labels q rest before hrule hlabels
    hrun hrest hleads' (by rw [List.length_cons]; omega)
  obtain ⟨hnext, hend⟩ := separated_ends hsep htable (List.mem_of_getElem? hst') haccepting hrest
    hleads
  refine ⟨stack, .branch t.symbol t₁.line t₁.column? cs', ?_, ?_, ?_⟩
  · rw [Node.tokens_branch]
    rw [htokens] at htakes ⊢
    cases htakes with
    | @cons _ _ l' _ _ _ hl' ht₁ hts =>
      obtain rfl : l = l' := Option.some.inj (hbegins.classify.symm.trans hl')
      exact .cons hl' (.move (.push hst haction hrule (by omega)) ht₁) hts
  · refine howes.trans (.pop hst' haccepting hnext hend ?_)
    rw [Frame.node, Frame.enter, List.append_nil, List.reverse_reverse]
    exact .nil _
  · rw [Node.unplaced_branch, Node.unplaced_branch, hunplaced]

theorem takesNode_of_derivation (hg : g.Lawful) (hsep : g.Separated root) {n : Node}
    (h : g.Derivation n) : TakesNode g root maxDepth n := by
  induction h with
  | leaf _ => exact takesNode_leaf hg
  | branch hrule hlabels haccepts hchildren ih =>
    exact takesNode_branch hg hsep hrule hlabels haccepts hchildren ih

/-- Locating twice is locating once. -/
theorem feed_locate {p : Pushdown} {t : Token} {l : Nat}
    (hl : p.grammar.classify t.kind t.text = some l) : feed t (p.locate t) = feed t p := by
  have hgrammar : (p.locate t).grammar = p.grammar := by
    unfold locate
    split <;> rfl
  have hlocate : (p.locate t).locate t = p.locate t := by
    have hstarted : (p.locate t).started = true := by
      unfold locate
      split
      · assumption
      · rfl
    rw [locate, if_pos hstarted]
  unfold feed
  rw [hgrammar]
  simp only [hl, hlocate]

/-- The tokens of a tree are taken by the rule of the tree, and rebuild it but for the rules that
are still to be completed. -/
theorem takes_of_derivation (hg : g.Lawful) (hsep : g.Separated root) {table : RuleTable}
    (hroot : g.rule? root = some table) {tree : Node} (htree : g.Derivation tree)
    (hkind : tree.kind = .symbol root) (hdepth : tree.nesting ≤ maxDepth) :
    ∃ t ts l stack f, tree.tokens = t :: ts ∧ g.classify t.kind t.text = some l ∧
      TakesAll g maxDepth tree.tokens [Frame.enter table t.line t.column?] stack ∧
      Owes (g.ClosedAtEnd root) none stack [f] ∧ f.node.unplaced = tree.unplaced ∧
      (g.ClosedAtEnd root → Final f) := by
  obtain ⟨t₁, ts, l, htokens, hbegins⟩ := beginsWith_of_derivation hg hsep htree
  cases htree with
  | leaf => cases hkind
  | @branch s line column? children t labels hrule hlabels haccepts hchildren =>
    obtain rfl : s = root := NodeKind.symbol.inj hkind
    obtain rfl : t = table := Option.some.inj (hrule.symm.trans hroot)
    obtain ⟨htable, rfl⟩ := mem_of_rule? hrule
    obtain ⟨q, hrun, haccepting⟩ := Dfa.acceptsFrom_iff.1 haccepts
    obtain ⟨st, hst, haccepting⟩ := accepting_of_isAccepting haccepting
    rw [Node.nesting_branch] at hdepth
    have hleads : g.Leads [.rule t.symbol] ([] ++ (g.formOf children ++ g.wordOf [])) := by
      rw [wordOf, List.map_nil, List.append_nil]
      exact leads_children hrule hlabels haccepts
    have hdepth' : ([] : List Frame).length + 1 + Node.nestingAll children ≤ maxDepth := by
      rw [List.length_nil]
      omega
    obtain ⟨stack, cs', htakes, howes, hunplaced⟩ := takes_children
      (fun c hc => takesNode_of_derivation hg hsep (hchildren c hc)) hchildren
      (Frame.enter t t₁.line t₁.column?) [] labels q [] [] hrule hlabels hrun
      (fun _ h => absurd h List.not_mem_nil) hleads hdepth'
    rw [← Node.tokens_branch t.symbol line column?] at htakes
    refine ⟨t₁, ts, l, stack, _, htokens, hbegins.classify, htakes, howes, ?_, fun hclosed => ?_⟩
    · rw [Frame.node, Node.unplaced_branch, Node.unplaced_branch, ← hunplaced]
      simp only [Frame.enter, List.append_nil, List.reverse_reverse]
    · exact ⟨st, hst, haccepting,
        hclosed t htable ⟨[], .refl⟩ st (List.mem_of_getElem? hst) haccepting⟩

/-- An automaton over a separated grammar refuses no token of a derivation tree that is not nested
too deep. -/
theorem answers_of_derivation (hg : g.Lawful) (hsep : g.Separated root) {p : Pushdown}
    (hp : start? g root maxDepth = some p) {tree : Node} (htree : g.Derivation tree)
    (hkind : tree.kind = .symbol root) (hdepth : tree.nesting ≤ maxDepth) :
    ∃ tree', tree'.unplaced = tree.unplaced ∧
      (Accepts p tree.tokens tree' ∨
        answers tree.tokens p = List.replicate tree.tokens.length .more) ∧
      (g.ClosedAtEnd root → Accepts p tree.tokens tree') := by
  obtain ⟨table, htable, rfl⟩ := Option.map_eq_some_iff.1 hp
  obtain ⟨t, ts, l, stack, f, htokens, hclassify, htakes, howes, hunplaced, hfinal⟩ :=
    takes_of_derivation hg hsep htable htree hkind hdepth
  have hruled : Ruled g [Frame.enter table t.line t.column?] := by
    intro f hf
    obtain ⟨_, rfl⟩ := mem_of_rule? htable
    rw [List.mem_singleton.1 hf]
    exact htable
  rw [htokens] at htakes ⊢
  obtain ⟨v, hanswers, hv, haccept⟩ := answers_of_takesAll hg (List.cons_ne_nil _ _) htakes howes
    ⟨g, [Frame.enter table t.line t.column?], 0, maxDepth, true⟩ rfl rfl rfl rfl hruled
  have hfeed := feed_locate (p := ⟨g, [Frame.enter table 0 none], 0, maxDepth, false⟩) hclassify
  have hstart : answers (t :: ts) ⟨g, [Frame.enter table 0 none], 0, maxDepth, false⟩ =
      List.replicate ((t :: ts).length - 1) .more ++ [v] := by
    rw [answers, ← hfeed]
    exact hanswers
  refine ⟨f.node, hunplaced, ?_, fun hclosed => ?_⟩
  · rcases hv with rfl | rfl
    · refine Or.inr (hstart.trans ?_)
      rw [List.length_cons, Nat.add_sub_cancel, ← List.replicate_succ']
    · exact Or.inl hstart
  · obtain rfl := haccept hclosed (hfinal hclosed)
    exact hstart

/-- Tokens have no more than one derivation tree. -/
theorem derivation_unique (hg : g.Lawful) (hsep : g.Separated root) {tree tree' : Node}
    (htree : g.Derivation tree) (hkind : tree.kind = .symbol root) (htree' : g.Derivation tree')
    (hkind' : tree'.kind = .symbol root) (htokens : tree.tokens = tree'.tokens) :
    tree.unplaced = tree'.unplaced := by
  have hroot : ∃ table, g.rule? root = some table := by
    cases htree with
    | leaf => cases hkind
    | branch hrule =>
      obtain rfl := NodeKind.symbol.inj hkind
      exact ⟨_, hrule⟩
  obtain ⟨table, hroot⟩ := hroot
  obtain ⟨t, ts, _, stack, f, hfirst, -, htakes, howes, hunplaced, -⟩ :=
    takes_of_derivation hg hsep hroot htree hkind (Nat.le_max_left _ tree'.nesting)
  obtain ⟨t', ts', _, stack', f', hfirst', -, htakes', howes', hunplaced', -⟩ :=
    takes_of_derivation hg hsep hroot htree' hkind' (Nat.le_max_right tree.nesting _)
  -- the tokens tell the stack, and the stack tells the tree
  obtain ⟨rfl, rfl⟩ := List.cons.inj (hfirst.symm.trans (htokens.trans hfirst'))
  rw [← htokens] at htakes'
  obtain rfl := htakes.unique htakes'
  obtain rfl := howes.unique howes'
  rw [← hunplaced, ← hunplaced']

/-- A pushdown automaton over a separated grammar takes every derivation tree of its symbol that is
not nested deeper than it may go: it asks for more after each token but the last, and then gives the
tree back, up to the places of its rules, or waits for a rule to go on; if the grammar is closed at
the end it gives the tree back. In any case there is no second tree for the tokens. -/
theorem accepts_complete {text : List Char} {s : Symbol} (hg : Grammar.ofText text = .ok g)
    (hsep : g.Separated s) :
    (∀ maxDepth p tree, start? g s maxDepth = some p → g.Derivation tree →
      tree.kind = .symbol s → tree.nesting ≤ maxDepth →
      ∃ tree', tree'.unplaced = tree.unplaced ∧
        (Accepts p tree.tokens tree' ∨
          answers tree.tokens p = List.replicate tree.tokens.length .more) ∧
        (g.ClosedAtEnd s → Accepts p tree.tokens tree')) ∧
    ∀ tree tree', g.Derivation tree → tree.kind = .symbol s → g.Derivation tree' →
      tree'.kind = .symbol s → tree.tokens = tree'.tokens → tree.unplaced = tree'.unplaced := by
  have hlawful := lawful_of_ofText hg
  constructor
  · intro maxDepth p tree hp htree hkind hdepth
    exact answers_of_derivation hlawful hsep hp htree hkind hdepth
  · intro tree tree' htree hkind htree' hkind' htokens
    exact derivation_unique hlawful hsep htree hkind htree' hkind' htokens

theorem wordLines_final : ∀ t ∈ WordLines.grammar.rules, ∀ s ∈ t.states, s.accepting = true →
    s.arcs = [] ∧ s.actions = [] := by decide

theorem wordLines_separated : WordLines.grammar.Separated .fileInput := by
  have hstart : ∀ t ∈ WordLines.grammar.rules, (t.states[0]?.map TableState.accepting) =
      some false := by decide
  refine
    { not_empty := fun t ht s hs => ?_
      not_followed := fun t ht s hs haccepting l _ => ?_ }
  · have := hstart t ht
    rw [hs] at this
    exact Option.some.inj this
  · rw [TableState.action?, (wordLines_final t ht s hs haccepting).2]
    rfl

theorem accepts_complete_wordLines :
    (∃ tree', tree'.unplaced = WordLines.tree.unplaced ∧
      Accepts WordLines.automaton WordLines.tree.tokens tree') ∧
    ∀ tree, WordLines.grammar.Derivation tree → tree.kind = .symbol .fileInput →
      WordLines.tree.tokens = tree.tokens → WordLines.tree.unplaced = tree.unplaced := by
  obtain ⟨hexists, hunique⟩ := accepts_complete WordLines.ofText_text wordLines_separated
  obtain ⟨tree', hunplaced, -, haccepts⟩ :=
    hexists 2 _ _ WordLines.start?_eq WordLines.derivation_tree rfl (by decide)
  have hclosed : WordLines.grammar.ClosedAtEnd .fileInput :=
    fun t ht _ s hs haccepting => (wordLines_final t ht s hs haccepting).1
  exact ⟨⟨tree', hunplaced, haccepts hclosed⟩,
    fun tree htree hkind htokens =>
      hunique _ tree WordLines.derivation_tree rfl htree hkind htokens⟩

/-! A grammar whose inputs have no end of their own: a file is a row of words. The rule of the row
can always go on, so nothing tells that it is over. -/

namespace OpenWords

def text : List Char := "file_input: stmt\nstmt: NAME+\n".toList

def file : RuleTable :=
  { symbol := .fileInput
    states := [⟨false, [(0, 1)], [(1, .push .stmt 1)]⟩, ⟨true, [], []⟩]
    first := [1] }

def row : RuleTable :=
  { symbol := .stmt
    states := [⟨false, [(1, 1)], [(1, .shift 1)]⟩, ⟨true, [(1, 1)], [(1, .shift 1)]⟩]
    first := [1] }

def grammar : Grammar := ⟨[.rule .stmt, .token .word], [file, row]⟩

theorem ofText_text : Grammar.ofText text = .ok grammar := by decide +kernel

def automaton : Pushdown := ⟨grammar, [Frame.enter file 0 none], 0, 2, false⟩

theorem start?_eq : Pushdown.start? grammar .fileInput 2 = some automaton := rfl

def word : Token := ⟨.word, "x", 1, some 0⟩

def tree : Node := .branch .fileInput 1 (some 0) [.branch .stmt 1 (some 0) [.leaf word]]

theorem derivation_tree : grammar.Derivation tree := by
  have hwords : grammar.Labelled [.leaf word] [1] := by decide
  have hrow : grammar.Derivation (.branch .stmt 1 (some 0) [.leaf word]) := by
    refine .branch rfl hwords (by decide) fun n hn => ?_
    rw [List.mem_singleton.1 hn]
    exact .leaf (by decide)
  have hrows : grammar.Labelled [.branch .stmt 1 (some 0) [.leaf word]] [0] := by decide
  refine .branch rfl hrows (by decide) fun n hn => ?_
  rw [List.mem_singleton.1 hn]
  exact hrow

theorem rule?_eq {s : Symbol} {t : RuleTable} (h : grammar.rule? s = some t) :
    s = .fileInput ∧ t = file ∨ s = .stmt ∧ t = row := by
  obtain ⟨hmem, rfl⟩ := mem_of_rule? h
  rcases List.mem_cons.1 hmem with rfl | hmem
  · exact Or.inl ⟨rfl, rfl⟩
  · rw [List.mem_singleton.1 hmem]
    exact Or.inr ⟨rfl, rfl⟩

theorem next?_row {q a r : Nat} (h : Dfa.next? row.dfa q a = some r) : a = 1 := by
  obtain ⟨state, hstate, hlookup⟩ := Option.bind_eq_some_iff.1 h
  have hall : ∀ s ∈ row.dfa, s.arcs = [(1, 1)] := by decide
  have hmem := mem_of_lookup hlookup
  rw [hall state (List.mem_of_getElem? hstate), List.mem_singleton] at hmem
  exact congrArg Prod.fst hmem

theorem next?_file {q a r : Nat} (h : Dfa.next? file.dfa q a = some r) :
    q = 0 ∧ a = 0 ∧ r = 1 := by
  obtain ⟨state, hstate, hlookup⟩ := Option.bind_eq_some_iff.1 h
  have hmem := mem_of_lookup hlookup
  match q with
  | 0 =>
    obtain rfl := Option.some.inj hstate
    obtain ⟨rfl, rfl⟩ := Prod.mk.inj (List.mem_singleton.1 hmem)
    exact ⟨rfl, rfl, rfl⟩
  | 1 =>
    obtain rfl := Option.some.inj hstate
    cases hmem
  | q + 2 => cases hstate

theorem eq_one_of_run_row {labels : List Nat} {q r : Nat}
    (h : Dfa.run row.dfa q labels = some r) : ∀ a ∈ labels, a = 1 := by
  induction labels generalizing q with
  | nil => exact fun _ h => absurd h List.not_mem_nil
  | cons a labels ih =>
    rw [Dfa.run_cons] at h
    obtain ⟨next, hnext, hrest⟩ := Option.bind_eq_some_iff.1 h
    intro b hb
    rcases List.mem_cons.1 hb with rfl | hb
    · exact next?_row hnext
    · exact ih hrest b hb

/-- A file is nothing but its row. -/
theorem eq_of_accepts_file {labels : List Nat} (h : Dfa.accepts file.dfa labels = true) :
    labels = [0] := by
  obtain ⟨q, hrun, _⟩ := Dfa.acceptsFrom_iff.1 h
  match labels with
  | [] => exact absurd h (by decide)
  | [a] =>
    rw [Dfa.run_cons] at hrun
    obtain ⟨_, hnext, _⟩ := Option.bind_eq_some_iff.1 hrun
    rw [(next?_file hnext).2.1]
  | a :: b :: labels =>
    rw [Dfa.run_cons] at hrun
    obtain ⟨_, hnext, hrun⟩ := Option.bind_eq_some_iff.1 hrun
    obtain ⟨_, _, rfl⟩ := next?_file hnext
    rw [Dfa.run_cons] at hrun
    obtain ⟨_, hnext, _⟩ := Option.bind_eq_some_iff.1 hrun
    cases (next?_file hnext).1

/-- The forms: the file, its row, or words. -/
def Form (form : List Label) : Prop :=
  form = [.rule .fileInput] ∨ form = [.rule .stmt] ∨ ∀ lab ∈ form, lab = .token .word

theorem form_expands {form form' : List Label} (h : Form form)
    (hstep : grammar.Expands form form') : Form form' := by
  obtain @⟨before, after, form', s, t, labels, hrule, haccepts, hform⟩ := hstep
  have hmem : Label.rule s ∈ before ++ .rule s :: after :=
    List.mem_append_right _ List.mem_cons_self
  have hwhole (hone : ∃ x, before ++ .rule s :: after = [x]) : before = [] ∧ after = [] := by
    obtain ⟨x, hx⟩ := hone
    have hlength := congrArg List.length hx
    simp only [List.length_append, List.length_cons, List.length_nil] at hlength
    exact ⟨List.length_eq_zero_iff.1 (by omega), List.length_eq_zero_iff.1 (by omega)⟩
  rcases h with h | h | h
  · obtain ⟨rfl, rfl⟩ := hwhole ⟨_, h⟩
    obtain rfl : s = .fileInput := by simpa using h
    rcases rule?_eq hrule with ⟨_, rfl⟩ | ⟨hs, _⟩
    · obtain rfl := eq_of_accepts_file haccepts
      right; left
      simpa [grammar] using hform.symm
    · cases hs
  · obtain ⟨rfl, rfl⟩ := hwhole ⟨_, h⟩
    obtain rfl : s = .stmt := by simpa using h
    rcases rule?_eq hrule with ⟨hs, _⟩ | ⟨_, rfl⟩
    · cases hs
    · obtain ⟨q, hrun, _⟩ := Dfa.acceptsFrom_iff.1 haccepts
      right; right
      intro lab hlab
      rw [List.nil_append, List.append_nil] at hlab
      have hsome : some lab ∈ labels.map (grammar.labels[·]?) :=
        hform ▸ List.mem_map_of_mem hlab
      obtain ⟨a, ha, heq⟩ := List.mem_map.1 hsome
      rw [eq_one_of_run_row hrun a ha] at heq
      exact (Option.some.inj heq).symm
  · cases h _ hmem

theorem form_leads {form : List Label} (h : grammar.Leads [.rule .fileInput] form) : Form form := by
  induction h with
  | refl => exact Or.inl rfl
  | tail _ hstep ih => exact form_expands ih hstep

/-- Nothing follows a rule. -/
theorem not_follows (s : Symbol) (l : Nat) : ¬grammar.Follows .fileInput s l := by
  rintro ⟨before, after, lab, _, _, hleads⟩
  have hlength : ∀ {x : Label}, before ++ .rule s :: lab :: after ≠ [x] := by
    intro x hx
    have := congrArg List.length hx
    simp only [List.length_append, List.length_cons, List.length_nil] at this
    omega
  rcases form_leads hleads with h | h | h
  · exact hlength h
  · exact hlength h
  · cases h (.rule s) (List.mem_append_right _ List.mem_cons_self)

end OpenWords

/-- It is not enough that the rule of the symbol itself cannot go on at the end: here no rule is
empty and nothing follows a rule, and yet the automaton waits for more words. -/
theorem open_end_not_accepted :
    Grammar.ofText OpenWords.text = .ok OpenWords.grammar ∧
    (∀ t ∈ OpenWords.grammar.rules, ∀ s, t.states[0]? = some s → s.accepting = false) ∧
    (∀ t ∈ OpenWords.grammar.rules, ∀ s ∈ t.states, s.accepting = true →
      ∀ l, OpenWords.grammar.Follows .fileInput t.symbol l → s.action? l = none) ∧
    (∀ t, OpenWords.grammar.rule? .fileInput = some t → ∀ s ∈ t.states, s.accepting = true →
      s.arcs = []) ∧
    start? OpenWords.grammar .fileInput 2 = some OpenWords.automaton ∧
    OpenWords.grammar.Derivation OpenWords.tree ∧ OpenWords.tree.kind = .symbol .fileInput ∧
    OpenWords.tree.nesting ≤ 2 ∧
    ∀ tree, ¬Accepts OpenWords.automaton OpenWords.tree.tokens tree := by
  refine ⟨OpenWords.ofText_text, ?_, ?_, ?_, OpenWords.start?_eq, OpenWords.derivation_tree, rfl,
    by decide, ?_⟩
  · intro t ht s hs
    have hstart : ∀ t ∈ OpenWords.grammar.rules, (t.states[0]?.map TableState.accepting) =
        some false := by decide
    have := hstart t ht
    rw [hs] at this
    exact Option.some.inj this
  · intro t _ s _ _ l hfollows
    exact absurd hfollows (OpenWords.not_follows t.symbol l)
  · intro t ht
    obtain rfl : OpenWords.file = t := Option.some.inj ht
    decide
  · intro tree haccepts
    have hanswers : answers OpenWords.tree.tokens OpenWords.automaton = [.more] := by
      decide +kernel
    have hlength : OpenWords.tree.tokens.length = 1 := by decide
    rw [Accepts, hanswers, hlength] at haccepts
    cases haccepts

end Offside.Pushdown
