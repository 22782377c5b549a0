import Offside.Proofs.Grammar.Productive
import Offside.Proofs.Pushdown.Soundness

/-!
Viable prefixes. A token is refused as soon as nothing can follow: while more is asked for, every
rule in progress can be completed from the innermost one outwards, and what completes the outermost
one continues the tokens that have been read.
-/

namespace Offside.Pushdown

open Grammar

variable {text : List Char} {g : Grammar} {root : Symbol} {placed : Prop}

/-- A tree of a symbol that begins with certain tokens. -/
structure Continuation (g : Grammar) (placed : Prop) (s : Symbol) (ts : List Token) (n : Node) :
    Prop where
  derivation : g.Derivation n
  kind : n.kind = .symbol s
  anchored : placed → n.Anchored
  tokens : ts <+: n.tokens

/-- A rule in progress whose pending nodes are there goes on to a node of the rule. -/
theorem exists_continuation_of_reads (hg : Grammar.ofText text = .ok g)
    (hproductive : g.Productive placed) {f : Frame} {pending : List Nat} (hf : f.Reads g pending)
    {ns : List Node} (hns : g.Labelled ns pending)
    (hall : ∀ n ∈ ns, g.Derivation n ∧ (placed → n.Anchored)) {t : Token} {ts : List Token}
    (hfirst : t :: ts <+: f.tokens ++ ns.flatMap Node.tokens) (hline : f.line = t.line)
    (hcolumn : f.column? = t.column?) :
    ∃ n, Continuation g placed f.table.symbol (f.tokens ++ ns.flatMap Node.tokens) n := by
  obtain ⟨labels, hlabels, hrun⟩ := hf.state
  obtain ⟨v, haccepts, hv⟩ := exists_continuation hg (mem_of_rule? hf.rule).1 hrun
  obtain ⟨us, hus, hall'⟩ := exists_nodes (lawful_of_ofText hg) hproductive hv
  let children := f.children.reverse ++ ns ++ us
  have hchildren : ∀ n ∈ children, g.Derivation n ∧ (placed → n.Anchored) := by
    intro n hn
    rcases List.mem_append.1 hn with hn | hn
    · rcases List.mem_append.1 hn with hn | hn
      · rw [List.mem_reverse] at hn
        exact ⟨hf.derivation n hn, fun _ => hf.anchored n hn⟩
      · exact hall n hn
    · exact hall' n hn
  have htokens : children.flatMap Node.tokens =
      f.tokens ++ ns.flatMap Node.tokens ++ us.flatMap Node.tokens := by
    simp only [children, List.flatMap_append, Frame.tokens]
  have haccepts : Dfa.accepts f.table.dfa (labels ++ pending ++ v) = true := by
    rw [Dfa.acceptsFrom_iff] at haccepts
    obtain ⟨r, hr, haccepting⟩ := haccepts
    refine Dfa.acceptsFrom_iff.2 ⟨r, ?_, haccepting⟩
    rw [Dfa.run_append, hrun, Option.bind_some, hr]
  refine ⟨.branch f.table.symbol f.line f.column? children,
    { derivation := .branch hf.rule ((hlabels.append hns).append hus) haccepts
        fun n hn => (hchildren n hn).1
      kind := rfl
      anchored := fun hplaced => ?_
      tokens := ?_ }⟩
  · obtain ⟨more, hmore⟩ := hfirst
    have hfirst : children.flatMap Node.tokens =
        t :: (ts ++ more ++ us.flatMap Node.tokens) := by
      rw [htokens, ← hmore, List.cons_append, List.cons_append]
    rw [hline, hcolumn]
    exact .branch hfirst fun n hn => (hchildren n hn).2 hplaced
  · rw [Node.tokens_branch, htokens]
    exact List.prefix_append _ _

/-- All rules in progress go on to a tree of the outermost one. -/
theorem exists_continuation_of_stacked (hg : Grammar.ofText text = .ok g)
    (hproductive : g.Productive placed) {pending : List Nat} {stack : List Frame}
    (h : Stacked g root pending stack) {ns : List Node} (hns : g.Labelled ns pending)
    (hall : ∀ n ∈ ns, g.Derivation n ∧ (placed → n.Anchored)) {rest : List Token}
    (hplaced : Placed stack rest) (hrest : rest <+: ns.flatMap Node.tokens) :
    ∃ tree, Continuation g placed root (tokensOf stack ++ ns.flatMap Node.tokens) tree := by
  induction h generalizing ns rest with
  | @outermost f pending hf hroot =>
    obtain ⟨⟨t, ts, hfirst, hline, hcolumn⟩, _⟩ := hplaced
    have hprefix := (List.prefix_append_right_inj f.tokens).2 hrest
    rw [hfirst] at hprefix
    obtain ⟨n, hn⟩ := exists_continuation_of_reads hg hproductive hf hns hall hprefix hline hcolumn
    exact ⟨n, hroot ▸ hn⟩
  | @inner f outer below pending a hf ha _ ih =>
    obtain ⟨⟨t, ts, hfirst, hline, hcolumn⟩, hbelow⟩ := hplaced
    have hprefix := (List.prefix_append_right_inj f.tokens).2 hrest
    obtain ⟨n, hn⟩ := exists_continuation_of_reads hg hproductive hf hns hall
      (hfirst ▸ hprefix) hline hcolumn
    have hlabel : g.labelOf? n = some a := by
      rw [labelOf?, hn.kind]
      exact idxOf?_eq_some_of_nodup (lawful_of_ofText hg).labels_nodup ha
    obtain ⟨tree, htree⟩ := ih (labelled_singleton hlabel)
      (fun m hm => by
        rw [List.mem_singleton.1 hm]
        exact ⟨hn.derivation, hn.anchored⟩)
      hbelow (by rw [List.flatMap_singleton]; exact hprefix.trans hn.tokens)
    refine ⟨tree, { htree with tokens := List.IsPrefix.trans ?_ htree.tokens }⟩
    rw [tokensOf, List.append_assoc, List.flatMap_singleton]
    exact (List.prefix_append_right_inj _).2 hn.tokens

/-- What has been read while more was asked for. -/
theorem reading_of_answers (hg : g.Lawful) {p : Pushdown} {done w : List Token}
    (h : Reading g root done p) (hw : answers w p = List.replicate w.length .more) :
    ∃ p', Reading g root (done ++ w) p' := by
  induction w generalizing done p with
  | nil => exact ⟨p, by rwa [List.append_nil]⟩
  | cons t w ih =>
    rw [answers, List.length_cons, List.replicate_succ] at hw
    obtain ⟨hmore, hw⟩ := List.cons.inj hw
    obtain ⟨p', hp'⟩ := ih (reading_of_feed hg h (Prod.ext hmore rfl)) hw
    rw [List.append_assoc] at hp'
    exact ⟨p', hp'⟩

theorem exists_continuation_of_reading (hg : Grammar.ofText text = .ok g)
    (hproductive : g.Productive placed) {p : Pushdown} {w : List Token}
    (h : Reading g root w p) : ∃ tree, Continuation g placed root w tree := by
  rcases h.waiting with ⟨_, hwaiting⟩ | ⟨_, rfl, t, ht, _⟩
  · have htree := exists_continuation_of_stacked hg hproductive hwaiting.stacked labelled_nil
      (fun _ h => absurd h List.not_mem_nil) hwaiting.placed List.nil_prefix
    rwa [hwaiting.tokens, List.flatMap_nil, List.append_nil] at htree
  · obtain ⟨n, hn, hkind, hplaced⟩ := hproductive root (Option.isSome_iff_exists.2 ⟨t, ht⟩)
    exact ⟨n, hn, hkind, hplaced, List.nil_prefix⟩

/-- While more is asked for, the tokens that have been read begin a derivation tree of the start
symbol, as long as every rule has a tree at all. Where every rule has a tree that is placed at its
first token, the tokens begin such a tree. -/
theorem exists_continuation_of_answers {s : Symbol} {maxDepth : Nat} {p : Pushdown}
    {w : List Token}
    (hg : Grammar.ofText text = .ok g) (hp : start? g s maxDepth = some p)
    (hw : answers w p = List.replicate w.length .more) :
    ((∀ s, (g.rule? s).isSome → ∃ n, g.Derivation n ∧ n.kind = .symbol s) →
      ∃ v tree, g.Derivation tree ∧ tree.kind = .symbol s ∧ tree.tokens = w ++ v) ∧
    ((∀ s, (g.rule? s).isSome → ∃ n, g.Derivation n ∧ n.kind = .symbol s ∧ n.Anchored) →
      ∃ v tree, g.Derivation tree ∧ tree.kind = .symbol s ∧ tree.Anchored ∧
        tree.tokens = w ++ v) := by
  obtain ⟨p', hreading⟩ := reading_of_answers (lawful_of_ofText hg) (reading_start hp) hw
  rw [List.nil_append] at hreading
  refine ⟨fun htrees => ?_, fun htrees => ?_⟩
  · have hproductive : g.Productive False := by
      intro s hs
      obtain ⟨n, hn, hkind⟩ := htrees s hs
      exact ⟨n, hn, hkind, False.elim⟩
    obtain ⟨tree, htree⟩ := exists_continuation_of_reading hg hproductive hreading
    obtain ⟨v, hv⟩ := htree.tokens
    exact ⟨v, tree, htree.derivation, htree.kind, hv.symm⟩
  · have hproductive : g.Productive True := by
      intro s hs
      obtain ⟨n, hn, hkind, hplaced⟩ := htrees s hs
      exact ⟨n, hn, hkind, fun _ => hplaced⟩
    obtain ⟨tree, htree⟩ := exists_continuation_of_reading hg hproductive hreading
    obtain ⟨v, hv⟩ := htree.tokens
    exact ⟨v, tree, htree.derivation, htree.kind, htree.anchored trivial, hv.symm⟩

/-- Every rule of the lines of words has a tree. -/
theorem WordLines.exists_tree {s : Symbol} (hs : (grammar.rule? s).isSome) :
    ∃ n, grammar.Derivation n ∧ n.kind = .symbol s ∧ n.Anchored := by
  obtain ⟨t, ht⟩ := Option.isSome_iff_exists.1 hs
  obtain ⟨hmem, rfl⟩ := Grammar.mem_of_rule? ht
  have hline : Node.branch .stmt 2 (some 0) secondLine ∈ parts := by simp [parts]
  simp only [grammar, List.mem_cons, List.not_mem_nil, or_false] at hmem
  rcases hmem with rfl | rfl
  · exact ⟨tree, derivation_tree, rfl, anchored_tree⟩
  · refine ⟨.branch .stmt 2 (some 0) secondLine, ?_, rfl, anchored_tree.of_mem _ hline⟩
    cases derivation_tree with
    | branch _ _ _ hchildren => exact hchildren _ hline

/-- Two words that a line goes on after. -/
theorem exists_continuation_of_answers_wordLines :
    answers (WordLines.tokens.take 2) WordLines.automaton = [.more, .more] ∧
      ∃ v tree, WordLines.grammar.Derivation tree ∧ tree.kind = .symbol .fileInput ∧
        tree.Anchored ∧ tree.tokens = WordLines.tokens.take 2 ++ v := by
  have hanswers : answers (WordLines.tokens.take 2) WordLines.automaton = [.more, .more] := by
    decide +kernel
  exact ⟨hanswers,
    (exists_continuation_of_answers WordLines.ofText_text WordLines.start?_eq hanswers).2
      fun _ hs => WordLines.exists_tree hs⟩

end Offside.Pushdown
