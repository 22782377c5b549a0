import Offside.Proofs.Grammar.LineEnds
import Offside.Proofs.Pushdown.Alike
import Offside.Proofs.Pushdown.Completeness

/-!
The end of a text of lines. An automaton that has just read a newline, and could read another one,
has nothing in progress that the end marker would not complete: inside the rules a second newline
belongs to none of them, and so all of them are over.
-/

namespace Offside.Pushdown

open Grammar

variable {g : Grammar} {root : Symbol} {ends : List Symbol} {ts : List Token} {maxDepth : Nat}

/-- A rule in progress has last read what may end with a newline. -/
def LineEnded (g : Grammar) (ends : List Symbol) (f : Frame) : Prop :=
  ∃ s ∈ f.table.states, ∃ arc ∈ s.arcs, arc.2 = f.state ∧ g.endsLine ends arc.1 = true

/-- The last label on the way to a state is that of an arc into it. -/
theorem exists_arc_of_run {t : RuleTable} {labels : List Nat} {a q : Nat}
    (h : Dfa.run t.dfa 0 (labels ++ [a]) = some q) : ∃ s ∈ t.states, (a, q) ∈ s.arcs := by
  rw [Dfa.run_concat] at h
  obtain ⟨r, _, hnext⟩ := Option.bind_eq_some_iff.1 h
  obtain ⟨s, hs, harc⟩ := arc_of_next? hnext
  exact ⟨s, List.mem_of_getElem? hs, harc⟩

/-- Every label on the way is that of some arc. -/
theorem exists_arc_of_mem {t : RuleTable} {labels : List Nat} {a q r : Nat}
    (h : Dfa.run t.dfa q labels = some r) (ha : a ∈ labels) :
    ∃ s ∈ t.states, ∃ next, (a, next) ∈ s.arcs := by
  induction labels generalizing q with
  | nil => cases ha
  | cons b labels ih =>
    rw [Dfa.run_cons] at h
    obtain ⟨next, hnext, h⟩ := Option.bind_eq_some_iff.1 h
    rcases List.mem_cons.1 ha with rfl | ha
    · obtain ⟨s, hs, harc⟩ := arc_of_next? hnext
      exact ⟨s, List.mem_of_getElem? hs, next, harc⟩
    · exact ih h ha

/-- The last of a row of children, and its label. -/
theorem exists_last {ns : List Node} {labels : List Nat} (hne : ns ≠ [])
    (h : g.Labelled ns labels) :
    ∃ before n labels' a, ns = before ++ [n] ∧ labels = labels' ++ [a] ∧ g.labelOf? n = some a := by
  obtain ⟨before, n, rfl⟩ : ∃ before n, ns = before ++ [n] :=
    ⟨ns.dropLast, ns.getLast hne, (List.dropLast_append_getLast hne).symm⟩
  unfold Labelled at h
  rw [List.map_append, List.map_singleton] at h
  obtain ⟨labels', rest, rfl, _, hrest⟩ := List.map_eq_append_iff.1 h.symm
  obtain ⟨a, rfl, ha⟩ := List.map_eq_singleton_iff.1 hrest
  exact ⟨before, n, labels', a, rfl, rfl, ha.symm⟩

theorem getLast?_flatMap (before : List Node) {n : Node} (h : n.tokens ≠ []) :
    ((before ++ [n]).flatMap Node.tokens).getLast? = n.tokens.getLast? := by
  rw [List.flatMap_append, List.flatMap_singleton, List.getLast?_append_of_ne_nil _ h]

theorem tokens_ne_nil_of_anchored {n : Node} (h : n.Anchored) : n.tokens ≠ [] := by
  cases h with
  | leaf t => exact List.cons_ne_nil _ _
  | branch hfirst _ =>
    rw [Node.tokens_branch, hfirst]
    exact List.cons_ne_nil _ _

theorem endsLine_of_classify {t : Token} {a : Nat} (ht : t.kind = .newline)
    (h : g.classify t.kind t.text = some a) : g.endsLine ends a = true := by
  have hlabel := getElem?_of_classify h
  have hterminal : g.terminal t.kind t.text = .token .newline := by
    rw [terminal, ht, if_neg (by simp)]
  rw [endsLine, hlabel, hterminal]
  rfl

/-- A tree whose last token is a newline is one of the rules that may end so. -/
theorem endsLine_of_derivation (he : g.LineEnds root ends) {n : Node} (h : g.Derivation n)
    (hanchored : n.Anchored) {a : Nat} (ha : g.labelOf? n = some a) {t : Token}
    (hlast : n.tokens.getLast? = some t) (ht : t.kind = .newline) : g.endsLine ends a = true := by
  induction h generalizing a with
  | @leaf u _ =>
    obtain rfl : u = t := by simpa using hlast
    exact endsLine_of_classify ht ha
  | @branch s line column? children table labels hrule hlabels haccepts _ ih =>
    have hne := hanchored.children_ne_nil
    obtain ⟨before, c, labels', b, rfl, rfl, hb⟩ := exists_last hne hlabels
    have hmem : c ∈ before ++ [c] := List.mem_append_right _ List.mem_cons_self
    have hc : c.Anchored := by
      cases hanchored with
      | branch _ hchildren => exact hchildren c hmem
    rw [Node.tokens_branch, getLast?_flatMap _ (tokens_ne_nil_of_anchored hc)] at hlast
    have hends := ih c hmem hc hb hlast
    obtain ⟨q, hrun, hq⟩ := Dfa.acceptsFrom_iff.1 haccepts
    obtain ⟨r, hr, harc⟩ := exists_arc_of_run hrun
    obtain ⟨s', hs', haccepting⟩ := accepting_of_isAccepting hq
    obtain ⟨htable, rfl⟩ := mem_of_rule? hrule
    have hlabel : g.labels[a]? = some (.rule table.symbol) := getElem?_of_idxOf? ha
    have hclosed := he.closed table htable (List.mem_of_getElem? hlabel) r hr _ harc hends s' hs'
      haccepting
    rw [endsLine, hlabel]
    simpa using hclosed

/-- The innermost rule ends a line where a newline has just been read. -/
theorem lineEnded_top (he : g.LineEnds root ends) {t : Token} {f : Frame} {below : List Frame}
    (h : Waiting g root ts (f :: below)) (hlast : ts.getLast? = some t) (ht : t.kind = .newline) :
    LineEnded g ends f := by
  have hf := h.stacked.top
  have hne : f.children.reverse ≠ [] := by simpa using h.top f rfl
  obtain ⟨labels, hlabels, hrun⟩ := hf.state
  obtain ⟨before, c, labels', a, hchildren, rfl, ha⟩ := exists_last hne hlabels
  have hmem : c ∈ f.children := by
    rw [← List.mem_reverse, hchildren]
    exact List.mem_append_right _ List.mem_cons_self
  have hanchored := hf.anchored c hmem
  have htokens : f.tokens.getLast? = c.tokens.getLast? := by
    rw [Frame.tokens, hchildren, getLast?_flatMap _ (tokens_ne_nil_of_anchored hanchored)]
  have hfne : f.tokens ≠ [] := by
    intro hnil
    rw [hnil] at htokens
    exact tokens_ne_nil_of_anchored hanchored (List.getLast?_eq_none_iff.1 htokens.symm)
  rw [← h.tokens, tokensOf, List.getLast?_append_of_ne_nil _ hfne, htokens] at hlast
  rw [List.append_nil] at hrun
  obtain ⟨s, hs, harc⟩ := exists_arc_of_run hrun
  exact ⟨s, hs, _, harc, rfl,
    endsLine_of_derivation he (hf.derivation c hmem) hanchored ha hlast ht⟩

/-- A rule ends a line once a rule inside it has ended one. -/
theorem lineEnded_outer {x : Symbol} {a : Nat} {outer : Frame} (h : outer.Reads g [a])
    (ha : g.labels[a]? = some (.rule x)) (hx : x ∈ ends) : LineEnded g ends outer := by
  obtain ⟨labels, _, hrun⟩ := h.state
  obtain ⟨s, hs, harc⟩ := exists_arc_of_run hrun
  refine ⟨s, hs, _, harc, rfl, ?_⟩
  rw [endsLine, ha]
  simpa using hx

theorem idxOf?_of_classify {k : Kind} {text : String} {l : Nat} (hk : k ≠ .word)
    (h : g.classify k text = some l) : g.labels.idxOf? (.token k) = some l := by
  rwa [classify_eq, terminal, if_neg fun hword => hk hword.1] at h

/-- The end marker completes a rule that stands in a closable state. -/
theorem takes_of_closable {f : Frame} {s : TableState} {m : Nat} {u : Token}
    (hs : f.tableState? = some s) (hclosable : g.closable f.table s = true)
    (hm : g.labels.idxOf? (.token .endMarker) = some m) :
    ∃ f', Final f' ∧ Takes g maxDepth m u [f] [f'] := by
  unfold closable at hclosable
  rw [hm, Option.bind_some] at hclosable
  split at hclosable
  · next next haction =>
    refine ⟨(f.goto next).adopt (.leaf u), isFinal_iff.1 hclosable, .shift hs haction⟩
  · cases hclosable

/-- Where a newline can be read after a line, the end marker can be read. -/
theorem takes_of_newline (hg : g.Lawful) (he : g.LineEnds root ends) {t u : Token} {l m : Nat}
    (hl : g.labels.idxOf? (.token .newline) = some l)
    (hm : g.labels.idxOf? (.token .endMarker) = some m) (fuel : Nat) (p : Pushdown)
    (hgrammar : p.grammar = g) (h : Working g root ts t l p.stack)
    (hline : ∀ f ∈ p.stack.head?, LineEnded g ends f)
    (hrun : ∀ expected? q, run l t fuel p ≠ (.reject expected?, q)) :
    ∃ f, Final f ∧ Takes g maxDepth m u p.stack [f] := by
  induction fuel generalizing p with
  | zero => exact absurd rfl (hrun none p)
  | succ fuel ih =>
    unfold run at hrun
    cases hstack : p.stack with
    | nil =>
      rw [hstack] at hrun
      exact absurd rfl (hrun none p)
    | cons f below =>
      rw [hstack] at hrun h hline
      dsimp only at hrun
      rw [hgrammar] at hrun
      have hf := h.stacked.top
      obtain ⟨r, hr, arc, harc, htarget, hends⟩ := hline f rfl
      cases hs : f.tableState? with
      | none =>
        simp only [moveOf, hs] at hrun
        exact absurd rfl (hrun none p)
      | some s =>
        have hs' : f.table.states[arc.2]? = some s := by rw [htarget]; exact hs
        cases below with
        | nil =>
          cases h.stacked with
          | outermost _ hroot =>
            subst hroot
            exact takes_of_closable hs
              (he.root_closable f.table hf.rule r hr arc harc hends s hs') hm
        | cons outer below =>
          cases h.stacked with
          | inner _ ha hbelow =>
            have htable := (mem_of_rule? hf.rule).1
            have hlabel := List.mem_of_getElem? ha
            have haction := he.not_newline f.table htable hlabel r hr arc harc hends s hs' l hl
            by_cases haccepting : s.accepting = true
            · rw [moveOf_eq_pop hs haction haccepting] at hrun
              dsimp only at hrun
              rw [pop_inner hstack] at hrun
              dsimp only at hrun
              have hsymbol := he.closed f.table htable hlabel r hr arc harc hends s hs' haccepting
              have houter : LineEnded g ends outer := lineEnded_outer hbelow.top ha hsymbol
              obtain ⟨f', hfinal, htakes⟩ := ih
                { p with
                  future := futureAfter f.node p.future, stack := outer.adopt f.node :: below }
                hgrammar (working_pop hg h hs haction haccepting)
                (fun f' hf' => Option.some.inj hf' ▸ houter) hrun
              have hend := he.not_endMarker f.table htable hlabel s (List.mem_of_getElem? hs') m hm
              exact ⟨f', hfinal, .move (.pop hs hend haccepting) htakes⟩
            · have hmove : moveOf g l f = .refuse (g.expected? s) := by
                simp only [moveOf, hs, haction, haccepting, if_false, Bool.false_eq_true]
              rw [hmove] at hrun
              exact absurd rfl (hrun _ p)

theorem Stacked.ruled {pending : List Nat} {stack : List Frame}
    (h : Stacked g root pending stack) : Ruled g stack := by
  induction h with
  | outermost hf _ =>
    intro f hmem
    obtain rfl := List.mem_singleton.1 hmem
    exact hf.rule
  | inner hf _ _ ih =>
    intro f hmem
    rcases List.mem_cons.1 hmem with rfl | hmem
    · exact hf.rule
    · exact ih f hmem

/-- A token that is taken, and leaves a complete rule that is the only one, is accepted. -/
theorem feed_of_takes (hg : g.Lawful) {p : Pushdown} (h : Reading g root ts p) {u : Token} {m : Nat}
    (hm : g.classify u.kind u.text = some m) {f : Frame} (hfinal : Final f)
    (htakes : Takes g p.maxDepth m u (p.locate u).stack [f]) :
    ∃ p', feed u p = (.accept f.node, p') := by
  obtain ⟨rank, hrank⟩ := hg.exists_rank
  obtain ⟨hgrammar, _, hworking⟩ := working_locate h u m
  have hdepth : (p.locate u).maxDepth = p.maxDepth := by
    unfold locate
    split <;> rfl
  obtain ⟨bits, hrun⟩ := run_of_takes hg hrank htakes (p.locate u) (p.locate u).fuel hgrammar hdepth
    rfl hworking.stacked.ruled (cost_lt_fuel hrank m _)
  obtain ⟨p', hp'⟩ := unwind_of_final_outermost (p := { p.locate u with
    stack := [f], future := bits }) rfl hfinal
  refine ⟨p', ?_⟩
  unfold feed
  rw [h.grammar, hm]
  dsimp only
  rw [hrun, hp']

theorem exists_closable_start (he : g.LineEnds root ends) {t : RuleTable}
    (ht : g.rule? root = some t) : ∃ s, t.states[0]? = some s ∧ g.closable t s = true := by
  have hstart := he.root_start t ht
  cases hs : t.states[0]? with
  | none =>
    rw [hs] at hstart
    cases hstart
  | some s =>
    rw [hs] at hstart
    exact ⟨s, rfl, hstart⟩

theorem classify_endMarker (he : g.LineEnds root ends) {t : RuleTable}
    (ht : g.rule? root = some t) {u : Token} (hu : u.kind = .endMarker) :
    ∃ m, g.labels.idxOf? (.token .endMarker) = some m ∧
      g.classify u.kind u.text = some m := by
  obtain ⟨s, _, hclosable⟩ := exists_closable_start he ht
  cases hm : g.labels.idxOf? (.token .endMarker) with
  | none =>
    rw [closable, hm] at hclosable
    cases hclosable
  | some m =>
    refine ⟨m, rfl, ?_⟩
    rw [classify_eq, terminal, hu, if_neg (by simp), hm]

/-- The rule at the bottom of the stack. -/
theorem Stacked.rule_root {pending : List Nat} {stack : List Frame}
    (h : Stacked g root pending stack) : ∃ t, g.rule? root = some t := by
  induction h with
  | outermost hf hroot => exact ⟨_, hroot ▸ hf.rule⟩
  | inner _ _ _ ih => exact ih

/-- After a newline the end marker is accepted, if another newline could be read. -/
theorem feed_endMarker_of_newline (hg : g.Lawful) (he : g.LineEnds root ends) {p : Pushdown}
    (h : Reading g root ts p) {t₀ t u : Token} (hlast : ts.getLast? = some t₀)
    (ht₀ : t₀.kind = .newline) (ht : t.kind = .newline) (hu : u.kind = .endMarker)
    (hmore : ∀ expected? q, feed t p ≠ (.reject expected?, q)) :
    ∃ tree p', feed u p = (.accept tree, p') := by
  rcases h.waiting with ⟨hstarted, hwaiting⟩ | ⟨_, rfl, _⟩
  · have hlocate : ∀ t : Token, p.locate t = p := fun t => by rw [locate, if_pos hstarted]
    obtain ⟨table, htable⟩ := hwaiting.stacked.rule_root
    obtain ⟨m, hm, hum⟩ := classify_endMarker he htable hu
    unfold feed at hmore
    rw [h.grammar] at hmore
    cases hl : g.classify t.kind t.text with
    | none =>
      rw [hl] at hmore
      exact absurd rfl (hmore none p)
    | some l =>
      rw [hl] at hmore
      dsimp only at hmore
      obtain ⟨hgrammar, _, hworking⟩ := working_locate h t l
      have hnewline : g.labels.idxOf? (.token .newline) = some l :=
        idxOf?_of_classify (by decide) (ht ▸ hl)
      rw [hlocate] at hmore hgrammar hworking
      obtain ⟨f, hfinal, htakes⟩ := takes_of_newline hg he
        hnewline hm p.fuel p hgrammar hworking (fun f hf => by
          obtain ⟨below, hstack⟩ := List.head?_eq_some_iff.1 hf
          exact lineEnded_top he (hstack ▸ hwaiting) hlast ht₀) hmore
      obtain ⟨p', hfeed⟩ := feed_of_takes hg h hum hfinal ((hlocate u).symm ▸ htakes)
      exact ⟨f.node, p', hfeed⟩
  · cases hlast

/-- A fresh automaton accepts the end marker. -/
theorem feed_endMarker_of_fresh (hg : g.Lawful) (he : g.LineEnds root ends) {p : Pushdown}
    (h : Reading g root ts p) (hfresh : p.started = false) {u : Token} (hu : u.kind = .endMarker) :
    ∃ tree p', feed u p = (.accept tree, p') := by
  rcases h.waiting with ⟨hstarted, _⟩ | ⟨_, _, table, htable, hstack⟩
  · rw [hfresh] at hstarted
    cases hstarted
  · obtain ⟨m, hm, hum⟩ := classify_endMarker he htable hu
    obtain ⟨s, hs, hclosable⟩ := exists_closable_start he htable
    have hlocate : (p.locate u).stack = [Frame.enter table u.line u.column?] := by
      rw [locate, if_neg (by rw [hfresh]; exact Bool.false_ne_true), hstack]
      rfl
    obtain ⟨f, hfinal, htakes⟩ :=
      takes_of_closable (f := Frame.enter table u.line u.column?) hs hclosable hm
    obtain ⟨p', hfeed⟩ := feed_of_takes hg h hum hfinal (hlocate.symm ▸ htakes)
    exact ⟨f.node, p', hfeed⟩

/-- Whoever can read the end marker is the root, and is complete after it. -/
theorem shift_of_endMarker (he : g.EndMarked root) {f : Frame} {below : List Frame}
    (h : Stacked g root [] (f :: below)) {m : Nat}
    (hm : g.labels.idxOf? (.token .endMarker) = some m) {s : TableState}
    (hs : f.tableState? = some s) {a : Action} (haction : s.action? m = some a) :
    ∃ next, a = .shift next ∧ below = [] ∧ Final (f.goto next) := by
  have hmem := List.mem_of_getElem? hs
  cases h with
  | inner hf ha _ =>
    have hnone := he.not_endMarker f.table (mem_of_rule? hf.rule).1 (List.mem_of_getElem? ha) s
      hmem m hm
    rw [hnone] at haction
    cases haction
  | outermost hf hroot =>
    have hrule := hf.rule
    rw [hroot] at hrule
    have hclosable := he.root_over f.table hrule s hmem m hm (by simp [haction])
    unfold closable at hclosable
    rw [hm, Option.bind_some] at hclosable
    split at hclosable
    · next next hnext =>
      rw [haction] at hnext
      exact ⟨next, Option.some.inj hnext, rfl, isFinal_iff.1 hclosable⟩
    · cases hclosable

/-- After the end marker there is no more to be read. -/
theorem run_endMarker_ne_more (hg : g.Lawful) (he : g.EndMarked root) {u : Token} {m : Nat}
    (hm : g.labels.idxOf? (.token .endMarker) = some m) (fuel : Nat) (p : Pushdown)
    (hgrammar : p.grammar = g) (h : Working g root ts u m p.stack) :
    (run m u fuel p).1 ≠ .more := by
  refine run_induction (P := fun p => p.grammar = g ∧ Working g root ts u m p.stack)
    (Q := fun r => r.1 ≠ .more) (fun _ _ => Verdict.noConfusion) (fun _ => Verdict.noConfusion)
    ?_ ?_ ?_ fuel p ⟨hgrammar, h⟩
  · rintro p f below s next ⟨_, h⟩ hstack hs haction
    obtain ⟨next', hnext, rfl, hfinal⟩ := shift_of_endMarker he (hstack ▸ h.stacked) hm hs haction
    obtain rfl : next = next' := Action.shift.inj hnext
    obtain ⟨p', hp'⟩ := unwind_of_final_outermost
      (p := { p with stack := [(f.goto next).adopt (.leaf u)] }) rfl hfinal
    rw [shift_cons hstack, hp']
    exact Verdict.noConfusion
  · rintro p f outer below s ⟨hgrammar, h⟩ hstack hs haction haccepting
    exact ⟨hgrammar, working_pop hg (hstack ▸ h) hs haction haccepting⟩
  · rintro p f below s x next table ⟨_, h⟩ hstack hs haction _
    obtain ⟨_, hnext, _⟩ := shift_of_endMarker he (hstack ▸ h.stacked) hm hs haction
    cases hnext

/-- The end marker is accepted or not. -/
theorem feed_endMarker_ne_more (hg : g.Lawful) (he : g.EndMarked root) {p : Pushdown}
    (h : Reading g root ts p) {u : Token} (hu : u.kind = .endMarker) :
    (feed u p).1 ≠ .more := by
  unfold feed
  rw [h.grammar]
  split
  · exact Verdict.noConfusion
  · next m hm =>
    obtain ⟨hgrammar, _, hworking⟩ := working_locate h u m
    exact run_endMarker_ne_more hg he (hu ▸ idxOf?_of_classify (by rw [hu]; decide) hm) _ _ hgrammar
      hworking

/-- There is no end marker in a rule inside another one. -/
theorem not_endMarker_of_derivation (hg : g.Lawful) (he : g.EndMarked root) {n : Node}
    (h : g.Derivation n) {x : Symbol} (hx : .rule x ∈ g.labels) (hkind : n.kind = .symbol x)
    {u : Token} (hu : u ∈ n.tokens) : u.kind ≠ .endMarker := by
  induction h generalizing x with
  | leaf _ => cases hkind
  | @branch s line column? children table labels hrule hlabels haccepts hchildren ih =>
    obtain rfl : s = x := NodeKind.symbol.inj hkind
    obtain ⟨htable, rfl⟩ := mem_of_rule? hrule
    rw [Node.tokens_branch] at hu
    obtain ⟨c, hc, hu⟩ := List.mem_flatMap.1 hu
    cases hchildren c hc with
    | branch hrule' =>
      obtain ⟨htable', rfl⟩ := mem_of_rule? hrule'
      have hmem : labels.map some = _ := hlabels.symm
      obtain ⟨a, _, ha⟩ := List.mem_map.1 (hmem ▸ List.mem_map.2 ⟨_, hc, rfl⟩)
      exact ih _ hc (List.mem_of_getElem? (getElem?_of_idxOf? ha.symm)) rfl hu
    | @leaf t _ =>
      obtain rfl : u = t := by simpa using hu
      intro hend
      have hmem : labels.map some = _ := hlabels.symm
      obtain ⟨a, hlabel, ha⟩ := List.mem_map.1 (hmem ▸ List.mem_map.2 ⟨_, hc, rfl⟩)
      have hclassify : g.classify u.kind u.text = some a := ha.symm
      obtain ⟨q, hrun, _⟩ := Dfa.acceptsFrom_iff.1 haccepts
      obtain ⟨r, hr, next, harc⟩ := exists_arc_of_mem hrun hlabel
      have haction : r.action? a = some (.shift next) :=
        (hg.action_iff htable hr).2 ⟨_, harc, offers_shift hclassify next⟩
      have hnone := he.not_endMarker table htable hx r hr a
        (hend ▸ idxOf?_of_classify (by rw [hend]; decide) hclassify)
      rw [hnone] at haction
      cases haction

/-- A tree of a rule that nothing but the end marker completes has it as its last child. -/
theorem exists_endMarker_of_sound (hclosed : g.ClosedByMarker root) {tree : Node}
    (h : Sound g root ts tree) : ∃ before u, ts = before ++ [u] ∧ u.kind = .endMarker := by
  obtain ⟨hderivation, hkind, hanchored, htokens⟩ := h
  cases hderivation with
  | leaf _ => cases hkind
  | @branch s line column? children table labels hrule hlabels haccepts hchildren =>
    obtain rfl : s = root := NodeKind.symbol.inj hkind
    obtain ⟨before, c, labels', a, rfl, rfl, ha⟩ := exists_last hanchored.children_ne_nil hlabels
    obtain ⟨q, hrun, hq⟩ := Dfa.acceptsFrom_iff.1 haccepts
    obtain ⟨r, hr, harc⟩ := exists_arc_of_run hrun
    obtain ⟨s', hs', haccepting⟩ := accepting_of_isAccepting hq
    have hlabel := hclosed table hrule r hr _ harc s' hs' haccepting
    have hmem : c ∈ before ++ [c] := List.mem_append_right _ List.mem_cons_self
    cases hchildren c hmem with
    | branch =>
      have hrule' := getElem?_of_idxOf? ha
      rw [hlabel] at hrule'
      cases hrule'
    | @leaf u _ =>
      have hterminal := getElem?_of_classify ha
      rw [hlabel, terminal] at hterminal
      refine ⟨before.flatMap Node.tokens, u, ?_, ?_⟩
      · rw [← htokens, Node.tokens_branch, List.flatMap_append, List.flatMap_singleton,
          Node.tokens_leaf]
      · split at hterminal
        · cases hterminal
        · exact (Label.token.inj (Option.some.inj hterminal)).symm

/-- A tree of the root whose last token is the end marker has it as its last child. -/
theorem lastChild?_of_sound (hg : g.Lawful) (he : g.EndMarked root) {tree : Node} {u : Token}
    (h : Sound g root (ts ++ [u]) tree) (hu : u.kind = .endMarker) :
    ∃ before, tree.children = before ++ [.leaf u] ∧ tree.kind = .symbol root := by
  obtain ⟨hderivation, hkind, hanchored, htokens⟩ := h
  cases hderivation with
  | leaf _ => cases hkind
  | @branch s line column? children table labels hrule hlabels haccepts hchildren =>
    obtain ⟨before, c, labels', a, rfl, rfl, ha⟩ := exists_last hanchored.children_ne_nil hlabels
    have hmem : c ∈ before ++ [c] := List.mem_append_right _ List.mem_cons_self
    have hc : c.Anchored := by
      cases hanchored with
      | branch _ hall => exact hall c hmem
    have hlast : c.tokens.getLast? = some u := by
      have hconcat := getLast?_flatMap before (tokens_ne_nil_of_anchored hc)
      rw [← hconcat, ← Node.tokens_branch s line column?, htokens, List.getLast?_concat]
    refine ⟨before, ?_, hkind⟩
    cases hchildren c hmem with
    | @leaf t _ =>
      obtain rfl : t = u := by simpa using hlast
      rfl
    | branch hrule' =>
      obtain ⟨_, rfl⟩ := mem_of_rule? hrule'
      exact absurd hu (not_endMarker_of_derivation hg he (hchildren _ hmem)
        (List.mem_of_getElem? (getElem?_of_idxOf? ha)) rfl (List.mem_of_getLast? hlast))

end Offside.Pushdown
