import Offside.Proofs.Parse.Ending
import Offside.Proofs.Parse.Protocol
import Offside.Proofs.Pushdown.Features

/-!
Features of a parse. In the tree of a parse each inequality is spelled under the features that the
parse began with and those that were imported before it, and with these the parse ends.
-/

namespace Offside

namespace Run

open Grammar Pushdown

variable {g : Grammar} {root : Symbol} {ts : List Token} {symbols : List Symbol} {bits : Future}
  {flags : Flags} {r r' : Run Lexer Pushdown} {tree : Node}

theorem spelledUnder_leaf {t : Token} (h : Spelled bits t) : (Node.leaf t).SpelledUnder bits :=
  fun hkind => congrArg some (h (NodeKind.token.inj hkind))

/-- What is known of the features after a step. -/
inductive Follows (bits : Future) : Progress × Run Lexer Pushdown → Prop
  | more {r : Run Lexer Pushdown} (h : Tracks bits r.automaton) : Follows bits (.more, r)
  | accepted {tree : Node} {r : Run Lexer Pushdown}
      (hfuture : r.automaton.future = featuresAfter bits tree.closings)
      (hspelled : SpelledAlong bits tree.closings) : Follows bits (.accepted tree, r)
  | failed {f : Failure} {r : Run Lexer Pushdown} : Follows bits (.failed f, r)

/-- The spelling of a lexeme is checked before the automaton is given it. -/
theorem follows_receive (hg : g.Lawful) (hover : g.Refuses .notEqual symbols)
    (himports : .importFrom ∈ symbols) (hreading : Reading g root ts r.automaton)
    (h : Tracks bits r.automaton) (x : Lexeme) (kind : Kind) : Follows bits (receive x kind r) := by
  unfold receive
  split
  · cases r.pragmas.push x.line x.text with
    | ok pragmas => exact .more h
    | error e => exact .failed
  · unfold offer
    by_cases hspelled : Spelled (Automaton.future r.automaton) { x.token with kind }
    · rw [checkSpelling_of_spelled hspelled]
      have htracked := feed_tracked hg hover himports hreading h (spelledUnder_leaf hspelled)
      dsimp only
      cases hfeed : Automaton.feed { x.token with kind } r.automaton with
      | mk verdict automaton =>
        have hsame : feed { x.token with kind } r.automaton = (verdict, automaton) := hfeed
        rw [hsame] at htracked
        cases htracked with
        | more h => exact .more h
        | accept hfuture hspelled => exact .accepted hfuture hspelled
        | reject => exact .failed
        | outOfMemory => exact .failed
    · rw [checkSpelling_of_misspelled hspelled]
      exact .failed

/-- A run that gives a tree has seen its features turned on one after the other. -/
theorem Gives.features (hg : g.Lawful) (hover : g.Refuses .notEqual symbols)
    (himports : .importFrom ∈ symbols) (hgives : Gives flags r tree r')
    (hreading : Reading g root ts r.automaton) (h : Tracks bits r.automaton) :
    r'.automaton.future = featuresAfter bits tree.closings ∧ SpelledAlong bits tree.closings := by
  refine hgives.induction (P := fun p => (∃ ts, Reading g root ts p) ∧ Tracks bits p)
    (Q := fun tree p =>
      p.future = featuresAfter bits tree.closings ∧ SpelledAlong bits tree.closings)
    ?_ ?_ ⟨⟨ts, hreading⟩, h⟩
  · rintro x kind r r₁ ⟨⟨ts, hreading⟩, h⟩ hmore
    have hfollows := follows_receive hg hover himports hreading h x kind
    rw [hmore] at hfollows
    cases hfollows with
    | more h => exact ⟨reading_of_receive hg hmore hreading, h⟩
  · rintro x kind r r' tree ⟨⟨ts, hreading⟩, h⟩ haccepted
    have hfollows := follows_receive hg hover himports hreading h x kind
    rw [haccepted] at hfollows
    cases hfollows with
    | accepted hfuture hspelled => exact ⟨hfuture, hspelled⟩

end Run

namespace Parse

open Grammar Pushdown Run

variable {start : StartRule} {options : Options} {filename? encoding? : Option String}
  {s : Source} {tree tree₀ : Node}

theorem tracks_opening {g : Grammar} {root : Symbol} {automaton : Pushdown}
    (h : start? g root defaultMaxDepth = some automaton) (options : Options) (s : Source)
    (pragmas : PragmaBuffer) :
    Tracks options.future (opening options s automaton pragmas).automaton := by
  obtain ⟨t, _, rfl⟩ := Option.map_eq_some_iff.1 h
  exact ⟨rfl, trivial⟩

/-- The nodes of a tree that bear on features, in the order in which they end. -/
def bearing (n : Node) : List Node := n.closings.filter Node.bearsOnFeatures

theorem bearing_of_flat {n : Node} (h : n.bearsOnFeatures = false) :
    bearing n = n.children.flatMap bearing := by
  rw [bearing, Node.closings_eq, List.filter_append, List.filter_flatMap,
    List.filter_cons_of_neg (by simp [h]), List.filter_nil, List.append_nil]
  rfl

theorem bearing_nameEncoding (encoding? : Option String) (tree : Node) :
    bearing (nameEncoding encoding? tree) = bearing tree := by
  cases encoding? with
  | none => rfl
  | some encoding =>
    have hflat : (wrapEncoding encoding tree).bearsOnFeatures = false := rfl
    rw [nameEncoding, bearing_of_flat hflat]
    exact List.flatMap_singleton bearing tree

theorem bearing_pragmaNodes (pragmas : List PragmaEntry) :
    (pragmas.map pragmaNode).flatMap bearing = [] := by
  rw [List.flatMap_map, List.flatMap_eq_nil_iff]
  exact fun _ _ => rfl

/-- Pragmas bear on no features, and neither do the nodes that they are hung below. -/
theorem bearing_attachPragmas {pragmas : List PragmaEntry}
    (hkind : tree₀.kind = .symbol .fileInput) (h : attachPragmas pragmas tree₀ = .ok tree) :
    bearing tree = bearing tree₀ := by
  obtain ⟨before, last, hchildren, hlast⟩ := attachPragmas_eq_ok h
  rw [attachPragmas_of_last hchildren hlast] at h
  obtain rfl := Except.ok.inj h
  have hroot : ∀ ns, (tree₀.withChildren ns).bearsOnFeatures = false := by
    intro ns
    rw [Node.bearsOnFeatures, Node.isToken, Node.isSymbol, Node.kind_withChildren, hkind]
    rfl
  have hend : ∀ ns, (last.withChildren ns).bearsOnFeatures = false := by
    intro ns
    rw [Node.bearsOnFeatures, Node.isToken, Node.isSymbol, Node.kind_withChildren,
      beq_iff_eq.1 hlast]
    rfl
  have hlast₀ : bearing last = last.children.flatMap bearing := by
    rw [← Node.withChildren_children last, bearing_of_flat (hend _), Node.children_withChildren]
  rw [bearing_of_flat (hroot _), Node.children_withChildren, ← Node.withChildren_children tree₀,
    bearing_of_flat (hroot _), Node.children_withChildren, hchildren, List.flatMap_append,
    List.flatMap_append, List.flatMap_singleton, List.flatMap_singleton, bearing_of_flat (hend _),
    Node.children_withChildren, List.flatMap_append, bearing_pragmaNodes, List.append_nil, hlast₀]

/-- What is done to a tree at the end of a parse changes none of the nodes that bear on
features. -/
theorem bearing_of_finish {source : Lexer} {pragmas : PragmaBuffer}
    (hkind : tree₀.kind = .symbol start.symbol)
    (h : finish start source pragmas tree₀ = .ok tree) : bearing tree = bearing tree₀ := by
  by_cases hstart : start = .file
  · subst hstart
    rw [finish_file hkind] at h
    cases hattach : attachPragmas pragmas.toList tree₀ with
    | error f =>
      rw [hattach] at h
      cases h
    | ok tree₁ =>
      rw [hattach] at h
      obtain rfl := Except.ok.inj h
      rw [bearing_nameEncoding, bearing_attachPragmas hkind hattach]
  · rw [finish_part hstart hkind] at h
    split at h
    · cases h
    · obtain rfl := Except.ok.inj h
      exact bearing_nameEncoding _ _

/-- How the features of a parse go with its tree. -/
theorem features_of_source (h : (source start options filename? s).1 = .ok tree) :
    SpelledAlong options.future tree.closings ∧
      (source start options filename? s).2.future =
        featuresAfter options.future tree.closings ∧
      ∀ n ∈ tree.closings, n.kind = .symbol .importFrom →
        (n.children.filter (Node.isSymbol .importAsNames)).length ≤ 1 := by
  obtain ⟨g, automaton, o, hgrammar, hchecked, hstart, ho, hsource⟩ :=
    exists_outcome start options filename? s
  rw [hsource] at h ⊢
  have hg := Reference.lawful hgrammar
  rcases tokens_eq_some ho with ⟨_, _, herror⟩ | ⟨pragmas, result, r, _, hloop, rfl⟩
  · cases herror.symm.trans h
  · obtain ⟨tree₀, rfl, hfinish⟩ := bind_eq_ok.1 (mapError_eq_ok h)
    have hgives := gives_of_loop hloop
    have hreading := reading_opening hstart options s pragmas
    obtain ⟨ts, hsound⟩ := sound_of_gives hg hgives hreading
    obtain ⟨hfuture, hspelled⟩ := hgives.features hg hchecked.importsOver (by decide) hreading
      (tracks_opening hstart options s pragmas)
    have hbearing := bearing_of_finish hsound.kind hfinish
    rw [bearing, bearing] at hbearing
    refine ⟨?_, ?_, fun n hn hkind => ?_⟩
    · rwa [← spelledAlong_filter, hbearing, spelledAlong_filter]
    · rw [← featuresAfter_filter, hbearing, featuresAfter_filter]
      exact hfuture
    · have hbears : n.bearsOnFeatures = true := by
        rw [Node.bearsOnFeatures, Node.isSymbol, hkind, beq_self_eq_true, Bool.or_true]
      have hmem := List.mem_filter.2 ⟨hn, hbears⟩
      rw [hbearing] at hmem
      have hderivation := hsound.derivation.of_mem_closings (List.mem_filter.1 hmem).1
      exact hchecked.importsOnce.filter_children hderivation hkind

/-- In the tree of a parse an inequality is spelled in the old way if the feature that asks for it
was turned on when the parse began, or by an import that ended before, and in the usual way if not.
The parse leaves the features that it began with, and that one if the tree imports it. -/
theorem features_of_bytes {input : List UInt8}
    (h : (bytes start options filename? encoding? input).1 = .ok tree) :
    (∀ before n after, tree.closings = before ++ n :: after → n.kind = .token .notEqual →
      n.text? = some (if Future.has angleInequality options.future = true ∨
        ∃ m ∈ before, ImportsAngleInequality m then "<>" else "!=")) ∧
    (bytes start options filename? encoding? input).2.future =
      if ∃ m ∈ tree.closings, ImportsAngleInequality m then options.future ||| angleInequality
      else options.future := by
  obtain ⟨s, hs, hsource⟩ := bytes_eq_ok h
  have hbytes : bytes start options filename? encoding? input =
      source start options filename? s := by
    rw [bytes, hs]
  obtain ⟨hspelled, hfuture, honce⟩ := features_of_source hsource
  rw [hbytes, hfuture, featuresAfter_eq honce]
  refine ⟨fun before n after hsplit hkind => ?_, rfl⟩
  rw [hsplit] at hspelled honce
  have hbefore : featuresAfter options.future before =
      if ∃ m ∈ before, ImportsAngleInequality m then options.future ||| angleInequality
      else options.future :=
    featuresAfter_eq fun m hm => honce m (List.mem_append_left _ hm)
  rw [hspelled.of_split hkind, hbefore]
  by_cases himports : ∃ m ∈ before, ImportsAngleInequality m
  · rw [if_pos himports, if_pos (has_or_angleInequality _), if_pos (Or.inr himports)]
  · rw [if_neg himports]
    simp only [himports, or_false]

/-- An import of the feature, and an inequality behind it. -/
theorem features_of_bytes_import :
    ∃ tree, (bytes .file (Options.ofFlags Flags.unset) none none (Text.encode
        "from __future__ import barry_as_FLUFL\nx<>y\n".toList)).1 = .ok tree ∧
      (∀ before n after, tree.closings = before ++ n :: after → n.kind = .token .notEqual →
        n.text? = some (if Future.has angleInequality 0 = true ∨
          ∃ m ∈ before, ImportsAngleInequality m then "<>" else "!=")) ∧
      (bytes .file (Options.ofFlags Flags.unset) none none (Text.encode
        "from __future__ import barry_as_FLUFL\nx<>y\n".toList)).2.future =
          if ∃ m ∈ tree.closings, ImportsAngleInequality m then 0 ||| angleInequality else 0 := by
  obtain ⟨tree, h⟩ := text_of_trial
    (t := ⟨.file, "from __future__ import barry_as_FLUFL\nx<>y\n".toList, some []⟩) (by decide) rfl
    (by decide +kernel)
  exact ⟨tree, h, features_of_bytes h⟩

end Parse
end Offside
