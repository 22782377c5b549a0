import Offside.Proofs.Parse.Steps
import Offside.Proofs.Tree.Shape

/-!
What a parse does with the tree that a run gives. The pragmas are hung below the end marker, and a
known encoding is named by a node above the tree; the tokens of the tree stay what they are.
-/

namespace Offside

namespace Node

/-- What a tree holds below the node that names its encoding, if there is one. -/
def content (n : Node) : Node := if n.isSymbol .encodingDecl then (n.child? 0).getD n else n

/-- In a tree that a grammar derives no token stands below another one. -/
theorem everyToken_of_derivation {g : Grammar} {n : Node} (h : g.Derivation n) :
    n.everyToken = n.tokens := by
  induction h with
  | leaf _ => rfl
  | branch _ _ _ _ ih =>
    rw [everyToken_branch, tokens_branch]
    exact List.flatMap_congr ih

end Node

namespace Parse

open Grammar Pushdown Run

variable {g : Grammar} {ends : List Symbol} {ts : List Token} {tree tree₀ : Node} {source : Lexer}

/-- Names an encoding, if it is known. -/
def nameEncoding : Option String → Node → Node
  | some encoding, tree => wrapEncoding encoding tree
  | none, tree => tree

theorem finish_file {pragmas : PragmaBuffer} (hkind : tree₀.kind = .symbol .fileInput) :
    finish .file source pragmas tree₀ =
      (attachPragmas pragmas.toList tree₀).map (nameEncoding source.encoding?) := by
  have hsymbol : tree₀.isSymbol .fileInput = true :=
    Node.isSymbol_iff.2 (Node.symbol?_eq_some_iff.2 hkind)
  unfold finish
  rw [if_pos hsymbol]
  cases attachPragmas pragmas.toList tree₀ with
  | error f => rfl
  | ok tree =>
    dsimp only [Bind.bind, Except.bind]
    rw [if_neg fun h => StartRule.noConfusion h.1]
    cases hencoding : TokenSource.encoding? source with
    | none =>
      have hnone : source.encoding? = none := hencoding
      rw [hnone]
      rfl
    | some encoding =>
      have hsome : source.encoding? = some encoding := hencoding
      rw [hsome]
      rfl

/-- What is not a module is finished without its pragmas. -/
theorem finish_part {start : StartRule} {pragmas : PragmaBuffer} (hstart : start ≠ .file)
    (hkind : tree₀.kind = .symbol start.symbol) :
    finish start source pragmas tree₀ =
      if start = .single ∧ holdsCode false source.cursor.rest = true then
        .error (.ofKind .manyStatements)
      else .ok (nameEncoding source.encoding? tree₀) := by
  have hsymbol : ¬tree₀.isSymbol .fileInput = true := by
    rw [Node.isSymbol_iff, Node.symbol?_eq_some_iff, hkind]
    intro heq
    cases start with
    | file => exact hstart rfl
    | single => cases heq
    | eval => cases heq
  unfold finish
  rw [if_neg hsymbol]
  have hrest : TokenSource.remaining source = source.cursor.rest := rfl
  have hencoding : TokenSource.encoding? source = source.encoding? := rfl
  rw [hrest, hencoding]
  dsimp only [pure, Bind.bind, Except.pure, Except.bind]
  split
  · rfl
  · cases source.encoding? <;> rfl

theorem attachPragmas_eq_ok {pragmas : List PragmaEntry}
    (h : attachPragmas pragmas tree₀ = .ok tree) :
    ∃ before last, tree₀.children = before ++ [last] ∧ last.isToken .endMarker = true := by
  unfold attachPragmas at h
  split at h
  · cases h
  · next last before hreverse =>
    split at h
    · next hlast =>
      refine ⟨before.reverse, last, ?_, hlast⟩
      rw [← List.reverse_cons, ← hreverse, List.reverse_reverse]
    · cases h

theorem attachPragmas_of_last {pragmas : List PragmaEntry} {last : Node} {before : List Node}
    (hchildren : tree₀.children = before ++ [last]) (hlast : last.isToken .endMarker = true) :
    attachPragmas pragmas tree₀ =
      .ok (tree₀.withChildren (before ++
        [last.withChildren (last.children ++ pragmas.map pragmaNode)])) := by
  unfold attachPragmas
  rw [hchildren, List.reverse_append, List.reverse_singleton]
  dsimp only [List.singleton_append]
  rw [if_pos hlast, List.reverse_cons, List.reverse_reverse]

theorem everyToken_nameEncoding (encoding? : Option String) (tree : Node) :
    (nameEncoding encoding? tree).everyToken = tree.everyToken := by
  cases encoding? with
  | none => rfl
  | some encoding =>
    have hwrapped : wrapEncoding encoding tree =
        .mk (.symbol .encodingDecl) (some encoding) 0 none [tree] := rfl
    rw [nameEncoding, hwrapped, Node.everyToken, Node.everyTokenAll_eq, List.flatMap_singleton]

theorem content_nameEncoding (encoding? : Option String) {tree : Node}
    (hkind : tree.kind = .symbol .fileInput) : (nameEncoding encoding? tree).content = tree := by
  cases encoding? with
  | none =>
    rw [nameEncoding, Node.content, Node.isSymbol, hkind]
    rfl
  | some encoding => rfl

theorem text?_nameEncoding (encoding? : Option String) {tree : Node} (htext : tree.text? = none) :
    (nameEncoding encoding? tree).text? = encoding? := by
  cases encoding? with
  | none => exact htext
  | some encoding => rfl

/-- The token that a pragma is in a tree. -/
def pragmaToken (p : PragmaEntry) : Token := ⟨.typeIgnore, p.text, p.line, some 0⟩

theorem everyToken_pragmaNodes (pragmas : List PragmaEntry) :
    (pragmas.map pragmaNode).flatMap Node.everyToken = pragmas.map pragmaToken := by
  induction pragmas with
  | nil => rfl
  | cons p pragmas ih =>
    rw [List.map_cons, List.flatMap_cons, ih]
    rfl

/-- A tree whose last token is the end marker is finished: the pragmas hang below that token, and
a known encoding is named. -/
theorem finish_of_sound (hg : g.Lawful) (he : g.LineEnds .fileInput ends)
    (h : Sound g .fileInput ts tree₀) (hend : ts.getLast?.map Token.kind = some .endMarker)
    (source : Lexer) (pragmas : PragmaBuffer) :
    ∃ tree, finish .file source pragmas tree₀ = .ok tree ∧
      (∃ last ∈ tree.content.lastChild?, last.isToken .endMarker = true) ∧
      tree.everyToken = ts ++ pragmas.toList.map pragmaToken ∧
      tree.text? = source.encoding? := by
  obtain ⟨u, hu, hkind⟩ := Option.map_eq_some_iff.1 hend
  obtain ⟨ts₀, rfl⟩ := List.getLast?_eq_some_iff.1 hu
  obtain ⟨before, hchildren, hsymbol⟩ := lastChild?_of_sound hg he.endMarked h hkind
  have htext : tree₀.text? = none := by
    cases h.derivation with
    | leaf _ => cases h.kind
    | branch => rfl
  have htokens : tree₀.everyToken = before.flatMap Node.everyToken ++ [u] := by
    rw [← Node.withChildren_children tree₀, hchildren, Node.everyToken_withChildren hsymbol,
      List.flatMap_append, List.flatMap_singleton, Node.everyToken_leaf]
  have hlast : (Node.leaf u).isToken .endMarker = true := by
    rw [Node.isToken, beq_iff_eq, ← hkind]
    rfl
  let children := before ++ [(Node.leaf u).withChildren (pragmas.toList.map pragmaNode)]
  have hkept : (tree₀.withChildren children).kind = tree₀.kind ∧
      (tree₀.withChildren children).text? = tree₀.text? := by
    cases tree₀
    exact ⟨rfl, rfl⟩
  refine ⟨nameEncoding source.encoding? (tree₀.withChildren children), ?_, ?_, ?_,
    text?_nameEncoding _ (hkept.2.trans htext)⟩
  · rw [finish_file hsymbol, attachPragmas_of_last hchildren hlast]
    rfl
  · rw [content_nameEncoding _ (hkept.1.trans hsymbol)]
    refine ⟨(Node.leaf u).withChildren (pragmas.toList.map pragmaNode), ?_, hlast⟩
    cases tree₀
    exact List.getLast?_concat
  · rw [everyToken_nameEncoding, Node.everyToken_withChildren hsymbol, List.flatMap_append,
      List.flatMap_singleton, Node.everyToken_leaf_withChildren, everyToken_pragmaNodes, ← h.tokens,
      ← Node.everyToken_of_derivation h.derivation, htokens, List.append_assoc,
      List.singleton_append]

/-- The last token of a tree that can be finished is the end marker. -/
theorem endMarker_of_finish {pragmas : PragmaBuffer} (h : Sound g .fileInput ts tree₀)
    (hfinish : finish .file source pragmas tree₀ = .ok tree) :
    tree₀.tokens.getLast?.map Token.kind = some .endMarker := by
  rw [finish_file h.kind] at hfinish
  cases hattach : attachPragmas pragmas.toList tree₀ with
  | error f =>
    rw [hattach] at hfinish
    cases hfinish
  | ok tree₁ =>
    obtain ⟨before, last, hchildren, hlast⟩ := attachPragmas_eq_ok hattach
    cases h.derivation with
    | leaf _ => cases h.kind
    | @branch _ line column? children _ _ _ _ _ hall =>
      obtain rfl : children = before ++ [last] := hchildren
      cases hall last (List.mem_append_right _ List.mem_cons_self) with
      | branch => cases hlast
      | @leaf t _ =>
        have hkind : t.kind = .endMarker := by
          simpa [Node.isToken, Node.leaf, Node.kind] using hlast
        have hne : (Node.leaf t).tokens ≠ [] := List.cons_ne_nil _ _
        rw [Node.tokens_branch, getLast?_flatMap _ hne, Node.tokens_leaf]
        exact congrArg some hkind

/-- Below the last token of a tree that is finished there are the pragmas, and nothing else. -/
theorem content_of_finish {pragmas : PragmaBuffer} (h : Sound g .fileInput ts tree₀)
    (hfinish : finish .file source pragmas tree₀ = .ok tree) :
    tree.content.isSymbol .fileInput = true ∧ ∃ before last,
      tree.content.children = before ++ [last] ∧ last.isToken .endMarker = true ∧
      last.children = pragmas.toList.map pragmaNode := by
  rw [finish_file h.kind] at hfinish
  cases hattach : attachPragmas pragmas.toList tree₀ with
  | error f =>
    rw [hattach] at hfinish
    cases hfinish
  | ok tree₁ =>
    obtain ⟨before, last, hchildren, hlast⟩ := attachPragmas_eq_ok hattach
    rw [attachPragmas_of_last hchildren hlast] at hfinish
    obtain rfl := Except.ok.inj hfinish
    have hnone : last.children = [] := by
      cases h.derivation with
      | leaf _ => cases h.kind
      | @branch _ _ _ children _ _ _ _ _ hall =>
        obtain rfl : children = before ++ [last] := hchildren
        cases hall last (List.mem_append_right _ List.mem_cons_self) with
        | leaf _ => rfl
        | branch => cases hlast
    let children := before ++ [last.withChildren (last.children ++ pragmas.toList.map pragmaNode)]
    have hkept : (tree₀.withChildren children).kind = .symbol .fileInput :=
      (Node.kind_withChildren tree₀ children).trans h.kind
    rw [content_nameEncoding _ hkept]
    refine ⟨beq_iff_eq.2 hkept, before, _, Node.children_withChildren tree₀ children, ?_, ?_⟩
    · cases last
      exact hlast
    · rw [hnone, List.nil_append]
      cases last
      rfl

/-- A tree that is finished holds the tokens of its derivation, and the pragmas behind them. -/
theorem everyToken_of_finish (hg : g.Lawful) (he : g.LineEnds .fileInput ends)
    {pragmas : PragmaBuffer} (h : Sound g .fileInput ts tree₀)
    (hfinish : finish .file source pragmas tree₀ = .ok tree) :
    tree.everyToken = ts ++ pragmas.toList.map pragmaToken := by
  have hend := endMarker_of_finish h hfinish
  rw [h.tokens] at hend
  obtain ⟨tree', hfinish', _, hevery, _⟩ := finish_of_sound hg he h hend source pragmas
  rwa [Except.ok.inj (hfinish.symm.trans hfinish')]

end Parse
end Offside
