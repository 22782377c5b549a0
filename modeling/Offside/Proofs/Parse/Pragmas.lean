import Offside.Proofs.Lexer.AsyncWords
import Offside.Proofs.Lexer.PragmaLines
import Offside.Proofs.Parse.Fidelity
import Offside.Proofs.Source.Sizes

/-!
Pragmas on their way into a tree. A run keeps the pragmas that it has read and the lexer has the
others still to hand out; no step but a failure loses one of them, adds one or changes their order.
At the end marker that closes a module the lexer has none left, and all of them are hung below it.
-/

namespace Offside

/-- The pragmas among tokens. -/
def keepPragmas (ts : List Token) : List Token := ts.filter fun t => t.kind = .typeIgnore

/-- A pragma as it hangs in a tree, where it has no place on its line. -/
def Token.atMargin (t : Token) : Token := { t with column? := some 0 }

theorem keepPragmas_append (ts us : List Token) :
    keepPragmas (ts ++ us) = keepPragmas ts ++ keepPragmas us := List.filter_append ts us

theorem keepPragmas_cons_of_eq {t : Token} (h : t.kind = .typeIgnore) (ts : List Token) :
    keepPragmas (t :: ts) = t :: keepPragmas ts := List.filter_cons_of_pos (by simpa using h)

theorem keepPragmas_cons_of_ne {t : Token} (h : t.kind ≠ .typeIgnore) (ts : List Token) :
    keepPragmas (t :: ts) = keepPragmas ts := List.filter_cons_of_neg (by simpa using h)

theorem keepPragmas_eq_nil {ts : List Token} (h : ∀ t ∈ ts, t.kind ≠ .typeIgnore) :
    keepPragmas ts = [] := List.filter_eq_nil_iff.2 fun t ht => by simpa using h t ht

/-- Pragmas are the same wherever `async` and `await` are keywords. -/
theorem keepPragmas_plainly (ts : List Token) :
    keepPragmas (ts.map Token.plainly) = keepPragmas ts := by
  have hkind : ∀ t : Token, t.plainly.kind = .typeIgnore ↔ t.kind = .typeIgnore := fun _ =>
    Kind.plainly_eq_iff (by decide) (by decide) (by decide)
  induction ts with
  | nil => rfl
  | cons t ts ih =>
    rw [List.map_cons]
    by_cases ht : t.kind = .typeIgnore
    · have hplainly : t.kind.plainly = t.kind := ((hkind t).2 ht).trans ht.symm
      have hsame : t.plainly = t := by rw [Token.plainly, hplainly]
      rw [keepPragmas_cons_of_eq ((hkind t).2 ht), keepPragmas_cons_of_eq ht, ih, hsame]
    · rw [keepPragmas_cons_of_ne (mt (hkind t).1 ht), keepPragmas_cons_of_ne ht, ih]

namespace Lexer

variable {lx ly : Lexer} {x : Lexeme} {ts : List Token}

/-- The pragmas that a lexer has still to hand out. -/
def upcoming (lx : Lexer) : List Token := keepPragmas lx.drain.1

theorem drainFrom_fst (read : List Token) (lx : Lexer) :
    (drainFrom read lx).1 = read.reverse ++ lx.drain.1 := by
  unfold drain
  cases hnext : lx.next with
  | mk r ly =>
    cases r with
    | error e =>
      rw [drainFrom_of_error hnext, drainFrom_of_error hnext]
      exact (List.append_nil _).symm
    | ok x =>
      by_cases hx : x.kind = .endMarker
      · rw [drainFrom_of_end hnext hx, drainFrom_of_end hnext hx, List.reverse_cons]
        rfl
      · have hlt := next_weight_lt hnext hx
        rw [drainFrom_of_token hnext hx, drainFrom_of_token hnext hx, drainFrom_fst _ ly,
          drainFrom_fst [x.token] ly, List.reverse_cons, List.append_assoc]
        rfl
termination_by lx.weight

theorem upcoming_of_end (h : lx.next = (.ok x, ly)) (hx : x.kind = .endMarker) :
    lx.upcoming = [] := by
  have hplain : x.token.kind ≠ .typeIgnore := by
    show x.kind ≠ .typeIgnore
    rw [hx]
    decide
  rw [upcoming, drain, drainFrom_of_end h hx]
  exact keepPragmas_cons_of_ne hplain []

theorem upcoming_of_token (h : lx.next = (.ok x, ly)) (hx : x.kind ≠ .endMarker) :
    lx.upcoming = keepPragmas [x.token] ++ ly.upcoming := by
  rw [upcoming, drain, drainFrom_of_token h hx, drainFrom_fst, keepPragmas_append]
  rfl

/-- Where the text has ended there are no more of them. -/
theorem AtEnd.upcoming (h : lx.AtEnd) : lx.upcoming = [] := by
  generalize hn : lx.pendingDedents = n
  induction n generalizing lx with
  | zero =>
    obtain ⟨ly, hnext, _⟩ := h.next_endMarker hn
    exact upcoming_of_end hnext rfl
  | succ n ih =>
    have hkind : (lx.cursor.bare .dedent).kind ≠ .endMarker := Kind.noConfusion
    have hpragma : (lx.cursor.bare .dedent).token.kind ≠ .typeIgnore := Kind.noConfusion
    rw [upcoming_of_token (h.next_dedent hn) hkind, keepPragmas_cons_of_ne hpragma,
      ih (h.queued n) rfl]
    rfl

theorem upcoming_of_tokens (h : lx.tokens = (.ok ts, ly)) : lx.upcoming = keepPragmas ts := by
  obtain ⟨xs, e, hyields, he, hxs, rfl⟩ := exists_yields_of_tokens h
  rw [upcoming, drain, drainFrom_of_yields hyields he hxs]
  rfl

/-- Each pragma of a text stands on a line of its own. -/
theorem pairwise_keepPragmas {asyncAlways : Bool} {s : Source} (hsize : s.text.length ≤ maxPosition)
    (h : (ofSource asyncAlways s).tokens = (.ok ts, ly)) :
    (keepPragmas ts).Pairwise fun t u => t.line < u.line := by
  obtain ⟨xs, e, hyields, _, _, rfl⟩ := exists_yields_of_tokens h
  by_cases hnone : ∀ x ∈ xs ++ [e], x.kind ≠ .typeIgnore
  · rw [keepPragmas_eq_nil (List.forall_mem_map.2 hnone)]
    exact List.Pairwise.nil
  · -- a text with a pragma has a number for each of its lines
    push Not at hnone
    obtain ⟨x, hx, hkind⟩ := hnone
    have hhash : '#' ∈ s.text := hyields.hash_mem hx hkind
    rw [keepPragmas, List.filter_map, List.pairwise_map]
    exact hyields.pairwise_lines (hasNumbers_ofSource asyncAlways hsize hhash rfl)

end Lexer

namespace Run

open Grammar Pushdown Lexer Parse

section Generic

variable {α : Type} [Automaton α] {flags : Flags} {r r₁ r' : Run Lexer α} {tree : Node}
  {progress : Progress}

/-- The pragmas of a run: those that it has stored, and those that are still to come. -/
def pragmaTokens (r : Run Lexer α) : List Token :=
  r.pragmas.toList.map pragmaToken ++ r.source.upcoming.map Token.atMargin

theorem pragmas_receive {kind : Kind} (hkind : kind ≠ .typeIgnore) (x : Lexeme)
    (r : Run Lexer α) : (receive x kind r).2.pragmas = r.pragmas := by
  rw [receive, if_neg hkind, offer]
  cases checkSpelling (Automaton.future r.automaton) { x.token with kind } with
  | error f => rfl
  | ok _ =>
    dsimp only
    cases (Automaton.feed { x.token with kind } r.automaton).1 <;> rfl

/-- What a step that does not fail has read. -/
theorem step_reads (h : r.step flags = (progress, r₁)) (hgoes : ∀ f, progress ≠ .failed f) :
    ∃ x ly, r.source.next = (.ok x, ly) ∧
      (x.kind ≠ .endMarker ∧
        receive x x.kind { r with source := ly, started := true } = (progress, r₁) ∨
      x.kind = .endMarker ∧ ∃ kind source started, kind ≠ .typeIgnore ∧ source.AtEnd ∧
        receive x kind { r with source, started } = (progress, r₁)) := by
  cases hnext : r.source.next with
  | mk answer ly =>
    cases answer with
    | error e =>
      rw [step_of_error hnext] at h
      exact absurd (Prod.mk.inj h).1.symm (hgoes _)
    | ok x =>
      refine ⟨x, ly, rfl, ?_⟩
      by_cases hx : x.kind = .endMarker
      · obtain ⟨hatEnd, _⟩ := atEnd_of_next hnext hx
        have hclosed : (closeBlocks flags ly).AtEnd := by
          unfold closeBlocks
          split
          · exact hatEnd.queueDedents _
          · exact hatEnd
        refine Or.inr ⟨hx, ?_⟩
        cases hstarted : r.started with
        | false =>
          rw [step_of_fresh flags hnext hx hstarted] at h
          exact ⟨.endMarker, ly, true, by decide, hatEnd, h⟩
        | true =>
          rw [step_of_end flags hnext hx hstarted] at h
          exact ⟨.newline, _, false, by decide, hclosed, h⟩
      · rw [step_of_token flags hnext hx] at h
        exact Or.inl ⟨hx, h⟩

/-- A step that does not fail keeps the pragmas. -/
theorem pragmaTokens_step (h : r.step flags = (progress, r₁))
    (hgoes : ∀ f, progress ≠ .failed f) : r₁.pragmaTokens = r.pragmaTokens := by
  obtain ⟨x, ly, hnext, ⟨hx, hreceive⟩ | ⟨hx, kind, source, started, hkind, hatEnd, hreceive⟩⟩ :=
    step_reads h hgoes
  · have hupcoming := upcoming_of_token hnext hx
    have hsource := (source_receive x x.kind { r with source := ly, started := true }).1
    rw [hreceive] at hsource
    dsimp only at hsource
    rw [pragmaTokens, pragmaTokens, hsource, hupcoming, List.map_append, ← List.append_assoc]
    congr 1
    by_cases hpragma : x.kind = .typeIgnore
    · rw [receive, if_pos hpragma] at hreceive
      cases hpush : r.pragmas.push x.line x.text with
      | ok pragmas =>
        rw [hpush] at hreceive
        obtain ⟨_, rfl⟩ := Prod.mk.inj hreceive
        have htoken : pragmaToken ⟨x.line, x.text⟩ = x.token.atMargin := by
          rw [pragmaToken, ← hpragma]
          rfl
        dsimp only
        rw [PragmaBuffer.toList_push hpush, List.map_append, List.map_singleton, htoken,
          keepPragmas_cons_of_eq (t := x.token) hpragma]
        rfl
      | error e =>
        rw [hpush] at hreceive
        exact absurd (Prod.mk.inj hreceive).1.symm (hgoes _)
    · have hpragmas := pragmas_receive hpragma x { r with source := ly, started := true }
      rw [hreceive] at hpragmas
      dsimp only at hpragmas
      rw [hpragmas, keepPragmas_cons_of_ne (t := x.token) hpragma]
      exact (List.append_nil _).symm
  · have hsource := (source_receive x kind { r with source, started }).1
    have hpragmas := pragmas_receive hkind x { r with source, started }
    rw [hreceive] at hsource hpragmas
    dsimp only at hsource hpragmas
    rw [pragmaTokens, pragmaTokens, hsource, hpragmas, hatEnd.upcoming, upcoming_of_end hnext hx]

/-- And so does a run that gives a tree. -/
theorem Gives.pragmaTokens (h : Gives flags r tree r') : r'.pragmaTokens = r.pragmaTokens := by
  induction h with
  | accepted hstep => exact pragmaTokens_step hstep fun _ => Progress.noConfusion
  | more hstep _ ih => rw [ih, pragmaTokens_step hstep fun _ => Progress.noConfusion]

end Generic

variable {g : Grammar} {root : Symbol} {ts : List Token} {flags : Flags}
  {r r' : Run Lexer Pushdown} {tree : Node}

/-- A run that gives a tree with the end marker last has read all pragmas. -/
theorem Gives.upcoming (hg : g.Lawful) (hgives : Gives flags r tree r')
    (h : Reading g root ts r.automaton)
    (hend : tree.tokens.getLast?.map Token.kind = some .endMarker) : r'.source.upcoming = [] := by
  induction hgives generalizing ts with
  | @accepted r r' tree hstep =>
    obtain ⟨x, ly, _, ⟨hx, hreceive⟩ | ⟨_, kind, source, started, _, hatEnd, hreceive⟩⟩ :=
      step_reads hstep fun _ => Progress.noConfusion
    · exact absurd hreceive (receive_ne_accepted hg h hend hx)
    · have hsource := (source_receive x kind { r with source, started }).1
      rw [hreceive] at hsource
      dsimp only at hsource
      rw [hsource, hatEnd.upcoming]
  | @more r r₁ r' tree hstep _ ih =>
    obtain ⟨x, ly, _, ⟨_, hreceive⟩ | ⟨_, kind, source, started, _, _, hreceive⟩⟩ :=
      step_reads hstep fun _ => Progress.noConfusion
    · obtain ⟨ts', hreading⟩ := reading_of_receive hg hreceive h
      exact ih hreading hend
    · obtain ⟨ts', hreading⟩ := reading_of_receive hg hreceive h
      exact ih hreading hend

end Run

namespace Parse

open Grammar Pushdown Run Lexer

variable {g : Grammar} {start : StartRule} {options : Options} {filename? encoding? : Option String}
  {s : Source} {tree tree₀ : Node} {ts : List Token} {ends : List Symbol}

/-- No rule reads a pragma, and so the tree that a run gives holds none. -/
theorem keepPragmas_of_sound (hnone : .token .typeIgnore ∉ g.labels) {root : Symbol}
    (h : Sound g root ts tree₀) : keepPragmas tree₀.everyToken = [] := by
  rw [Node.everyToken_of_derivation h.derivation]
  refine keepPragmas_eq_nil fun t ht hkind => hnone ?_
  have hmem := h.derivation.mem_labels ht (by rw [hkind]; decide)
  rwa [hkind] at hmem

theorem keepPragmas_pragmaTokens (pragmas : List PragmaEntry) :
    keepPragmas (pragmas.map pragmaToken) = pragmas.map pragmaToken := by
  refine List.filter_eq_self.2 fun t ht => ?_
  obtain ⟨p, _, rfl⟩ := List.mem_map.1 ht
  rfl

theorem map_pragmaNode (pragmas : List PragmaEntry) :
    pragmas.map pragmaNode = (pragmas.map pragmaToken).map Node.leaf := by
  rw [List.map_map]
  rfl

/-- The pragmas of a finished module are those that were stored. -/
theorem keepPragmas_of_finish (hg : g.Lawful) (he : g.LineEnds .fileInput ends)
    (hnone : .token .typeIgnore ∉ g.labels) (hsound : Sound g .fileInput ts tree₀) {source : Lexer}
    {pragmas : PragmaBuffer} (hfinish : finish .file source pragmas tree₀ = .ok tree) :
    keepPragmas tree.everyToken = pragmas.toList.map pragmaToken := by
  rw [everyToken_of_finish hg he hsound hfinish, keepPragmas_append, ← hsound.tokens,
    ← Node.everyToken_of_derivation hsound.derivation, keepPragmas_of_sound hnone hsound,
    keepPragmas_pragmaTokens]
  rfl

theorem attempt?_pragmas (hg : g.Lawful) (he : g.LineEnds .fileInput ends)
    (hnone : .token .typeIgnore ∉ g.labels) {o : Outcome Lexer Pushdown}
    (h : attempt? g .file options filename? s = some o) (ho : o.result = .ok tree) :
    tree.content.isSymbol .fileInput = true ∧
      keepPragmas tree.everyToken =
        (ofSource options.flags.asyncAlways s).upcoming.map Token.atMargin ∧
      ∃ before last, tree.content.children = before ++ [last] ∧
        last.isToken .endMarker = true ∧
        last.children = (keepPragmas tree.everyToken).map Node.leaf := by
  obtain ⟨automaton, pragmas, tree₀, r, hstart, hpragmas, hgives, hfinish, _⟩ := attempt?_eq_ok h ho
  have hreading := reading_opening hstart options s pragmas
  obtain ⟨ts, hsound⟩ := sound_of_gives hg hgives hreading
  have hread := hgives.upcoming hg hreading (endMarker_of_finish hsound hfinish)
  have hkept := hgives.pragmaTokens
  obtain ⟨hsymbol, before, last, hchildren, hlast, hbelow⟩ := content_of_finish hsound hfinish
  have hevery := keepPragmas_of_finish hg he hnone hsound hfinish
  refine ⟨hsymbol, ?_, before, last, hchildren, hlast, ?_⟩
  · rw [pragmaTokens, pragmaTokens, hread, List.map_nil, List.append_nil] at hkept
    rw [hevery, hkept]
    show pragmas.toList.map pragmaToken ++ _ = _
    rw [PragmaBuffer.toList_ofCapacity hpragmas]
    rfl
  · rw [hbelow, hevery, map_pragmaNode]

/-- What is parsed as less than a module holds no pragmas. -/
theorem attempt?_no_pragmas (hg : g.Lawful) (hnone : .token .typeIgnore ∉ g.labels)
    (hstart : start ≠ .file) {o : Outcome Lexer Pushdown}
    (h : attempt? g start options filename? s = some o) (ho : o.result = .ok tree) :
    keepPragmas tree.everyToken = [] := by
  obtain ⟨automaton, pragmas, tree₀, r, hopens, _, hgives, hfinish, _⟩ := attempt?_eq_ok h ho
  obtain ⟨ts, hsound⟩ := sound_of_gives hg hgives (reading_opening hopens options s pragmas)
  rw [finish_part hstart hsound.kind] at hfinish
  split at hfinish
  · cases hfinish
  · obtain rfl := Except.ok.inj hfinish
    rw [everyToken_nameEncoding, keepPragmas_of_sound hnone hsound]

/-- The pragmas of a text hang below the end marker of its module, all of them and each once, in
the order of their lines, and nowhere else; what is parsed as less than a module holds none. -/
theorem pragmas_of_bytes {input : List UInt8}
    (h : (bytes start options filename? encoding? input).1 = .ok tree) :
    ∃ s, Source.decode options.flags.decodeMode encoding? input = .ok s ∧
      (start = .file → ∀ asyncAlways, ∃ ts lx before last,
        (ofSource asyncAlways s).tokens = (.ok ts, lx) ∧
        tree.content.isSymbol .fileInput = true ∧
        tree.content.children = before ++ [last] ∧ last.isToken .endMarker = true ∧
        last.children = (keepPragmas ts).map (fun t => .leaf t.atMargin) ∧
        (keepPragmas ts).Pairwise (fun t u => t.line < u.line) ∧
        keepPragmas tree.everyToken = (keepPragmas ts).map Token.atMargin) ∧
      (start ≠ .file → keepPragmas tree.everyToken = []) := by
  obtain ⟨s, hs, h⟩ := bytes_eq_ok h
  obtain ⟨g, o, hgrammar, ho, htree⟩ := source_eq_ok h
  obtain ⟨g', hg', hchecked⟩ := Reference.exists_checked
  obtain rfl : g' = g := Except.ok.inj (hg'.symm.trans hgrammar)
  have hg := Reference.lawful hg'
  refine ⟨s, hs, ?_, fun hstart => attempt?_no_pragmas hg hchecked.noPragmas hstart ho htree⟩
  rintro rfl asyncAlways
  obtain ⟨hsymbol, hevery, before, last, hchildren, hlast, hbelow⟩ :=
    attempt?_pragmas hg hchecked.lineEnds hchecked.noPragmas ho htree
  obtain ⟨body, e, lx, htokens, _⟩ :=
    attempt?_everyToken hg hchecked.lineEnds hchecked.balanced ho htree
  obtain ⟨ts, ly, htokens', hplainly⟩ := tokens_plainly htokens asyncAlways
  have hsame : keepPragmas ts = (ofSource options.flags.asyncAlways s).upcoming := by
    rw [upcoming_of_tokens htokens, ← keepPragmas_plainly, hplainly, keepPragmas_plainly]
  refine ⟨ts, ly, before, last, htokens', hsymbol, hchildren, hlast, ?_,
    pairwise_keepPragmas (Source.length_of_source hs) htokens', hsame ▸ hevery⟩
  rw [hbelow, hevery, hsame, List.map_map]
  rfl

/-- A pragma alone on the first line, and one behind code on the second. -/
theorem pragmas_of_bytes_two_lines :
    ∃ tree, (bytes .file (Options.ofFlags Flags.unset) none none
        (Text.encode "#type:ignore\nx #type: ignore a\n".toList)).1 = .ok tree ∧
      keepPragmas tree.everyToken =
        [⟨.typeIgnore, "", 1, some 0⟩, ⟨.typeIgnore, " a", 2, some 0⟩] := by
  obtain ⟨tree, h⟩ := text_of_trial
    (t := ⟨.file, "#type:ignore\nx #type: ignore a\n".toList, some []⟩) (by decide) rfl
    (by decide +kernel)
  refine ⟨tree, h, ?_⟩
  obtain ⟨s, hs, hfile, _⟩ := pragmas_of_bytes h
  obtain ⟨ts, lx, _, _, htokens, _, _, _, _, _, hevery⟩ := hfile rfl false
  have hread : Source.decode (Options.ofFlags Flags.unset).flags.decodeMode none
      (Text.encode "#type:ignore\nx #type: ignore a\n".toList) =
      .ok ⟨"#type:ignore\nx #type: ignore a\n".toList, none⟩ := by decide +kernel
  obtain rfl := Except.ok.inj (hread.symm.trans hs)
  have hdrained : (ofSource false ⟨"#type:ignore\nx #type: ignore a\n".toList, none⟩).tokens.1.map
      keepPragmas =
      .ok [⟨.typeIgnore, "", 1, some 12⟩, ⟨.typeIgnore, " a", 2, some 15⟩] := by decide +kernel
  rw [htokens] at hdrained
  rw [hevery, Except.ok.inj hdrained]
  rfl

end Parse
end Offside
