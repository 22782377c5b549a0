import Offside.Proofs.Lexer.AsyncWords
import Offside.Proofs.Lexer.Stops
import Offside.Proofs.Parse.Ending
import Offside.Proofs.Parse.Protocol

/-!
Texts that end too early. A tree holds as many closing brackets as opening ones, and as many
dedents as indents, so that none is given for a text that ends inside brackets, or inside blocks
that must not be closed for it. Inside brackets the end asks for more input, whatever is refused
there; inside blocks it is a matter of syntax.
-/

namespace Offside

namespace Run

section Generic

variable {σ α : Type} [TokenSource σ] [Automaton α] {flags : Flags} {r r' r₁ : Run σ α}
  {result : Except Failure Node}

/-- A step reads from the source, and may have the open blocks closed. -/
theorem source_step (flags : Flags) {r : Run σ α} {x : Lexeme} {source : σ}
    (h : TokenSource.next r.source = (.ok x, source)) :
    (r.step flags).2.source = source ∨ (r.step flags).2.source = closeBlocks flags source := by
  by_cases hx : x.kind = .endMarker
  · cases hstarted : r.started with
    | false =>
      rw [step_of_fresh flags h hx hstarted]
      exact Or.inl (source_receive _ _ _).1
    | true =>
      rw [step_of_end flags h hx hstarted]
      exact Or.inr (source_receive _ _ _).1
  · rw [step_of_token flags h hx]
    exact Or.inl (source_receive _ _ _).1

theorem kind_of_step {f : Failure} {x : Lexeme} {source : σ}
    (hnext : TokenSource.next r.source = (.ok x, source)) (h : r.step flags = (.failed f, r')) :
    f.kind = .unexpectedToken ∨ f.kind = .outOfMemory := by
  rw [step_of_next hnext rfl] at h
  exact kind_of_receive h

/-- If the source can always be read, and something holds after each read, then it holds where a
run over the source ends; and what fails there is not the reading. -/
theorem loop_keeps {P : σ → Prop}
    (hread : ∀ source, P source →
      ∃ x source', TokenSource.next source = (.ok x, source') ∧ P source')
    (hclose : ∀ source, P source → P (closeBlocks flags source)) {fuel : Nat}
    (hfirst : ∃ x source, TokenSource.next r.source = (.ok x, source) ∧ P source)
    (hloop : loop flags fuel r = some (result, r')) :
    P r'.source ∧ ∀ f, result = .error f → f.kind = .unexpectedToken ∨ f.kind = .outOfMemory := by
  induction fuel generalizing r with
  | zero => cases hloop
  | succ fuel ih =>
    obtain ⟨x, source, hnext, hsource⟩ := hfirst
    have hkept : P (r.step flags).2.source := by
      rcases source_step flags hnext with hstep | hstep
      · exact hstep ▸ hsource
      · exact hstep ▸ hclose source hsource
    rw [loop] at hloop
    split at hloop
    · next r₁ hstep =>
      rw [hstep] at hkept
      exact ih (hread r₁.source hkept) hloop
    · next tree r₁ hstep =>
      cases hloop
      rw [hstep] at hkept
      exact ⟨hkept, fun _ h => by cases h⟩
    · next f r₁ hstep =>
      cases hloop
      rw [hstep] at hkept
      refine ⟨hkept, fun f' h => ?_⟩
      obtain rfl := Except.error.inj h
      exact kind_of_step hnext hstep

/-- A run that was not over after so many steps goes on from there. -/
theorem loop_after {n : Nat} (h : after flags n r = (none, r₁)) (m : Nat) :
    loop flags (n + m) r = loop flags m r₁ := by
  induction n generalizing r with
  | zero =>
    cases h
    rw [Nat.zero_add]
  | succ n ih =>
    rw [after] at h
    rw [Nat.add_right_comm, loop]
    generalize r.step flags = progress at h ⊢
    obtain ⟨progress, r₂⟩ := progress
    cases progress with
    | more => exact ih h
    | accepted tree => cases h
    | failed f => cases h

end Generic

open Grammar Pushdown Lexer

variable {g : Grammar} {root : Symbol} {flags : Flags} {r r' r₁ : Run Lexer Pushdown} {tree : Node}
  {xs : List Lexeme} {lx : Lexer}

/-- Before the end marker a run reads one lexeme in each step. -/
theorem source_after (h : after flags xs.length r = (none, r₁)) (hyields : Yields r.source xs lx)
    (hxs : ∀ x ∈ xs, x.kind ≠ .endMarker) : r₁.source = lx := by
  induction xs generalizing r with
  | nil =>
    cases h
    cases hyields
    rfl
  | cons x xs ih =>
    obtain ⟨hx, hxs⟩ := List.forall_mem_cons.1 hxs
    cases hyields with
    | @cons _ ly _ _ _ hnext hrest =>
      rw [List.length_cons, after] at h
      split at h
      · next r₂ hstep =>
        have hsource := (source_receive x x.kind { r with source := ly, started := true }).1
        rw [← step_of_token flags hnext hx, hstep] at hsource
        exact ih h (hsource ▸ hrest) hxs
      · cases h
      · cases h

/-- From the end marker on, a run does not change how the text has ended. -/
theorem stop_of_loop {fuel : Nat} {result : Except Failure Node} {e : Lexeme}
    (hnext : r.source.next = (.ok e, lx)) (he : e.kind = .endMarker)
    (hloop : loop flags fuel r = some (result, r')) : r'.source.stop = lx.stop := by
  have hkept : r'.source.Ended ∧ r'.source.stop = lx.stop := by
    refine (loop_keeps (P := fun ly => ly.Ended ∧ ly.stop = lx.stop) ?_ ?_ ?_ hloop).1
    · rintro ly ⟨hended, hstop⟩
      obtain ⟨x, lz, hnext, hended', hsame⟩ := hended.next
      exact ⟨x, lz, hnext, hended', hsame.trans hstop⟩
    · rintro ly ⟨hended, hstop⟩
      unfold closeBlocks
      split
      · exact ⟨hended.queueDedents _, hstop⟩
      · exact ⟨hended, hstop⟩
    · exact ⟨e, lx, hnext, ended_of_next hnext he, rfl⟩
  exact hkept.2

/-- A run that has read all tokens of a text, and goes on, is over where the text has ended. -/
theorem stop_of_goesOn {fuel : Nat} {result : Except Failure Node} {e : Lexeme}
    (hyields : Yields r.source (xs ++ [e]) lx) (he : e.kind = .endMarker)
    (hxs : ∀ x ∈ xs, x.kind ≠ .endMarker) (hgoes : loop flags xs.length r = none)
    (hloop : loop flags fuel r = some (result, r')) : r'.source.stop = lx.stop := by
  rw [loop_eq_after, Option.map_eq_none_iff] at hgoes
  have hafter : after flags xs.length r = (none, (after flags xs.length r).2) :=
    Prod.ext hgoes rfl
  obtain ⟨ly, hbefore, hlast⟩ := hyields.append_inv
  cases hlast with
  | cons hnext hrest =>
    cases hrest
    have hrun := loop_add hloop xs.length
    rw [Nat.add_comm, loop_after hafter] at hrun
    rw [← source_after hafter hbefore hxs] at hnext
    exact stop_of_loop hnext he hrun

/-- A run over a text that ends as it should fails at its tokens, if the blocks that are left open
stay open. -/
theorem kind_of_loop {stop : StopReason} {fuel : Nat} {f : Failure} (h : r.source.StopsAt stop)
    (hkept : flags.dontImplyDedent = true) (hloop : loop flags fuel r = some (.error f, r')) :
    (f.kind = .unexpectedToken ∨ f.kind = .outOfMemory) ∧
      (r'.source.stop = .running ∨ r'.source.stop = stop) := by
  have hclose : ∀ ly : Lexer, closeBlocks flags ly = ly := fun ly =>
    closeBlocks_of_kept fun hopen => by
      rw [hkept] at hopen
      cases hopen.2
  obtain ⟨hstops, hkind⟩ := loop_keeps (P := StopsAt stop) (fun ly hly => hly.next)
    (fun ly hly => by rwa [hclose]) h.next hloop
  exact ⟨hkind f rfl, hstops.running_or_eq⟩

theorem bracketsAfter_dropPragmas (depth : Nat) (ts : List Token) :
    bracketsAfter depth (dropPragmas ts) = bracketsAfter depth ts := by
  induction ts generalizing depth with
  | nil => rfl
  | cons t ts ih =>
    by_cases h : t.kind = .typeIgnore
    · rw [dropPragmas_cons_of_eq h, ih, bracketsAfter_cons, h, Kind.nest_eq rfl rfl]
    · rw [dropPragmas_cons_of_ne h, bracketsAfter_cons, bracketsAfter_cons, ih]

/-- What the end of a text adds holds no brackets. -/
theorem bracketsAfter_closing (depth line : Nat) (hasTokens : Bool) (blocks : Nat) :
    bracketsAfter depth (closing line hasTokens blocks) = depth := by
  refine bracketsAfter_of_flat depth fun t ht => ?_
  rcases kind_of_mem_closing ht with h | h | h <;> rw [h] <;> exact ⟨rfl, rfl⟩

theorem bracketsAfter_tokens (xs : List Lexeme) :
    bracketsAfter 0 (xs.map Lexeme.token) = openBrackets xs := by
  rw [bracketsAfter, openBrackets, List.foldl_map, List.foldl_map]
  rfl

/-- A run that gives a tree has read a text that leaves no bracket open, and no block that must not
be closed for it. -/
theorem Gives.nothingOpen {blocks : Symbol → Nat → Int} {brackets : Symbol → Nat → Nat}
    (hg : g.Lawful) (he : g.EndMarked root) (hclosed : g.ClosedByMarker root)
    (hbalanced : g.Balanced blocks) (hbracketed : g.Bracketed brackets)
    (hgives : Gives flags r tree r') (h : Reading g root [] r.automaton)
    (hstarted : r.started = false) {asyncAlways : Bool} {s : Source}
    (hsource : r.source = ofSource asyncAlways s) {us : List Token}
    (htokens : (ofSource asyncAlways s).tokens = (.ok us, lx)) :
    lx.nesting = 0 ∧ (flags.dontImplyDedent = true → lx.indents.depth = 0) := by
  obtain ⟨ts, hsound⟩ := sound_of_gives hg hgives h
  obtain ⟨before, u, rfl, hu⟩ := exists_endMarker_of_sound hclosed hsound
  have hend : tree.tokens.getLast?.map Token.kind = some .endMarker := by
    rw [hsound.tokens, List.getLast?_concat, Option.map_some, hu]
  obtain ⟨xs, e, ly, hyields, hkind, hxs, htree, hblocks⟩ :=
    hgives.tokens_eq hg he hbalanced h hstarted (by rw [hsource]; rfl) hend
  rw [hsource] at hyields
  have hsame := tokens_of_yields hyields hkind hxs
  rw [htokens] at hsame
  obtain ⟨_, rfl⟩ := Prod.mk.inj hsame
  refine ⟨?_, hblocks⟩
  -- the brackets of the tree are those of the text, since what else there is holds none
  have hnesting := (hyields.inStep (inStep_ofSource _ s)).nesting
  rw [List.nil_append, openBrackets_concat, hkind, Kind.nest_eq rfl rfl] at hnesting
  have hwhole := hbracketed.whole hsound.derivation root hsound.kind 0
  rw [htree, bracketsAfter_append, bracketsAfter_closing, bracketsAfter_dropPragmas,
    bracketsAfter_tokens] at hwhole
  rw [hnesting, hwhole]

end Run

namespace Parse

open Grammar Pushdown Run Lexer

variable {start : StartRule} {options : Options} {filename? : Option String} {s : Source}

/-- A text that leaves something open at its end, a bracket, or a block that must not be closed for
it, has no tree. There was no room for pragmas, or the run over it failed. -/
theorem failed_of_open {g : Grammar} {automaton : Pushdown} {o : Outcome Lexer Pushdown}
    {n : Nat} {us : List Token} {lx : Lexer} (hgrammar : Reference.grammar = .ok g)
    (hchecked : Reference.Checked g)
    (hstart : start? g start.symbol defaultMaxDepth = some automaton) (hrule : start ≠ .single)
    (htokens : (ofSource options.flags.asyncAlways s).tokens = (.ok us, lx))
    (hopen : 0 < lx.nesting ∨ 0 < lx.indents.depth ∧ options.flags.dontImplyDedent = true)
    (h : tokens n start options filename? (ofSource options.flags.asyncAlways s) automaton =
      some o) :
    (∃ e, PragmaBuffer.ofCapacity options.pragmaCapacity options.pragmaLimit? = .error e ∧
      o.result = .error (report (ofSource options.flags.asyncAlways s) filename?
        (.ofAllocError e))) ∨
    ∃ pragmas f r,
      PragmaBuffer.ofCapacity options.pragmaCapacity options.pragmaLimit? = .ok pragmas ∧
      loop options.flags n (opening options s automaton pragmas) = some (.error f, r) ∧
      o.result = .error (report r.source filename? f) := by
  have hclosed : g.ClosedByMarker start.symbol := by
    cases start with
    | file => exact hchecked.closedByMarker
    | single => exact absurd rfl hrule
    | eval => exact hchecked.evalClosedByMarker
  obtain ⟨_, he⟩ := hchecked.start start
  rcases tokens_eq_some h with hfull | ⟨pragmas, result, r, hpragmas, hloop, rfl⟩
  · exact Or.inl hfull
  · cases result with
    | error f => exact Or.inr ⟨pragmas, f, r, hpragmas, hloop, rfl⟩
    | ok tree =>
      have hnone := (gives_of_loop hloop).nothingOpen (Reference.lawful hgrammar) he hclosed
        hchecked.balanced hchecked.bracketed (reading_opening hstart options s pragmas) rfl rfl
        htokens
      rcases hopen with hnesting | ⟨hdepth, hkept⟩
      · exact absurd hnone.1 (Nat.ne_of_gt hnesting)
      · exact absurd (hnone.2 hkept) (Nat.ne_of_gt hdepth)

/-- Whether `async` and `await` are keywords, a text ends in the same way. -/
theorem exists_tokens_alike {asyncAlways : Bool} {ts : List Token} {lx : Lexer}
    (h : (ofSource asyncAlways s).tokens = (.ok ts, lx)) (asyncAlways' : Bool) :
    ∃ us lw, (ofSource asyncAlways' s).tokens = (.ok us, lw) ∧ us.length = ts.length ∧
      lw.stop = lx.stop ∧ lw.nesting = lx.nesting ∧ lw.indents = lx.indents := by
  obtain ⟨us, lw, htokens, hplainly, hlexer⟩ := exists_tokens_plainly h asyncAlways'
  refine ⟨us, lw, htokens, ?_, ?_, ?_, ?_⟩
  · have hlength := congrArg List.length hplainly
    rwa [List.length_map, List.length_map] at hlength
  · show lw.plainly.stop = lx.plainly.stop
    rw [hlexer]
  · show lw.plainly.nesting = lx.plainly.nesting
    rw [hlexer]
  · show lw.plainly.indents = lx.plainly.indents
    rw [hlexer]

theorem kind_report (source : Lexer) (filename? : Option String) (f : Failure) :
    (report source filename? f).kind =
      if source.stop = .exhausted then .endOfFile else f.kind := rfl

/-- Text that ends inside brackets gives no tree; and if the end is reached, none of the tokens
before it being refused, the diagnostic asks for more input. -/
theorem source_of_exhausted {asyncAlways : Bool} {ts : List Token} {lx : Lexer}
    (htokens : (ofSource asyncAlways s).tokens = (.ok ts, lx)) (hstop : lx.stop = .exhausted)
    (hrule : start ≠ .single) :
    (∀ tree, (source start options filename? s).1 ≠ .ok tree) ∧
    ∀ g automaton, Reference.grammar = .ok g →
      start? g start.symbol defaultMaxDepth = some automaton →
      tokens (ts.length - 1) start options filename? (ofSource options.flags.asyncAlways s)
        automaton = none →
      ∃ d, (source start options filename? s).1 = .error d ∧ d.kind = .endOfFile := by
  obtain ⟨us, lw, htokens', hlength, hstop', hnesting, _⟩ :=
    exists_tokens_alike htokens options.flags.asyncAlways
  obtain ⟨xs, e, hyields, he, hxs, rfl⟩ := exists_yields_of_tokens htokens'
  have hexhausted : lw.stop = .exhausted := hstop'.trans hstop
  have hopen : 0 < lw.nesting := by
    have hended := (ended_of_yields hyields he).stop
    by_contra hnone
    rw [hexhausted, stopAt, if_neg hnone] at hended
    cases hended
  obtain ⟨g, automaton, o, hgrammar, hchecked, hstart, ho, hsource⟩ :=
    exists_outcome start options filename? s
  have hfailed := failed_of_open hgrammar hchecked hstart hrule htokens' (Or.inl hopen) ho
  rw [hsource]
  constructor
  · intro tree htree
    dsimp only at htree
    rcases hfailed with ⟨_, _, hresult⟩ | ⟨_, _, _, _, _, hresult⟩
    · cases hresult.symm.trans htree
    · cases hresult.symm.trans htree
  · intro g' automaton' hgrammar' hstart' hgoes
    obtain rfl : g = g' := Except.ok.inj (hgrammar.symm.trans hgrammar')
    obtain rfl : automaton = automaton' := Option.some.inj (hstart.symm.trans hstart')
    obtain ⟨pragmas, hpragmas, hnone⟩ := loop_of_tokens_eq_none hgoes
    have hsteps : ts.length - 1 = xs.length := by
      rw [← hlength, List.length_map, List.length_append, List.length_singleton,
        Nat.add_sub_cancel]
    rw [hsteps] at hnone
    rcases hfailed with ⟨e, hfull, _⟩ | ⟨pragmas', f, r, hpragmas', hloop, hresult⟩
    · cases hpragmas.symm.trans hfull
    · obtain rfl := Except.ok.inj (hpragmas.symm.trans hpragmas')
      refine ⟨_, hresult, ?_⟩
      rw [kind_report, stop_of_goesOn hyields he hxs hnone hloop, hexhausted, if_pos rfl]

/-- An opening bracket, and nothing else. -/
theorem source_of_exhausted_bracket :
    (∀ tree, (source .file (Options.ofFlags Flags.unset) none ⟨['('], none⟩).1 ≠ .ok tree) ∧
      ∃ d, (source .file (Options.ofFlags Flags.unset) none ⟨['('], none⟩).1 = .error d ∧
        d.kind = .endOfFile := by
  have htokens : (ofSource false ⟨['('], none⟩).tokens.1 =
      .ok [⟨.lpar, "(", 1, some 0⟩, ⟨.endMarker, "", 1, none⟩] := by decide +kernel
  have hstop : (ofSource false ⟨['('], none⟩).tokens.2.stop = .exhausted := by decide +kernel
  obtain ⟨g, automaton, _, hgrammar, -, hstart, _⟩ :=
    exists_outcome .file (Options.ofFlags Flags.unset) none ⟨['('], none⟩
  obtain ⟨g', hgrammar', htried⟩ := Reference.exists_triedOut
  obtain rfl : g = g' := Except.ok.inj (hgrammar.symm.trans hgrammar')
  have hgoes := Option.isNone_iff_eq_none.1 (htried.openBracket automaton hstart)
  refine ⟨(source_of_exhausted (Prod.ext htokens rfl) hstop (by decide)).1, ?_⟩
  exact (source_of_exhausted (Prod.ext htokens rfl) hstop (by decide)).2 g automaton hgrammar
    hstart hgoes

/-- Text that ends inside blocks gives no tree where these must not be closed for it, and what the
diagnostic tells of is not the end of the input. -/
theorem source_of_openBlocks {asyncAlways : Bool} {ts : List Token} {lx : Lexer}
    (htokens : (ofSource asyncAlways s).tokens = (.ok ts, lx)) (hstop : lx.stop = .finished)
    (hdepth : 0 < lx.indents.depth) (hkept : options.flags.dontImplyDedent = true) :
    ∃ d, (source .file options filename? s).1 = .error d ∧
      (d.kind = .unexpectedToken ∨ d.kind = .outOfMemory) := by
  obtain ⟨us, lw, htokens', _, hstop', _, hindents⟩ :=
    exists_tokens_alike htokens options.flags.asyncAlways
  obtain ⟨xs, e, hyields, he, hxs, rfl⟩ := exists_yields_of_tokens htokens'
  obtain ⟨g, automaton, o, hgrammar, hchecked, hstart, ho, hsource⟩ :=
    exists_outcome .file options filename? s
  rw [hsource]
  rcases failed_of_open hgrammar hchecked hstart StartRule.noConfusion htokens'
    (Or.inr ⟨hindents ▸ hdepth, hkept⟩) ho with ⟨_, _, hresult⟩ | ⟨pragmas, f, r, _, hloop, hresult⟩
  · exact ⟨_, hresult, Or.inr rfl⟩
  · have hstops : (opening options s automaton pragmas).source.StopsAt lw.stop :=
      stopsAt_of_yields hyields rfl he hxs
    obtain ⟨hkind, hrunning⟩ := kind_of_loop hstops hkept hloop
    have hmore : r.source.stop ≠ .exhausted := by
      rw [hstop', hstop] at hrunning
      rcases hrunning with hrunning | hrunning <;> rw [hrunning] <;> decide
    refine ⟨_, hresult, ?_⟩
    rwa [kind_report, if_neg hmore]

/-- A block that the end of the text leaves open. -/
theorem source_of_openBlocks_if :
    ∃ d, (source .file (Options.ofFlags ⟨false, false, true⟩) none
        ⟨['i', 'f', ' ', 'x', ':', '\n', ' ', 'y'], none⟩).1 = .error d ∧
      (d.kind = .unexpectedToken ∨ d.kind = .outOfMemory) := by
  have htokens : (ofSource false ⟨['i', 'f', ' ', 'x', ':', '\n', ' ', 'y'], none⟩).tokens.1 =
      .ok [⟨.word, "if", 1, some 0⟩, ⟨.word, "x", 1, some 3⟩, ⟨.colon, ":", 1, some 4⟩,
        ⟨.newline, "", 1, some 5⟩, ⟨.indent, "", 2, none⟩, ⟨.word, "y", 2, some 1⟩,
        ⟨.endMarker, "", 2, none⟩] := by decide +kernel
  have hstop : (ofSource false ⟨['i', 'f', ' ', 'x', ':', '\n', ' ', 'y'], none⟩).tokens.2.stop =
      .finished := by decide +kernel
  have hdepth : 0 < (ofSource false
      ⟨['i', 'f', ' ', 'x', ':', '\n', ' ', 'y'], none⟩).tokens.2.indents.depth := by
    decide +kernel
  exact source_of_openBlocks (Prod.ext htokens rfl) hstop hdepth rfl

end Parse
end Offside
