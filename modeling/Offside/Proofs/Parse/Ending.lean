import Offside.Proofs.Parse.Attempt
import Offside.Proofs.Parse.Finish

/-!
Every parse ends. Each step of a run but the last lowers its weight, so that a run has an outcome
within that many steps, and more fuel gives the same one. The outcome is a tree that can be
finished, or a failure that tells something of the input: never that nothing failed, and never
that a tree is not what it must be.
-/

namespace Offside

/-- Kinds of failures that tell something of the input. -/
def FailureKind.IsProper (k : FailureKind) : Prop := k ≠ .ok ∧ k ≠ .internal

instance (k : FailureKind) : Decidable k.IsProper := inferInstanceAs (Decidable (_ ∧ _))

theorem FailureKind.isProper_ofLexError (e : LexError) : (ofLexError e).IsProper := by
  cases e <;> decide

namespace Run

open Grammar Pushdown

section Generic

variable {σ α : Type} [Automaton α] {flags : Flags} {r r' : Run σ α} {f : Failure}
  {result : Except Failure Node}

theorem kind_of_checkSpelling {future : Future} {t : Token}
    (h : checkSpelling future t = .error f) : f.kind = .unexpectedToken := by
  unfold checkSpelling at h
  split at h
  · cases h
  · split at h
    · split at h
      · cases h
      · cases h
        rfl
    · split at h
      · cases h
      · cases h
        rfl

/-- A lexeme that is read can only be refused, or be too much. -/
theorem kind_of_receive {x : Lexeme} {kind : Kind} (h : receive x kind r = (.failed f, r')) :
    f.kind = .unexpectedToken ∨ f.kind = .outOfMemory := by
  unfold receive at h
  split at h
  · cases hpush : r.pragmas.push x.line x.text with
    | ok pragmas =>
      rw [hpush] at h
      cases h
    | error e =>
      rw [hpush] at h
      cases h
      exact Or.inr rfl
  · unfold offer at h
    cases hspelling : checkSpelling (Automaton.future r.automaton) { x.token with kind } with
    | error f' =>
      rw [hspelling] at h
      cases h
      exact Or.inl (kind_of_checkSpelling hspelling)
    | ok _ =>
      rw [hspelling] at h
      dsimp only at h
      cases hverdict : (Automaton.feed { x.token with kind } r.automaton).1 with
      | more =>
        rw [hverdict] at h
        cases h
      | accept =>
        rw [hverdict] at h
        cases h
      | reject =>
        rw [hverdict] at h
        cases h
        exact Or.inl rfl
      | outOfMemory =>
        rw [hverdict] at h
        cases h
        exact Or.inr rfl

theorem isProper_of_receive {x : Lexeme} {kind : Kind} (h : receive x kind r = (.failed f, r')) :
    f.kind.IsProper := by
  rcases kind_of_receive h with hkind | hkind <;> rw [hkind] <;> decide

variable [TokenSource σ]

theorem isProper_of_step (h : r.step flags = (.failed f, r')) : f.kind.IsProper := by
  cases hnext : TokenSource.next r.source with
  | mk answer source =>
    cases answer with
    | error e =>
      rw [step_of_error hnext] at h
      cases h
      exact FailureKind.isProper_ofLexError e
    | ok x =>
      rw [step_of_next hnext rfl] at h
      exact isProper_of_receive h

theorem isProper_of_loop {fuel : Nat} (h : loop flags fuel r = some (.error f, r')) :
    f.kind.IsProper := by
  induction fuel generalizing r with
  | zero => cases h
  | succ fuel ih =>
    rw [loop] at h
    split at h
    · exact ih h
    · cases h
    · next hstep =>
      cases h
      exact isProper_of_step hstep

/-- An outcome does not change with more fuel. -/
theorem loop_add {fuel : Nat} (h : loop flags fuel r = some (result, r')) (more : Nat) :
    loop flags (fuel + more) r = some (result, r') := by
  induction fuel generalizing r with
  | zero => cases h
  | succ fuel ih =>
    rw [Nat.add_right_comm, loop]
    rw [loop] at h
    split at h
    · next r₁ hstep => exact ih h
    · exact h
    · exact h

end Generic

variable {g : Grammar} {root : Symbol} {ts : List Token} {flags : Flags}

/-- A run has an outcome within as many steps as its weight. -/
theorem exists_loop (hg : g.Lawful) (he : g.EndMarked root) {fuel : Nat}
    {r : Run Lexer Pushdown} (h : Reading g root ts r.automaton) (hfuel : r.weight ≤ fuel) :
    ∃ result r', loop flags fuel r = some (result, r') := by
  induction fuel generalizing r ts with
  | zero =>
    unfold weight at hfuel
    split at hfuel <;> omega
  | succ fuel ih =>
    rw [loop]
    split
    · next r₁ hstep =>
      obtain ⟨hlt, ts', hreading⟩ := step_spec hg he h hstep
      exact ih hreading (by omega)
    · exact ⟨_, _, rfl⟩
    · exact ⟨_, _, rfl⟩

end Run

namespace Parse

open Grammar Pushdown Run

variable {g : Grammar} {start : StartRule} {options : Options} {filename? encoding? : Option String}
  {s : Source} {tree tree₀ : Node} {ts : List Token}

/-- A tree of the start rule can be finished, unless code follows what must stand alone. -/
theorem isProper_of_finish (hg : g.Lawful) (he : g.EndMarked .fileInput)
    (hclosed : g.ClosedByMarker .fileInput) (h : Sound g start.symbol ts tree₀) {source : Lexer}
    {pragmas : PragmaBuffer} {f : Failure}
    (hfinish : finish start source pragmas tree₀ = .error f) : f.kind.IsProper := by
  by_cases hstart : start = .file
  · subst hstart
    obtain ⟨before, u, rfl, hu⟩ := exists_endMarker_of_sound hclosed h
    obtain ⟨children, hchildren, _⟩ := lastChild?_of_sound hg he h hu
    have hlast : (Node.leaf u).isToken .endMarker = true := by
      rw [Node.isToken, beq_iff_eq, ← hu]
      rfl
    rw [finish_file h.kind, attachPragmas_of_last hchildren hlast] at hfinish
    cases hfinish
  · rw [finish_part hstart h.kind] at hfinish
    split at hfinish
    · cases hfinish
      exact (by decide : FailureKind.manyStatements.IsProper)
    · cases hfinish

theorem isProper_report (source : Lexer) {f : Failure} (h : f.kind.IsProper) :
    (report source filename? f).kind.IsProper := by
  unfold report
  dsimp only
  split
  · decide
  · exact h

/-- Each step uses up some of the text, or of what the end of the text adds. -/
theorem fuel_ofSource (asyncAlways : Bool) (s : Source) :
    fuel (Lexer.ofSource asyncAlways s) = 6 * s.text.length + 4 := by
  have hweight : (Lexer.ofSource asyncAlways s).weight = 3 * s.text.length + 0 + 0 + 0 := rfl
  rw [fuel, hweight]
  omega

/-- A parse of a source has an outcome within so many steps, and the same one with more. -/
theorem exists_tokens (hg : g.Lawful) (he : g.EndMarked start.symbol)
    (hfile : g.EndMarked .fileInput) (hclosed : g.ClosedByMarker .fileInput)
    {automaton : Pushdown} (hstart : start? g start.symbol defaultMaxDepth = some automaton)
    (options : Options) (filename? : Option String) (s : Source) :
    ∃ o : Outcome Lexer Pushdown,
      (∀ more, tokens (fuel (Lexer.ofSource options.flags.asyncAlways s) + more) start options
        filename? (Lexer.ofSource options.flags.asyncAlways s) automaton = some o) ∧
      ∀ d, o.result = .error d → d.kind.IsProper := by
  unfold tokens
  cases hpragmas : PragmaBuffer.ofCapacity options.pragmaCapacity options.pragmaLimit? with
  | error e =>
    refine ⟨_, fun _ => rfl, fun d hd => ?_⟩
    cases hd
    apply isProper_report
    exact (by decide : FailureKind.outOfMemory.IsProper)
  | ok pragmas =>
    have hreading := reading_opening hstart options s pragmas
    have hends : ∃ result r', loop options.flags (fuel (Lexer.ofSource options.flags.asyncAlways s))
        (opening options s automaton pragmas) = some (result, r') :=
      exists_loop hg he hreading (weight_opening_le options s automaton pragmas)
    obtain ⟨result, r', hloop⟩ := hends
    refine ⟨_, fun more => Option.map_eq_some_iff.2 ⟨_, loop_add hloop more, rfl⟩, fun d hd => ?_⟩
    dsimp only at hd
    cases result with
    | error f =>
      cases hd
      exact isProper_report _ (isProper_of_loop hloop)
    | ok tree₀ =>
      obtain ⟨ts, hsound⟩ := sound_of_gives hg (gives_of_loop hloop) hreading
      have hfinish : (finish start r'.source r'.pragmas tree₀).mapError
        (report r'.source filename?) = .error d := hd
      cases hresult : finish start r'.source r'.pragmas tree₀ with
      | ok tree =>
        rw [hresult] at hfinish
        cases hfinish
      | error f =>
        rw [hresult] at hfinish
        cases hfinish
        exact isProper_report _ (isProper_of_finish hg hfile hclosed hsound hresult)

/-- What a parse of a source comes to is the outcome of one by the tables of the reference
grammar. -/
theorem exists_outcome (start : StartRule) (options : Options) (filename? : Option String)
    (s : Source) :
    ∃ (g : Grammar) (automaton : Pushdown) (o : Outcome Lexer Pushdown),
      Reference.grammar = .ok g ∧ Reference.Checked g ∧
      start? g start.symbol defaultMaxDepth = some automaton ∧
      tokens (fuel (Lexer.ofSource options.flags.asyncAlways s)) start options filename?
        (Lexer.ofSource options.flags.asyncAlways s) automaton = some o ∧
      source start options filename? s = (o.result, o.options) := by
  obtain ⟨g, hgrammar, hchecked⟩ := Reference.exists_checked
  obtain ⟨hrule, he⟩ := hchecked.start start
  obtain ⟨_, hfile⟩ := hchecked.start .file
  obtain ⟨table, htable⟩ := Option.isSome_iff_exists.1 hrule
  have hstart : start? g start.symbol defaultMaxDepth =
      some ⟨g, [Frame.enter table 0 none], 0, defaultMaxDepth, false⟩ := by
    rw [start?, htable]
    rfl
  obtain ⟨o, htokens, _⟩ := exists_tokens (Reference.lawful hgrammar) he hfile
    hchecked.closedByMarker hstart options filename? s
  have hattempt : attempt? g start options filename? s = some o := by
    rw [attempt?, hstart]
    exact htokens 0
  refine ⟨g, _, o, hgrammar, hchecked, hstart, htokens 0, ?_⟩
  rw [source, hgrammar, sourceBy_of_attempt? hattempt]

theorem isProper_ofDecodeError (input : List UInt8) (filename? : Option String) (e : DecodeError) :
    (ofDecodeError input filename? e).kind.IsProper := by
  cases e <;> exact (by decide : FailureKind.undecodable.IsProper)

/-- Every parse ends, and ends well. Input that can be read as text has the outcome of a run over
it, in a number of steps that its length bounds, and which more steps do not change; what comes of
any input is a tree, or a diagnostic that tells something of the input. -/
theorem bytes_ends (start : StartRule) (options : Options) (filename? encoding? : Option String)
    (input : List UInt8) :
    ((∃ e, Source.decode options.flags.decodeMode encoding? input = .error e) ∨
      ∃ (s : Source) (g : Grammar) (automaton : Pushdown) (o : Outcome Lexer Pushdown),
        Source.decode options.flags.decodeMode encoding? input = .ok s ∧
        Reference.grammar = .ok g ∧
        start? g start.symbol defaultMaxDepth = some automaton ∧
        (∀ more, tokens (6 * s.text.length + 4 + more) start options filename?
          (Lexer.ofSource options.flags.asyncAlways s) automaton = some o) ∧
        bytes start options filename? encoding? input = (o.result, o.options)) ∧
    ((∃ tree, (bytes start options filename? encoding? input).1 = .ok tree) ∨
      ∃ d, (bytes start options filename? encoding? input).1 = .error d ∧
        d.kind ≠ .ok ∧ d.kind ≠ .internal) := by
  cases hdecode : Source.decode options.flags.decodeMode encoding? input with
  | error e =>
    have hbytes : bytes start options filename? encoding? input =
        (.error (ofDecodeError input filename? e), options) := by
      rw [bytes, hdecode]
    obtain ⟨hok, hinternal⟩ := isProper_ofDecodeError input filename? e
    rw [hbytes]
    exact ⟨Or.inl ⟨e, rfl⟩, Or.inr ⟨_, rfl, hok, hinternal⟩⟩
  | ok s =>
    obtain ⟨g, hgrammar, hchecked⟩ := Reference.exists_checked
    have hg := Reference.lawful hgrammar
    obtain ⟨hrule, he⟩ := hchecked.start start
    obtain ⟨_, hfile⟩ := hchecked.start .file
    obtain ⟨table, htable⟩ := Option.isSome_iff_exists.1 hrule
    have hstart : start? g start.symbol defaultMaxDepth =
        some ⟨g, [Frame.enter table 0 none], 0, defaultMaxDepth, false⟩ := by
      rw [start?, htable]
      rfl
    obtain ⟨o, htokens, hproper⟩ :=
      exists_tokens hg he hfile hchecked.closedByMarker hstart options filename? s
    have hattempt : attempt? g start options filename? s = some o := by
      rw [attempt?, hstart]
      exact htokens 0
    have hbytes : bytes start options filename? encoding? input = (o.result, o.options) := by
      rw [bytes, hdecode]
      show source start options filename? s = _
      rw [source, hgrammar, sourceBy_of_attempt? hattempt]
    rw [fuel_ofSource] at htokens
    refine ⟨Or.inr ⟨s, g, _, o, rfl, hgrammar, hstart, htokens, hbytes⟩, ?_⟩
    rw [hbytes]
    cases hresult : o.result with
    | ok tree => exact Or.inl ⟨tree, rfl⟩
    | error d => exact Or.inr ⟨d, rfl, hproper d hresult⟩

end Parse
end Offside
