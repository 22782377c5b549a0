import Offside.Proofs.Grammar.Reference
import Offside.Proofs.Parse.Steps

/-!
Parses as runs. A parse gives a tree if a run over its source gives one that can be finished, and
a parse of bytes or of a text is one by the tables of the reference grammar.
-/

namespace Offside.Parse

open Grammar Pushdown Run

variable {g : Grammar} {start : StartRule} {root : Symbol} {ends : List Symbol}
  {options : Options} {filename? encoding? : Option String} {s : Source} {tree : Node}

/-- A run that is about to read a source. -/
def opening (options : Options) (s : Source) (automaton : Pushdown) (pragmas : PragmaBuffer) :
    Run Lexer Pushdown :=
  ⟨Lexer.ofSource options.flags.asyncAlways s, Automaton.setFuture options.future automaton,
    pragmas, false⟩

theorem reading_opening {automaton : Pushdown} (h : start? g root defaultMaxDepth = some automaton)
    (options : Options) (s : Source) (pragmas : PragmaBuffer) :
    Reading g root [] (opening options s automaton pragmas).automaton := by
  obtain ⟨hgrammar, hwaiting⟩ := reading_start h
  exact ⟨hgrammar, hwaiting⟩

/-- The fuel of a parse is enough for its run. -/
theorem weight_opening_le (options : Options) (s : Source) (automaton : Pushdown)
    (pragmas : PragmaBuffer) : (opening options s automaton pragmas).weight ≤
      fuel (Lexer.ofSource options.flags.asyncAlways s) := by
  show 2 * _ + 1 ≤ 2 * _ + 4
  exact Nat.add_le_add_left (by decide) _

/-- A parse has an outcome if there is no room for pragmas, or if a run comes to an end. -/
theorem tokens_eq_some {σ α : Type} [TokenSource σ] [Automaton α] {n : Nat} {source : σ}
    {automaton : α} {o : Outcome σ α}
    (h : tokens n start options filename? source automaton = some o) :
    (∃ e, PragmaBuffer.ofCapacity options.pragmaCapacity options.pragmaLimit? = .error e ∧
      o.result = .error (report source filename? (.ofAllocError e))) ∨
    ∃ pragmas result r,
      PragmaBuffer.ofCapacity options.pragmaCapacity options.pragmaLimit? = .ok pragmas ∧
      loop options.flags n ⟨source, Automaton.setFuture options.future automaton, pragmas, false⟩ =
        some (result, r) ∧
      o = ⟨(result >>= finish start r.source r.pragmas).mapError (report r.source filename?),
        { options with future := Automaton.future r.automaton }, r.source, r.automaton⟩ := by
  unfold tokens at h
  cases hpragmas : PragmaBuffer.ofCapacity options.pragmaCapacity options.pragmaLimit? with
  | error e =>
    rw [hpragmas] at h
    obtain rfl := Option.some.inj h
    exact Or.inl ⟨e, rfl, rfl⟩
  | ok pragmas =>
    rw [hpragmas] at h
    obtain ⟨⟨result, r⟩, hloop, rfl⟩ := Option.map_eq_some_iff.1 h
    exact Or.inr ⟨pragmas, result, r, rfl, hloop, rfl⟩

/-- There is no outcome after so many steps if a run is not over by then. -/
theorem loop_of_tokens_eq_none {σ α : Type} [TokenSource σ] [Automaton α] {n : Nat} {source : σ}
    {automaton : α} (h : tokens n start options filename? source automaton = none) :
    ∃ pragmas, PragmaBuffer.ofCapacity options.pragmaCapacity options.pragmaLimit? = .ok pragmas ∧
      loop options.flags n
        ⟨source, Automaton.setFuture options.future automaton, pragmas, false⟩ = none := by
  unfold tokens at h
  cases hpragmas : PragmaBuffer.ofCapacity options.pragmaCapacity options.pragmaLimit? with
  | error e =>
    rw [hpragmas] at h
    cases h
  | ok pragmas =>
    rw [hpragmas] at h
    exact ⟨pragmas, rfl, Option.map_eq_none_iff.1 h⟩

/-- A parse gives a tree if a run gives one that can be finished. -/
theorem attempt?_eq_ok {o : Outcome Lexer Pushdown}
    (h : attempt? g start options filename? s = some o) (ho : o.result = .ok tree) :
    ∃ automaton pragmas tree₀ r, start? g start.symbol defaultMaxDepth = some automaton ∧
      PragmaBuffer.ofCapacity options.pragmaCapacity options.pragmaLimit? = .ok pragmas ∧
      Gives options.flags (opening options s automaton pragmas) tree₀ r ∧
      finish start r.source r.pragmas tree₀ = .ok tree ∧ o.source = r.source := by
  obtain ⟨automaton, hstart, htokens⟩ := Option.bind_eq_some_iff.1 h
  rcases tokens_eq_some htokens with ⟨e, _, herror⟩ | ⟨pragmas, result, r, hpragmas, hloop, rfl⟩
  · rw [herror] at ho
    cases ho
  · have hfinish := mapError_eq_ok ho
    cases result with
    | error f => cases hfinish
    | ok tree₀ =>
      exact ⟨automaton, pragmas, tree₀, r, hstart, hpragmas, gives_of_loop hloop, hfinish, rfl⟩

theorem attempt?_of_gives (hg : g.Lawful) (he : g.LineEnds .fileInput ends) {automaton : Pushdown}
    {pragmas : PragmaBuffer} {tree₀ : Node} {r : Run Lexer Pushdown}
    (hstart : start? g .fileInput defaultMaxDepth = some automaton)
    (hpragmas : PragmaBuffer.ofCapacity options.pragmaCapacity options.pragmaLimit? = .ok pragmas)
    (hgives : Gives options.flags (opening options s automaton pragmas) tree₀ r)
    (hfinish : finish .file r.source r.pragmas tree₀ = .ok tree) :
    ∃ o, attempt? g .file options filename? s = some o ∧ o.result = .ok tree := by
  have hweight := weight_opening_le options s automaton pragmas
  have hloop :=
    loop_of_gives hg he.endMarked hgives (reading_opening hstart options s pragmas) hweight
  have hresult : (finish .file r.source r.pragmas tree₀).mapError (report r.source filename?) =
      .ok tree := by
    rw [hfinish]
    rfl
  have htokens : ∃ o, tokens (fuel (Lexer.ofSource options.flags.asyncAlways s)) .file options
      filename? (Lexer.ofSource options.flags.asyncAlways s) automaton = some o ∧
      o.result = .ok tree := by
    unfold tokens
    rw [hpragmas]
    exact ⟨_, Option.map_eq_some_iff.2 ⟨_, hloop, rfl⟩, hresult⟩
  obtain ⟨o, ho, hok⟩ := htokens
  exact ⟨o, Option.bind_eq_some_iff.2 ⟨automaton, hstart, ho⟩, hok⟩

theorem sourceBy_of_attempt? {o : Outcome Lexer Pushdown}
    (h : attempt? g start options filename? s = some o) :
    sourceBy (.ok g) start options filename? s = (o.result, o.options) := by
  rw [sourceBy, Except.toOption, Option.bind_some, h]

theorem sourceBy_eq_ok {grammar : Except GrammarError Grammar}
    (h : (sourceBy grammar start options filename? s).1 = .ok tree) :
    ∃ g o, grammar = .ok g ∧ attempt? g start options filename? s = some o ∧
      o.result = .ok tree := by
  cases grammar with
  | error e => cases h
  | ok g =>
    rw [sourceBy, Except.toOption, Option.bind_some] at h
    split at h
    · next o ho => exact ⟨g, o, rfl, ho, h⟩
    · cases h

/-- A parse that gives a tree is one by the tables of the reference grammar. -/
theorem source_eq_ok (h : (source start options filename? s).1 = .ok tree) :
    ∃ (g : Grammar) (o : Outcome Lexer Pushdown), Reference.grammar = .ok g ∧
      attempt? g start options filename? s = some o ∧ o.result = .ok tree := by
  rw [source] at h
  exact sourceBy_eq_ok h

/-- Bytes that give a tree can be read as text. -/
theorem bytes_eq_ok {input : List UInt8}
    (h : (bytes start options filename? encoding? input).1 = .ok tree) :
    ∃ s, Source.decode options.flags.decodeMode encoding? input = .ok s ∧
      (source start options filename? s).1 = .ok tree := by
  unfold bytes at h
  split at h
  · cases h
  · next s hs => exact ⟨s, hs, h⟩

/-- What comes of a trial. -/
theorem exists_of_trial {t : Reference.Trial} (h : t ∈ Reference.trials) :
    ∃ (g : Grammar) (o : Outcome Lexer Pushdown), Reference.grammar = .ok g ∧
      attempt? g t.start (Options.ofFlags Flags.unset) none ⟨t.text, none⟩ = some o ∧
      o.result.toOption.map (fun _ => o.source.cursor.rest) = t.rest? := by
  obtain ⟨g, hg, htried⟩ := Reference.exists_triedOut
  obtain ⟨o, ho, hrest⟩ := Option.map_eq_some_iff.1 (htried.trials t h)
  exact ⟨g, o, hg, ho, hrest⟩

/-- A trial gives a tree if it leaves something unread, be it nothing. -/
theorem isOk_source_of_trial {t : Reference.Trial} (h : t ∈ Reference.trials) :
    (source t.start (Options.ofFlags Flags.unset) none ⟨t.text, none⟩).1.isOk = t.rest?.isSome := by
  obtain ⟨g, o, hg, ho, hresult⟩ := exists_of_trial h
  rw [source, hg, sourceBy_of_attempt? ho, ← hresult]
  cases o.result <;> rfl

theorem text_of_decode {input : List Char}
    (h : Source.decode options.flags.decodeMode none (Text.encode input) = .ok s) :
    text start options filename? input = source start options filename? s := by
  rw [text, bytes, h]

theorem isOk_text_of_trial {t : Reference.Trial} (h : t ∈ Reference.trials)
    (hread : Source.ofText .cookie t.text = .ok ⟨t.text, none⟩) :
    (text t.start (Options.ofFlags Flags.unset) none t.text).1.isOk = t.rest?.isSome := by
  have hdecode : Source.decode (Options.ofFlags Flags.unset).flags.decodeMode none
    (Text.encode t.text) = .ok ⟨t.text, none⟩ := hread
  rw [text_of_decode hdecode]
  exact isOk_source_of_trial h

/-- A trial of a text that can be read as it is, and gives a tree. -/
theorem exists_tree_of_trial {t : Reference.Trial} (h : t ∈ Reference.trials) {rest : List Char}
    (hrest : t.rest? = some rest) (hread : Source.ofText .cookie t.text = .ok ⟨t.text, none⟩) :
    ∃ (g : Grammar) (o : Outcome Lexer Pushdown) (tree : Node), Reference.grammar = .ok g ∧
      attempt? g t.start (Options.ofFlags Flags.unset) none ⟨t.text, none⟩ = some o ∧
      o.result = .ok tree ∧ o.source.cursor.rest = rest ∧
      (text t.start (Options.ofFlags Flags.unset) none t.text).1 = .ok tree := by
  obtain ⟨g, o, hg, ho, hresult⟩ := exists_of_trial h
  have hdecode : Source.decode (Options.ofFlags Flags.unset).flags.decodeMode none
    (Text.encode t.text) = .ok ⟨t.text, none⟩ := hread
  rw [hrest] at hresult
  cases htree : o.result with
  | error d =>
    rw [htree] at hresult
    cases hresult
  | ok tree =>
    rw [htree] at hresult
    refine ⟨g, o, tree, hg, ho, htree, Option.some.inj hresult, ?_⟩
    rw [text_of_decode hdecode, source, hg, sourceBy_of_attempt? ho, htree]

theorem text_of_trial {t : Reference.Trial} (h : t ∈ Reference.trials)
    (hrest : t.rest?.isSome = true) (hread : Source.ofText .cookie t.text = .ok ⟨t.text, none⟩) :
    ∃ tree, (text t.start (Options.ofFlags Flags.unset) none t.text).1 = .ok tree := by
  obtain ⟨rest, hrest⟩ := Option.isSome_iff_exists.1 hrest
  obtain ⟨_, _, tree, _, _, _, _, htree⟩ := exists_tree_of_trial h hrest hread
  exact ⟨tree, htree⟩

end Offside.Parse
