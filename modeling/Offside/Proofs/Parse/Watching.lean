import Offside.Proofs.Parse.Steps

/-!
Runs that are watched. A source that is watched keeps a record of what it was asked and what it
answered, and an automaton that is overheard one of the tokens it was given and of its answers.
A run does not know of either: without the records it is the run that it would have been.
-/

namespace Offside

/-- What a source was asked for. -/
inductive Request
  /-- the next lexeme: the answer, and how many blocks were open after it -/
  | next (answer : Except LexError Lexeme) (depth : Nat)
  /-- to queue so many dedents -/
  | dedents (count : Nat)

/-- A source with the record of its requests, first request first. -/
structure Watched (σ : Type) where
  source : σ
  requests : List Request

def Watched.next {σ : Type} [TokenSource σ] (w : Watched σ) :
    Except LexError Lexeme × Watched σ :=
  let (answer, source) := TokenSource.next w.source
  (answer, ⟨source, w.requests ++ [.next answer (TokenSource.depth source)]⟩)

instance {σ : Type} [TokenSource σ] : TokenSource (Watched σ) where
  next := Watched.next
  depth w := TokenSource.depth w.source
  queueDedents n w := ⟨TokenSource.queueDedents n w.source, w.requests ++ [.dedents n]⟩
  encoding? w := TokenSource.encoding? w.source
  line w := TokenSource.line w.source
  buffered? w := TokenSource.buffered? w.source
  offset w := TokenSource.offset w.source
  remaining w := TokenSource.remaining w.source
  stopReason w := TokenSource.stopReason w.source

/-- A token that was given to an automaton, the features that were turned on before, and the
answer. -/
structure Hearing where
  future : Future
  token : Token
  verdict : Verdict

/-- An automaton with the record of its hearings, first hearing first. -/
structure Overheard (α : Type) where
  automaton : α
  hearings : List Hearing

def Overheard.feed {α : Type} [Automaton α] (t : Token) (a : Overheard α) :
    Verdict × Overheard α :=
  let (verdict, automaton) := Automaton.feed t a.automaton
  (verdict, ⟨automaton, a.hearings ++ [⟨Automaton.future a.automaton, t, verdict⟩]⟩)

instance {α : Type} [Automaton α] : Automaton (Overheard α) where
  feed := Overheard.feed
  future a := Automaton.future a.automaton
  setFuture bits a := ⟨Automaton.setFuture bits a.automaton, a.hearings⟩

variable {σ α : Type} [Automaton α]

theorem feed_overheard {a : Overheard α} {t : Token} {verdict : Verdict} {automaton : α}
    (h : Automaton.feed t a.automaton = (verdict, automaton)) :
    Automaton.feed t a =
      (verdict, ⟨automaton, a.hearings ++ [⟨Automaton.future a.automaton, t, verdict⟩]⟩) := by
  show a.feed t = _
  rw [Overheard.feed, h]

namespace Run

/-- The run without the records. -/
def unwatched (r : Run (Watched σ) (Overheard α)) : Run σ α :=
  ⟨r.source.source, r.automaton.automaton, r.pragmas, r.started⟩

theorem receive_unwatched (x : Lexeme) (kind : Kind) {r : Run (Watched σ) (Overheard α)}
    {r' : Run σ α} (h : r' = r.unwatched) :
    receive x kind r' = ((receive x kind r).1, (receive x kind r).2.unwatched) := by
  subst h
  have hpragmas : r.unwatched.pragmas = r.pragmas := rfl
  have hfuture : Automaton.future r.unwatched.automaton = Automaton.future r.automaton := rfl
  unfold receive
  rw [hpragmas]
  split
  · cases r.pragmas.push x.line x.text <;> rfl
  · unfold offer
    rw [hfuture]
    cases checkSpelling (Automaton.future r.automaton) { x.token with kind } with
    | error f => rfl
    | ok _ =>
      cases hfeed : Automaton.feed { x.token with kind } r.automaton.automaton with
      | mk verdict automaton =>
        have hfeed' : Automaton.feed { x.token with kind } r.unwatched.automaton =
          (verdict, automaton) := hfeed
        rw [feed_overheard hfeed, hfeed']
        cases verdict <;> rfl

end Run

variable [TokenSource σ]

theorem next_watched {w : Watched σ} {answer : Except LexError Lexeme} {source : σ}
    (h : TokenSource.next w.source = (answer, source)) :
    TokenSource.next w =
      (answer, ⟨source, w.requests ++ [.next answer (TokenSource.depth source)]⟩) := by
  show w.next = _
  rw [Watched.next, h]

namespace Run

variable (flags : Flags)

theorem closeBlocks_watched (w : Watched σ) :
    (closeBlocks flags w).source = closeBlocks flags w.source := by
  unfold closeBlocks
  by_cases hopen : 0 < TokenSource.depth w ∧ flags.dontImplyDedent = false
  · have hopen' : 0 < TokenSource.depth w.source ∧ flags.dontImplyDedent = false := hopen
    rw [if_pos hopen, if_pos hopen']
    rfl
  · have hopen' : ¬(0 < TokenSource.depth w.source ∧ flags.dontImplyDedent = false) := hopen
    rw [if_neg hopen, if_neg hopen']

/-- Dedents are asked for where blocks are closed. -/
theorem requests_closeBlocks (w : Watched σ) :
    (closeBlocks flags w).requests = w.requests ++
      if 0 < TokenSource.depth w.source ∧ flags.dontImplyDedent = false
      then [.dedents (TokenSource.depth w.source)] else [] := by
  unfold closeBlocks
  by_cases hopen : 0 < TokenSource.depth w.source ∧ flags.dontImplyDedent = false
  · have hopen' : 0 < TokenSource.depth w ∧ flags.dontImplyDedent = false := hopen
    rw [if_pos hopen, if_pos hopen']
    rfl
  · have hopen' : ¬(0 < TokenSource.depth w ∧ flags.dontImplyDedent = false) := hopen
    rw [if_neg hopen, if_neg hopen', List.append_nil]

theorem step_unwatched (r : Run (Watched σ) (Overheard α)) :
    step flags r.unwatched = ((r.step flags).1, (r.step flags).2.unwatched) := by
  cases hnext : TokenSource.next r.source.source with
  | mk answer source =>
    have hnext' : TokenSource.next r.unwatched.source = (answer, source) := hnext
    cases answer with
    | error e =>
      rw [step_of_error (next_watched hnext), step_of_error hnext']
      rfl
    | ok x =>
      by_cases hx : x.kind = .endMarker
      · cases hstarted : r.started with
        | false =>
          have hstarted' : r.unwatched.started = false := hstarted
          rw [step_of_fresh flags (next_watched hnext) hx hstarted,
            step_of_fresh flags hnext' hx hstarted']
          exact receive_unwatched x .endMarker rfl
        | true =>
          have hstarted' : r.unwatched.started = true := hstarted
          rw [step_of_end flags (next_watched hnext) hx hstarted,
            step_of_end flags hnext' hx hstarted']
          apply receive_unwatched
          have hclose := closeBlocks_watched flags
            ⟨source, r.source.requests ++ [.next (.ok x) (TokenSource.depth source)]⟩
          exact congrArg (fun source => { r.unwatched with source, started := false }) hclose.symm
      · rw [step_of_token flags (next_watched hnext) hx, step_of_token flags hnext' hx]
        exact receive_unwatched x x.kind rfl

theorem loop_unwatched (fuel : Nat) (r : Run (Watched σ) (Overheard α)) :
    loop flags fuel r.unwatched =
      (loop flags fuel r).map fun (result, r') => (result, r'.unwatched) := by
  induction fuel generalizing r with
  | zero => rfl
  | succ fuel ih =>
    have hstep := step_unwatched flags r
    rw [loop, loop]
    cases h : r.step flags with
    | mk progress r' =>
      rw [h] at hstep
      rw [hstep]
      cases progress with
      | more => exact ih r'
      | accepted tree => rfl
      | failed f => rfl

end Run

namespace Parse

/-- The outcome without the records. -/
def Outcome.unwatched (o : Outcome (Watched σ) (Overheard α)) : Outcome σ α :=
  ⟨o.result, o.options, o.source.source, o.automaton.automaton⟩

/-- To watch a parse changes nothing about it. -/
theorem tokens_unwatched (fuel : Nat) (start : StartRule) (options : Options)
    (filename? : Option String) (source : Watched σ) (automaton : Overheard α) :
    (tokens fuel start options filename? source automaton).map Outcome.unwatched =
      tokens fuel start options filename? source.source automaton.automaton := by
  unfold tokens
  cases PragmaBuffer.ofCapacity options.pragmaCapacity options.pragmaLimit? with
  | error e => rfl
  | ok pragmas =>
    have hloop := Run.loop_unwatched options.flags fuel
      ⟨source, Automaton.setFuture options.future automaton, pragmas, false⟩
    have hrun : Run.unwatched
        (⟨source, Automaton.setFuture options.future automaton, pragmas, false⟩ :
          Run (Watched σ) (Overheard α)) =
        ⟨source.source, Automaton.setFuture options.future automaton.automaton, pragmas,
          false⟩ := rfl
    rw [hrun] at hloop
    dsimp only
    rw [hloop, Option.map_map, Option.map_map]
    congr 1

end Parse
end Offside
