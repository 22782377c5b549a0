import Offside.Proofs.Parse.Fidelity
import Offside.Proofs.Parse.Watching

/-!
What a run asks of its source and gives to its automaton, whatever these two are. The lexemes are
read one after the other; an end marker becomes a newline unless it is the first lexeme or comes
right behind one that did; pragmas are put aside, and the automaton is given all the others. A run
stops at the first error, refusal or tree, and asks for nothing after it.
-/

namespace Offside

namespace Run

/-- Which of these lexemes become newlines: an end marker does, unless it is the first of them or
the one before it did. -/
def becomesNewline (xs : List Lexeme) : Nat → Bool
  | 0 => false
  | i + 1 => (xs[i + 1]?.any fun x => x.kind == .endMarker) && !becomesNewline xs i

/-- The tokens that lexemes become. -/
def given (xs : List Lexeme) : List Token :=
  xs.mapIdx fun i x => { x.token with kind := if becomesNewline xs i then .newline else x.kind }

/-- A lexeme that was read, and the blocks that were open after it. -/
structure Read where
  lexeme : Lexeme
  depth : Nat

def lexemes (reads : List Read) : List Lexeme := reads.map Read.lexeme

/-- What a source is asked for these lexemes: each of them, and dedents where an end marker becomes
a newline inside of blocks. -/
def requestsFor (flags : Flags) (reads : List Read) : List Request :=
  (reads.mapIdx fun i x => .next (.ok x.lexeme) x.depth ::
    if becomesNewline (lexemes reads) i ∧ 0 < x.depth ∧ flags.dontImplyDedent = false
    then [.dedents x.depth] else []).flatten

/-- Stores the pragmas among lexemes. -/
def store (buffer : PragmaBuffer) (xs : List Lexeme) : Except AllocError PragmaBuffer :=
  (xs.filter fun x => x.kind = .typeIgnore).foldlM (fun b x => b.push x.line x.text) buffer

/-- Whether an inequality, if a token is one, is spelled as it must be under some features. -/
def Spelled (future : Future) (t : Token) : Prop :=
  t.kind = .notEqual → t.text = if Future.has angleInequality future then "<>" else "!="

/-- Why a run stopped, if it did. -/
inductive Cause
  | running
  /-- the source had an error in place of a lexeme -/
  | unread (error : LexError) (depth : Nat)
  /-- there was no room for a pragma -/
  | unstored (error : AllocError)
  /-- an inequality was misspelled under the features that are turned on -/
  | misspelled (future : Future) (token : Token)
  /-- the automaton asked for no more -/
  | answered (future : Future) (token : Token) (verdict : Verdict)

namespace Cause

/-- What the run comes to. -/
def result? : Cause → Option (Except Failure Node)
  | running => none
  | unread e _ => some (.error (.ofKind (.ofLexError e)))
  | unstored e => some (.error (.ofAllocError e))
  | misspelled future _ =>
    some (.error ⟨.unexpectedToken, none,
      if Future.has angleInequality future then some .notEqual else none⟩)
  | answered _ _ .more => none
  | answered _ _ (.accept tree) => some (.ok tree)
  | answered _ t (.reject expected?) => some (.error ⟨.unexpectedToken, some t.kind, expected?⟩)
  | answered _ t .outOfMemory => some (.error ⟨.outOfMemory, some t.kind, none⟩)

/-- The request that an error answered. -/
def lastRequest : Cause → List Request
  | unread e depth => [.next (.error e) depth]
  | _ => []

/-- The token that the automaton was not given. -/
def heldBack : Cause → List Token
  | misspelled _ t => [t]
  | _ => []

/-- The answer that asked for no more. -/
def lastHearing : Cause → List Hearing
  | answered future t verdict => [⟨future, t, verdict⟩]
  | _ => []

/-- The lexemes whose pragmas were stored. -/
def kept (xs : List Lexeme) : Cause → List Lexeme
  | unstored _ => xs.dropLast
  | _ => xs

/-- What is true of the last lexeme where a run stops. -/
def Ends (buffer : PragmaBuffer) (xs : List Lexeme) (future : Future) : Cause → Prop
  | running | unread _ _ => True
  | unstored e => store buffer xs = .error e
  | misspelled future' t => (given xs).getLast? = some t ∧ future' = future ∧ ¬Spelled future t
  | answered _ t verdict => (given xs).getLast? = some t ∧ verdict ≠ .more

end Cause

variable {σ α : Type} {flags : Flags} {buffer : PragmaBuffer}
  {reads : List Read} {cause : Cause} {r r' : Run (Watched σ) (Overheard α)} {x : Lexeme}
  {xs : List Lexeme} {kind : Kind}

section Account

variable [Automaton α]

/-- An account of a run: what was read, and what was made of it. -/
structure Account (flags : Flags) (buffer : PragmaBuffer) (reads : List Read) (cause : Cause)
    (r : Run (Watched σ) (Overheard α)) : Prop where
  requests : r.source.requests = requestsFor flags reads ++ cause.lastRequest
  heard : r.automaton.hearings.map Hearing.token ++ cause.heldBack =
    dropPragmas (given (lexemes reads))
  /-- the automaton asks for more until it stops the run -/
  answers : ∃ before, r.automaton.hearings = before ++ cause.lastHearing ∧
    ∀ h ∈ before, h.verdict = .more
  spelled : ∀ h ∈ r.automaton.hearings, Spelled h.future h.token
  stored : store buffer (cause.kept (lexemes reads)) = .ok r.pragmas
  ends : cause.Ends buffer (lexemes reads) (Automaton.future r.automaton)

end Account

theorem becomesNewline_append (xs ys : List Lexeme) {i : Nat} (h : i < xs.length) :
    becomesNewline (xs ++ ys) i = becomesNewline xs i := by
  induction i with
  | zero => rfl
  | succ i ih => rw [becomesNewline, becomesNewline, ih (by omega), List.getElem?_append_left h]

/-- Whether a lexeme was read that did not become a newline, and none after it. -/
def startedBy (xs : List Lexeme) : Bool := !xs.isEmpty && !becomesNewline xs (xs.length - 1)

theorem becomesNewline_last (xs : List Lexeme) (x : Lexeme) :
    becomesNewline (xs ++ [x]) xs.length = (startedBy xs && x.kind == .endMarker) := by
  cases hlength : xs.length with
  | zero =>
    obtain rfl := List.length_eq_zero_iff.1 hlength
    rfl
  | succ n =>
    have hlast : (xs ++ [x])[n + 1]? = some x := by
      rw [← hlength, List.getElem?_concat_length]
    have hne : xs.isEmpty = false := by
      cases xs with
      | nil => cases hlength
      | cons _ _ => rfl
    rw [becomesNewline, hlast, becomesNewline_append xs [x] (by omega), startedBy, hne, hlength,
      Nat.add_sub_cancel, Bool.not_false, Bool.true_and, Bool.and_comm]
    rfl

theorem startedBy_concat (xs : List Lexeme) (x : Lexeme) :
    startedBy (xs ++ [x]) = !(startedBy xs && x.kind == .endMarker) := by
  have hempty : (xs ++ [x]).isEmpty = false := by
    cases xs <;> rfl
  rw [startedBy, hempty, List.length_append, List.length_singleton, Nat.add_sub_cancel,
    becomesNewline_last, Bool.not_false, Bool.true_and]

/-- The kind under which a lexeme goes on behind others. -/
def kindAfter (xs : List Lexeme) (x : Lexeme) : Kind :=
  if startedBy xs && x.kind == .endMarker then .newline else x.kind

theorem kindAfter_of_kept (h : (startedBy xs && x.kind == .endMarker) = false) :
    kindAfter xs x = x.kind := by
  rw [kindAfter, h, if_neg Bool.false_ne_true]

theorem kindAfter_of_end (h : (startedBy xs && x.kind == .endMarker) = true) :
    kindAfter xs x = .newline := by
  rw [kindAfter, h, if_pos rfl]

theorem given_concat (xs : List Lexeme) (x : Lexeme) :
    given (xs ++ [x]) = given xs ++ [{ x.token with kind := kindAfter xs x }] := by
  rw [given, List.mapIdx_concat, becomesNewline_last]
  congr 1
  apply List.mapIdx_eq_mapIdx_iff.2
  intro i hi
  rw [becomesNewline_append xs [x] hi]

theorem lexemes_concat (reads : List Read) (x : Read) :
    lexemes (reads ++ [x]) = lexemes reads ++ [x.lexeme] := by
  rw [lexemes, List.map_append]
  rfl

theorem requestsFor_concat (flags : Flags) (reads : List Read) (x : Read) :
    requestsFor flags (reads ++ [x]) = requestsFor flags reads ++
      (.next (.ok x.lexeme) x.depth ::
        if (startedBy (lexemes reads) && x.lexeme.kind == .endMarker) ∧ 0 < x.depth ∧
          flags.dontImplyDedent = false
        then [.dedents x.depth] else []) := by
  have hlength : (lexemes reads).length = reads.length := List.length_map _
  rw [requestsFor, List.mapIdx_concat, List.flatten_concat, lexemes_concat, ← hlength,
    becomesNewline_last]
  congr 2
  apply List.mapIdx_eq_mapIdx_iff.2
  intro i hi
  rw [becomesNewline_append (lexemes reads) [x.lexeme] (by omega)]

theorem store_concat (buffer : PragmaBuffer) (xs : List Lexeme) (x : Lexeme) :
    store buffer (xs ++ [x]) =
      if x.kind = .typeIgnore then store buffer xs >>= fun b => b.push x.line x.text
      else store buffer xs := by
  unfold store
  rw [List.filter_append, List.foldlM_append]
  by_cases hx : x.kind = .typeIgnore
  · rw [if_pos hx, List.filter_cons_of_pos (by simpa using hx), List.filter_nil]
    congr 1
    funext b
    rw [List.foldlM_cons]
    cases b.push x.line x.text <;> rfl
  · rw [if_neg hx, List.filter_cons_of_neg (by simpa using hx), List.filter_nil]
    cases (xs.filter fun x => x.kind = .typeIgnore).foldlM
      (fun b x => b.push x.line x.text) buffer <;> rfl

theorem checkSpelling_of_spelled {future : Future} {t : Token} (h : Spelled future t) :
    checkSpelling future t = .ok () := by
  unfold checkSpelling
  by_cases hkind : t.kind = .notEqual
  · have htext := h hkind
    rw [if_neg (not_not_intro hkind)]
    split
    · next hfeature =>
      rw [if_pos hfeature] at htext
      rw [if_pos htext]
    · next hfeature =>
      rw [if_neg hfeature] at htext
      rw [if_pos htext]
  · rw [if_pos hkind]

theorem checkSpelling_of_misspelled {future : Future} {t : Token} (h : ¬Spelled future t) :
    checkSpelling future t = .error ⟨.unexpectedToken, none,
      if Future.has angleInequality future then some .notEqual else none⟩ := by
  obtain ⟨hkind, htext⟩ := Classical.not_imp.1 h
  unfold checkSpelling
  rw [if_neg (not_not_intro hkind)]
  split
  · next hfeature =>
    rw [if_pos hfeature] at htext
    rw [if_neg htext]
  · next hfeature =>
    rw [if_neg hfeature] at htext
    rw [if_neg htext]
    rfl

section Continues

variable [Automaton α]

/-- What a step adds to the account of a run. -/
inductive Continues (flags : Flags) (buffer : PragmaBuffer) (reads : List Read) :
    Progress × Run (Watched σ) (Overheard α) → Prop
  | more {x : Read} {r' : Run (Watched σ) (Overheard α)}
      (h : Account flags buffer (reads ++ [x]) .running r')
      (hstarted : r'.started = startedBy (lexemes (reads ++ [x]))) :
      Continues flags buffer reads (.more, r')
  | accepted {reads' : List Read} {cause : Cause} {tree : Node} {r' : Run (Watched σ) (Overheard α)}
      (h : Account flags buffer reads' cause r') (hresult : cause.result? = some (.ok tree)) :
      Continues flags buffer reads (.accepted tree, r')
  | failed {reads' : List Read} {cause : Cause} {f : Failure} {r' : Run (Watched σ) (Overheard α)}
      (h : Account flags buffer reads' cause r') (hresult : cause.result? = some (.error f)) :
      Continues flags buffer reads (.failed f, r')

theorem kindAfter_eq_typeIgnore_iff : kindAfter xs x = .typeIgnore ↔ x.kind = .typeIgnore := by
  unfold kindAfter
  split
  · next h =>
    have hx : x.kind = .endMarker := by simpa using (Bool.and_eq_true_iff.1 h).2
    rw [hx]
    constructor <;> exact Kind.noConfusion
  · exact Iff.rfl

end Continues

/-- A run that has read a lexeme, and has not dealt with it. -/
structure Awaits (flags : Flags) (buffer : PragmaBuffer) (reads : List Read) (x : Read)
    (r : Run (Watched σ) (Overheard α)) : Prop where
  requests : r.source.requests = requestsFor flags (reads ++ [x])
  heard : r.automaton.hearings.map Hearing.token = dropPragmas (given (lexemes reads))
  more : ∀ h ∈ r.automaton.hearings, h.verdict = .more
  spelled : ∀ h ∈ r.automaton.hearings, Spelled h.future h.token
  stored : store buffer (lexemes reads) = .ok r.pragmas
  started : r.started = startedBy (lexemes (reads ++ [x]))

/-- What a lexeme that is no pragma adds to the tokens and to the store. -/
theorem Awaits.given_concat {x : Read} (h : Awaits flags buffer reads x r)
    (hkind : x.lexeme.kind ≠ .typeIgnore) {t : Token}
    (ht : { x.lexeme.token with kind := kindAfter (lexemes reads) x.lexeme } = t) :
    dropPragmas (given (lexemes (reads ++ [x]))) = r.automaton.hearings.map Hearing.token ++ [t] ∧
      (given (lexemes (reads ++ [x]))).getLast? = some t ∧
      store buffer (lexemes (reads ++ [x])) = .ok r.pragmas := by
  have hplain : t.kind ≠ .typeIgnore := by
    rw [← ht]
    exact fun heq => hkind (kindAfter_eq_typeIgnore_iff.1 heq)
  refine ⟨?_, ?_, ?_⟩
  · rw [lexemes_concat, Run.given_concat, ht, dropPragmas_append, dropPragmas_cons_of_ne hplain,
      h.heard]
    rfl
  · rw [lexemes_concat, Run.given_concat, ht, List.getLast?_concat]
  · rw [lexemes_concat, store_concat, if_neg hkind]
    exact h.stored

variable [Automaton α]

/-- A pragma is stored, or the run stops for want of room. -/
theorem Awaits.pragma {x : Read} (h : Awaits flags buffer reads x r)
    (hkind : x.lexeme.kind = .typeIgnore) :
    Continues flags buffer reads (receive x.lexeme .typeIgnore r) := by
  have hheard : r.automaton.hearings.map Hearing.token ++ [] =
      dropPragmas (given (lexemes (reads ++ [x]))) := by
    rw [lexemes_concat, Run.given_concat, dropPragmas_append,
      kindAfter_eq_typeIgnore_iff.2 hkind, dropPragmas_cons_of_eq rfl, h.heard]
    rfl
  have hstore : store buffer (lexemes (reads ++ [x])) =
      r.pragmas.push x.lexeme.line x.lexeme.text := by
    rw [lexemes_concat, store_concat, if_pos hkind, h.stored]
    rfl
  have hrequests := h.requests.trans (List.append_nil _).symm
  have hanswers : ∃ before, r.automaton.hearings = before ++ [] ∧ ∀ a ∈ before, a.verdict = .more :=
    ⟨_, (List.append_nil _).symm, h.more⟩
  rw [receive, if_pos rfl]
  cases hpush : r.pragmas.push x.lexeme.line x.lexeme.text with
  | ok pragmas =>
    exact .more ⟨hrequests, hheard, hanswers, h.spelled, hstore.trans hpush, trivial⟩ h.started
  | error e =>
    have hkept : store buffer (lexemes (reads ++ [x])).dropLast = .ok r.pragmas := by
      rw [lexemes_concat, List.dropLast_concat]
      exact h.stored
    have haccount : Account flags buffer (reads ++ [x]) (.unstored e) r :=
      ⟨hrequests, hheard, hanswers, h.spelled, hkept, hstore.trans hpush⟩
    exact .failed haccount rfl

/-- The automaton is given a token, which is spelled as it must be, and asks for more or not. -/
theorem Awaits.hears {x : Read} (h : Awaits flags buffer reads x r)
    (hkind : x.lexeme.kind ≠ .typeIgnore) {t : Token}
    (ht : { x.lexeme.token with kind := kindAfter (lexemes reads) x.lexeme } = t)
    (hspelling : Spelled (Automaton.future r.automaton) t) (verdict : Verdict) (automaton : α) :
    Account flags buffer (reads ++ [x])
      (if verdict = .more then .running
        else .answered (Automaton.future r.automaton) t verdict)
      { r with
        automaton := ⟨automaton,
          r.automaton.hearings ++ [⟨Automaton.future r.automaton, t, verdict⟩]⟩ } := by
  obtain ⟨hgiven, hlast, hstore⟩ := h.given_concat hkind ht
  have hrequests := h.requests.trans (List.append_nil _).symm
  let hearing : Hearing := ⟨Automaton.future r.automaton, t, verdict⟩
  have hheard : (r.automaton.hearings ++ [hearing]).map Hearing.token ++ [] =
      dropPragmas (given (lexemes (reads ++ [x]))) := by
    rw [hgiven, List.map_append, List.append_nil]
    rfl
  have hspelled : ∀ a ∈ r.automaton.hearings ++ [hearing], Spelled a.future a.token := by
    intro a ha
    rcases List.mem_append.1 ha with ha | ha
    · exact h.spelled a ha
    · rw [List.mem_singleton.1 ha]
      exact hspelling
  split
  · next hverdict =>
    refine ⟨hrequests, hheard, ⟨_, (List.append_nil _).symm, fun a ha => ?_⟩, hspelled, hstore,
      trivial⟩
    rcases List.mem_append.1 ha with ha | ha
    · exact h.more a ha
    · rw [List.mem_singleton.1 ha]
      exact hverdict
  · next hverdict =>
    exact ⟨hrequests, hheard, ⟨_, rfl, h.more⟩, hspelled, hstore, hlast, hverdict⟩

/-- The automaton is given a token, or the run stops at the token's spelling. -/
theorem Awaits.offer {x : Read} (h : Awaits flags buffer reads x r)
    (hkind : x.lexeme.kind ≠ .typeIgnore) :
    Continues flags buffer reads
      (Run.offer { x.lexeme.token with kind := kindAfter (lexemes reads) x.lexeme } r) := by
  generalize ht : ({ x.lexeme.token with kind := kindAfter (lexemes reads) x.lexeme } : Token) = t
  by_cases hspelling : Spelled (Automaton.future r.automaton) t
  · rw [Run.offer, checkSpelling_of_spelled hspelling]
    cases hfeed : Automaton.feed t r.automaton.automaton with
    | mk verdict automaton =>
      have haccount := h.hears hkind ht hspelling verdict automaton
      rw [feed_overheard hfeed]
      cases verdict with
      | more => exact .more haccount h.started
      | accept tree => exact .accepted haccount rfl
      | reject expected? => exact .failed haccount rfl
      | outOfMemory => exact .failed haccount rfl
  · obtain ⟨hgiven, hlast, hstore⟩ := h.given_concat hkind ht
    rw [Run.offer, checkSpelling_of_misspelled hspelling]
    have haccount : Account flags buffer (reads ++ [x])
        (.misspelled (Automaton.future r.automaton) t) r :=
      ⟨h.requests.trans (List.append_nil _).symm, hgiven.symm,
        ⟨_, (List.append_nil _).symm, h.more⟩, h.spelled, hstore, hlast, rfl, hspelling⟩
    exact .failed haccount rfl

theorem Awaits.receive {x : Read} (h : Awaits flags buffer reads x r) :
    Continues flags buffer reads
      (receive x.lexeme (kindAfter (lexemes reads) x.lexeme) r) := by
  by_cases hkind : x.lexeme.kind = .typeIgnore
  · rw [kindAfter_eq_typeIgnore_iff.2 hkind]
    exact h.pragma hkind
  · rw [Run.receive, if_neg fun heq => hkind (kindAfter_eq_typeIgnore_iff.1 heq)]
    exact h.offer hkind

variable [TokenSource σ]

/-- A lexeme that is read is asked for, and so are dedents, if an end marker becomes a newline
inside of blocks. -/
theorem Account.awaits (h : Account flags buffer reads .running r)
    (hstarted : r.started = startedBy (lexemes reads)) {x : Lexeme} {source : σ}
    (hnext : TokenSource.next r.source.source = (.ok x, source)) :
    ∃ r', r.step flags = receive x (kindAfter (lexemes reads) x) r' ∧
      Awaits flags buffer reads ⟨x, TokenSource.depth source⟩ r' := by
  have hrequests : r.source.requests = requestsFor flags reads :=
    h.requests.trans (List.append_nil _)
  have hheard : r.automaton.hearings.map Hearing.token = dropPragmas (given (lexemes reads)) :=
    (List.append_nil _).symm.trans h.heard
  have hmore : ∀ a ∈ r.automaton.hearings, a.verdict = .more := by
    obtain ⟨before, hbefore, hall⟩ := h.answers
    rw [hbefore]
    intro a ha
    exact hall a (by simpa [Cause.lastHearing] using ha)
  have hnext' := next_watched hnext
  have hstarted' : startedBy (lexemes (reads ++ [⟨x, TokenSource.depth source⟩])) =
      !(startedBy (lexemes reads) && x.kind == .endMarker) := by
    rw [lexemes_concat, startedBy_concat]
  have hasked := requestsFor_concat flags reads ⟨x, TokenSource.depth source⟩
  rw [← hrequests] at hasked
  dsimp only at hasked
  cases hend : startedBy (lexemes reads) && x.kind == .endMarker with
  | true =>
    obtain ⟨hbegun, hx⟩ := Bool.and_eq_true_iff.1 hend
    have hstep := step_of_end flags hnext' (beq_iff_eq.1 hx) (hstarted.trans hbegun)
    rw [hend] at hstarted' hasked
    rw [← kindAfter_of_end hend] at hstep
    refine ⟨_, hstep, ?_, hheard, hmore, h.spelled, h.stored, hstarted'.symm⟩
    rw [hasked]
    refine (requests_closeBlocks flags _).trans ?_
    simp
  | false =>
    rw [hend] at hstarted' hasked
    rw [if_neg fun h => Bool.false_ne_true h.1] at hasked
    have hstep : r.step flags = receive x x.kind
        { r with
          source := ⟨source,
            r.source.requests ++ [.next (.ok x) (TokenSource.depth source)]⟩
          started := true } := by
      by_cases hx : x.kind = .endMarker
      · have hfresh : startedBy (lexemes reads) = false := by
          rwa [hx, beq_self_eq_true, Bool.and_true] at hend
        rw [step_of_fresh flags hnext' hx (hstarted.trans hfresh), hx]
      · exact step_of_token flags hnext' hx
    rw [← kindAfter_of_kept hend] at hstep
    exact ⟨_, hstep, hasked.symm, hheard, hmore, h.spelled, h.stored, hstarted'.symm⟩

/-- A step reads one lexeme and deals with it, or stops. -/
theorem Account.step (h : Account flags buffer reads .running r)
    (hstarted : r.started = startedBy (lexemes reads)) :
    Continues flags buffer reads (r.step flags) := by
  cases hnext : TokenSource.next r.source.source with
  | mk answer source =>
    cases answer with
    | error e =>
      rw [step_of_error (next_watched hnext)]
      have haccount : Account flags buffer reads (.unread e (TokenSource.depth source))
          { r with
            source := ⟨source,
              r.source.requests ++ [.next (.error e) (TokenSource.depth source)]⟩ } := by
        refine ⟨?_, h.heard, h.answers, h.spelled, h.stored, trivial⟩
        rw [h.requests, List.append_assoc]
        rfl
      exact .failed haccount rfl
    | ok x =>
      obtain ⟨r', hstep, hawaits⟩ := h.awaits hstarted hnext
      rw [hstep]
      exact hawaits.receive

/-- How a run stands after so many steps, or where it stopped before, and what it has come to. -/
def after (flags : Flags) : Nat → Run σ α → Option (Except Failure Node) × Run σ α
  | 0, r => (none, r)
  | n + 1, r =>
    match r.step flags with
    | (.more, r) => after flags n r
    | (.accepted tree, r) => (some (.ok tree), r)
    | (.failed f, r) => (some (.error f), r)

theorem loop_eq_after (flags : Flags) (n : Nat) (r : Run σ α) :
    loop flags n r = (after flags n r).1.map fun result => (result, (after flags n r).2) := by
  induction n generalizing r with
  | zero => rfl
  | succ n ih =>
    rw [loop, after]
    cases r.step flags with
    | mk progress r' =>
      cases progress with
      | more => exact ih r'
      | accepted tree => rfl
      | failed f => rfl

/-- There is an account of every run. -/
theorem Account.after (h : Account flags buffer reads .running r)
    (hstarted : r.started = startedBy (lexemes reads)) (n : Nat) :
    ∃ reads' cause r', Run.after flags n r = (cause.result?, r') ∧
      Account flags buffer reads' cause r' ∧
      (cause.result? = none → reads'.length = reads.length + n) := by
  induction n generalizing r reads with
  | zero => exact ⟨reads, .running, r, rfl, h, fun _ => rfl⟩
  | succ n ih =>
    have hcontinues := h.step hstarted
    rw [Run.after]
    generalize r.step flags = progress at hcontinues
    cases hcontinues with
    | more h' hstarted' =>
      obtain ⟨reads', cause, r', hafter, haccount, hlength⟩ := ih h' hstarted'
      refine ⟨reads', cause, r', hafter, haccount, fun hnone => ?_⟩
      rw [hlength hnone, List.length_append, List.length_singleton]
      omega
    | accepted h' hresult =>
      refine ⟨_, _, _, by rw [hresult], h', fun hnone => ?_⟩
      rw [hresult] at hnone
      cases hnone
    | failed h' hresult =>
      refine ⟨_, _, _, by rw [hresult], h', fun hnone => ?_⟩
      rw [hresult] at hnone
      cases hnone

end Run

namespace Parse

open Run

variable {σ α : Type} [TokenSource σ] [Automaton α]

/-- What a parse leaves behind: the features of its automaton, and a tree, or a diagnostic of the
failure, which at the end of an input that broke off is always that more was needed. -/
structure Leaves (options : Options) (result : Except Failure Node) (o : Outcome σ α) : Prop where
  options : o.options = { options with future := Automaton.future o.automaton }
  tree : ∀ tree, result = .ok tree → o.result = .ok tree
  diagnostic : ∀ f, result = .error f → ∃ d, o.result = .error d ∧
    d.kind = if TokenSource.stopReason o.source = .exhausted then .endOfFile else f.kind

theorem leaves_of_eq {options : Options} {filename? : Option String} {result : Except Failure Node}
    {o : Outcome σ α} (hresult : o.result = result.mapError (report o.source filename?))
    (hoptions : o.options = { options with future := Automaton.future o.automaton }) :
    Leaves options result o := by
  refine ⟨hoptions, ?_, ?_⟩
  · rintro tree rfl
    exact hresult
  · rintro f rfl
    exact ⟨_, hresult, rfl⟩

/-- What a parse does with any source and any automaton. Watching them changes nothing; without
room for pragmas they are not asked anything; and else there is an account of the run after any
number of steps, and what the run has come to is what is finished and told to the caller. -/
theorem account_of_tokens (n : Nat) (start : StartRule) (options : Options)
    (filename? : Option String) (source : σ) (automaton : α) :
    let watched : Watched σ := ⟨source, []⟩
    let overheard : Overheard α := ⟨automaton, []⟩
    (tokens n start options filename? watched overheard).map Outcome.unwatched =
      tokens n start options filename? source automaton ∧
    match PragmaBuffer.ofCapacity options.pragmaCapacity options.pragmaLimit? with
    | .error _ =>
      ∃ o, tokens n start options filename? watched overheard = some o ∧
        o.source.requests = [] ∧ o.automaton.hearings = [] ∧
        Leaves options (.error (.ofKind .outOfMemory)) o
    | .ok buffer =>
      ∃ reads cause r,
        Run.after options.flags n
          ⟨watched, Automaton.setFuture options.future overheard, buffer, false⟩ =
          (cause.result?, r) ∧
        Account options.flags buffer reads cause r ∧
        (cause.result? = none → reads.length = n) ∧
        match cause.result? with
        | none => tokens n start options filename? watched overheard = none
        | some result =>
          ∃ o, tokens n start options filename? watched overheard = some o ∧
            o.source = r.source ∧ o.automaton = r.automaton ∧
            Leaves options (result >>= finish start r.source r.pragmas) o := by
  intro watched overheard
  refine ⟨tokens_unwatched n start options filename? watched overheard, ?_⟩
  cases hbuffer : PragmaBuffer.ofCapacity options.pragmaCapacity options.pragmaLimit? with
  | error e =>
    unfold tokens
    rw [hbuffer]
    exact ⟨_, rfl, rfl, rfl, leaves_of_eq rfl rfl⟩
  | ok buffer =>
    let opening : Run (Watched σ) (Overheard α) :=
      ⟨watched, Automaton.setFuture options.future overheard, buffer, false⟩
    have haccount : Account options.flags buffer [] .running opening :=
      ⟨rfl, rfl, ⟨[], rfl, fun _ => (absurd · List.not_mem_nil)⟩,
        fun _ => (absurd · List.not_mem_nil), rfl, trivial⟩
    obtain ⟨reads, cause, r, hafter, haccount', hlength⟩ := haccount.after rfl n
    refine ⟨reads, cause, r, hafter, haccount', ?_, ?_⟩
    · intro hnone
      rw [hlength hnone]
      exact Nat.zero_add n
    · have hloop := loop_eq_after options.flags n opening
      rw [hafter] at hloop
      unfold tokens
      rw [hbuffer]
      dsimp only
      rw [hloop]
      cases cause.result? with
      | none => rfl
      | some result => exact ⟨_, rfl, rfl, rfl, leaves_of_eq rfl rfl⟩

end Parse
end Offside
